import Mathlib.Tactic

/-! Reader-writer locks whose holders are known. A lock held for writing has no reader by
construction, so no invariant about it has to be carried. -/
namespace JuiceMount

/-- `shared []` is the free lock. -/
inductive RWLock (ι : Type*)
  | shared (readers : List ι)
  | exclusive (writer : ι)
  deriving DecidableEq

namespace RWLock
variable {ι : Type*}

def free : RWLock ι := shared []

/-- `t` has the read side. -/
def Reads (t : ι) : RWLock ι → Prop
  | shared rs => t∈rs
  | exclusive _ => False

/-- `t` has the write side. -/
def Writes (t : ι) : RWLock ι → Prop
  | shared _ => False
  | exclusive w => w=t

/-- Taking the read side blocks (`none`) while somebody writes. -/
def rlock (t : ι) : RWLock ι → Option (RWLock ι)
  | shared rs => some (shared (t::rs))
  | exclusive _ => none

/-- Taking the write side blocks (`none`) while anybody holds either side. -/
def lock (t : ι) : RWLock ι → Option (RWLock ι)
  | shared [] => some (exclusive t)
  | _ => none

def runlock [DecidableEq ι] (t : ι) : RWLock ι → RWLock ι
  | shared rs => shared (rs.filter (· ≠ t))
  | exclusive w => exclusive w

def unlock [DecidableEq ι] (t : ι) : RWLock ι → RWLock ι
  | shared rs => shared rs
  | exclusive w => if w=t then free else exclusive w

variable {t r w : ι} {l l' : RWLock ι}

lemma Writes.not_reads (h : l.Writes t) : ¬l.Reads r := by
  cases l with
  | shared rs => exact h.elim
  | exclusive w => exact fun hr => hr

lemma Writes.unique (h : l.Writes t) (h' : l.Writes w) : t=w := by
  cases l with
  | shared rs => exact h.elim
  | exclusive v => exact h.symm.trans h'

lemma rlock_reads (h : l.rlock t=some l') : l'.Reads t := by
  cases l with
  | shared rs => cases h; simp [Reads]
  | exclusive w => cases h

lemma reads_of_rlock (h : l.rlock t=some l') (hr : l.Reads r) : l'.Reads r := by
  cases l with
  | shared rs => cases h; exact List.mem_cons_of_mem _ hr
  | exclusive w => cases h

lemma not_writes_of_rlock (h : l.rlock t=some l') : ¬l.Writes w := by
  cases l with
  | shared rs => exact fun hw => hw
  | exclusive w => cases h

lemma lock_writes (h : l.lock t=some l') : l'.Writes t := by
  match l,h with
  | shared [],h => cases h; rfl

lemma not_reads_of_lock (h : l.lock t=some l') : ¬l.Reads r := by
  match l,h with
  | shared [],_ => simp [Reads]

lemma not_writes_of_lock (h : l.lock t=some l') : ¬l.Writes w := by
  match l,h with
  | shared [],_ => exact fun hw => hw

variable [DecidableEq ι]

lemma reads_of_runlock (hne : r≠t) (hr : l.Reads r) : (l.runlock t).Reads r := by
  cases l with
  | shared rs => exact List.mem_filter.mpr ⟨hr,by simpa using hne⟩
  | exclusive w => exact hr

@[simp] lemma runlock_writes : (l.runlock t).Writes w ↔ l.Writes w := by
  cases l <;> rfl

lemma writes_of_unlock (hne : w≠t) (hw : l.Writes w) : (l.unlock t).Writes w := by
  cases l with
  | shared rs => exact hw
  | exclusive v =>
    cases hw
    simp [unlock,hne,Writes]

lemma reads_of_unlock (hr : l.Reads r) : (l.unlock t).Reads r := by
  cases l with
  | shared rs => exact hr
  | exclusive v => exact hr.elim

end RWLock
end JuiceMount
