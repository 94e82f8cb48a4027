import JuiceMount.Lib.GoMap
import JuiceMount.RespProxy.Policy

/-! Two caches of the ancestry resolver as data: the two-generation file cache and the tombstones
that order cache fills against invalidations. Values are arbitrary, so that a proof can store more in them than the code. -/
namespace JuiceMount.RespProxy
open GoMap

/-- Two generations of file parents; `cap` is at least 2. -/
structure FileLRU (ν : Type) where
  cap : ℕ
  cur : GoMap ℕ ν := []
  old : GoMap ℕ ν := []
  two_le : 2≤cap

namespace FileLRU
variable {ν : Type} {n x : ℕ}

def putLocked (l : FileLRU ν) (n : ℕ) (p : ν) : FileLRU ν :=
  if l.cur.length ≥ l.cap/2 then { l with old := l.cur, cur := GoMap.set [] n p }
  else { l with cur := l.cur.set n p }

/-- The lookup and the cache after it: a hit in the old generation is promoted. -/
def get (l : FileLRU ν) (n : ℕ) : Option ν × FileLRU ν :=
  match l.cur.get? n with
  | some p => (some p,l)
  | none =>
    match l.old.get? n with
    | some p => (some p,l.putLocked n p)
    | none => (none,l)

def del (l : FileLRU ν) (n : ℕ) : FileLRU ν := { l with cur := l.cur.erase n, old := l.old.erase n }

/-- One of the generations has `v` for `n`. -/
def Has (l : FileLRU ν) (n : ℕ) (v : ν) : Prop := l.cur.get? n=some v ∨ l.old.get? n=some v

end FileLRU

structure Tombstones where
  seq : ℕ := 0
  floor : ℕ := 0
  m : GoMap ℕ ℕ := []
  deriving DecidableEq

def tombMax : ℕ := 262144

namespace Tombstones

/-- Mark the inodes as invalidated now; a table about to overflow is dropped, and from then on
every read that started earlier is rejected. -/
def kill (t : Tombstones) (ns : List ℕ) : Tombstones :=
  if ns=[] then t
  else
    let seq := t.seq+1
    let drop := t.m.length+ns.length > tombMax
    { seq := seq
      floor := if drop then seq else t.floor
      m := ns.foldl (fun m n => m.set n seq) (if drop then [] else t.m) }

/-- A side read of `n` that started at sequence `start` may be cached. -/
def fresh (t : Tombstones) (n start : ℕ) : Bool :=
  if start<t.floor then false else t.m.getD n 0 ≤ start

/-- `last n` is the sequence of the last kill of `n`; the table knows it or the floor covers it. -/
def Tracks (t : Tombstones) (last : ℕ → ℕ) : Prop :=
  ∀ n,last n≤t.seq ∧ (last n ≤ t.m.getD n 0 ∨ last n≤t.floor)

lemma seq_le_kill (t : Tombstones) (ns : List ℕ) : t.seq≤(t.kill ns).seq := by
  unfold kill
  split
  · exact le_refl _
  · exact Nat.le_succ _

lemma getD_foldl_set (ns : List ℕ) (m : GoMap ℕ ℕ) (v n : ℕ) :
    (ns.foldl (fun m n => m.set n v) m).getD n 0=if n∈ns then v else m.getD n 0 := by
  induction ns generalizing m with
  | nil => simp
  | cons a ns ih =>
    rw [List.foldl_cons,ih,getD_set]
    by_cases ha : n=a <;> by_cases hn : n∈ns <;> simp [ha,hn]

lemma kill_tracks {t : Tombstones} {last : ℕ → ℕ} (ht : t.Tracks last) (ns : List ℕ) :
    (t.kill ns).Tracks (fun n => if n∈ns then (t.kill ns).seq else last n) := by
  intro n
  have hn := ht n
  by_cases hns : ns=[]
  · simpa [kill,hns] using hn
  simp only [kill,hns,if_false,getD_foldl_set]
  by_cases hmem : n∈ns
  · simp [hmem]
  · simp only [hmem,if_false]
    refine ⟨by omega,?_⟩
    split
    · exact .inr (by omega)
    · exact hn.2

end Tombstones

/-- A dentry placement a unit writes, learned only once it committed. -/
structure UnitEdge where
  parent : ℕ
  child : ℕ
  isDir : Bool
  name : List UInt8
  deriving DecidableEq, Repr

def rootIno : ℕ := 1

def trashInode : ℕ := 0x7FFFFFFF10000000

def isTrashIno (n : ℕ) : Bool := n ≥ trashInode

end JuiceMount.RespProxy
