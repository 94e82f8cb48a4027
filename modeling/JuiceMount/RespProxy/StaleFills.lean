import JuiceMount.Lib.Transition
import JuiceMount.RespProxy.Caches

/-! Cache fills from side reads against invalidations. Each section under one of the ancestry
mutexes is one action. The tombstone sequence serves as the clock: it moves exactly when
something is invalidated. A fill tests for freshness and inserts in two sections; an
invalidation that runs completely between them is overtaken by the insert. -/
namespace JuiceMount.RespProxy
open GoMap Transition

/-- A cached parent. `stamp` is a ghost: the tombstone sequence when the parent was read from
Redis, or learned from a committed unit. -/
structure Stamped where
  parent : ℕ
  stamp : ℕ
  deriving DecidableEq, Repr

/-- A side-read fill of `parentOfDir`, `placementOf` or the bootstrap scan. -/
inductive Fill
  | idle
  | started (n start : ℕ)
  | read (n start : ℕ) (isDir : Bool) (e : Stamped)
  | fresh (n : ℕ) (isDir : Bool) (e : Stamped)
  deriving DecidableEq, Repr

/-- `learnCommitted`, or `forget` when `lost`. `seq` is a ghost: the sequence its kill took. -/
inductive Inval
  | idle
  | begun (touched : List ℕ) (edges : List UnitEdge) (lost : Bool)
  | deleting (todo touched : List ℕ) (edges : List UnitEdge) (lost : Bool) (seq : ℕ)
  deriving DecidableEq, Repr

/-- The parent caches with the goroutines at work on them. The last three fields are ghosts:
the last kill of each inode, and the last invalidation that is through in each cache. -/
structure CacheState where
  tomb : Tombstones := {}
  files : FileLRU Stamped
  dirParent : GoMap ℕ Stamped := [(rootIno,⟨rootIno,0⟩)]
  fills : ℕ → Fill := fun _ => .idle
  invals : ℕ → Inval := fun _ => .idle
  last : ℕ → ℕ := fun _ => 0
  doneFiles : ℕ → ℕ := fun _ => 0
  doneDirs : ℕ → ℕ := fun _ => 0

namespace CacheState

end CacheState

/-- Every cached parent is no older than the last invalidation that went through its cache. -/
def NoStaleParent (s : CacheState) : Prop :=
  (∀ n e,s.files.Has n e → s.doneFiles n≤e.stamp) ∧
  (∀ n e,s.dirParent.get? n=some e → s.doneDirs n≤e.stamp)

/-- A fill under the sequence `seq` and the last kills `last`. -/
def FillOk (seq : ℕ) (last : ℕ → ℕ) : Fill → Prop
  | .idle => True
  | .started _ start => start ≤ seq
  | .read _ start _ e => start≤e.stamp
  | .fresh n _ e => last n≤e.stamp

def InvalOk (last : ℕ → ℕ) : Inval → Prop
  | .deleting todo touched _ _ seq => todo ⊆ touched ∧ ∀ n∈touched,seq ≤ last n
  | _ => True

/-- The invariant behind it. -/
structure CacheInv (s : CacheState) : Prop where
  tracks : s.tomb.Tracks s.last
  fills : ∀ t,FillOk s.tomb.seq s.last (s.fills t)
  invals : ∀ t,InvalOk s.last (s.invals t)
  doneFiles : ∀ n,s.doneFiles n ≤ s.last n
  doneDirs : ∀ n,s.doneDirs n ≤ s.last n
  noStale : NoStaleParent s

section Steps
variable {s : CacheState}

/-- The kill section: what it marks is killed now, and no fill of it is past its test. -/
lemma CacheInv.kill (h : CacheInv s) {touched : List ℕ}
    (hno : ∀ r n isDir e,s.fills r=.fresh n isDir e → n ∉ touched) :
    CacheInv {s with
      tomb := s.tomb.kill touched
      last := fun n => if n∈touched then (s.tomb.kill touched).seq else s.last n} := by
  have hseq := s.tomb.seq_le_kill touched
  have hlast : ∀ n,s.last n ≤ if n∈touched then (s.tomb.kill touched).seq else s.last n :=
    fun n => by
      split
      · exact (h.tracks n).1.trans hseq
      · exact le_refl _
  refine ⟨s.tomb.kill_tracks h.tracks touched,fun r => ?_,fun r => ?_,
    fun n => (h.doneFiles n).trans (hlast n),fun n => (h.doneDirs n).trans (hlast n),h.noStale⟩
  · have hr := h.fills r
    cases hk : s.fills r with
    | idle => trivial
    | started n start =>
      rw [hk] at hr
      exact hr.trans hseq
    | read n start isDir e =>
      rw [hk] at hr
      exact hr
    | fresh n isDir e =>
      rw [hk] at hr
      simp only [FillOk]
      rw [if_neg (hno r n isDir e hk)]
      exact hr
  · have hr := h.invals r
    cases hk : s.invals r with
    | idle => trivial
    | begun _ _ _ => trivial
    | deleting todo touched' edges lost seq =>
      rw [hk] at hr
      exact ⟨hr.1,fun n hn => (hr.2 n hn).trans (hlast n)⟩

end Steps

end JuiceMount.RespProxy
