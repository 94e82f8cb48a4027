import JuiceMount.Lib.GoMap
import JuiceMount.Lib.SlashPath
import JuiceMount.Lib.Transition

/-! The namespace coordinator. A mutation owns its names from begin to finish; a read takes a ticket
on its name and is refused, at its end at the latest, once a mutation of an overlapping name has begun. -/
namespace JuiceMount.Nfs
open SlashPath List

def cleanNamespaceName (name : List Char) : List Char :=
  let cleaned := joined (components name)
  if cleaned=[] then ['.'] else cleaned

def namespaceOverlap (a b : List Char) : Bool :=
  a = ['.'] || b = ['.'] || a=b || (b++['/']).isPrefixOf a || (a++['/']).isPrefixOf b

def Related (a b : List Char) : Prop :=
  components a <+: components b ∨ components b <+: components a

structure NamespaceOperation where
  names : List (List Char)
  mutated : Bool := false
  poison : Bool := false
  failed : Bool := false
  blocksReads : Bool := false
  deriving DecidableEq

structure ReadEpoch where
  generation : ℕ := 0
  refs : ℕ := 0
  deriving DecidableEq

/-- A read ticket: the epoch object it points at, and that object's generation when it was taken. -/
structure ReadAdmission where
  name : List Char
  epoch : ℕ
  generation : ℕ
  deriving DecidableEq

inductive ReadError where
  | eio
  | fuseTimeout
  | other (code : ℕ)
  deriving DecidableEq

/-- The coordinator with the objects its callers point at: the epochs, and the tickets that were
taken and not yet released. -/
structure NamespaceCoordinator where
  active : GoMap ℕ NamespaceOperation := []
  reads : GoMap (List Char) ℕ := []
  stopping : Bool := false
  epochs : ℕ → ReadEpoch := fun _ => {}
  tickets : GoMap ℕ ReadAdmission := []
  nextOp : ℕ := 0
  nextEpoch : ℕ := 0
  nextTicket : ℕ := 0

namespace NamespaceOperation

def overlaps (op : NamespaceOperation) (name : List Char) : Bool := op.names.any (namespaceOverlap name)

end NamespaceOperation

namespace NamespaceCoordinator

def readErrorLocked (c : NamespaceCoordinator) (name : List Char) (allActive : Bool) : Option ReadError :=
  let held := c.active.filter (fun e => (allActive || e.2.failed || e.2.blocksReads) && e.2.overlaps name)
  if held.any (·.2.failed) then some .eio else if held.isEmpty then none else some .fuseTimeout

/-- The epoch of one name with readers gets a new generation if an operation on `held` overlaps it. -/
def invalidate (held : List (List Char)) (epochs : ℕ → ReadEpoch) (r : List Char × ℕ) : ℕ → ReadEpoch :=
  if held.any (namespaceOverlap r.1) then
    Function.update epochs r.2 { epochs r.2 with generation := (epochs r.2).generation+1 }
  else epochs

/-- The refusal is about the names of the operations, before anything is recorded; what is recorded
invalidates the tickets of every overlapping name that has readers. -/
def begin (c : NamespaceCoordinator) (names : List (List Char)) : NamespaceCoordinator :=
  if c.stopping || decide (c.active.length ≥ 24) then c
  else
    let clean := names.map cleanNamespaceName
    if clean.any (fun name => c.active.any (fun e => e.2.overlaps name)) then c
    else
      { c with
        active := c.active.set c.nextOp { names := clean }
        nextOp := c.nextOp+1
        epochs := c.reads.foldl (invalidate clean) c.epochs }

def setFlags (c : NamespaceCoordinator) (i : ℕ) (f : NamespaceOperation → NamespaceOperation) :
    Option NamespaceCoordinator :=
  (c.active.get? i).map fun op => { c with active := c.active.set i (f op) }

/-- Every owner finishes its operation once, so a failed one is not finished again. -/
def finish (c : NamespaceCoordinator) (i : ℕ) (err : Bool) : Option NamespaceCoordinator :=
  match c.active.get? i with
  | none => none
  | some op =>
    if op.failed then none
    else if op.poison || (op.mutated && err) then some { c with active := c.active.set i { op with failed := true } }
    else some { c with active := c.active.erase i }

/-- The epoch object of a name that gets a reader, and the coordinator that has it. -/
def readEpoch (c : NamespaceCoordinator) (name : List Char) : ℕ × NamespaceCoordinator :=
  match c.reads.get? name with
  | some e => (e,c)
  | none =>
    (c.nextEpoch,
      { c with
        reads := c.reads.set name c.nextEpoch
        epochs := Function.update c.epochs c.nextEpoch {}
        nextEpoch := c.nextEpoch+1 })

def addTicket (c : NamespaceCoordinator) (name : List Char) (e : ℕ) : NamespaceCoordinator :=
  { c with
    epochs := Function.update c.epochs e { c.epochs e with refs := (c.epochs e).refs+1 }
    tickets := c.tickets.set c.nextTicket { name, epoch := e, generation := (c.epochs e).generation }
    nextTicket := c.nextTicket+1 }

def admitRead (c : NamespaceCoordinator) (rawName : List Char) : NamespaceCoordinator :=
  let name := cleanNamespaceName rawName
  if (c.readErrorLocked name true).isSome then c
  else (c.readEpoch name).2.addTicket name (c.readEpoch name).1

def checkLocked (c : NamespaceCoordinator) (r : ReadAdmission) : Option ReadError :=
  match c.readErrorLocked r.name true with
  | some err => some err
  | none => if (c.epochs r.epoch).generation≠r.generation then some .fuseTimeout else none

/-- What the reader gets back: the buffer, the count and the error, as the check leaves them. -/
def finishBytes (c : NamespaceCoordinator) (r : ReadAdmission) (p : List UInt8) (n : ℕ) (err : Option ReadError) :
    List UInt8 × ℕ × Option ReadError :=
  match c.checkLocked r with
  | some refusal => (List.replicate p.length 0,0,some refusal)
  | none => (p,n,err)

def release (c : NamespaceCoordinator) (r : ℕ) : Option NamespaceCoordinator :=
  (c.tickets.get? r).map fun ticket =>
    let refs := (c.epochs ticket.epoch).refs-1
    { c with
      epochs := Function.update c.epochs ticket.epoch { c.epochs ticket.epoch with refs }
      reads := if refs=0 then c.reads.erase ticket.name else c.reads
      tickets := c.tickets.erase r }

end NamespaceCoordinator

/-- The critical sections. A check changes nothing; finishBytes is a check and then a release. -/
inductive NamespaceAction where
  | begin (names : List (List Char))
  | mark (op : ℕ) (mutated poison : Bool)
  | blockReads (op : ℕ)
  | finish (op : ℕ) (err : Bool)
  | admitRead (name : List Char)
  | release (ticket : ℕ)
  | stop
  deriving DecidableEq

def namespaceStep (c : NamespaceCoordinator) : NamespaceAction → Option NamespaceCoordinator
  | .begin names => some (c.begin names)
  | .mark i mutated poison => c.setFlags i fun op => { op with mutated, poison }
  | .blockReads i => c.setFlags i fun op => { op with blocksReads := true }
  | .finish i err => c.finish i err
  | .admitRead name => some (c.admitRead name)
  | .release r => c.release r
  | .stop => some { c with stopping := true }

section Names
variable {a b : List Char}

lemma cleanNamespaceName_eq (name : List Char) : (components name=[] ∧ cleanNamespaceName name=['.']) ∨
      (components name≠[] ∧ cleanNamespaceName name=joined (components name)) := by
  by_cases h : components name=[]
  · exact .inl ⟨h,by simp [cleanNamespaceName,h,joined]⟩
  refine .inr ⟨h,if_neg fun hj => ?_⟩
  have := joined_slash h
  rw [hj] at this
  cases hc : components name with
  | nil => exact h hc
  | cons c cs =>
    have hplain := plain_components (hc ▸ mem_cons_self : c∈components name)
    rw [hc] at this
    cases c with
    | nil => exact hplain.nonempty rfl
    | cons x c =>
      have hx : x = '/' := by simpa [terminated] using (congrArg List.head? this).symm
      exact hplain.slash (hx ▸ mem_cons_self)

@[simp] lemma components_clean (name : List Char) : components (cleanNamespaceName name)=components name := by
  obtain ⟨h,hclean⟩ | ⟨_,hclean⟩ := cleanNamespaceName_eq name
  · rw [hclean,h]
    decide
  · rw [hclean,components_joined fun _ => plain_components]

lemma namespaceOverlap_comm (a b : List Char) : namespaceOverlap a b=namespaceOverlap b a := by
  simp only [namespaceOverlap,eq_comm (a := b),Bool.or_assoc]
  cases decide (a=['.']) <;> cases decide (b=['.']) <;> cases decide (a=b) <;>
    simp [Bool.or_comm]

/-- Clean names overlap exactly if one is the other or an ancestor of it. -/
lemma namespaceOverlap_clean (a b : List Char) :
    namespaceOverlap (cleanNamespaceName a) (cleanNamespaceName b)=true ↔ Related a b := by
  have hplain : ∀ n,∀ c∈components n,Plain c := fun n _ => plain_components
  obtain ⟨ha,hca⟩ | ⟨ha,hca⟩ := cleanNamespaceName_eq a
  · simp [namespaceOverlap,Related,ha,hca]
  obtain ⟨hb,hcb⟩ | ⟨hb,hcb⟩ := cleanNamespaceName_eq b
  · simp [namespaceOverlap,Related,hb,hcb]
  have hab := joined_slash_prefix (hplain a) (hplain b) hb
  have hba := joined_slash_prefix (hplain b) (hplain a) ha
  have heq : joined (components a)=joined (components b) ↔ components a=components b :=
    ⟨joined_injective (hplain a) (hplain b) ha hb,fun h => by rw [h]⟩
  simp only [namespaceOverlap,hca,hcb,Bool.or_eq_true,decide_eq_true_eq,List.isPrefixOf_iff_prefix,hab,hba,heq,
    joined_ne_dot (hplain a) ha,joined_ne_dot (hplain b) hb,false_or,Related]
  constructor
  · rintro ((h | h) | h)
    · exact .inl (h ▸ prefix_rfl)
    · exact .inr h.1
    · exact .inl h.1
  · intro h
    by_cases he : components a=components b
    · exact .inl (.inl he)
    · exact h.elim (fun h => .inr ⟨h,he⟩) (fun h => .inl (.inr ⟨h,Ne.symm he⟩))

example : cleanNamespaceName "/a//b/../c/.".toList = "a/c".toList := by decide
example : namespaceOverlap "ab".toList "a".toList = false := by decide

end Names

namespace NamespaceCoordinator
variable {c d : NamespaceCoordinator}

lemma not_overlaps_of_admitted {name : List Char} (h : c.readErrorLocked name true=none) {i : ℕ}
    {op : NamespaceOperation} (hop : c.active.get? i=some op) : op.overlaps name=false := by
  simp only [readErrorLocked,Bool.true_or,Bool.true_and] at h
  split at h
  · cases h
  split_ifs at h with hempty
  have hnil := filter_eq_nil_iff.mp (List.isEmpty_iff.mp hempty)
  simpa using hnil _ (GoMap.mem_of_get? hop)

lemma generation_of_checkLocked {r : ReadAdmission} (h : c.checkLocked r=none) :
    (c.epochs r.epoch).generation=r.generation := by
  simp only [checkLocked] at h
  split at h
  · cases h
  · split_ifs at h
    · rename_i hne
      exact not_not.mp hne

section Invalidate
variable (held : List (List Char)) (epochs : ℕ → ReadEpoch) (e : ℕ)

lemma invalidate_kept (r : List Char × ℕ) : (epochs e).generation≤(invalidate held epochs r e).generation ∧
      (invalidate held epochs r e).refs=(epochs e).refs := by
  unfold invalidate
  split
  · by_cases he : e=r.2
    · subst he
      rw [Function.update_self]
      exact ⟨Nat.le_succ _,rfl⟩
    · rw [Function.update_of_ne he]
      exact ⟨le_rfl,rfl⟩
  · exact ⟨le_rfl,rfl⟩

lemma foldl_invalidate_kept (reads : GoMap (List Char) ℕ) :
    (epochs e).generation≤(reads.foldl (invalidate held) epochs e).generation ∧
      (reads.foldl (invalidate held) epochs e).refs=(epochs e).refs := by
  induction reads generalizing epochs with
  | nil => exact ⟨le_rfl,rfl⟩
  | cons r reads ih =>
    obtain ⟨hgen,hrefs⟩ := ih (invalidate held epochs r)
    obtain ⟨hgen',hrefs'⟩ := invalidate_kept held epochs e r
    exact ⟨hgen'.trans hgen,hrefs.trans hrefs'⟩

/-- A name with readers that the operation overlaps has a new generation. -/
lemma foldl_invalidate_lt {reads : GoMap (List Char) ℕ} {name : List Char} (h : (name,e)∈reads)
    (hover : held.any (namespaceOverlap name)=true) :
    (epochs e).generation<(reads.foldl (invalidate held) epochs e).generation := by
  induction reads generalizing epochs with
  | nil => cases h
  | cons r reads ih =>
    obtain rfl | h := mem_cons.mp h
    · have hstep : (invalidate held epochs (name,e) e).generation=(epochs e).generation+1 := by
        simp only [invalidate,if_pos hover,Function.update_self]
      have hrest := (foldl_invalidate_kept held (invalidate held epochs (name,e)) e reads).1
      rw [foldl_cons]
      omega
    · exact lt_of_le_of_lt (invalidate_kept held epochs e r).1 (ih (invalidate held epochs r) h)

end Invalidate

end NamespaceCoordinator

end JuiceMount.Nfs
