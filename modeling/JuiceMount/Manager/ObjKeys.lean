import JuiceMount.Manager.Records

/-! Per-Mac storage keys: what the Manager asks the key daemon for, and what it takes over from the
daemon's files. None of it touches a record's credential, status or person. -/
namespace JuiceMount.Manager
open RespProxy (Bytes ascii)

def objKeyMaxGen : ℕ := 999

structure AppliedKey where
  name : Bytes
  exists_ : Bool
  /-- It is on, under the parent `jm-macs`, with the parent's policy. -/
  usable : Bool
  deriving DecidableEq, Repr

structure Applied where
  seq : ℕ
  keys : List AppliedKey
  deriving DecidableEq, Repr

/-- A result file; an unusable one has no secret. -/
structure KeyResult where
  name : Bytes
  secret : Bytes
  deriving DecidableEq, Repr

/-- What the key daemon's directory holds when it is read. -/
structure Keyd where
  dir : Bool := true
  applied : Option Applied := none
  results : List KeyResult := []
  seen : List Bytes := []
  resultsOK : Bool := true
  diskSeq : ℕ := 0
  deriving DecidableEq, Repr

def Keyd.find (k : Keyd) (name : Bytes) : Option AppliedKey := k.applied.bind fun a => a.keys.find? fun x => x.name=name

def Keyd.exists_ (k : Keyd) (name : Bytes) : Bool := (k.find name).any AppliedKey.exists_

def Keyd.ready (k : Keyd) (name : Bytes) : Bool := (k.find name).any fun x => x.exists_ && x.usable

def Keyd.reached (k : Keyd) (seq : ℕ) : Bool := k.applied.any fun a => seq≤a.seq

def macNameOk (b : Bytes) : Bool :=
  (ascii "mac-").isPrefixOf b && (b.drop 4).length = 12 && (b.drop 4).all isLowerHex

def objKeyName (principal : Bytes) (gen : ℕ) : Bytes := principal++ascii "-"++ascii (toString gen)

def splitObjKeyName (name : Bytes) : Option (Bytes × ℕ) :=
  let tail := name.drop 17
  if macNameOk (name.take 16) && name[16]? = some 45 && 1≤tail.length && tail.length≤3 &&
      tail.all RespProxy.isDigit && tail.head? ≠ some 48
  then some (name.take 16,RespProxy.decimal tail) else none

def objKeyDeliverable (p : Mac) : Bool := p.key.state=.active && p.key.name≠[] && p.key.secret≠[]

def startObjKeyMint (gens : GoMap Bytes ℕ) (p : Mac) : Option (GoMap Bytes ℕ × Mac) :=
  let gen := max (gens.getD p.name 0) p.key.gen+1
  if objKeyMaxGen<gen then none
  else some (gens.set p.name gen,
    { p with key := { p.key with gen := gen, name := objKeyName p.name gen, state := .minting, secret := [],
                                 needsSecret := false, mintSeq := 0 } })

def retireObjKey (p : Mac) : Mac :=
  { p with key := { p.key with
      removing := if p.key.name=[] then p.key.removing else p.key.removing++[{ name := p.key.name }]
      name := [], secret := [], state := .none, needsSecret := false, mintSeq := 0 } }

def takeResult (p : Mac) (rf : KeyResult) : Mac :=
  if p.key.name≠rf.name then p
  else if rf.secret=[] then
    (if p.key.needsSecret then { p with key := { p.key with needsSecret := false, mintSeq := 0 } } else p)
  else if p.key.state=.active && p.key.secret≠[] && p.key.secret≠rf.secret then retireObjKey p
  else { p with key := { p.key with secret := rf.secret, needsSecret := false } }

/-- The key is behind a newer generation, or the daemon no longer has it. -/
def keyGone (k : Keyd) (behind : Bool) (gens : GoMap Bytes ℕ) (p : Mac) : Bool :=
  p.key.name≠[] &&
    (p.key.gen < gens.getD p.name 0 ||
      (k.applied.isSome && !k.exists_ p.key.name &&
        (behind || (p.key.state=.active && 0<p.key.mintSeq && k.reached p.key.mintSeq))))

def wantsKey (p : Mac) : Bool :=
  p.key.name=[] && (p.status=.approved || (p.status=.pending && p.autoApprovePending))

/-- A minted key becomes active, or is asked for again when its secret never came. -/
def advanceMint (k : Keyd) (p : Mac) : Mac :=
  if p.key.state≠.minting then p
  else if p.key.secret≠[] && k.ready p.key.name then { p with key := { p.key with state := .active } }
  else if p.key.secret=[] && 0<p.key.mintSeq && k.reached p.key.mintSeq && k.exists_ p.key.name && k.resultsOK &&
      p.key.name ∉ k.seen
  then { p with key := { p.key with needsSecret := true, mintSeq := 0 } }
  else p

def pendingRemovals (k : Keyd) (l : List Removal) : List Removal :=
  l.filter fun rm => !(0<rm.seq && k.reached rm.seq && !k.exists_ rm.name)

/-- One record of the reconciler's loop: its key is retired, minted or advanced. -/
def advance (k : Keyd) (behind windowOpen : Bool) (gens : GoMap Bytes ℕ) (r : Mac) : GoMap Bytes ℕ × Mac :=
  let r := if keyGone k behind gens r then retireObjKey r else r
  let r := if r.status=.pending && r.autoApprovePending && !windowOpen then { r with autoApprovePending := false } else r
  let minted := if wantsKey r then (startObjKeyMint gens r).getD (gens,r) else (gens,r)
  let r := advanceMint k minted.2
  (minted.1,{ r with key := { r.key with removing := pendingRemovals k r.key.removing } })

def advanceAll (k : Keyd) (behind windowOpen : Bool) : GoMap Bytes ℕ → List Mac → GoMap Bytes ℕ × List Mac
  | gens,[] => (gens,[])
  | gens,r::rs =>
    let a := advance k behind windowOpen gens r
    let rest := advanceAll k behind windowOpen a.1 rs
    (rest.1,a.2::rest.2)

def knownObjKeys (recs : List Mac) (c : ObjKeys) : List Bytes :=
  recs.flatMap (fun r => (if r.key.name=[] then [] else [r.key.name])++r.key.removing.map Removal.name)++
    c.orphanRemoving.map Removal.name

def refreshObjKeyOrphans (k : Keyd) (recs : List Mac) (c : ObjKeys) : ObjKeys :=
  match k.applied with
  | none => c
  | some a =>
    { c with orphans := (((a.keys.filter fun x => x.exists_ && (splitObjKeyName x.name).isSome &&
        x.name ∉ knownObjKeys recs c).map AppliedKey.name).dedup).insertionSort (· ≤ ·) }

/-- A desired file with this number carries what the record still waits for. -/
def stampKey (seq : ℕ) (r : Mac) : Mac :=
  { r with key := { r.key with
      mintSeq := if r.key.name≠[] && r.key.state=.minting && r.key.mintSeq=0 then seq else r.key.mintSeq
      removing := r.key.removing.map fun rm => if rm.seq=0 then { rm with seq := seq } else rm } }

inductive Desired
  | ok | storeFailed | desiredFailed
  deriving DecidableEq, Repr

/-- `writeObjKeysDesiredLocked`: stamp the records, save the store, then write the desired file. -/
def writeObjKeysDesired (io : Io) (n : ℕ) (k : Keyd) (s : Store) (f : Files) : Store × Files × Desired :=
  match s.objk with
  | none => (s,f,.storeFailed)
  | some c =>
    if k.dir=false then (s,f,.storeFailed)
    else
      let seq := max (max c.seq ((k.applied.map Applied.seq).getD 0)) k.diskSeq+1
      let c := refreshObjKeyOrphans k s.recs c
      let next := { s with
        recs := s.recs.map (stampKey seq)
        objk := some { c with seq := seq
                              orphanRemoving := c.orphanRemoving.map fun rm => if rm.seq=0 then { rm with seq := seq } else rm } }
      let r := saveStore io n next f
      if r.2=false then ({ s with objk := some c },r.1,.storeFailed)
      else if io.desired then (next,r.1,.ok) else (next,r.1,.desiredFailed)

def intentUnwritten (recs : List Mac) (c : ObjKeys) : Bool :=
  recs.any (fun r => (r.key.name≠[] && r.key.state=.minting && r.key.mintSeq=0) ||
    r.key.removing.any (fun rm => rm.seq=0)) || c.orphanRemoving.any fun rm => rm.seq=0

def raiseGens (k : Keyd) (gens : GoMap Bytes ℕ) : GoMap Bytes ℕ :=
  ((k.applied.map Applied.keys).getD []).foldl (fun g x =>
    match splitObjKeyName x.name with
    | some (p,n) => if x.exists_ && g.getD p 0<n then g.set p n else g
    | none => g) gens

/-- The daemon applied, or was asked for, more than this store ever wrote. -/
def storeBehind (k : Keyd) (c : ObjKeys) : Bool := c.seq<k.diskSeq || k.applied.any fun a => c.seq<a.seq

def reconcilePass (k : Keyd) (now : ℤ) (s : Store) (c : ObjKeys) : GoMap Bytes ℕ × List Mac :=
  advanceAll k (storeBehind k c) (s.window.isOpen now) (raiseGens k c.gens)
    (s.recs.map fun r => k.results.foldl takeResult r)

def reconciled (k : Keyd) (now : ℤ) (s : Store) (c : ObjKeys) : Store :=
  let pass := reconcilePass k now s c
  { s with
    recs := pass.2
    objk := some (refreshObjKeyOrphans k pass.2
      { c with gens := pass.1, orphanRemoving := pendingRemovals k c.orphanRemoving }) }

def unreconciled (k : Keyd) (now : ℤ) (s : Store) (c : ObjKeys) : Store :=
  { s with objk := some { c with gens := (reconcilePass k now s c).1 } }

/-- The desired file on disk is behind: a key to mint, retire or re-create, other orphans, or recorded work. -/
def desiredDirty (k : Keyd) (force : Bool) (s next : Store) (c : ObjKeys) : Bool :=
  let c' := next.objk.getD {}
  force || k.diskSeq<c.seq || c'.orphans≠c.orphans || intentUnwritten next.recs c' ||
    (next.recs.map fun r => (r.key.name,r.key.needsSecret)) ≠ (s.recs.map fun r => (r.key.name,r.key.needsSecret))

def storeDirty (k : Keyd) (s next : Store) (c : ObjKeys) : Bool :=
  let c' := next.objk.getD {}
  next.recs≠s.recs || raiseGens k c.gens≠c.gens || c'.orphans≠c.orphans || c'.orphanRemoving≠c.orphanRemoving ||
    k.results.any fun rf => rf.secret≠[] && s.recs.any fun r => r.key.name=rf.name

/-- `reconcileObjKeysLocked`: decide, then write the store file and the desired file. -/
def reconcileObjKeys (io : Io) (k : Keyd) (now : ℤ) (force : Bool) (s : Store) (f : Files) : Store × Files × Bool :=
  match s.objk with
  | none => (s,f,true)
  | some c =>
    if k.dir=false then (s,f,false)
    else
      let next := reconciled k now s c
      if desiredDirty k force s next c then
        let r := writeObjKeysDesired io 0 k next f
        match r.2.2 with
        | .ok => (r.1,r.2.1,true)
        | .desiredFailed => (r.1,r.2.1,false)
        | .storeFailed => (unreconciled k now s c,r.2.1,false)
      else if storeDirty k s next c then
        let r := saveStore io 0 next f
        if r.2 then (next,r.1,true) else (unreconciled k now s c,r.1,false)
      else (next,f,true)

/-! ### What a reconciliation leaves alone -/

/-- Only the key differs, and the window's admission may be taken back. -/
structure Rekeyed (r r' : Mac) : Prop where
  same : r' = { r with key := r'.key, autoApprovePending := r'.autoApprovePending }
  flag : r'.autoApprovePending=true → r.autoApprovePending=true

namespace Rekeyed
variable {r r' r'' : Mac}

lemma refl (r : Mac) : Rekeyed r r := ⟨rfl,id⟩

lemma trans (h : Rekeyed r r') (h' : Rekeyed r' r'') : Rekeyed r r'' :=
  ⟨by rw [h'.same,h.same],fun hf => h.flag (h'.flag hf)⟩

lemma mint {gens gens' : GoMap Bytes ℕ} (h : startObjKeyMint gens r=some (gens',r')) : Rekeyed r r' := by
  unfold startObjKeyMint at h
  dsimp only at h
  split_ifs at h
  · cases h
    exact ⟨rfl,id⟩

lemma stamp (seq : ℕ) (r : Mac) : Rekeyed r (stampKey seq r) := ⟨rfl,id⟩

lemma takeResult (r : Mac) (rf : KeyResult) : Rekeyed r (takeResult r rf) := by
  unfold Manager.takeResult
  repeat' split
  all_goals exact ⟨rfl,id⟩

lemma takeResults (r : Mac) (l : List KeyResult) : Rekeyed r (l.foldl Manager.takeResult r) := by
  induction l generalizing r with
  | nil => exact refl r
  | cons rf l ih => exact (takeResult r rf).trans (ih _)

lemma advanceMint (k : Keyd) (r : Mac) : Rekeyed r (advanceMint k r) := by
  unfold Manager.advanceMint
  repeat' split
  all_goals exact ⟨rfl,id⟩

lemma mintOr (gens : GoMap Bytes ℕ) (r : Mac) :
    Rekeyed r (if wantsKey r then (startObjKeyMint gens r).getD (gens,r) else (gens,r)).2 := by
  split
  · cases h : startObjKeyMint gens r with
    | none => exact refl r
    | some a => exact mint h
  · exact refl r

lemma advance (k : Keyd) (behind windowOpen : Bool) (gens : GoMap Bytes ℕ) (r : Mac) :
    Rekeyed r (advance k behind windowOpen gens r).2 := by
  have hretired : Rekeyed r (if keyGone k behind gens r then retireObjKey r else r) := by
    split <;> exact ⟨rfl,id⟩
  unfold Manager.advance
  dsimp only
  generalize (if keyGone k behind gens r then retireObjKey r else r)=r₁ at hretired
  have hadmitted : Rekeyed r₁
      (if (r₁.status=.pending && r₁.autoApprovePending && !windowOpen)=true then {r₁ with autoApprovePending := false}
        else r₁) := by
    split
    · exact ⟨rfl,fun hf => by cases hf⟩
    · exact refl r₁
  generalize (if (r₁.status=.pending && r₁.autoApprovePending && !windowOpen)=true
    then {r₁ with autoApprovePending := false} else r₁)=r₂ at hadmitted
  have hmint := hretired.trans (hadmitted.trans ((mintOr gens r₂).trans (advanceMint k _)))
  exact hmint.trans ⟨rfl,id⟩

end Rekeyed

lemma advanceAll_rekeyed (k : Keyd) (behind windowOpen : Bool) (gens : GoMap Bytes ℕ) (recs : List Mac) :
    List.Forall₂ Rekeyed recs (advanceAll k behind windowOpen gens recs).2 := by
  induction recs generalizing gens with
  | nil => exact .nil
  | cons r rs ih => exact .cons (.advance k behind windowOpen gens r) (ih _)

lemma forall₂_map {f : Mac → Mac} (hf : ∀ r, Rekeyed r (f r)) (recs : List Mac) :
    List.Forall₂ Rekeyed recs (recs.map f) := by
  induction recs with
  | nil => exact .nil
  | cons r rs ih => exact .cons (hf r) ih

lemma forall₂_trans {a b c : List Mac} (h : List.Forall₂ Rekeyed a b) (h' : List.Forall₂ Rekeyed b c) :
    List.Forall₂ Rekeyed a c := by
  induction h generalizing c with
  | nil => cases h'; exact .nil
  | cons hr _ ih =>
    cases h' with
    | cons hr' h' => exact .cons (hr.trans hr') (ih h')

lemma forall₂_refl (recs : List Mac) : List.Forall₂ Rekeyed recs recs := by
  induction recs with
  | nil => exact .nil
  | cons r rs ih => exact .cons (.refl r) ih

/-- The store after an operation that touches storage keys only. -/
structure KeysOnly (s s' : Store) : Prop where
  recs : List.Forall₂ Rekeyed s.recs s'.recs
  window : s'.window=s.window
  people : s'.people=s.people
  restrict : s'.restrictUnassigned=s.restrictUnassigned

lemma KeysOnly.refl (s : Store) : KeysOnly s s := ⟨forall₂_refl _,rfl,rfl,rfl⟩

/-- What a file write of a store that differs in its keys only leaves of the other files. -/
structure SavedKeys (s : Store) (f f' : Files) : Prop where
  store : f'.store=f.store ∨ ∃ s', KeysOnly s s' ∧ f'.store = s'.toFile f.kept
  rest : f' = { f with store := f'.store }

lemma SavedKeys.refl (s : Store) (f : Files) : SavedKeys s f f := ⟨.inl rfl,rfl⟩

lemma saveStore_savedKeys {s s' : Store} (h : KeysOnly s s') (io : Io) (n : ℕ) (f : Files) :
    SavedKeys s f (saveStore io n s' f).1 := by
  unfold saveStore
  split
  · exact .refl s f
  · split
    · exact ⟨.inr ⟨s',h,rfl⟩,rfl⟩
    · exact .refl s f

lemma writeObjKeysDesired_keysOnly (io : Io) (n : ℕ) (k : Keyd) (s : Store) (f : Files) :
    KeysOnly s (writeObjKeysDesired io n k s f).1 ∧ SavedKeys s f (writeObjKeysDesired io n k s f).2.1 := by
  unfold writeObjKeysDesired
  split
  · exact ⟨.refl s,.refl s f⟩
  split
  · exact ⟨.refl s,.refl s f⟩
  · dsimp only
    generalize hnext : ({s with recs := _, objk := _} : Store)=next
    have hkeys : KeysOnly s next := by
      subst hnext
      exact ⟨forall₂_map (.stamp _) _,rfl,rfl,rfl⟩
    have hsaved := saveStore_savedKeys hkeys io n f
    split
    · exact ⟨⟨forall₂_refl _,rfl,rfl,rfl⟩,hsaved⟩
    · split
      · exact ⟨hkeys,hsaved⟩
      · exact ⟨hkeys,hsaved⟩

lemma KeysOnly.trans {a b c : Store} (h : KeysOnly a b) (h' : KeysOnly b c) : KeysOnly a c :=
  ⟨forall₂_trans h.recs h'.recs,h'.window.trans h.window,h'.people.trans h.people,h'.restrict.trans h.restrict⟩

lemma SavedKeys.from {a b : Store} (h : KeysOnly a b) {f f' : Files} (h' : SavedKeys b f f') : SavedKeys a f f' := by
  refine ⟨?_,h'.rest⟩
  rcases h'.store with hsame | ⟨s',hs',hstore⟩
  · exact .inl hsame
  · exact .inr ⟨s',h.trans hs',hstore⟩

lemma reconciled_keysOnly (k : Keyd) (now : ℤ) (s : Store) (c : ObjKeys) : KeysOnly s (reconciled k now s c) :=
  ⟨forall₂_trans (forall₂_map (fun r => .takeResults r _) _) (advanceAll_rekeyed _ _ _ _ _),rfl,rfl,rfl⟩

lemma unreconciled_keysOnly (k : Keyd) (now : ℤ) (s : Store) (c : ObjKeys) : KeysOnly s (unreconciled k now s c) :=
  ⟨forall₂_refl _,rfl,rfl,rfl⟩

theorem reconcileObjKeys_keysOnly (io : Io) (k : Keyd) (now : ℤ) (force : Bool) (s : Store) (f : Files) :
    KeysOnly s (reconcileObjKeys io k now force s f).1 ∧ SavedKeys s f (reconcileObjKeys io k now force s f).2.1 := by
  unfold reconcileObjKeys
  split
  · exact ⟨.refl s,.refl s f⟩
  rename_i c _
  split
  · exact ⟨.refl s,.refl s f⟩
  · dsimp only
    have hkeys := reconciled_keysOnly k now s c
    have hback := unreconciled_keysOnly k now s c
    have hdesired := writeObjKeysDesired_keysOnly io 0 k (reconciled k now s c) f
    split
    · split
      · exact ⟨hkeys.trans hdesired.1,.from hkeys hdesired.2⟩
      · exact ⟨hkeys.trans hdesired.1,.from hkeys hdesired.2⟩
      · exact ⟨hback,.from hkeys hdesired.2⟩
    · split
      · split
        · exact ⟨hkeys,saveStore_savedKeys hkeys io 0 f⟩
        · exact ⟨hback,saveStore_savedKeys hkeys io 0 f⟩
      · exact ⟨hkeys,.refl s f⟩

end JuiceMount.Manager
