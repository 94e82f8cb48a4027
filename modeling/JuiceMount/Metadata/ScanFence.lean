import JuiceMount.Metadata.MirrorCas

/-! The tokens that fence what a full SCAN or a directory reconcile publishes. A step is one critical section of
the client, and the observers' steps interleave freely with those of all other parties. The history, and
where in it a token was captured, are kept for the statements; the client does not read them. -/
namespace JuiceMount.Metadata.Fence
open Mirror Transition Option

/-- `scanBaselineToken` -/
structure ScanToken where
  debt : ℕ
  session : ℕ
  events : ℕ
  publication : ℕ
  backend : ℕ
  store : StoreEpoch := ⟨0,0⟩
  deriving DecidableEq, Repr

/-- What invalidates the tokens of others. -/
inductive Event
  | backendChanged
  | sessionOpened
  | debtRecorded (persisted : Bool)
  | publication (observer : ℕ)
  deriving DecidableEq, Repr

inductive Kind
  | scan | reconcile
  deriving DecidableEq, Repr

/-- A SCAN or a reconcile under way. It is `reading` until its observation is complete; `resumed` if it goes
on from a cursor of an earlier attempt. -/
structure Observer where
  kind : Kind
  token : ScanToken
  captured : ℕ
  reading : Bool := true
  resumed : Bool := false
  epochRead : StoreEpoch := ⟨0,0⟩
  staged : Bool := false
  deriving DecidableEq, Repr

/-- A SCAN that did not finish, with the token of its first batch. -/
structure PartialScan where
  token : ScanToken
  captured : ℕ
  deriving DecidableEq, Repr

/-- `marker` and `sessionDirty` are the durable push_baseline_incomplete and push_session_dirty, with `true`
for "1". `certifiedAt` is where the token of the last certified SCAN was captured, `boot` where the
process began. -/
structure Client where
  debtGeneration : ℕ := 0
  sessionGeneration : ℕ := 0
  eventGeneration : ℕ := 0
  publicationGeneration : ℕ := 0
  backendGeneration : ℕ := 0
  backendGateEnabled : Bool := false
  backendQualified : Bool := false
  attrRetries : Bool := false
  scanResume : Option PartialScan := none
  observers : GoMap ℕ Observer := []
  store : Store := {}
  marker : Option Bool := none
  sessionDirty : Option Bool := none
  history : List Event := []
  boot : ℕ := 0
  certifiedAt : ℕ := 0
  certifications : ℕ := 0
  deriving DecidableEq, Repr

/-- What a chunk does to the store. -/
inductive Change
  | upsert (batch : List Entry) (obs : Observation) (invalidate : List TreePath)
  | clearLocalOnly (paths : List TreePath) (obs : Observation)
  | delete (paths : List TreePath) (obs : Observation)
  | reconcile (batch : List Entry) (obs : Observation)
  | scopedPrune (entries : List Entry) (obs : Observation)

/-- The store after the chunk, and the epoch that the next one expects. -/
def Change.apply (s : Store) (expected : StoreEpoch) : Change → Option (Store × StoreEpoch)
  | .upsert batch obs invalidate => (s.scanUpsertBatch batch expected obs invalidate).map (fun t => (t,t.captureStoreEpoch))
  | .clearLocalOnly paths obs => (s.scanClearLocalOnlyBatch paths expected obs).map (fun t => (t,t.captureStoreEpoch))
  | .delete paths obs => (s.scanDeletePathsBatch paths expected obs).map (fun t => (t,t.captureStoreEpoch))
  | .reconcile batch obs => (s.reconcileUpsertBatch batch expected obs).map (fun t => (t,t.captureStoreEpoch))
  | .scopedPrune entries obs => (s.deletePathsConditional entries obs).map (fun t => (t,expected))

namespace Client

def scanToken (c : Client) : ScanToken where
  debt := c.debtGeneration
  session := c.sessionGeneration
  events := c.eventGeneration
  publication := c.publicationGeneration
  backend := c.backendGeneration

def backendAdmitted (c : Client) (generation : ℕ) : Bool :=
  generation=c.backendGeneration && (!c.backendGateEnabled || c.backendQualified)

def scanTokenValid (c : Client) (token : ScanToken) : Bool :=
  c.backendAdmitted token.backend && token.debt=c.debtGeneration && token.session=c.sessionGeneration &&
  token.publication=c.publicationGeneration

/-- publicationGeneration++ -/
def advance (c : Client) (e : Event) : Client :=
  { c with publicationGeneration := c.publicationGeneration+1, history := e::c.history }

def put (c : Client) (o : ℕ) (x : Observer) : Client := { c with observers := c.observers.set o x }

def drop (c : Client) (o : ℕ) : Client := { c with observers := c.observers.erase o }

def setBackendQualified (c : Client) (qualified : Bool) : Client :=
  if c.backendGateEnabled && c.backendQualified=qualified then c
  else
    advance { c with
      backendGateEnabled := true
      backendQualified := qualified
      backendGeneration := c.backendGeneration+1
      attrRetries := qualified && c.attrRetries } .backendChanged

/-- `persists`: SetMeta succeeds. -/
def openPushSession (c : Client) (persists : Bool) : Client :=
  if !c.backendAdmitted c.backendGeneration || !persists then c
  else advance { c with sessionDirty := some true, sessionGeneration := c.sessionGeneration+1 } .sessionOpened

def recordBaselineDebt (c : Client) (persists : Bool) : Client :=
  advance { c with
    debtGeneration := c.debtGeneration+1
    marker := if persists then some true else c.marker } (.debtRecorded persists)

def markBaselineIncomplete (c : Client) (persists : Bool) : Client := if persists then { c with marker := some true } else c

/-- The token of an attempt that found no usable partial SCAN. -/
def freshScan (c : Client) : Observer := { kind := .scan, token := c.scanToken, captured := c.history.length }

def sameGenerations (a b : ScanToken) : Bool :=
  a.debt=b.debt && a.session=b.session && a.backend=b.backend && a.publication=b.publication

/-- `usable`: resuming is on and the partial SCAN is not too old. It is taken once. -/
def takeScanResume (c : Client) (x : Observer) (usable : Bool) : Client × Observer :=
  match c.scanResume with
  | none => (c,x)
  | some p =>
    if usable && sameGenerations p.token x.token then
      ({ c with scanResume := none },{ x with token := p.token, captured := p.captured, resumed := true })
    else ({ c with scanResume := none },x)

def settleStoreEpoch (c : Client) (x : Observer) : Observer :=
  if x.resumed && x.token.store≠x.epochRead then
    { x with token := { c.scanToken with store := x.epochRead }, captured := c.history.length, resumed := false }
  else { x with token := { x.token with store := x.epochRead } }

/-- `fails`: the transaction fails at a statement. The epoch advances also then. -/
def fencedScanMutation (c : Client) (o : ℕ) (x : Observer) (change : Change) (fails : Bool) : Client :=
  if !c.scanTokenValid x.token then c.drop o
  else
    let done := if fails then none else change.apply c.store x.token.store
    let c' := advance { c with store := (done.map (·.1)).getD c.store } (.publication o)
    c'.put o { x with token := { x.token with publication := c'.publicationGeneration, store := (done.map (·.2)).getD x.token.store } }

/-- The second half of completeScanPublication, under the lock. -/
def activate (c : Client) (o : ℕ) (x : Observer) (fails : Bool) : Client :=
  if !c.scanTokenValid x.token || c.attrRetries then c.drop o
  else if fails || c.store.captureStoreEpoch≠x.token.store then (c.advance (.publication o)).drop o
  else
    (advance { c with
      marker := some false
      certifiedAt := x.captured
      certifications := c.certifications+1 } (.publication o)).drop o

end Client

inductive ClientOp
  | setBackendQualified (qualified : Bool)
  | openPushSession (persists : Bool)
  | notePushEvent
  | recordBaselineDebt (persists : Bool)
  | markBaselineIncomplete (persists : Bool)
  | setAttrRetries (waiting : Bool)
  | storeWrite (op : CasOp)
  | startScan (o : ℕ)
  | takeScanResume (o : ℕ) (usable : Bool)
  | captureStoreEpoch (o : ℕ)
  | settleStoreEpoch (o : ℕ)
  | saveScanResume (o : ℕ)
  | startReconcile (o generation : ℕ)
  | finishReading (o : ℕ)
  | fencedScanMutation (o : ℕ) (change : Change) (fails : Bool)
  | noteDirectoryChanged (o : ℕ)
  | stage (o : ℕ)
  | activate (o : ℕ) (fails : Bool)
  | abandon (o : ℕ)
  | restart

def reader (c : Client) (o : ℕ) : Option Observer := (c.observers.get? o).filter (·.reading)

def publisher (c : Client) (o : ℕ) (kind : Kind) : Option Observer :=
  (c.observers.get? o).filter (fun x => !x.reading && x.kind=kind)

def step (c : Client) : ClientOp → Option Client
  | .setBackendQualified qualified => some (c.setBackendQualified qualified)
  | .openPushSession persists => some (c.openPushSession persists)
  | .notePushEvent => some { c with eventGeneration := c.eventGeneration+1 }
  | .recordBaselineDebt persists => some (c.recordBaselineDebt persists)
  | .markBaselineIncomplete persists => some (c.markBaselineIncomplete persists)
  | .setAttrRetries waiting => some { c with attrRetries := waiting }
  | .storeWrite op => some { c with store := casStep c.store op }
  | .startScan o => if (c.observers.get? o).isSome then none else some (c.put o c.freshScan)
  | .takeScanResume o usable => (reader c o).map (fun x => (c.takeScanResume x usable).1.put o (c.takeScanResume x usable).2)
  | .captureStoreEpoch o => (c.observers.get? o).map (fun x => c.put o { x with epochRead := c.store.captureStoreEpoch })
  | .settleStoreEpoch o => (reader c o).map (fun x => c.put o (c.settleStoreEpoch x))
  | .saveScanResume o =>
    (reader c o).map (fun x => { c.drop o with scanResume := if x.kind=.scan then some ⟨x.token,x.captured⟩ else c.scanResume })
  | .startReconcile o generation =>
    if (c.observers.get? o).isSome then none
    else if c.scanToken.backend≠generation || !c.scanTokenValid c.scanToken then some c
    else some (c.put o { kind := .reconcile, token := c.scanToken, captured := c.history.length })
  | .finishReading o =>
    (reader c o).map (fun x =>
      if x.kind=.scan && !c.scanTokenValid x.token then c.drop o else c.put o { x with reading := false })
  | .fencedScanMutation o change fails =>
    ((c.observers.get? o).filter (!·.reading)).map (fun x => c.fencedScanMutation o x change fails)
  | .noteDirectoryChanged o =>
    (publisher c o .reconcile).map (fun x => (if c.scanTokenValid x.token then c.advance (.publication o) else c).drop o)
  | .stage o =>
    (publisher c o .scan).map (fun x => if c.scanTokenValid x.token then c.put o { x with staged := true } else c.drop o)
  | .activate o fails =>
    ((publisher c o .scan).filter (·.staged)).map (fun x => c.activate o x fails)
  | .abandon o => some (c.drop o)
  | .restart =>
    some {
      store := c.store
      marker := c.marker
      sessionDirty := c.sessionDirty
      history := c.history
      boot := c.history.length
      certifiedAt := c.certifiedAt
      certifications := c.certifications }

def Client.since (c : Client) (captured : ℕ) : List Event := c.history.take (c.history.length-captured)

/-- The token of an observer as the counter of publications has it: while it is read nothing has advanced it,
and if it is current, only its own publications were since it was captured. -/
structure Tracked (c : Client) (o : ℕ) (x : Observer) : Prop where
  captured : x.captured≤c.history.length
  counted : x.token.publication+c.boot≤c.history.length
  reading : x.reading=true → x.token.publication+c.boot=x.captured
  current : x.token.publication+c.boot=c.history.length → ∀ e ∈ c.since x.captured,e = .publication o

/-- What holds in every state. -/
structure Valid (c : Client) : Prop where
  counted : c.publicationGeneration+c.boot=c.history.length
  tracked : ∀ o x,c.observers.get? o=some x → Tracked c o x
  saved : ∀ p,c.scanResume=some p → p.token.publication+c.boot=p.captured ∧ p.captured≤c.history.length
  certified : c.certifiedAt≤c.history.length
  clear : c.marker≠some true → ∀ e ∈ c.since c.certifiedAt,e ≠ .debtRecorded true

lemma since_advance (c : Client) (e : Event) {n : ℕ} (h : n≤c.history.length) : (c.advance e).since n=e::c.since n := by
  show (e::c.history).take (c.history.length+1-n)=_
  rw [Nat.sub_add_comm h,List.take_succ_cons]
  rfl

lemma since_length (c : Client) : c.since c.history.length=[] := by simp [Client.since]

section Tracking
variable {c : Client} {o : ℕ} {x : Observer}

lemma Tracked.advance (h : Tracked c o x) (e : Event) : Tracked (c.advance e) o x := by
  have hcounted := h.counted
  refine ⟨h.captured.trans (Nat.le_succ _),hcounted.trans (Nat.le_succ _),h.reading,fun hcurrent => ?_⟩
  change x.token.publication+c.boot=c.history.length+1 at hcurrent
  omega

lemma Valid.fresh (h : Valid c) (hpub : x.token.publication=c.publicationGeneration) (hcaptured : x.captured=c.history.length) :
    Tracked c o x := by
  have hcounted := h.counted
  refine ⟨hcaptured.le,by omega,fun _ => by omega,fun _ e he => ?_⟩
  rw [hcaptured,since_length] at he
  cases he

lemma Tracked.of_reading (hpub : x.token.publication+c.boot=x.captured) (hcaptured : x.captured≤c.history.length) :
    Tracked c o x := by
  refine ⟨hcaptured,by omega,fun _ => hpub,fun hcurrent e he => ?_⟩
  rw [show x.captured=c.history.length by omega,since_length] at he
  cases he

lemma Valid.current (h : Valid c) (hx : c.observers.get? o=some x) (hvalid : c.scanTokenValid x.token=true) :
    c.backendAdmitted x.token.backend=true ∧ ∀ e∈c.since x.captured,e=.publication o := by
  simp only [Client.scanTokenValid,Bool.and_eq_true,decide_eq_true_eq] at hvalid
  have hcounted := h.counted
  exact ⟨hvalid.1.1.1,(h.tracked o x hx).current (by omega)⟩

lemma Valid.put (h : Valid c) (hx : Tracked c o x) : Valid (c.put o x) := by
  refine {h with tracked := fun p y hy => ?_}
  obtain ⟨rfl,rfl⟩ | ⟨-,hy⟩ := GoMap.of_get?_set hy
  · exact {hx with}
  · exact {h.tracked p y hy with}

lemma Valid.drop (h : Valid c) (o : ℕ) : Valid (c.drop o) :=
  {h with tracked := fun p y hy => {h.tracked p y (GoMap.of_get?_erase hy).2 with}}

lemma Valid.advance (h : Valid c) (e : Event) (he : c.marker≠some true → e≠.debtRecorded true) : Valid (c.advance e) := by
  have hcounted := h.counted
  refine ⟨?_,fun p y hy => (h.tracked p y hy).advance e,fun p hp => ?_,h.certified.trans (Nat.le_succ _),fun hm f hf => ?_⟩
  · change c.publicationGeneration+1+c.boot=c.history.length+1
    omega
  · exact ⟨(h.saved p hp).1,(h.saved p hp).2.trans (Nat.le_succ _)⟩
  · change f∈(c.advance e).since c.certifiedAt at hf
    rw [since_advance c e h.certified] at hf
    obtain rfl | hf := List.mem_cons.mp hf
    · exact he hm
    · exact h.clear hm f hf

end Tracking

section Steps
variable {c : Client} {o : ℕ} {x : Observer}

lemma reader_some (h : reader c o=some x) : c.observers.get? o=some x ∧ x.reading=true := by
  simpa [reader,filter_eq_some_iff] using h

lemma publisher_some {kind : Kind} (h : publisher c o kind=some x) : c.observers.get? o=some x ∧ x.reading=false := by
  obtain ⟨hx,hcond⟩ := filter_eq_some_iff.mp h
  exact ⟨hx,by simpa using (Bool.and_eq_true_iff.mp hcond).1⟩

lemma Valid.setBackendQualified (h : Valid c) (qualified : Bool) : Valid (c.setBackendQualified qualified) := by
  unfold Client.setBackendQualified
  split
  · exact h
  · refine Valid.advance ?_ _ fun _ => nofun
    exact {h with tracked := fun o x hx => {h.tracked o x hx with}}

lemma Valid.openPushSession (h : Valid c) (persists : Bool) : Valid (c.openPushSession persists) := by
  unfold Client.openPushSession
  split
  · exact h
  · refine Valid.advance ?_ _ fun _ => nofun
    exact {h with tracked := fun o x hx => {h.tracked o x hx with}}

lemma Valid.recordBaselineDebt (h : Valid c) (persists : Bool) : Valid (c.recordBaselineDebt persists) := by
  unfold Client.recordBaselineDebt
  cases persists with
  | true =>
    refine Valid.advance ?_ _ fun hm => absurd rfl hm
    exact {h with tracked := fun o x hx => {h.tracked o x hx with}, clear := fun hm => absurd rfl hm}
  | false =>
    refine Valid.advance ?_ _ fun _ => nofun
    exact {h with tracked := fun o x hx => {h.tracked o x hx with}}

lemma Valid.takeScanResume (h : Valid c) (hx : Tracked c o x) (usable : Bool) :
    Valid ((c.takeScanResume x usable).1.put o (c.takeScanResume x usable).2) := by
  unfold Client.takeScanResume
  obtain hnone | ⟨p,hp⟩ := eq_none_or_eq_some c.scanResume
  · rw [hnone]
    exact h.put hx
  rw [hp]
  have hcleared : Valid {c with scanResume := none} :=
    {h with tracked := fun o x hx => {h.tracked o x hx with}, saved := nofun}
  simp only
  split
  · obtain ⟨hpub,hcaptured⟩ := h.saved p hp
    exact hcleared.put (Tracked.of_reading hpub hcaptured)
  · exact hcleared.put {hx with}

lemma Valid.settleStoreEpoch (h : Valid c) (hx : Tracked c o x) : Valid (c.put o (c.settleStoreEpoch x)) := by
  refine h.put ?_
  unfold Client.settleStoreEpoch
  split
  · exact h.fresh rfl rfl
  · exact {hx with}

lemma Valid.fencedScanMutation (h : Valid c) (hx : c.observers.get? o=some x) (hreading : x.reading=false)
    (change : Change) (fails : Bool) : Valid (c.fencedScanMutation o x change fails) := by
  unfold Client.fencedScanMutation
  split
  · exact h.drop o
  rename_i hinvalid
  have hcurrent := (h.current hx (by simpa using hinvalid)).2
  have hcaptured := (h.tracked o x hx).captured
  extract_lets done c'
  have hstored : Valid {c with store := (done.map (·.1)).getD c.store} := {h with tracked := fun o x hx => {h.tracked o x hx with}}
  have hc' : Valid c' := hstored.advance _ fun _ => nofun
  refine hc'.put ⟨hcaptured.trans (Nat.le_succ _),hc'.counted.le,fun hr => ?_,fun _ e he => ?_⟩
  · exact absurd (hr.symm.trans hreading) nofun
  · -- its own publication is the only new one
    have hsince : c'.since x.captured=.publication o::c.since x.captured := since_advance _ _ hcaptured
    change e∈c'.since x.captured at he
    rw [hsince] at he
    obtain rfl | he := List.mem_cons.mp he
    · rfl
    · exact hcurrent e he

lemma Valid.activate (h : Valid c) (hx : c.observers.get? o=some x) (fails : Bool) : Valid (c.activate o x fails) := by
  unfold Client.activate
  split
  · exact h.drop o
  rename_i hinvalid
  split
  · exact (h.advance (.publication o) fun _ => nofun).drop o
  have hvalid : c.scanTokenValid x.token=true := by
    simp only [Bool.or_eq_true,Bool.not_eq_true',not_or,Bool.not_eq_false] at hinvalid
    exact hinvalid.1
  have hcurrent := (h.current hx hvalid).2
  have hcertified : Valid {c with
      marker := some false
      certifiedAt := x.captured
      certifications := c.certifications+1} := by
    refine ⟨h.counted,fun o x hx => {h.tracked o x hx with},h.saved,(h.tracked o x hx).captured,fun _ e he => ?_⟩
    rw [hcurrent e he]
    nofun
  exact (hcertified.advance (.publication o) fun _ => nofun).drop o

lemma Valid.step {c' : Client} {op : ClientOp} (h : Valid c) (hstep : step c op=some c') : Valid c' := by
  cases op with
  | setBackendQualified qualified =>
    cases hstep
    exact h.setBackendQualified qualified
  | openPushSession persists =>
    cases hstep
    exact h.openPushSession persists
  | notePushEvent | setAttrRetries waiting | storeWrite op =>
    cases hstep
    exact {h with tracked := fun o x hx => {h.tracked o x hx with}}
  | recordBaselineDebt persists =>
    cases hstep
    exact h.recordBaselineDebt persists
  | markBaselineIncomplete persists =>
    cases hstep
    unfold Client.markBaselineIncomplete
    split
    · exact {h with tracked := fun o x hx => {h.tracked o x hx with}, clear := fun hm => absurd rfl hm}
    · exact h
  | startScan o =>
    simp only [Fence.step] at hstep
    split_ifs at hstep
    · cases hstep
      exact h.put (h.fresh rfl rfl)
  | takeScanResume o usable =>
    obtain ⟨x,hx,rfl⟩ := map_eq_some_iff.mp hstep
    exact h.takeScanResume (h.tracked o x (reader_some hx).1) usable
  | captureStoreEpoch o =>
    obtain ⟨x,hx,rfl⟩ := map_eq_some_iff.mp hstep
    exact h.put {h.tracked o x hx with}
  | settleStoreEpoch o =>
    obtain ⟨x,hx,rfl⟩ := map_eq_some_iff.mp hstep
    exact h.settleStoreEpoch (h.tracked o x (reader_some hx).1)
  | saveScanResume o =>
    obtain ⟨x,hx,rfl⟩ := map_eq_some_iff.mp hstep
    obtain ⟨hx,hreading⟩ := reader_some hx
    have hdropped := h.drop o
    have ht := h.tracked o x hx
    refine {hdropped with tracked := fun o x hx => {hdropped.tracked o x hx with}, saved := fun p hp => ?_}
    change (if x.kind=.scan then some (PartialScan.mk x.token x.captured) else c.scanResume)=some p at hp
    split at hp
    · cases hp
      exact ⟨ht.reading hreading,ht.captured⟩
    · exact h.saved p hp
  | startReconcile o generation =>
    simp only [Fence.step] at hstep
    split at hstep
    · cases hstep
    split at hstep
    · cases hstep
      exact h
    · cases hstep
      exact h.put (h.fresh rfl rfl)
  | finishReading o =>
    obtain ⟨x,hx,rfl⟩ := map_eq_some_iff.mp hstep
    obtain ⟨hx,_⟩ := reader_some hx
    have ht := h.tracked o x hx
    split
    · exact h.drop o
    · exact h.put ⟨ht.captured,ht.counted,by simp,ht.current⟩
  | fencedScanMutation o change fails =>
    obtain ⟨x,hx,rfl⟩ := map_eq_some_iff.mp hstep
    obtain ⟨hx,hreading⟩ := filter_eq_some_iff.mp hx
    exact h.fencedScanMutation hx (by simpa using hreading) change fails
  | noteDirectoryChanged o =>
    obtain ⟨x,hx,rfl⟩ := map_eq_some_iff.mp hstep
    split
    · exact (h.advance (.publication o) (by simp)).drop o
    · exact h.drop o
  | stage o =>
    obtain ⟨x,hx,rfl⟩ := map_eq_some_iff.mp hstep
    split
    · exact h.put {h.tracked o x (publisher_some hx).1 with}
    · exact h.drop o
  | activate o fails =>
    obtain ⟨x,hx,rfl⟩ := map_eq_some_iff.mp hstep
    exact h.activate (publisher_some (filter_eq_some_iff.mp hx).1).1 fails
  | abandon o =>
    cases hstep
    exact h.drop o
  | restart =>
    cases hstep
    exact ⟨Nat.zero_add _,fun _ _ hx => (by cases hx),fun _ hp => (by cases hp),h.certified,h.clear⟩

end Steps

/-- In every run: a chunk is written, and a baseline certified, only if the backend is admitted and everything
since the token was captured (for a resumed SCAN: since that of its first batch) was published by the
observer itself. The marker is clear only if no debt was persisted since the token of the last certified
SCAN was captured. -/
theorem stale_observation_not_published {ops : List ClientOp} {c : Client} (hrun : run step {} ops = some c) :
    (∀ o change fails c',step c (.fencedScanMutation o change fails) = some c' → c'.store ≠ c.store →
      ∃ x,c.observers.get? o = some x ∧ c.backendAdmitted x.token.backend = true ∧
        ∀ e ∈ c.since x.captured,e = .publication o) ∧
    (∀ o fails c',step c (.activate o fails) = some c' → c'.certifications ≠ c.certifications →
      ∃ x,c.observers.get? o = some x ∧ c.backendAdmitted x.token.backend = true ∧
        ∀ e ∈ c.since x.captured,e = .publication o) ∧
    (c.marker ≠ some true → ∀ e ∈ c.since c.certifiedAt,e ≠ .debtRecorded true) := by
  have hvalid : Valid c := by
    refine run_invariant (fun c op c' h hstep => h.step hstep) ?_ hrun
    exact ⟨rfl,nofun,nofun,le_rfl,fun _ e he => by cases he⟩
  refine ⟨fun o change fails c' hstep hstore => ?_,fun o fails c' hstep hcertified => ?_,hvalid.clear⟩
  · obtain ⟨x,hx,rfl⟩ := map_eq_some_iff.mp hstep
    have hx := (filter_eq_some_iff.mp hx).1
    refine ⟨x,hx,hvalid.current hx ?_⟩
    by_contra hinvalid
    refine hstore ?_
    unfold Client.fencedScanMutation
    rw [if_pos (by simpa using hinvalid)]
    rfl
  · obtain ⟨x,hx,rfl⟩ := map_eq_some_iff.mp hstep
    have hx := (publisher_some (filter_eq_some_iff.mp hx).1).1
    refine ⟨x,hx,hvalid.current hx ?_⟩
    by_contra hinvalid
    refine hcertified ?_
    unfold Client.activate
    rw [if_pos (by simp [hinvalid])]
    rfl

/-- A SCAN whose first attempt did not finish is resumed and writes one chunk. -/
def resumedScan : List ClientOp :=
  [.startScan 1,.captureStoreEpoch 1,.settleStoreEpoch 1,.saveScanResume 1,.startScan 2,.takeScanResume 2 true,
    .captureStoreEpoch 2,.settleStoreEpoch 2,.finishReading 2,
    .fencedScanMutation 2 (.upsert [⟨[['a']],false,3,5,0,false,false,.zero,0⟩] {} []) false,.stage 2]

theorem stale_observation_not_published_resumed : ∃ c c',run step {} resumedScan = some c ∧
    step c (.activate 2 false) = some c' ∧ c'.certifications = 1 ∧ c'.marker = some false ∧
    ∃ x,c.observers.get? 2 = some x ∧ x.captured = 0 ∧ c.since x.captured ≠ [] ∧ ∀ e ∈ c.since x.captured,e = .publication 2 := by
  obtain ⟨c,hc,hview⟩ := (Option.any_eq_true _ _).mp (show (run step {} resumedScan).any (fun c =>
    c.certifications=0 && (step c (.activate 2 false)).any (fun c' => c'.certifications=1 && c'.marker=some false) &&
      (c.observers.get? 2).any (fun x => x.captured=0 && c.since x.captured≠[])) = true by decide +kernel)
  simp only [Bool.and_eq_true,decide_eq_true_eq,Option.any_eq_true] at hview
  obtain ⟨⟨hbefore,c',hc',hafter,hmarker⟩,x,hx,hcaptured,hsince⟩ := hview
  obtain ⟨y,hy,_,hown⟩ := (stale_observation_not_published hc).2.1 2 false c' hc' (by rw [hafter,hbefore]; decide)
  rw [hx,Option.some.injEq] at hy
  subst y
  exact ⟨c,c',hc,hc',hafter,hmarker,x,hx,hcaptured,hsince,hown⟩

/-- A debt that cannot be persisted is recorded after a certified SCAN, and the marker stays clear. -/
theorem unpersisted_debt_leaves_marker_clear : ∃ c,run step {} [.startScan 1,.captureStoreEpoch 1,.settleStoreEpoch 1,
    .finishReading 1,.stage 1,.activate 1 false,.recordBaselineDebt false] = some c ∧
    c.certifications = 1 ∧ c.marker = some false ∧ .debtRecorded false ∈ c.since c.certifiedAt := by
  refine ⟨_,rfl,?_,?_,?_⟩
  all_goals decide +kernel

end JuiceMount.Metadata.Fence
