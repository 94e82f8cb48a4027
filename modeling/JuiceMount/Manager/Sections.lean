import JuiceMount.Manager.Operations

/-! The operation that a step of the Manager carries out, and what becomes of the waiting calls. -/
namespace JuiceMount.Manager
open List World
open RespProxy (Bytes ascii)

def Act.io : Act → Io
  | .poll _ io => io
  | .enroll _ _ _ => {}
  | .enrollEnd _ _ _ _ _ io _ => io
  | .approve _ => {}
  | .approveProof _ _ io => io
  | .approveKey _ io _ => io
  | .approveWait _ _ _ io _ => io
  | .approveCommit _ _ io => io
  | .revoke _ _ io => io
  | .syncKeys io _ => io
  | .forget _ io => io
  | .pass _ io => io
  | .passProof _ _ io => io
  | .passCommit _ _ io => io
  | .closeWindow _ io => io
  | .openWindow _ _ => {}
  | .windowProof _ _ io => io
  | .windowSet _ _ io => io
  | .reconcile _ io _ => io
  | .removeOrphans _ io _ => io
  | .macPerson _ _ _ io => io
  | .people _ _ io => io
  | .syncPeople io => io
  | .restart io _ _ _ _ _ _ => io

section
variable {cfg : Config} {w w' : World} {io : Io} {a : Act}

def Aside (w w' : World) : Prop := w'.calls=w.calls ∧ w'.answers=w.answers

lemma requestKey_aside (k : Keyd) (name : Bytes) : Aside w (w.requestKey io k name).1 := by
  unfold requestKey
  dsimp only
  repeat' split
  all_goals exact ⟨rfl,rfl⟩

lemma approveCommit_aside (name : Bytes) (now : ℤ) : Aside w (w.approveCommit cfg io name now) := by
  unfold approveCommit
  repeat' split
  all_goals exact ⟨rfl,rfl⟩

lemma passCommit_aside (now : ℤ) (batch : List Candidate) : Aside w (w.passCommit cfg io now batch) := by
  unfold passCommit
  dsimp only
  repeat' split
  all_goals exact ⟨rfl,rfl⟩

lemma revoke_aside (name : Bytes) (now : ℤ) : Aside w (w.revoke io name now) := by
  unfold revoke
  split <;> exact ⟨rfl,rfl⟩

lemma forget_aside (name : Bytes) : Aside w (w.forget io name) := by
  unfold forget
  repeat' split
  all_goals exact ⟨rfl,rfl⟩

lemma removeOrphans_aside (k : Keyd) (names : List Bytes) : Aside w (w.removeOrphans io k names) := by
  unfold removeOrphans
  dsimp only
  repeat' split
  all_goals exact ⟨rfl,rfl⟩

lemma noteMac_aside (k : ℕ) (rec next : Mac) : Aside w (w.noteMac io k rec next) := by
  unfold noteMac
  split <;> exact ⟨rfl,rfl⟩

lemma macPerson_aside (id token device : Bytes) : Aside w (w.macPerson cfg io id token device) := by
  unfold macPerson
  split
  · exact ⟨rfl,rfl⟩
  · split
    · exact ⟨rfl,rfl⟩
    · exact noteMac_aside 0 _ _

lemma changePeople_aside (op : PeopleOp) (scope : Bool) : Aside w (w.changePeople cfg io op scope).1 := by
  unfold changePeople
  repeat' split
  all_goals exact ⟨rfl,rfl⟩

lemma syncPeople_aside : Aside w (w.syncPeople io) := by
  unfold syncPeople
  dsimp only
  split <;> exact ⟨rfl,rfl⟩

lemma noteOn_aside (k : ℕ) (name : Bytes) (f : Mac → Mac) : Aside w (w.noteOn io k name f) := by
  unfold noteOn
  split
  · exact ⟨rfl,rfl⟩
  · exact noteMac_aside k _ _

lemma poll_calls (e : Enrolment) : (w.poll cfg io e).calls=w.calls := by
  have hnotes : (w.pollNotes cfg io e).calls=w.calls := by
    unfold pollNotes
    dsimp only
    rw [(noteOn_aside 2 e.name _).1,(noteOn_aside 1 e.name _).1,(noteOn_aside 0 e.name _).1]
  unfold poll
  split
  · rfl
  · split
    · rfl
    · dsimp only
      split <;> exact hnotes

lemma reenroll_calls (e : Enrolment) (old : Mac) (token : Bytes) : (w.reenroll cfg io e old token).calls=w.calls := by
  unfold reenroll
  dsimp only
  repeat' split
  all_goals rfl

lemma enrollNew_calls (k : Keyd) (e : Enrolment) (ip : Bytes) (salt : ℕ) (token : Bytes) (now : ℤ) :
    (w.enrollNew cfg io k e ip salt token now).calls=w.calls := by
  unfold enrollNew
  dsimp only
  split
  · rfl
  · split
    · rfl
    · split
      · rfl
      · split <;> rfl

/-- A call as a step starts it or carries it on. -/
inductive NewCall (cfg : Config) (w : World) : Call → Prop
  | enroll (q : EnrollRequest) (e : Enrolment) (ip : Bytes) (old : Option Mac) (parsed : q.parse cfg=some e) :
      NewCall cfg w (.enroll e ip old)
  | approve (name : Bytes) (stage : Stage) : NewCall cfg w (.approve name stage)
  | batch : NewCall cfg w (.pass (World.candidates w.mem) false)
  | proven (batch : List Candidate) (waiting : Call.pass batch false∈w.calls) : NewCall cfg w (.pass batch true)
  | window (length : ℤ) (limit : ℕ) (proven : Bool) : NewCall cfg w (.window length limit proven)

def World.reconcileKeys (io : Io) (k : Keyd) (now : ℤ) (w : World) : World :=
  let c := reconcileObjKeys io k now false w.mem w.files
  { w with mem := c.1, files := c.2.1 }

/-- The step is a call of `SetAutoApproveWindow` that succeeds. -/
def Act.sets (s : Store) : Act → Bool
  | .closeWindow _ io => !(s.objk.isSome && !io.gens) && io.store 0
  | .windowSet _ _ io => !(s.objk.isSome && !io.gens) && io.store 0
  | _ => false

/-- The operation of a step. Steps that only start, carry on or end a call are idle. -/
inductive Section (cfg : Config) (w : World) : Act → World → Prop
  | idle (a : Act) (sets : a.sets w.mem=false) : Section cfg w a w
  | reload (a : Act) (sets : a.sets w.mem=false) : Section cfg w a (w.requestReload a.io).1
  | poll (q : EnrollRequest) (e : Enrolment) (io : Io) (parsed : q.parse cfg=some e) :
      Section cfg w (.poll q io) (w.poll cfg io e)
  | reenroll (i : ℕ) (slot : Bool) (salt : ℕ) (token : Bytes) (now : ℤ) (io : Io) (k : Keyd) (e : Enrolment) (ip : Bytes) (old : Mac)
      (call : w.calls[i]? = some (.enroll e ip (some old))) :
      Section cfg w (.enrollEnd i slot salt token now io k) (w.reenroll cfg io e old token)
  | enrollNew (i : ℕ) (slot : Bool) (salt : ℕ) (token : Bytes) (now : ℤ) (io : Io) (k : Keyd) (e : Enrolment) (ip : Bytes)
      (call : w.calls[i]? = some (.enroll e ip none)) :
      Section cfg w (.enrollEnd i slot salt token now io k) (w.enrollNew cfg io k e ip salt token now)
  | requestKey (i : ℕ) (io : Io) (k : Keyd) (name : Bytes) : Section cfg w (.approveKey i io k) (w.requestKey io k name).1
  | approveWait (i : ℕ) (expired : Bool) (now : ℤ) (io : Io) (k : Keyd) :
      Section cfg w (.approveWait i expired now io k) (w.reconcileKeys io k now)
  | approveCommit (i : ℕ) (now : ℤ) (io : Io) (name : Bytes) :
      Section cfg w (.approveCommit i now io) (w.approveCommit cfg io name now)
  | revoke (name : Bytes) (now : ℤ) (io : Io) : Section cfg w (.revoke name now io) (w.revoke io name now)
  | syncKeys (io : Io) (k : Keyd) : Section cfg w (.syncKeys io k) (w.syncKeys io k)
  | forget (name : Bytes) (io : Io) : Section cfg w (.forget name io) (w.forget io name)
  | pass (now : ℤ) (io : Io) : Section cfg w (.pass now io) (w.passStart io now)
  | passCommit (i : ℕ) (now : ℤ) (io : Io) (batch : List Candidate) (call : w.calls[i]? = some (.pass batch true)) :
      Section cfg w (.passCommit i now io) (w.passCommit cfg io now batch)
  | closeWindow (now : ℤ) (io : Io) : Section cfg w (.closeWindow now io) (w.setWindow io 0 0 now)
  | windowSet (i : ℕ) (now : ℤ) (io : Io) (length : ℤ) (limit : ℕ) :
      Section cfg w (.windowSet i now io) (w.setWindow io length limit now)
  | reconcile (now : ℤ) (io : Io) (k : Keyd) : Section cfg w (.reconcile now io k) (w.reconcileKeys io k now)
  | removeOrphans (names : List Bytes) (io : Io) (k : Keyd) :
      Section cfg w (.removeOrphans names io k) (w.removeOrphans io k names)
  | macPerson (instanceID token device : Bytes) (io : Io) :
      Section cfg w (.macPerson instanceID token device io) (w.macPerson cfg io instanceID token device)
  | people (op : PeopleOp) (scope : Bool) (io : Io) : Section cfg w (.people op scope io) (w.changePeople cfg io op scope).1
  | syncPeople (io : Io) : Section cfg w (.syncPeople io) (w.syncPeople io)
  | restart (io io' : Io) (k : Keyd) (now : ℤ) (perMac adopt : Bool) (gens : GoMap Bytes ℕ) (v : World)
      (starts : w.restart cfg io io' k now perMac adopt gens=some v) :
      Section cfg w (.restart io io' k now perMac adopt gens) v

theorem Section.answers {v : World} (h : Section cfg w a v) :
    v.answers=w.answers ∨ (∃ q io, a=.poll q io) ∨ ∃ i slot salt token now io k, a=.enrollEnd i slot salt token now io k := by
  cases h with
  | poll q e io _ => exact .inr (.inl ⟨q,io,rfl⟩)
  | reenroll i slot salt token now io k _ _ _ _ | enrollNew i slot salt token now io k _ _ _ =>
    exact .inr (.inr ⟨i,slot,salt,token,now,io,k,rfl⟩)
  | requestKey _ _ k name => exact .inl (requestKey_aside k name).2
  | approveCommit _ now _ name => exact .inl (approveCommit_aside name now).2
  | revoke name now _ => exact .inl (revoke_aside name now).2
  | forget name _ => exact .inl (forget_aside name).2
  | pass now io =>
    refine .inl ?_
    unfold passStart
    repeat' split
    all_goals rfl
  | passCommit _ now _ batch _ => exact .inl (passCommit_aside now batch).2
  | removeOrphans names _ k => exact .inl (removeOrphans_aside k names).2
  | macPerson instanceID token device _ => exact .inl (macPerson_aside instanceID token device).2
  | people op scope _ => exact .inl (changePeople_aside op scope).2
  | syncPeople _ => exact .inl syncPeople_aside.2
  | restart io io' k now perMac adopt gens _ starts =>
    unfold World.restart at starts
    dsimp only at starts
    repeat' split at starts
    all_goals cases starts
    exact .inl rfl
  | _ => exact .inl rfl

/-- The step is an operation, and leaves the calls that waited, as far as they go on, and those it starts or carries on. -/
def Carries (cfg : Config) (w : World) (a : Act) (w' : World) : Prop :=
  ∃ v l, Section cfg w a v ∧ w' = { v with calls := l } ∧ ∀ c∈l, c∈w.calls ∨ NewCall cfg w c

lemma step_section (h : w.step cfg a=some w') : Carries cfg w a w' := by
  have hsame : ∀ {v : World}, Section cfg w a v → v.calls=w.calls → Carries cfg w a v :=
    fun {v} hv hcalls => ⟨v,v.calls,hv,rfl,fun c hc => .inl (hcalls ▸ hc)⟩
  have hadd : ∀ {d : Call}, a.sets w.mem=false → NewCall cfg w d → Carries cfg w a {w with calls := w.calls++[d]} := by
    intro d hsets hd
    refine ⟨w,w.calls++[d],.idle a hsets,rfl,fun c hc => (mem_append.mp hc).imp_right fun hc => ?_⟩
    exact mem_singleton.mp hc ▸ hd
  have hset : ∀ {v : World} {i : ℕ} {d : Call}, Section cfg w a v → v.calls=w.calls → NewCall cfg w d →
      Carries cfg w a (v.continue_ i d) := by
    intro v i d hv hcalls hd
    refine ⟨v,v.calls.set i d,hv,rfl,fun c hc => ?_⟩
    rw [hcalls] at hc
    rcases mem_or_eq_of_mem_set hc with hc | rfl
    · exact .inl hc
    · exact .inr hd
  have herase : ∀ {v : World} {i : ℕ}, Section cfg w a v → v.calls=w.calls → Carries cfg w a (v.finish i) :=
    fun {v} {i} hv hcalls => ⟨v,v.calls.eraseIdx i,hv,rfl,fun c hc => .inl (hcalls ▸ mem_of_mem_eraseIdx hc)⟩
  cases a with
  | poll q io =>
    obtain ⟨e,he,h⟩ := Option.bind_eq_some_iff.mp h
    split_ifs at h
    cases h
    exact hsame (.poll q e io he) (poll_calls e)
  | enroll q ip now =>
    obtain ⟨e,he,h⟩ := Option.bind_eq_some_iff.mp h
    split_ifs at h
    cases h
    unfold enrollStart
    dsimp only
    split
    · exact hsame (.idle _ rfl) rfl
    · exact hadd rfl (.enroll q e ip _ he)
  | enrollEnd i slot salt token now io k =>
    change w.enrollSection cfg i slot salt token now io k=some w' at h
    unfold enrollSection at h
    split at h
    case h_2 => cases h
    rename_i e ip existing hcall
    split at h
    · cases h
      exact herase (.idle _ rfl) rfl
    · split at h
      · cases h
        exact herase (.reenroll i slot salt token now io k e ip _ hcall) (reenroll_calls e _ token)
      · cases h
        exact herase (.enrollNew i slot salt token now io k e ip hcall) (enrollNew_calls k e ip salt token now)
  | approve name =>
    obtain ⟨r,-,h⟩ := Option.map_eq_some_iff.mp h
    cases h
    exact hadd rfl (.approve _ _)
  | approveProof i live io =>
    change w.approveProof i live io=some w' at h
    unfold approveProof at h
    split at h
    · cases h
      split
      · exact hset (.reload _ rfl) rfl (.approve _ _)
      · exact herase (.reload _ rfl) rfl
    · cases h
  | approveKey i io k =>
    change w.approveKey i io k=some w' at h
    unfold approveKey at h
    split at h
    · rename_i name hcall
      cases h
      split
      · exact hset (.requestKey i io k name) (requestKey_aside k name).1 (.approve _ _)
      · exact herase (.requestKey i io k name) (requestKey_aside k name).1
    · cases h
  | approveWait i expired now io k =>
    change w.approveWait i expired now io k=some w' at h
    unfold approveWait at h
    have hwait : Section cfg w (.approveWait i expired now io k) (w.reconcileKeys io k now) := .approveWait i expired now io k
    split at h
    case h_2 => cases h
    dsimp only at h
    repeat' split at h
    all_goals cases h
    · exact herase hwait rfl
    · exact herase hwait rfl
    · exact hset hwait rfl (.approve _ _)
    · exact herase hwait rfl
    · exact hsame hwait rfl
  | approveCommit i now io =>
    change w.approveEnd cfg i now io=some w' at h
    unfold approveEnd at h
    split at h
    · cases h
      exact herase (.approveCommit i now io _) (approveCommit_aside _ now).1
    · cases h
  | revoke name now io =>
    cases h
    exact hsame (.revoke name now io) (revoke_aside name now).1
  | syncKeys io k =>
    cases h
    exact hsame (.syncKeys io k) rfl
  | forget name io =>
    cases h
    exact hsame (.forget name io) (forget_aside name).1
  | pass now io =>
    cases h
    refine ⟨w.passStart io now,(w.passStart io now).calls,.pass now io,rfl,fun c hc => ?_⟩
    unfold passStart at hc
    split at hc
    · split at hc
      · exact .inl hc
      · rcases mem_append.mp hc with hc | hc
        · exact .inl hc
        · cases mem_singleton.mp hc
          exact .inr .batch
    · split at hc <;> exact .inl hc
  | passProof i live io =>
    change w.passProof i live io=some w' at h
    unfold passProof at h
    split at h
    · rename_i batch hcall
      cases h
      split
      · exact hset (.reload _ rfl) rfl (.proven batch (mem_of_getElem? hcall))
      · exact herase (.reload _ rfl) rfl
    · cases h
  | passCommit i now io =>
    change w.passEnd cfg i now io=some w' at h
    unfold passEnd at h
    split at h
    · rename_i batch hcall
      cases h
      exact herase (.passCommit i now io batch hcall) (passCommit_aside now batch).1
    · cases h
  | closeWindow now io =>
    cases h
    exact hsame (.closeWindow now io) rfl
  | openWindow length limit =>
    change (if _ then _ else none)=some w' at h
    split_ifs at h
    cases h
    exact hadd rfl (.window _ _ _)
  | windowProof i live io =>
    change w.windowProof i live io=some w' at h
    unfold windowProof at h
    split at h
    · cases h
      split
      · exact hset (.reload _ rfl) rfl (.window _ _ _)
      · exact herase (.reload _ rfl) rfl
    · cases h
  | windowSet i now io =>
    change w.windowEnd i now io=some w' at h
    unfold windowEnd at h
    split at h
    · cases h
      exact herase (.windowSet i now io _ _) rfl
    · cases h
  | reconcile now io k =>
    cases h
    exact hsame (.reconcile now io k) rfl
  | removeOrphans names io k =>
    cases h
    exact hsame (.removeOrphans names io k) (removeOrphans_aside k names).1
  | macPerson instanceID token device io =>
    cases h
    exact hsame (.macPerson instanceID token device io) (macPerson_aside instanceID token device).1
  | people op scope io =>
    cases h
    exact hsame (.people op scope io) (changePeople_aside op scope).1
  | syncPeople io =>
    cases h
    exact hsame (.syncPeople io) syncPeople_aside.1
  | restart io io' k now perMac adopt gens =>
    refine ⟨w',w'.calls,.restart io io' k now perMac adopt gens w' h,rfl,fun c hc => ?_⟩
    change w.restart cfg io io' k now perMac adopt gens=some w' at h
    unfold restart at h
    dsimp only at h
    repeat' split at h
    all_goals cases h
    cases hc

/-- A call that waits after the step waited before it, or the step started it or carried it on. -/
theorem step_calls (h : w.step cfg a=some w') {c : Call} (hc : c∈w'.calls) : c∈w.calls ∨ NewCall cfg w c := by
  obtain ⟨v,l,-,rfl,hcalls⟩ := step_section h
  exact hcalls c hc

/-! ### Waiting enrolments -/

def Parsed (cfg : Config) (w : World) : Prop :=
  ∀ e ip existing, Call.enroll e ip existing∈w.calls → ∃ q : EnrollRequest, q.parse cfg=some e

lemma Parsed.step (hparsed : Parsed cfg w) (h : w.step cfg a=some w') : Parsed cfg w' := by
  intro e ip old hc
  rcases step_calls h hc with hold | hnew
  · exact hparsed e ip old hold
  · cases hnew with
    | enroll q e ip old parsed => exact ⟨q,parsed⟩

end

end JuiceMount.Manager
