import JuiceMount.Manager.Moves

/-! What a step of the Manager does to the Macs of the auto-approve window: the window admits a new
Mac, a pass approves some that wait, a new window lets all of them go, and every other step leaves
each record as it stands or takes it out of the window. -/
namespace JuiceMount.Manager
open List Keyed World
open RespProxy (Bytes ascii)

section
variable {cfg : Config} {w w' : World} {io : Io}

variable {s : Store} {r : Mac}

lemma commitAs_tamed (hnodup : (w.mem.recs.map Mac.name).Nodup) (h : Tamed w.mem s) (io : Io) (changed : Bool) :
    Tamed w.mem (w.commitAs io changed s).1.mem := by
  change Tamed w.mem (if (commit io changed s w.files).2 then s else w.mem)
  split
  · exact h
  · exact .refl hnodup

lemma approveCommit_tamed (hnodup : (w.mem.recs.map Mac.name).Nodup) (name : Bytes) (now : ℤ) :
    Tamed w.mem (w.approveCommit cfg io name now).mem := by
  -- whoever inherits or marks, the record is approved and not by the window
  have hdone : ∀ (cur p : Mac), p.candidate=cur.candidate → p.sourceIP=cur.sourceIP → p.status=.approved →
      p.autoApproved=false → Tame cur (w.mem.inheritPerson (markSharedKeyIssued cfg w.mem p)).1 := by
    intro cur p hwho hip hstatus hauto
    have hp : Tame cur p := .decided hwho hip (by rw [hstatus]; exact fun h => by cases h) hauto
    refine hp.trans ((Tame.ofStanding (congrArg Prod.snd (markSharedKeyIssued_face cfg w.mem p))).trans (.ofStanding ?_))
    unfold Store.inheritPerson
    split <;> rfl
  unfold approveCommit
  split
  · exact .refl hnodup
  rename_i cur hcur
  split
  · exact .refl hnodup
  · rename_i next changed hnext
    refine commitAs_tamed hnodup (.put hnodup (mac_mem hcur) ?_) io changed
    unfold approveRecord at hnext
    split at hnext
    · rename_i hstatus
      have hstep := hdone cur {cur with autoApproved := false} rfl rfl hstatus rfl
      rw [Option.some.inj hnext] at hstep
      exact hstep
    · split_ifs at hnext
      · cases hnext
        exact hdone cur _ rfl rfl rfl rfl

lemma revoke_tamed (hnodup : (w.mem.recs.map Mac.name).Nodup) (name : Bytes) (now : ℤ) :
    Tamed w.mem (w.revoke io name now).mem := by
  unfold revoke
  split
  · exact .refl hnodup
  rename_i cur hcur
  refine commitAs_tamed hnodup (.put hnodup (mac_mem hcur) ?_) io _
  unfold revoked
  split
  · exact .ofStanding rfl
  · exact .decided rfl rfl (fun h => by cases h) rfl

lemma forget_tamed (hnodup : (w.mem.recs.map Mac.name).Nodup) (name : Bytes) : Tamed w.mem (w.forget io name).mem := by
  unfold forget
  split
  · exact .refl hnodup
  · split
    · exact .refl hnodup
    · have hdrop : Tamed w.mem (w.mem.dropMac name) :=
        ⟨nodup_drop hnodup name,rfl,fun r hr => ⟨r,(mem_drop.mp hr).1,.refl r⟩⟩
      exact commitAs_tamed hnodup hdrop io false

lemma dropAdmissions_waits (h : r∈(dropAdmissions s).recs) : r.waits=false := by
  obtain ⟨q,-,rfl⟩ := mem_map.mp h
  split
  · simp [Mac.waits]
  · rename_i hq
    simpa [Mac.waits] using hq

lemma change_tamed {s s' : Store} {op : PeopleOp} (hnodup : (s.recs.map Mac.name).Nodup) (h : s.change cfg op=some s') :
    Tamed s s' := by
  cases op with
  | create random name now =>
    change s.createPerson cfg random name now=some s' at h
    unfold Store.createPerson at h
    dsimp only at h
    split_ifs at h
    · cases h
      exact .ofRecs hnodup rfl rfl
  | update id name access =>
    change s.updatePerson id name access=some s' at h
    unfold Store.updatePerson at h
    dsimp only at h
    repeat' split at h
    all_goals cases h
    all_goals exact .ofRecs hnodup rfl rfl
  | restrict on =>
    cases h
    exact .ofRecs hnodup rfl rfl
  | delete id =>
    change s.deletePerson id=some s' at h
    unfold Store.deletePerson at h
    split at h
    · cases h
    · cases h
      refine .map hnodup (fun r => .ofStanding ?_) rfl rfl
      split <;> rfl
  | assign device person =>
    change s.assignDevice device person=some s' at h
    unfold Store.assignDevice at h
    split at h
    · cases h
    · rename_i r hr
      split_ifs at h
      · cases h
        exact .put hnodup (mac_mem hr) (.ofStanding rfl)
  | addGrant id path view =>
    change s.addGrant cfg id path view=some s' at h
    unfold Store.addGrant at h
    repeat' split at h
    all_goals cases h
    all_goals exact .ofRecs hnodup rfl rfl
  | removeGrant id path =>
    change s.removeGrant cfg id path=some s' at h
    unfold Store.removeGrant at h
    dsimp only at h
    repeat' split at h
    all_goals cases h
    all_goals exact .ofRecs hnodup rfl rfl

lemma changePeople_tamed (hnodup : (w.mem.recs.map Mac.name).Nodup) (op : PeopleOp) (scope : Bool) :
    Tamed w.mem (w.changePeople cfg io op scope).1.mem := by
  unfold changePeople
  split
  · exact .refl hnodup
  · rename_i s hs
    split
    · exact .refl hnodup
    · exact commitAs_tamed hnodup (change_tamed hnodup hs) io true

/-! ### Enrolment, approval by a pass, and a new window -/

lemma saveStore_ok (io : Io) (k : ℕ) (s : Store) (f : Files) :
    (saveStore io k s f).2=(!(s.objk.isSome && !io.gens) && io.store k) := by
  unfold saveStore
  split
  · rename_i h
    rw [h]
    rfl
  · rename_i h
    rw [Bool.not_eq_true] at h
    rw [h]
    cases io.store k <;> rfl

/-- A new record `m`, counted by the window if the window admits it. -/
structure Entered (s s' : Store) (m : Mac) (now : ℤ) : Prop where
  new : ∀ r∈s.recs, r.name≠m.name
  auto : m.auto=false
  nodup : (s'.recs.map Mac.name).Nodup
  origin : ∀ r'∈s'.recs, (∃ r∈s.recs, Tame r r') ∨ Tame m r'
  window : (s'.window=s.window ∧ m.waits=false) ∨
    (s'.window = (s.countAuto m.sourceIP).window ∧ s.autoApprovable now m.sourceIP=true)

lemma entered_standing {s s' : Store} {m m' : Mac} {ip : Bytes} {auto : Bool} (hm : m.autoApprovePending=false)
    (h : (if auto then admitted s m ip else some (s,m))=some (s',m')) :
    m'.autoApprovePending=auto ∧ s'.window=if auto then (s.countAuto ip).window else s.window := by
  cases auto with
  | false =>
    cases h
    exact ⟨hm,rfl⟩
  | true =>
    rw [if_pos rfl] at h
    unfold admitted at h
    split at h
    · cases h
      exact ⟨rfl,rfl⟩
    · split at h
      · cases h
      · cases h
        exact ⟨rfl,rfl⟩

lemma enrollNew_entered (hnodup : (w.mem.recs.map Mac.name).Nodup) (k : Keyd) (e : Enrolment) (ip : Bytes) (salt : ℕ)
    (token : Bytes) (now : ℤ) : Tamed w.mem (w.enrollNew cfg io k e ip salt token now).mem ∨
      ∃ m, Entered w.mem (w.enrollNew cfg io k e ip salt token now).mem m now := by
  unfold enrollNew
  split
  · exact .inl (.refl hnodup)
  rename_i hnone
  dsimp only
  split
  · exact .inl (.refl hnodup)
  · split
    · exact .inl (.refl hnodup)
    · rename_i s m hentered
      obtain ⟨hrecs,-,-,hre⟩ := entered_fields hentered
      obtain ⟨hflag,hwindow⟩ := entered_standing rfl hentered
      have hname : m.name=e.name := by
        rw [hre]
        rfl
      have hnew : ∀ r∈w.mem.recs, r.name≠m.name := by
        rw [hname]
        exact find_eq_none.mp (Option.not_isSome_iff_eq_none.mp hnone)
      have hput : (s.putMac m).recs=w.mem.recs++[m] := by
        change Keyed.put Mac.name s.recs m=_
        rw [hrecs,put_new hnew]
      have hsaved := Tamed.ofKeys (nodup_put (hrecs ▸ hnodup) m)
        (enrollSave_keys io k (w.mem.autoApprovable now ip) (s.putMac m) w.files).1
      generalize enrollSave io k (w.mem.autoApprovable now ip) (s.putMac m) w.files=saved at hsaved
      have horigin : ∀ r'∈saved.1.recs, (∃ r∈w.mem.recs, Tame r r') ∨ Tame m r' := by
        intro r' hr'
        obtain ⟨r,hr,ht⟩ := hsaved.origin r' hr'
        rw [hput] at hr
        rcases mem_append.mp hr with hr | hr
        · exact .inl ⟨r,hr,ht⟩
        · exact .inr (mem_singleton.mp hr ▸ ht)
      split
      · have hip : m.sourceIP=ip := by
          rw [hre]
          rfl
        refine .inr ⟨m,hnew,?_,hsaved.nodup,horigin,?_⟩
        · rw [hre]
          rfl
        · change (saved.1.window=_ ∧ _) ∨ (saved.1.window=_ ∧ _)
          rw [hsaved.window.trans hwindow,hip]
          cases hauto : w.mem.autoApprovable now ip with
          | false =>
            refine .inl ⟨rfl,?_⟩
            rw [hauto] at hflag
            rw [Mac.waits,hflag,Bool.and_false]
          | true => exact .inr ⟨rfl,rfl⟩
      · have hundo : Tamed w.mem {saved.1.dropMac e.name with window := w.mem.window} := by
          refine ⟨nodup_drop hsaved.nodup e.name,rfl,fun r' hr' => ?_⟩
          obtain ⟨hr',hne⟩ := mem_drop.mp hr'
          rcases horigin r' hr' with horig | ht
          · exact horig
          · exact absurd (ht.name.trans hname) hne
        refine .inl ?_
        change Tamed w.mem (enrollUndo io _ e.name w.mem.window saved.1 saved.2.1).1
        unfold enrollUndo
        dsimp only
        split <;> exact hundo

/-- A record of the batch is approved. -/
structure Granted (s : Store) (batch : List Candidate) (r r' : Mac) : Prop where
  who : r'.candidate=r.candidate
  ip : r'.sourceIP=r.sourceIP
  waited : r.waits=true
  settled : r'.waits=false
  taken : r.candidate∈batch
  key : s.objk.isSome=true → objKeyDeliverable r'=true

lemma stillCandidate_some {c : Candidate} (h : stillCandidate s c=some r) :
    r∈s.recs ∧ r.candidate=c ∧ r.waits=true ∧ (s.objk.isSome=true → objKeyDeliverable r=true) := by
  unfold stillCandidate at h
  obtain ⟨hmac,hr⟩ := Option.filter_eq_some_iff.mp h
  simp only [Bool.and_eq_true,Bool.or_eq_true,decide_eq_true_eq] at hr
  obtain ⟨⟨⟨⟨hstatus,hpending⟩,hkey⟩,hat⟩,hhash⟩ := hr
  refine ⟨mac_mem hmac,?_,?_,fun hsome => ?_⟩
  · rw [Mac.candidate,mac_name hmac,hat,hhash]
  · rw [Mac.waits,hstatus,hpending]
    rfl
  · rcases hkey with hnone | hkey
    · rw [Option.isNone_iff_eq_none.mp hnone] at hsome
      cases hsome
    · exact hkey

lemma autoApproved_granted {c : Candidate} {batch : List Candidate} (now : ℤ)
    (h : stillCandidate s c=some r) : Granted s (c::batch) r (autoApproved cfg s now r) := by
  obtain ⟨-,hwho,hwaits,hkey⟩ := stillCandidate_some h
  have hfields : (autoApproved cfg s now r).candidate=r.candidate ∧ (autoApproved cfg s now r).sourceIP=r.sourceIP ∧
      (autoApproved cfg s now r).waits=false ∧ (autoApproved cfg s now r).key=r.key := by
    unfold autoApproved markSharedKeyIssued
    split <;> exact ⟨rfl,rfl,rfl,rfl⟩
  refine ⟨hfields.1,hfields.2.1,hwaits,hfields.2.2.1,hwho ▸ mem_cons_self,fun hsome => ?_⟩
  rw [objKeyDeliverable,hfields.2.2.2]
  exact hkey hsome

lemma approveBatch_origin (cfg : Config) (hnodup : (s.recs.map Mac.name).Nodup) (now : ℤ) (batch : List Candidate) :
    (approveBatch cfg now s batch).window=s.window ∧ ∀ r'∈(approveBatch cfg now s batch).recs,
      r'∈s.recs ∨ ∃ r∈s.recs, Granted s batch r r' := by
  have hmore : ∀ {s : Store} {batch : List Candidate} {c : Candidate} {r r' : Mac}, Granted s batch r r' → Granted s (c::batch) r r' :=
    fun h => ⟨h.who,h.ip,h.waited,h.settled,mem_cons_of_mem _ h.taken,h.key⟩
  induction batch generalizing s with
  | nil => exact ⟨rfl,fun r' hr' => .inl hr'⟩
  | cons c batch ih =>
    rw [approveBatch,foldl_cons]
    cases hc : stillCandidate s c with
    | none =>
      obtain ⟨hwindow,horigin⟩ := ih hnodup
      refine ⟨hwindow,fun r' hr' => (horigin r' hr').imp_right ?_⟩
      rintro ⟨r,hr,hg⟩
      exact ⟨r,hr,hmore hg⟩
    | some r =>
      have hg : Granted s (c::batch) r (autoApproved cfg s now r) := autoApproved_granted now hc
      obtain ⟨hwindow,horigin⟩ := ih (s := s.putMac (autoApproved cfg s now r)) (nodup_put hnodup _)
      refine ⟨hwindow,fun r' hr' => ?_⟩
      rcases horigin r' hr' with hr' | ⟨q,hq,hg'⟩
      · rcases mem_put.mp hr' with rfl | ⟨hr',-⟩
        · exact .inr ⟨r,(stillCandidate_some hc).1,hg⟩
        · exact .inl hr'
      · -- a record approved earlier in the pass no longer waits
        rcases mem_put.mp hq with rfl | ⟨hq,-⟩
        · exact absurd hg'.waited (by rw [hg.settled]; exact Bool.false_ne_true)
        · exact .inr ⟨q,hq,hmore ⟨hg'.who,hg'.ip,hg'.waited,hg'.settled,hg'.taken,hg'.key⟩⟩

end

def Act.running : Act → Bool
  | .restart _ _ _ _ _ _ _ => false
  | _ => true

/-- What a step does to the Macs of the window. -/
inductive Turn (s : Store) (calls : List Call) : Act → Store → Prop
  | tame (a : Act) (s' : Store) (sets : a.sets s=false) (tamed : Tamed s s') : Turn s calls a s'
  | entered (a : Act) (s' : Store) (m : Mac) (now : ℤ) (sets : a.sets s=false) (entered : Entered s s' m now) :
      Turn s calls a s'
  | granted (i : ℕ) (now : ℤ) (io : Io) (batch : List Candidate) (s' : Store) (call : calls[i]? = some (.pass batch true))
      (isOpen : s.window.isOpen now=true) (nodup : (s'.recs.map Mac.name).Nodup) (window : s'.window=s.window)
      (origin : ∀ r'∈s'.recs,∃ r∈s.recs, Tame r r' ∨ Granted s batch r r') : Turn s calls (.passCommit i now io) s'
  | set (a : Act) (s' : Store) (length : ℤ) (limit : ℕ) (now : ℤ) (sets : a.sets s=true)
      (tamed : Tamed s { s' with window := s.window }) (window : s'.window = World.newWindow length limit now s.window)
      (dropped : ∀ r∈s'.recs, r.waits=false) : Turn s calls a s'

section
variable {cfg : Config} {w w' : World} {io : Io}

lemma passCommit_turn (hnodup : (w.mem.recs.map Mac.name).Nodup) {i : ℕ} {batch : List Candidate}
    (hcall : w.calls[i]? = some (.pass batch true)) (now : ℤ) :
    Turn w.mem w.calls (.passCommit i now io) (w.passCommit cfg io now batch).mem := by
  have hstill : Turn w.mem w.calls (.passCommit i now io) w.mem := .tame _ _ rfl (.refl hnodup)
  unfold passCommit
  split
  · exact hstill
  rename_i hopen
  dsimp only
  split
  · exact hstill
  · change Turn w.mem w.calls _ (if (commit io true _ w.files).2 then _ else w.mem)
    split
    · have horigin := approveBatch_origin cfg hnodup now batch
      refine .granted i now io batch _ hcall (by simpa using hopen) (approveBatch_decided hnodup now batch).nodup horigin.1 ?_
      intro r' hr'
      rcases horigin.2 r' hr' with hr' | ⟨r,hr,hg⟩
      · exact ⟨r',hr',.inl (.refl r')⟩
      · exact ⟨r,hr,.inr hg⟩
    · exact hstill

lemma setWindow_turn {a : Act} {calls : List Call} (hnodup : (w.mem.recs.map Mac.name).Nodup)
    (hsets : a.sets w.mem=(!(w.mem.objk.isSome && !io.gens) && io.store 0)) (length : ℤ) (limit : ℕ) (now : ℤ) :
    Turn w.mem calls a (w.setWindow io length limit now).mem := by
  change Turn w.mem calls a (if (saveStore io 0 _ w.files).2 then _ else w.mem)
  rw [saveStore_ok]
  have hdrop := dropAdmissions_tamed hnodup
  split
  · rename_i hok
    refine .set a _ length limit now (hsets.trans hok) ⟨hdrop.nodup,rfl,hdrop.origin⟩ rfl ?_
    exact fun r hr => dropAdmissions_waits hr
  · rename_i hok
    exact .tame a _ (hsets.trans (Bool.not_eq_true _ ▸ hok)) (.refl hnodup)

lemma step_turn {a : Act} (hnodup : (w.mem.recs.map Mac.name).Nodup) (hrunning : a.running=true)
    (h : w.step cfg a=some w') : Turn w.mem w.calls a w'.mem := by
  obtain ⟨v,l,hsection,rfl,-⟩ := step_section h
  change Turn w.mem w.calls a v.mem
  cases hsection with
  | idle _ sets | reload _ sets => exact .tame _ _ sets (.refl hnodup)
  | poll q e io _ => exact .tame _ _ rfl (poll_calm hnodup e).tamed
  | reenroll i slot salt token now io k e ip old _ => exact .tame _ _ rfl (reenroll_calm hnodup e old token).tamed
  | enrollNew i slot salt token now io k e ip _ =>
    refine (enrollNew_entered hnodup k e ip salt token now).elim (fun ht => .tame _ _ rfl ht) ?_
    rintro ⟨m,hm⟩
    exact .entered _ _ m now rfl hm
  | requestKey i io k name => exact .tame _ _ rfl (requestKey_calm hnodup k name).tamed
  | approveWait i expired now io k | reconcile now io k =>
    exact .tame _ _ rfl (.ofKeys hnodup (reconcileObjKeys_keysOnly io k now false w.mem w.files).1)
  | approveCommit i now io name => exact .tame _ _ rfl (approveCommit_tamed hnodup name now)
  | revoke name now io => exact .tame _ _ rfl (revoke_tamed hnodup name now)
  | syncKeys io k => exact .tame _ _ rfl (.ofKeys hnodup (writeObjKeysDesired_keysOnly io 0 k w.mem w.files).1)
  | forget name io => exact .tame _ _ rfl (forget_tamed hnodup name)
  | pass now io => exact .tame _ _ rfl (passStart_calm hnodup now).tamed
  | passCommit i now io batch call => exact passCommit_turn hnodup call now
  | closeWindow now io => exact setWindow_turn hnodup rfl 0 0 now
  | windowSet i now io length limit => exact setWindow_turn hnodup rfl length limit now
  | removeOrphans names io k => exact .tame _ _ rfl (removeOrphans_calm hnodup k names).tamed
  | macPerson instanceID token device io => exact .tame _ _ rfl (macPerson_calm hnodup instanceID token device).tamed
  | people op scope io => exact .tame _ _ rfl (changePeople_tamed hnodup op scope)
  | syncPeople io =>
    unfold syncPeople
    dsimp only
    split <;> exact .tame _ _ rfl (.refl hnodup)
  | restart => cases hrunning

end

end JuiceMount.Manager
