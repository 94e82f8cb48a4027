import JuiceMount.Manager.Moves

/-! Who the enrolment route answers. A request proves itself with the secret or with the poll token
of a record. A re-enrolment is checked against the record that was there before the lock was
dropped, and applied to the one that is there after. -/
namespace JuiceMount.Manager
open Transition List Keyed Option World
open RespProxy (Bytes ascii)

variable {cfg : Config} {w w' w'' : World} {io : Io}

/-- The request carries the secret whose hash the record holds, or the poll token it holds. -/
def Proves (cfg : Config) (e : Enrolment) (r : Mac) : Prop :=
  cfg.verifySecret r.argon2id e.secret=true ∨ r.pollTokenSHA256≠[] ∧ cfg.sha256Hex e.pollToken=r.pollTokenSHA256

instance (cfg : Config) (e : Enrolment) (r : Mac) : Decidable (Proves cfg e r) := by
  unfold Proves
  infer_instance

def Mac.reported (r : Mac) : Bytes × Bytes × Bytes := (r.pollTokenSHA256,r.deviceDigest,r.objKeyInUse)

/-- The fields that a request is checked against, and those it may change. -/
def Mac.held (r : Mac) : Bytes × Bytes × Bytes × Bytes × Bytes := (r.name,r.argon2id,r.reported)

def World.requestOf (cfg : Config) (w : World) : Act → Option Enrolment
  | .poll q _ => q.parse cfg
  | .enroll q _ _ => q.parse cfg
  | .enrollEnd i _ _ _ _ _ _ => match w.calls[i]? with
    | some (.enroll e _ _) => some e
    | _ => none
  | _ => none

/-- What a step hands out, and what its request changes. -/
structure Guarded (cfg : Config) (w : World) (a : Act) (w' : World) : Prop where
  answered : ∃ new, w'.answers = w.answers++new ∧ ∀ x∈new, (x.response.pollToken.isSome ∨ x.response.objectKey.isSome) →
    ∃ r, w'.mem.mac x.response.principal=some r ∧ Proves cfg x.request r
  changed : ∀ e, w.requestOf cfg a=some e → ∀ name r r', w.mem.mac name=some r → w'.mem.mac name=some r' →
    r'.reported≠r.reported → Proves cfg e r

/-- A waiting re-enrolment ends on the record its secret was checked against. -/
def SameRecord (w : World) : Act → Bool
  | .enrollEnd i _ _ _ _ _ _ => match w.calls[i]? with
    | some (.enroll e _ (some old)) => (w.mem.mac e.name).all fun r => r.argon2id=old.argon2id
    | _ => true
  | _ => true

/-! ### Records of other names -/

/-- Nothing but the record of this name has changed in what requests see. -/
def Touches (name : Bytes) (s s' : Store) : Prop := ∀ n, n≠name → (s'.mac n).map Mac.held = (s.mac n).map Mac.held

lemma Touches.refl (name : Bytes) (s : Store) : Touches name s s := fun _ _ => rfl

variable {name : Bytes} {s s' : Store} {e : Enrolment} {a : Act}

lemma Touches.trans {s s' s'' : Store} (h : Touches name s s') (h' : Touches name s' s'') :
    Touches name s s'' := fun n hn => (h' n hn).trans (h n hn)

lemma Touches.put (s : Store) (m : Mac) : Touches m.name s (s.putMac m) := fun _ hn =>
  congrArg (Option.map Mac.held) (find_put_ne hn)

lemma Touches.drop (s : Store) (name : Bytes) : Touches name s (s.dropMac name) := fun _ hn =>
  congrArg (Option.map Mac.held) (find_drop_ne hn)

theorem KeysOnly.held (h : KeysOnly s s') (name : Bytes) : (s'.mac name).map Mac.held=(s.mac name).map Mac.held := by
  have hrecs := h.recs
  unfold Store.mac Keyed.find
  generalize s.recs=a at hrecs
  generalize s'.recs=b at hrecs
  induction hrecs with
  | nil => rfl
  | @cons r r' a b hr _ ih =>
    have hname : r'.name=r.name := by rw [hr.same]
    by_cases hn : r.name=name
    · rw [find?_cons_of_pos (by simpa [hname] using hn),find?_cons_of_pos (by simpa using hn),map_some,
        map_some,hr.same]
      rfl
    · rw [find?_cons_of_neg (by simpa [hname] using hn),find?_cons_of_neg (by simpa using hn),ih]

lemma Touches.keys (h : KeysOnly s s') (name : Bytes) : Touches name s s' := fun n _ => h.held n

theorem Touches.changed (h : Touches e.name s s')
    (hproves : ∀ r, s.mac e.name=some r → ∀ r', s'.mac e.name=some r' → r'.reported≠r.reported → Proves cfg e r)
    {r r' : Mac} (hr : s.mac name=some r) (hr' : s'.mac name=some r') (hne : r'.reported≠r.reported) :
    Proves cfg e r := by
  by_cases hname : name=e.name
  · subst hname
    exact hproves r hr r' hr' hne
  · have hheld := h name hname
    rw [hr,hr',map_some,map_some,Option.some.injEq] at hheld
    exact absurd (congrArg (fun x => x.2.2) hheld) hne

/-! ### Polls -/

def Mac.proof (r : Mac) : Bytes × Bytes × Bytes := (r.name,r.argon2id,r.pollTokenSHA256)

lemma Proves.congr {r r' : Mac} (h : Proves cfg e r) (hproof : r'.proof=r.proof) : Proves cfg e r' := by
  have hargon : r'.argon2id=r.argon2id := congrArg (fun x => x.2.1) hproof
  have htoken : r'.pollTokenSHA256=r.pollTokenSHA256 := congrArg (fun x => x.2.2) hproof
  unfold Proves
  rw [hargon,htoken]
  exact h

/-- A note on the record of this name. -/
structure Noted (name : Bytes) (w w' : World) : Prop where
  others : Touches name w.mem w'.mem
  proof : (w'.mem.mac name).map Mac.proof = (w.mem.mac name).map Mac.proof
  answers : w'.answers=w.answers

lemma Noted.refl (name : Bytes) (w : World) : Noted name w w := ⟨.refl _ _,rfl,rfl⟩

lemma Noted.trans (h : Noted name w w') (h' : Noted name w' w'') : Noted name w w'' :=
  ⟨h.others.trans h'.others,h'.proof.trans h.proof,h'.answers.trans h.answers⟩

lemma noteOn_noted {f : Mac → Mac} (hf : ∀ r, (f r).proof=r.proof) (k : ℕ) (name : Bytes) :
    Noted name w (w.noteOn io k name f) := by
  unfold noteOn
  split
  · exact .refl name w
  rename_i r hr
  unfold noteMac
  split
  · exact .refl name w
  · have hname : (f r).name=name := (congrArg (fun x => x.1) (hf r)).trans (mac_name hr)
    have hmem : (w.saveAs io k (w.mem.putMac (f r))).1.mem=w.mem ∨
        (w.saveAs io k (w.mem.putMac (f r))).1.mem=w.mem.putMac (f r) := by
      change (if _ then _ else _)=_ ∨ (if _ then _ else _)=_
      split
      · exact .inr rfl
      · exact .inl rfl
    rcases hmem with hmem | hmem
    · exact ⟨by rw [hmem]; exact .refl _ _,by rw [hmem],rfl⟩
    · refine ⟨?_,?_,rfl⟩
      · rw [hmem,← hname]
        exact .put w.mem (f r)
      · have hself : (w.mem.putMac (f r)).mac name=some (f r) := by
          rw [← hname]
          exact find_put_self _ _
        rw [hmem,hself,hr,map_some,map_some,hf r]

lemma markDeviceMismatch_proof (r : Mac) (digest : Bytes) : (markDeviceMismatch r digest).proof=r.proof := by
  unfold markDeviceMismatch
  split <;> rfl

lemma markSharedKeyIssued_proof (s : Store) (r : Mac) : (markSharedKeyIssued cfg s r).proof=r.proof := by
  unfold markSharedKeyIssued
  split <;> rfl

lemma inUseNoted_proof (s : Store) (e : Enrolment) (r : Mac) : (inUseNoted s e r).proof=r.proof := by
  unfold inUseNoted
  split <;> rfl

lemma sharedNoted_proof (s : Store) (r : Mac) : (sharedNoted cfg s r).proof=r.proof := by
  unfold sharedNoted
  split
  · rfl
  · exact markSharedKeyIssued_proof s r

lemma pollNotes_noted (e : Enrolment) : Noted e.name w (w.pollNotes cfg io e) := by
  unfold pollNotes
  dsimp only
  have h1 : Noted e.name w (w.noteOn io 0 e.name fun r => markDeviceMismatch r e.digest) :=
    noteOn_noted (fun r => markDeviceMismatch_proof r e.digest) 0 e.name
  generalize w.noteOn io 0 e.name (fun r => markDeviceMismatch r e.digest)=w₁ at h1
  have h2 : Noted e.name w₁ (w₁.noteOn io 1 e.name (inUseNoted w₁.mem e)) :=
    noteOn_noted (inUseNoted_proof w₁.mem e) 1 e.name
  generalize w₁.noteOn io 1 e.name (inUseNoted w₁.mem e)=w₂ at h2
  exact (h1.trans h2).trans (noteOn_noted (sharedNoted_proof w₂.mem) 2 e.name)

lemma withObjectKey_principal (s : Store) (r : Response) (m : Mac) : (withObjectKey cfg s r m).principal=r.principal := by
  unfold withObjectKey
  repeat' split
  all_goals rfl

/-- What a step does for a request: at most one answer, for a record that proves it. -/
structure Serves (cfg : Config) (e : Enrolment) (w w' : World) : Prop where
  answers : w'.answers=w.answers ∨ ∃ x r, w'.answers = w.answers++[x] ∧ w'.mem.mac x.response.principal=some r ∧
    x.request=e ∧ Proves cfg e r
  changed : ∀ name r r', w.mem.mac name=some r → w'.mem.mac name=some r' → r'.reported≠r.reported → Proves cfg e r

lemma Serves.refl (e : Enrolment) (hmem : w'.mem=w.mem) (hanswers : w'.answers=w.answers) : Serves cfg e w w' := by
  refine ⟨.inl hanswers,fun name r r' hr hr' hne => ?_⟩
  rw [hmem,hr] at hr'
  cases hr'
  exact absurd rfl hne

lemma Serves.guarded (h : Serves cfg e w w') (hrequest : w.requestOf cfg a=some e) : Guarded cfg w a w' := by
  refine ⟨?_,fun e' he' => ?_⟩
  · rcases h.answers with hsame | ⟨x,r,hnew,hr,rfl,hproves⟩
    · exact ⟨[],by rw [hsame,append_nil],fun _ hx => by cases hx⟩
    · refine ⟨[x],hnew,fun y hy _ => ?_⟩
      rw [mem_singleton.mp hy]
      exact ⟨r,hr,hproves⟩
  · rw [hrequest] at he'
    cases he'
    exact h.changed

lemma poll_serves (e : Enrolment) : Serves cfg e w (w.poll cfg io e) := by
  unfold poll
  split
  · exact .refl e rfl rfl
  rename_i rec hrec
  split
  · exact .refl e rfl rfl
  · rename_i htoken
    simp only [Bool.or_eq_true,decide_eq_true_eq,not_or,not_not] at htoken
    have hproves : Proves cfg e rec := .inr htoken
    have hnotes : Noted e.name w (w.pollNotes cfg io e) := pollNotes_noted e
    have hchanged : ∀ name r r', w.mem.mac name=some r → (w.pollNotes cfg io e).mem.mac name=some r' →
        r'.reported≠r.reported → Proves cfg e r := by
      intro name r r' hr hr' hne
      refine hnotes.others.changed (fun r hr _ _ _ => ?_) hr hr' hne
      rw [hrec] at hr
      cases hr
      exact hproves
    dsimp only
    split
    · exact ⟨.inl hnotes.answers,hchanged⟩
    · rename_i r hr
      refine ⟨.inr ⟨_,r,congrArg (·++_) hnotes.answers,?_,rfl,?_⟩,hchanged⟩
      · change (w.pollNotes cfg io e).mem.mac (withObjectKey cfg _ _ _).principal=some r
        rw [withObjectKey_principal]
        exact hr
      · have hproof := hnotes.proof
        rw [hr,hrec,map_some,map_some,Option.some.injEq] at hproof
        exact hproves.congr hproof

/-! ### Enrolments with a secret -/

lemma reenrolled_keeps (s : Store) (e : Enrolment) (token : Bytes) (p : Mac) :
    (reenrolled cfg s e token p).name=p.name ∧ (reenrolled cfg s e token p).argon2id=p.argon2id := by
  have hproof : (reenrolled cfg s e token p).proof=(p.name,p.argon2id,cfg.sha256Hex token) := by
    unfold reenrolled
    rw [markSharedKeyIssued_proof,inUseNoted_proof,markDeviceMismatch_proof]
    rfl
  exact ⟨congrArg Prod.fst hproof,congrArg (fun x => x.2.1) hproof⟩

lemma reenroll_serves (e : Enrolment) (old : Mac) (token : Bytes)
    (hsame : ∀ r, w.mem.mac e.name=some r → r.argon2id=old.argon2id) : Serves cfg e w (w.reenroll cfg io e old token) := by
  unfold reenroll
  split
  · exact .refl e rfl rfl
  rename_i hchecked
  simp only [Bool.or_eq_true,Bool.not_eq_true',not_or,Bool.not_eq_false] at hchecked
  split
  · exact .refl e rfl rfl
  · rename_i cur hcur
    have hproves : ∀ r : Mac, r.argon2id=cur.argon2id → Proves cfg e r := by
      intro r hr
      refine .inl ?_
      rw [hr,hsame cur hcur]
      exact hchecked.2
    have hkeeps : _ ∧ _ := @reenrolled_keeps cfg w.mem e token cur
    generalize reenrolled cfg w.mem e token cur=next at hkeeps
    obtain ⟨hname,hargon⟩ := hkeeps
    rw [mac_name hcur] at hname
    dsimp only
    split
    · rename_i hok
      have hmem : (w.commitAs io false (w.mem.putMac next)).1.mem=w.mem.putMac next := if_pos hok
      have hself : (w.mem.putMac next).mac e.name=some next := by
        rw [← hname]
        exact find_put_self _ _
      refine ⟨.inr ⟨_,next,rfl,?_,rfl,hproves next hargon⟩,fun name r r' hr hr' hne => ?_⟩
      · change (w.commitAs io false (w.mem.putMac next)).1.mem.mac (withObjectKey cfg _ _ _).principal=some next
        rw [withObjectKey_principal,hmem]
        exact hself
      · change (w.commitAs io false (w.mem.putMac next)).1.mem.mac name=some r' at hr'
        rw [hmem] at hr'
        have htouches : Touches e.name w.mem (w.mem.putMac next) := hname ▸ .put w.mem next
        refine htouches.changed (fun r hr _ _ _ => ?_) hr hr' hne
        rw [hcur] at hr
        cases hr
        exact hproves cur rfl
    · rename_i hfailed
      exact .refl e (if_neg hfailed) rfl

theorem enrollNew_serves (hhash : ∀ salt secret, cfg.verifySecret (cfg.hashSecret salt secret) secret=true) (k : Keyd)
    (e : Enrolment) (ip : Bytes) (salt : ℕ) (token : Bytes) (now : ℤ) :
    Serves cfg e w (w.enrollNew cfg io k e ip salt token now) := by
  unfold enrollNew
  split
  · exact .refl e rfl rfl
  rename_i habsent
  have hnone : w.mem.mac e.name=none := not_isSome_iff_eq_none.mp habsent
  have hchanged : ∀ s : Store, Touches e.name w.mem s → ∀ name r r', w.mem.mac name=some r → s.mac name=some r' →
      r'.reported≠r.reported → Proves cfg e r := by
    intro s hs name r r' hr hr' hne
    refine hs.changed (fun r hr => ?_) hr hr' hne
    rw [hnone] at hr
    cases hr
  dsimp only
  split
  · exact .refl e rfl rfl
  · split
    · exact .refl e rfl rfl
    · rename_i s m hentered
      obtain ⟨hrecs,-,-,hre⟩ := entered_fields hentered
      have hname : m.name=e.name := by
        rw [hre]
        rfl
      have hput : Touches e.name w.mem (s.putMac m) := by
        intro n hn
        rw [← hname] at hn
        rw [Touches.put s m n hn]
        unfold Store.mac
        rw [hrecs]
      have hkeys := (enrollSave_keys io k (w.mem.autoApprovable now ip) (s.putMac m) w.files).1
      generalize enrollSave io k (w.mem.autoApprovable now ip) (s.putMac m) w.files=saved at hkeys
      split
      · have hheld := hkeys.held e.name
        have hself : (s.putMac m).mac e.name=some m := by
          rw [← hname]
          exact find_put_self _ _
        rw [hself,map_some] at hheld
        obtain ⟨r,hr,hrm⟩ := map_eq_some_iff.mp hheld
        refine ⟨.inr ⟨_,r,rfl,?_,rfl,.inl ?_⟩,hchanged saved.1 (hput.trans (.keys hkeys e.name))⟩
        · change saved.1.mac (withObjectKey cfg _ _ _).principal=some r
          rw [withObjectKey_principal]
          exact hr
        · have hargon : r.argon2id=m.argon2id := congrArg (fun x => x.2.1) hrm
          rw [hargon,hre]
          exact hhash salt e.secret
      · refine ⟨.inl rfl,hchanged _ ((hput.trans (.keys hkeys e.name)).trans ?_)⟩
        change Touches e.name saved.1 (enrollUndo io _ e.name w.mem.window saved.1 saved.2.1).1
        unfold enrollUndo
        dsimp only
        split <;> exact .drop saved.1 e.name

/-! ### Every step -/

lemma Guarded.silent (hanswers : w'.answers=w.answers) (hrequest : w.requestOf cfg a=none) : Guarded cfg w a w' := by
  refine ⟨⟨[],by rw [hanswers,append_nil],fun _ hx => by cases hx⟩,fun e he => ?_⟩
  rw [hrequest] at he
  cases he

lemma Guarded.still (hmem : w'.mem=w.mem) (hanswers : w'.answers=w.answers) : Guarded cfg w a w' := by
  cases hrequest : w.requestOf cfg a with
  | none => exact .silent hanswers hrequest
  | some e => exact Serves.guarded (.refl e hmem hanswers) hrequest

lemma step_guarded (hhash : ∀ salt secret, cfg.verifySecret (cfg.hashSecret salt secret) secret=true)
    (hsame : SameRecord w a=true) (h : w.step cfg a=some w') : Guarded cfg w a w' := by
  obtain ⟨v,l,hsection,rfl,-⟩ := step_section h
  have hcalls : ∀ {e : Enrolment}, Serves cfg e w v → Serves cfg e w {v with calls := l} := fun hv => ⟨hv.answers,hv.changed⟩
  have hanswers := hsection.answers
  cases hsection with
  | idle _ _ | reload _ _ => exact .still rfl rfl
  | poll q e io parsed => exact (hcalls (poll_serves e)).guarded parsed
  | reenroll i slot salt token now io k e ip old call =>
    have hold : ∀ r, w.mem.mac e.name=some r → r.argon2id=old.argon2id := by
      intro r hr
      simpa [SameRecord,call,hr] using hsame
    exact (hcalls (reenroll_serves e old token hold)).guarded (by simp only [requestOf,call])
  | enrollNew i slot salt token now io k e ip call =>
    exact (hcalls (enrollNew_serves hhash k e ip salt token now)).guarded (by simp only [requestOf,call])
  | _ =>
    rcases hanswers with hanswers | ⟨_,_,ha⟩ | ⟨_,_,_,_,_,_,_,ha⟩
    · exact .silent hanswers rfl
    · cases ha
    · cases ha

/-! ### Runs -/

/-- In a run in which every re-enrolment ends on the record it was checked against, tokens and object
keys go to requests that prove themselves against the record of that moment, and only such requests
change what a record says of its poll token, its device and its key. -/
theorem enroll_answers_holder (hhash : ∀ salt secret, cfg.verifySecret (cfg.hashSecret salt secret) secret = true)
    (acts : List Act) (w : World) (hsame : AllSteps (World.step cfg) (fun w a => SameRecord w a = true) w acts) :
    AllSteps (World.step cfg) (fun w a => ∀ w', w.step cfg a = some w' → Guarded cfg w a w') w acts :=
  hsame.mono fun _ _ ha _ h => step_guarded hhash ha h

def enrolledActs : List Act :=
  [.enroll (sampleRequest 's') [] 0,.enrollEnd 0 true 0 (List.replicate 64 97) 0 {} {},.approve sampleName,
    .approveProof 0 true {},.approveCommit 0 1 {},
    .poll { sampleRequest 's' with secret := [], pollToken := List.replicate 64 'a' } {}]

/-- While a re-enrolment is checked, the record is revoked and forgotten, and another client enrols
under the name and is approved. -/
def replacedActs : List Act :=
  [.enroll (sampleRequest 's') [] 0,.enrollEnd 0 true 0 (List.replicate 64 97) 0 {} {},
    .enroll (sampleRequest 's') [] 1,.revoke sampleName 2 {},.forget sampleName {},
    .enroll (sampleRequest 't') [] 3,.enrollEnd 1 true 0 (List.replicate 64 98) 3 {} {},.approve sampleName,
    .approveProof 1 true {},.approveCommit 1 4 {}]

def lateEnrollEnd : Act := .enrollEnd 0 true 0 (List.replicate 64 99) 5 {} {}

/-- The late answer carries the token and the object key of a record whose secret and token the
request does not have. -/
theorem late_reenrolment_answered : ∃ w w', run (World.step plainConfig) {} replacedActs = some w ∧
    w.step plainConfig lateEnrollEnd = some w' ∧
    (∃ x r, w'.answers = w.answers++[x] ∧ x.response.pollToken.isSome ∧ x.response.objectKey.isSome ∧
      w'.mem.mac x.response.principal = some r ∧ ¬Proves plainConfig x.request r) ∧
    ¬Guarded plainConfig w lateEnrollEnd w' := by
  have hrun : (run (step plainConfig) {} replacedActs).any (fun w => (w.step plainConfig lateEnrollEnd).any fun w' =>
      w'.answers.getLast?.any fun x => (w'.mem.mac sampleName).any fun r => w'.answers.dropLast=w.answers &&
        x.response.principal=sampleName && x.response.pollToken.isSome && x.response.objectKey.isSome &&
        !decide (Proves plainConfig x.request r))=true := by decide +kernel
  obtain ⟨w,hw,hlate⟩ := (Option.any_eq_true _ _).mp hrun
  obtain ⟨w',hw',hlate⟩ := (Option.any_eq_true _ _).mp hlate
  obtain ⟨x,hx,hlate⟩ := (Option.any_eq_true _ _).mp hlate
  obtain ⟨r,hr,hlate⟩ := (Option.any_eq_true _ _).mp hlate
  simp only [Bool.and_eq_true,decide_eq_true_eq,Bool.not_eq_true',decide_eq_false_iff_not] at hlate
  obtain ⟨⟨⟨⟨hbefore,hprincipal⟩,htoken⟩,hkey⟩,hnot⟩ := hlate
  have hanswers : w'.answers = w.answers++[x] := by rw [← hbefore,dropLast_append_getLast? x hx]
  rw [← hprincipal] at hr
  refine ⟨w,w',hw,hw',⟨x,r,hanswers,htoken,hkey,hr,hnot⟩,fun hguarded => ?_⟩
  obtain ⟨new,hnew,hproved⟩ := hguarded.answered
  rw [hanswers,append_cancel_left_eq] at hnew
  obtain ⟨r',hr',hproves⟩ := hproved x (hnew ▸ mem_singleton_self x) (.inl htoken)
  rw [hr] at hr'
  cases hr'
  exact hnot hproves

/-- The polling Mac gets the shared key for its token. -/
theorem enroll_answers_holder_polled :
    (∃ w x r, run (World.step plainConfig) {} enrolledActs = some w ∧ w.answers.getLast? = some x ∧
      x.response.objectKey.isSome ∧ w.mem.mac x.response.principal = some r ∧ Proves plainConfig x.request r) ∧
    AllSteps (World.step plainConfig) (fun w a => ∀ w', w.step plainConfig a = some w' → Guarded plainConfig w a w') {}
      enrolledActs := by
  refine ⟨?_,enroll_answers_holder (fun _ secret => decide_eq_true rfl) enrolledActs {}
    (allSteps_of_check (by decide +kernel))⟩
  have hrun : (run (step plainConfig) {} enrolledActs).any (fun w => w.answers.getLast?.any fun x =>
      (w.mem.mac sampleName).any fun r => x.response.principal=sampleName && x.response.objectKey.isSome &&
        decide (Proves plainConfig x.request r))=true := by decide +kernel
  obtain ⟨w,hw,hpolled⟩ := (Option.any_eq_true _ _).mp hrun
  obtain ⟨x,hx,hpolled⟩ := (Option.any_eq_true _ _).mp hpolled
  obtain ⟨r,hr,hpolled⟩ := (Option.any_eq_true _ _).mp hpolled
  simp only [Bool.and_eq_true,decide_eq_true_eq] at hpolled
  obtain ⟨⟨hprincipal,hkey⟩,hproves⟩ := hpolled
  exact ⟨w,x,r,hw,hx,hkey,hprincipal ▸ hr,hproves⟩

end JuiceMount.Manager
