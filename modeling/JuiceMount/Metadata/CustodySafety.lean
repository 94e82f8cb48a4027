import JuiceMount.Metadata.SpoolCustody

/-! Custody never gives up the only copy: what one granted call does to its operation, the invariant of the
ledger and of the history of its grants, and what follows for every run. -/
namespace JuiceMount.Metadata.Custody
open Transition List GoMap Option SpoolCustody

/-- What a granted call has checked, and the record it leaves. -/
inductive Moves (db : Db) : Advance → SpoolCustody → SpoolCustody → Prop
  | bind {e sourceIdentity stageIdentity} (phase : e.phase=.allocating) :
      Moves db (.bind sourceIdentity stageIdentity) e (e.bound stageIdentity)
  | prepare {e sourceIdentity stageIdentity sourceEOF stageEOF verifiedEnd punchedEnd} (phase : e.phase=.staged)
      (verified : e.verifiedEnd≤verifiedEnd) (punched : e.punchedEnd≤punchedEnd) (target : e.targetEOF ≤ sourceEOF)
      (stage : e.stageEOF ≤ stageEOF) :
      Moves db (.prepare sourceIdentity stageIdentity sourceEOF stageEOF verifiedEnd punchedEnd) e
        (e.checkpoint sourceEOF stageEOF verifiedEnd punchedEnd)
  | confirm {e sourceIdentity stageIdentity} (phase : e.phase=.checkpointPending) :
      Moves db (.confirm sourceIdentity stageIdentity) e e.confirmed
  | retarget {e id row target} (phase : e.phase=.allocating ∨ e.phase=.staged) :
      Moves db (.retarget id row target) e (e.retargeted id row target)
  | claimPunched {e target} (phase : e.phase=.staged) : Moves db (.claimPunched target) e e.claimed
  | beginPublish {e target sourceIdentity stageIdentity} (phase : e.phase=.staged) (staged : e.stageEOF=e.targetEOF)
      (verified : e.verifiedEnd=e.targetEOF) (r : SourceRow) (source : db.rows.get? e.spoolID=some r)
      (final : Db.isFinal e r=true) : Moves db (.beginPublish target sourceIdentity stageIdentity) e e.publishing
  | confirmPublished {e published publicIdentity} (phase : e.phase=.publishPending) :
      Moves db (.confirmPublished published publicIdentity) e (e.publishedAs publicIdentity published.revision)
  | cancel {e} (published : e.phase≠.published) (quarantined : e.phase≠.quarantined) : Moves db .cancel e e.quarantine
  | claimCleanup {e published publicIdentity object privateIdentity} (phase : e.phase=.published)
      (mirror : db.captureToken e.targetPath=published) (revision : published.revision=e.publishedRevision)
      (incarnation : published.incarnation=e.incarnation) (unclaimed : e.isCleanupClaimed object=false) :
      Moves db (.claimCleanup published publicIdentity object privateIdentity) e (e.cleaned object)

/-- The transaction of one call: the record before it, the one it leaves, and nothing else in the ledger. -/
structure Granted (db db' : Db) (call : Advance) (e c : SpoolCustody) : Prop where
  before : db.custody.get? e.operationID=some e
  ledger : db'.custody = db.custody.set e.operationID c
  valid : c.valid=true
  apart : db.clashes c=false
  moves : Moves db call e c

section Moves
variable {db db' : Db} {e c : SpoolCustody} {call : Advance}

lemma loadCustody_eq_some {id : Text} (h : db.loadCustody id=some c) : db.custody.get? id=some c ∧ c.valid=true :=
  filter_eq_some_iff.mp h

lemma advanceCustody_eq_some {fn : SpoolCustody → Option Db} (h : db.advanceCustody e fn=some (db',c)) :
    db.custody.get? e.operationID=some e ∧ fn e=some db' ∧ db'.custody.get? e.operationID=some c ∧ c.valid=true := by
  unfold Db.advanceCustody at h
  split_ifs at h
  split at h
  · cases h
  rename_i current hcurrent
  split_ifs at h with heq
  obtain rfl : current=e := by simpa using heq
  obtain ⟨db'',hfn,h⟩ := bind_eq_some_iff.mp h
  obtain ⟨next,hnext,h⟩ := bind_eq_some_iff.mp h
  split_ifs at h
  cases h
  exact ⟨(loadCustody_eq_some hcurrent).1,hfn,loadCustody_eq_some hnext⟩

lemma Moves.operationID (h : Moves db call e c) : c.operationID=e.operationID ∧ c.sourceID=e.sourceID ∧
    c.stagePath=e.stagePath ∧ c.epoch=e.epoch+1 := by
  cases h with
  | @claimCleanup e published publicIdentity object =>
    cases object <;> exact ⟨rfl,rfl,rfl,rfl⟩
  | _ => exact ⟨rfl,rfl,rfl,rfl⟩

lemma Granted.of_store {fn : SpoolCustody → Option Db} (h : db.advanceCustody e fn=some (db',c))
    (hfn : fn e=some db' → ∃ (base : Db) (d : SpoolCustody),base.store d=some db' ∧ base.custody=db.custody ∧ Moves db call e d) :
    Granted db db' call e c := by
  obtain ⟨he,hwritten,hc,hvalid⟩ := advanceCustody_eq_some h
  obtain ⟨base,d,hstore,hbase,hmoves⟩ := hfn hwritten
  have hd := hmoves.operationID.1
  unfold Db.store at hstore
  split_ifs at hstore with hclash
  cases hstore
  simp only [hd,get?_set_self,Option.some.injEq] at hc
  subst hc
  have hapart : db.clashes d=false := by
    simpa [Db.clashes,hbase] using hclash
  exact ⟨he,by simp only [hd,hbase],hvalid,hapart,hmoves⟩

lemma Granted.of_advance (h : db.advance e call=some (db',c)) : Granted db db' call e c := by
  cases call with
  | bind sourceIdentity stageIdentity =>
    simp only [Db.advance,Db.bindSpoolStage] at h
    split_ifs at h
    refine .of_store h fun hfn => ?_
    split_ifs at hfn with hcheck
    simp only [Bool.or_eq_true,decide_eq_true_eq,not_or,not_not] at hcheck
    exact ⟨_,_,hfn,rfl,.bind hcheck.1.1⟩
  | prepare sourceIdentity stageIdentity sourceEOF stageEOF verifiedEnd punchedEnd =>
    refine .of_store h fun hfn => ?_
    split_ifs at hfn with hcheck
    simp only [Bool.or_eq_true,decide_eq_true_eq,not_or,not_not,not_lt] at hcheck
    exact ⟨_,_,hfn,rfl,.prepare (by tauto) (by tauto) (by tauto) (by tauto) (by tauto)⟩
  | confirm sourceIdentity stageIdentity =>
    refine .of_store h fun hfn => ?_
    split_ifs at hfn with hcheck
    simp only [Bool.or_eq_true,decide_eq_true_eq,not_or,not_not] at hcheck
    exact ⟨_,_,hfn,rfl,.confirm (by tauto)⟩
  | retarget id row target =>
    simp only [Db.advance,Db.retargetSpoolCustody] at h
    split_ifs at h
    refine .of_store h fun hfn => ?_
    split_ifs at hfn with hcheck
    simp only [Bool.or_eq_true,Bool.and_eq_true,decide_eq_true_eq,not_or,not_not] at hcheck
    exact ⟨_,_,hfn,rfl,.retarget (by tauto)⟩
  | claimPunched target =>
    refine .of_store h fun hfn => ?_
    split_ifs at hfn with hcheck
    simp only [Bool.or_eq_true,decide_eq_true_eq,not_or,not_not] at hcheck
    split at hfn
    · cases hfn
    · exact ⟨_,_,hfn,rfl,.claimPunched (by tauto)⟩
  | beginPublish target sourceIdentity stageIdentity =>
    refine .of_store h fun hfn => ?_
    split_ifs at hfn with hcheck
    simp only [Bool.or_eq_true,decide_eq_true_eq,not_or,not_not,Bool.not_eq_true',Bool.not_eq_false,Db.custodySourceFinalized,
      Bool.and_eq_true] at hcheck
    obtain ⟨r,hr,hfinal⟩ := (Option.any_eq_true _ _).mp hcheck.2.2
    exact ⟨_,_,hfn,rfl,.beginPublish (by tauto) (by tauto) (by tauto) r hr hfinal⟩
  | confirmPublished published publicIdentity =>
    simp only [Db.advance,Db.confirmCustodyPublished] at h
    split_ifs at h
    refine .of_store h fun hfn => ?_
    split_ifs at hfn with hcheck
    simp only [Bool.or_eq_true,decide_eq_true_eq,not_or,not_not] at hcheck
    exact ⟨_,_,hfn,rfl,.confirmPublished (by tauto)⟩
  | cancel =>
    refine .of_store h fun hfn => ?_
    split_ifs at hfn with hcheck
    simp only [Bool.or_eq_true,decide_eq_true_eq,not_or] at hcheck
    exact ⟨_,_,hfn,rfl,.cancel (by tauto) (by tauto)⟩
  | claimCleanup published publicIdentity object privateIdentity =>
    refine .of_store h fun hfn => ?_
    split_ifs at hfn with hcheck
    simp only [Bool.or_eq_true,decide_eq_true_eq,not_or,not_not,Bool.not_eq_true',Bool.not_eq_false,Db.validateExpected,
      Bool.and_eq_true,Bool.not_eq_true] at hcheck
    have hpath : published.path=e.targetPath := by tauto
    exact ⟨_,_,hfn,rfl,.claimCleanup (by tauto) (hpath ▸ by tauto) (by tauto) (by tauto) (by tauto)⟩

end Moves

section Ledger
variable {db db' : Db} {e c : SpoolCustody} {call : Advance} {w u : World} {d : SpoolCustody} {op : Op}

lemma SpoolCustody.valid_bounds (h : c.valid=true) :
    c.punchedEnd≤c.verifiedEnd ∧ c.verifiedEnd ≤ min c.stageEOF c.targetEOF := by
  simp only [valid,Bool.and_eq_true,decide_eq_true_eq] at h
  exact ⟨h.2,le_min (by tauto) (by tauto)⟩

/-- The ends of a record never go back. -/
structure Extends (e c : SpoolCustody) : Prop where
  punched : e.punchedEnd≤c.punchedEnd
  verified : e.verifiedEnd≤c.verifiedEnd
  stage : e.stageEOF≤c.stageEOF
  target : e.targetEOF≤c.targetEOF
  epoch : e.epoch≤c.epoch

lemma Extends.refl (e : SpoolCustody) : Extends e e := ⟨le_rfl,le_rfl,le_rfl,le_rfl,le_rfl⟩

lemma Extends.trans (h : Extends e c) (h' : Extends c d) : Extends e d :=
  ⟨h.punched.trans h'.punched,h.verified.trans h'.verified,h.stage.trans h'.stage,h.target.trans h'.target,
    h.epoch.trans h'.epoch⟩

lemma Moves.extends (h : Moves db call e c) : Extends e c := by
  have hepoch : e.epoch≤c.epoch := by
    rw [h.operationID.2.2.2]
    omega
  cases h with
  | prepare phase verified punched target stage => exact ⟨punched,verified,stage,target,hepoch⟩
  | retarget phase => exact ⟨le_rfl,le_rfl,le_rfl,le_max_right _ _,hepoch⟩
  | @claimCleanup e published publicIdentity object => cases object <;> exact ⟨le_rfl,le_rfl,le_rfl,le_rfl,hepoch⟩
  | _ => exact ⟨le_rfl,le_rfl,le_rfl,le_rfl,hepoch⟩

/-- The source row the publication began with had its final size, all of it verified in the stage. -/
def Final (w : World) (c : SpoolCustody) : Prop :=
  c.stageEOF=c.targetEOF ∧ c.verifiedEnd=c.targetEOF ∧
  ∃ r,w.finalRows.get? c.operationID = some (some r) ∧ r.drainState=.draining ∧ r.size=c.targetEOF

/-- The ledger with the history of its grants. -/
structure Kept (w : World) : Prop where
  valid : ∀ op c,w.db.custody.get? op=some c → c.valid=true ∧ c.operationID=op
  final : ∀ op c,w.db.custody.get? op=some c → c.phase=.publishPending ∨ c.phase=.published → Final w c
  confirmed : ∀ op c,w.db.custody.get? op=some c → c.phase=.published → op∈w.confirmed
  cancelled : ∀ op∈w.cancelled,∃ c,w.db.custody.get? op=some c ∧ c.phase=.quarantined
  prepared : ∀ op∈w.prepared,∃ c,w.db.custody.get? op=some c ∧ (c.phase=.checkpointPending ∨ c.phase=.quarantined)
  cleanups : ∀ x∈w.cleanups,∃ c,w.db.custody.get? x.1=some c ∧ c.isCleanupClaimed x.2=true ∧ c.phase=.published
  once : w.cleanups.Nodup
  apart : ∀ op op' c c',w.db.custody.get? op=some c → w.db.custody.get? op'=some c' →
    c.sourceID=c'.sourceID ∨ c.stagePath=c'.stagePath → op=op'

lemma Kept.start : Kept {} := by
  have hnone : ∀ op c,({} : World).db.custody.get? op≠some c := fun _ _ => nofun
  exact ⟨fun op c h => absurd h (hnone op c),fun op c h => absurd h (hnone op c),fun op c h => absurd h (hnone op c),
    nofun,nofun,nofun,
    nodup_nil,fun op op' c c' h => absurd h (hnone op c)⟩

/-- What UNIQUE says about the record that is written and every other one. -/
lemma apart_of_clashes (h : db.clashes c=false) {op : Text} (hd : db.custody.get? op=some d)
    (hop : op≠c.operationID) : ¬(d.sourceID=c.sourceID ∨ d.stagePath=c.stagePath) := by
  have hentry := List.any_eq_false.mp h _ (mem_of_get? hd)
  simp only [Bool.and_eq_true,Bool.or_eq_true,decide_eq_true_eq,not_and,not_or] at hentry
  rintro (hsource | hstage)
  · exact (hentry hop).1.1 hsource
  · exact (hentry hop).2 hstage

lemma Kept.apart_set (h : Kept w) (hclash : w.db.clashes c=false) {op op' : Text} {d' : SpoolCustody}
    (hd : (w.db.custody.set c.operationID c).get? op=some d) (hd' : (w.db.custody.set c.operationID c).get? op'=some d')
    (hsame : d.sourceID=d'.sourceID ∨ d.stagePath=d'.stagePath) : op=op' := by
  obtain ⟨rfl,rfl⟩ | ⟨hop,hold⟩ := of_get?_set hd <;> obtain ⟨rfl,rfl⟩ | ⟨hop',hold'⟩ := of_get?_set hd'
  · rfl
  · exact absurd (hsame.imp Eq.symm Eq.symm) (apart_of_clashes hclash hold' hop')
  · exact absurd hsame (apart_of_clashes hclash hold hop)
  · exact h.apart op op' d d' hold hold' hsame

/-- What the grants say about one record. -/
structure History (w : World) (c : SpoolCustody) : Prop where
  valid : c.valid=true
  final : c.phase=.publishPending ∨ c.phase=.published → Final w c
  confirmed : c.phase=.published → c.operationID∈w.confirmed
  cancelled : c.operationID∈w.cancelled → c.phase=.quarantined
  prepared : c.operationID∈w.prepared → c.phase=.checkpointPending ∨ c.phase=.quarantined
  cleanups : ∀ object,(c.operationID,object)∈w.cleanups → c.isCleanupClaimed object=true ∧ c.phase=.published

/-- Off one operation the history is the same. -/
structure Elsewhere (w u : World) (id : Text) : Prop where
  rows : ∀ op≠id,u.finalRows.get? op = w.finalRows.get? op
  confirmed : w.confirmed ⊆ u.confirmed
  cancelled : ∀ op∈u.cancelled,op=id ∨ op∈w.cancelled
  prepared : ∀ op∈u.prepared,op=id ∨ op∈w.prepared
  cleanups : ∀ x∈u.cleanups,x.1=id ∨ x∈w.cleanups

lemma Kept.history (h : Kept w) (he : w.db.custody.get? e.operationID=some e) : History w e := by
  have hthe : ∀ {p : SpoolCustody → Prop},(∃ d,w.db.custody.get? e.operationID=some d ∧ p d) → p e := by
    rintro p ⟨d,hd,hp⟩
    rw [he] at hd
    cases hd
    exact hp
  exact ⟨(h.valid _ e he).1,h.final _ e he,h.confirmed _ e he,fun hmem => hthe (h.cancelled _ hmem),
    fun hmem => hthe (h.prepared _ hmem),fun object hmem => hthe (h.cleanups _ hmem)⟩

lemma Kept.set (h : Kept w) (hledger : u.db.custody=w.db.custody.set c.operationID c) (hclash : w.db.clashes c=false)
    (hc : History u c) (helse : Elsewhere w u c.operationID) (honce : u.cleanups.Nodup) : Kept u := by
  have hat : u.db.custody.get? c.operationID=some c := by rw [hledger,get?_set_self]
  have hother : ∀ op≠c.operationID,u.db.custody.get? op=w.db.custody.get? op := fun op hne => by
    rw [hledger,get?_set_ne hne]
  have hof : ∀ {op d},u.db.custody.get? op=some d →
      op=c.operationID ∧ d=c ∨ op≠c.operationID ∧ w.db.custody.get? op=some d :=
    fun hd => of_get?_set (hledger ▸ hd)
  have hto : ∀ {op} {p : SpoolCustody → Prop},(op=c.operationID → p c) →
      (op≠c.operationID → ∃ d,w.db.custody.get? op=some d ∧ p d) → ∃ d,u.db.custody.get? op=some d ∧ p d := by
    intro op p hself hrest
    by_cases hne : op=c.operationID
    · exact ⟨c,hne ▸ hat,hself hne⟩
    · rw [hother op hne]
      exact hrest hne
  refine ⟨fun op d hd => ?_,fun op d hd hp => ?_,fun op d hd hp => ?_,
    fun op hmem => hto (fun hop => hc.cancelled (hop ▸ hmem)) fun hne => h.cancelled op ((helse.cancelled op hmem).resolve_left hne),
    fun op hmem => hto (fun hop => hc.prepared (hop ▸ hmem)) fun hne => h.prepared op ((helse.prepared op hmem).resolve_left hne),
    fun x hx => hto (fun hop => hc.cleanups x.2 (hop ▸ hx)) fun hne => h.cleanups x ((helse.cleanups x hx).resolve_left hne),
    honce,fun op op' d d' hd hd' => h.apart_set hclash (hledger ▸ hd) (hledger ▸ hd')⟩
  · obtain ⟨rfl,rfl⟩ | ⟨-,hd⟩ := hof hd
    · exact ⟨hc.valid,rfl⟩
    · exact h.valid op d hd
  · obtain ⟨rfl,rfl⟩ | ⟨hne,hd⟩ := hof hd
    · exact hc.final hp
    · obtain ⟨hstage,hverified,r,hr,hrow⟩ := h.final op d hd hp
      exact ⟨hstage,hverified,r,(helse.rows _ ((h.valid op d hd).2 ▸ hne)).trans hr,hrow⟩
  · obtain ⟨rfl,rfl⟩ | ⟨-,hd⟩ := hof hd
    · exact hc.confirmed hp
    · exact helse.confirmed (h.confirmed op d hd hp)

lemma Kept.begin (h : Kept w) (hnone : w.db.custody.get? c.operationID=none) (hvalid : c.valid=true)
    (hclash : w.db.clashes c=false) (hphase : c.phase=.allocating)
    (hledger : db.custody=w.db.custody.set c.operationID c) : Kept {w with db} := by
  have hno : ∀ {p : SpoolCustody → Prop} {q : Prop},(∃ d,w.db.custody.get? c.operationID=some d ∧ p d) → q := by
    rintro p q ⟨d,hd,-⟩
    rw [hnone] at hd
    cases hd
  exact h.set (u := {w with db}) hledger hclash ⟨hvalid,fun hp => by simp [hphase] at hp,fun hp => by simp [hphase] at hp,
    fun hmem => hno (h.cancelled _ hmem),fun hmem => hno (h.prepared _ hmem),fun _ hmem => hno (h.cleanups _ hmem)⟩
    ⟨fun _ _ => rfl,List.Subset.refl _,fun _ => .inr,fun _ => .inr,fun _ => .inr⟩ h.once

lemma beginSpoolCustody_eq_some {id : ℤ} {row : SourceRow} {expected : MirrorToken}
    {operationID sourceID sourceIdentity stagePath : Text}
    (h : db.beginSpoolCustody id row expected operationID sourceID sourceIdentity stagePath=some (db',c)) :
    db.custody.get? c.operationID=none ∧ c.valid=true ∧ db.clashes c=false ∧ c.phase=.allocating ∧
    db'.custody=db.custody.set c.operationID c := by
  unfold Db.beginSpoolCustody at h
  extract_lets d at h
  split_ifs at h with hcheck
  simp only [Bool.or_eq_true,not_or,isSome_iff_ne_none,ne_eq,not_not] at hcheck
  obtain ⟨db'',hstore,h⟩ := bind_eq_some_iff.mp h
  obtain ⟨x,hx,h⟩ := map_eq_some_iff.mp h
  cases h
  unfold Db.store at hstore
  split_ifs at hstore with hclash
  cases hstore
  obtain ⟨hx,hvalid⟩ := loadCustody_eq_some hx
  change (db.custody.set operationID d).get? operationID=some c at hx
  rw [get?_set_self,Option.some.injEq] at hx
  subst hx
  exact ⟨hcheck.2,hvalid,Bool.eq_false_iff.mpr hclash,rfl,rfl⟩

lemma record_db (w : World) (e : SpoolCustody) (db : Db) (call : Advance) : (w.record e db call).db=db := by
  cases call <;> rfl

lemma record_elsewhere (w : World) (e : SpoolCustody) (db : Db) (call : Advance) :
    Elsewhere w (w.record e db call) e.operationID := by
  have hsame : Elsewhere w {w with db} e.operationID :=
    ⟨fun _ _ => rfl,List.Subset.refl _,fun _ => .inr,fun _ => .inr,fun _ => .inr⟩
  cases call with
  | prepare => exact {hsame with prepared := fun _ => mem_cons.mp}
  | confirm => exact {hsame with prepared := fun _ hmem => .inr (mem_filter.mp hmem).1}
  | beginPublish => exact {hsame with rows := fun op hne => get?_set_ne hne _}
  | confirmPublished => exact {hsame with confirmed := subset_cons_self _ _}
  | cancel => exact {hsame with cancelled := fun _ => mem_cons.mp}
  | claimCleanup => exact {hsame with cleanups := fun x hmem => (mem_cons.mp hmem).imp_left fun hx => by rw [hx]}
  | _ => exact hsame

lemma Kept.advance (h : Kept w) (hg : Granted w.db db call e c) : Kept (w.record e db call) := by
  have hm := hg.moves
  have hvalid := hg.valid
  have hid := hm.operationID.1
  obtain ⟨-,hfinal,hconfirmed,hcan,hprep,hclean⟩ := h.history hg.before
  have hset : (w.record e db call).cleanups.Nodup → History (w.record e db call) c → Kept (w.record e db call) :=
    fun honce hc => h.set (by rw [record_db,hg.ledger,hid]) hg.apart hc (hid ▸ record_elsewhere w e db call) honce
  cases hm with
  | bind phase =>
    simp only [phase,reduceCtorEq,or_false,imp_false] at hcan hprep hclean
    exact hset h.once ⟨hvalid,nofun,nofun,fun hmem => absurd hmem hcan,fun hmem => absurd hmem hprep,
      fun object hmem => absurd (hclean object hmem) (by simp)⟩
  | prepare phase =>
    simp only [phase,reduceCtorEq,imp_false] at hcan hclean
    exact hset h.once ⟨hvalid,nofun,nofun,fun hmem => absurd hmem hcan,fun _ => .inl rfl,
      fun object hmem => absurd (hclean object hmem) (by simp)⟩
  | confirm phase =>
    simp only [phase,reduceCtorEq,imp_false] at hcan hclean
    exact hset h.once ⟨hvalid,nofun,nofun,fun hmem => absurd hmem hcan,
      fun hmem => absurd (mem_filter.mp hmem).2 (by simp [SpoolCustody.confirmed]),
      fun object hmem => absurd (hclean object hmem) (by simp)⟩
  | retarget phase =>
    refine hset h.once ⟨hvalid,fun hp => ?_,hconfirmed,hcan,hprep,hclean⟩
    obtain phase | phase := phase <;> simp [retargeted,phase] at hp
  | claimPunched phase => exact hset h.once ⟨hvalid,hfinal,hconfirmed,hcan,hprep,hclean⟩
  | beginPublish phase staged verified r source final =>
    simp only [phase,reduceCtorEq,or_false,imp_false] at hcan hprep hclean
    simp only [Db.isFinal,Bool.and_eq_true,decide_eq_true_eq] at final
    exact hset h.once ⟨hvalid,fun _ => ⟨staged,verified,r,(get?_set_self _ _ _).trans (congrArg some source),
      final.1.2,final.1.1.1⟩,nofun,fun hmem => absurd hmem hcan,fun hmem => absurd hmem hprep,
      fun object hmem => absurd (hclean object hmem) (by simp)⟩
  | confirmPublished phase =>
    have hwhole := hfinal (.inl phase)
    simp only [phase,reduceCtorEq,or_false,imp_false] at hcan hprep hclean
    exact hset h.once ⟨hvalid,fun _ => hwhole,fun _ => mem_cons_self,fun hmem => absurd hmem hcan,
      fun hmem => absurd hmem hprep,fun object hmem => absurd (hclean object hmem) (by simp)⟩
  | cancel published quarantined =>
    exact hset h.once ⟨hvalid,nofun,nofun,fun _ => rfl,fun _ => .inr rfl,
      fun object hmem => absurd (hclean object hmem).2 published⟩
  | @claimCleanup _ token publicIdentity object privateIdentity phase mirror revision incarnation unclaimed =>
    have hnew : (e.operationID,object) ∉ w.cleanups := fun hmem => by simp [(hclean object hmem).1] at unclaimed
    have hkept : ∀ x,x=object ∨ e.isCleanupClaimed x=true → (e.cleaned object).isCleanupClaimed x=true := by
      intro x hx
      cases object <;> cases x <;> first | rfl | simpa [isCleanupClaimed,cleaned] using hx
    have hsame : (e.cleaned object).phase=e.phase := by cases object <;> rfl
    refine hset (nodup_cons.mpr ⟨hnew,h.once⟩) ⟨hvalid,fun _ => ?_,fun _ => hid ▸ hconfirmed phase,
      fun hmem => hsame ▸ hcan (hid ▸ hmem),fun hmem => hsame ▸ hprep (hid ▸ hmem),fun x hmem => ⟨hkept x ?_,hsame ▸ phase⟩⟩
    · cases object <;> exact hfinal (.inr phase)
    · rw [hid] at hmem
      exact (mem_cons.mp hmem).imp (fun heq => (Prod.ext_iff.mp heq).2) fun hmem => (hclean x hmem).1

lemma step_cases (hu : w.step op=some u) :
    u=w ∨
    (∃ db c,w.db.custody.get? c.operationID=none ∧ c.valid=true ∧ w.db.clashes c=false ∧ c.phase=.allocating ∧
      db.custody=w.db.custody.set c.operationID c ∧ u = {w with db}) ∨
    (∃ e call db c,Granted w.db db call e c ∧ u=w.record e db call) ∨
    ∃ surroundings,u = {w with db := {w.db with toSurroundings := surroundings}} := by
  cases op with
  | begin id row expected operationID sourceID sourceIdentity stagePath =>
    have hu := Option.some.inj hu
    cases hbegin : w.db.beginSpoolCustody id row expected operationID sourceID sourceIdentity stagePath with
    | none =>
      rw [hbegin] at hu
      exact .inl hu.symm
    | some granted =>
      rw [hbegin] at hu
      obtain ⟨hnone,hvalid,hclash,hphase,hledger⟩ := beginSpoolCustody_eq_some hbegin
      exact .inr (.inl ⟨granted.1,granted.2,hnone,hvalid,hclash,hphase,hledger,hu.symm⟩)
  | advance e call =>
    have hu := Option.some.inj hu
    cases hadvance : w.db.advance e call with
    | none =>
      rw [hadvance] at hu
      exact .inl hu.symm
    | some granted =>
      rw [hadvance] at hu
      exact .inr (.inr (.inl ⟨e,call,granted.1,granted.2,.of_advance hadvance,hu.symm⟩))
  | change surroundings => exact .inr (.inr (.inr ⟨surroundings,(Option.some.inj hu).symm⟩))

lemma Kept.step (h : Kept w) (hu : w.step op=some u) : Kept u := by
  obtain rfl | ⟨db,c,hnone,hvalid,hclash,hphase,hledger,rfl⟩ | ⟨e,call,db,c,hg,rfl⟩ | ⟨surroundings,rfl⟩ := step_cases hu
  · exact h
  · exact h.begin hnone hvalid hclash hphase hledger
  · exact h.advance hg
  · exact {h with}

lemma Kept.run {ops : List Op} (hrun : run World.step {} ops=some w) : Kept w :=
  run_invariant (fun _ _ _ h => h.step) .start hrun

lemma Extends.step (hu : w.step op=some u) {id : Text} (he : w.db.custody.get? id=some e) :
    ∃ c,u.db.custody.get? id=some c ∧ Extends e c := by
  obtain rfl | ⟨db,c,hnone,-,-,-,hledger,rfl⟩ | ⟨d,call,db,c,hg,rfl⟩ | ⟨surroundings,rfl⟩ := step_cases hu
  · exact ⟨e,he,.refl e⟩
  · have hne : id≠c.operationID := by
      rintro rfl
      rw [hnone] at he
      cases he
    exact ⟨e,by rw [hledger,get?_set_ne hne,he],.refl e⟩
  · rw [record_db,hg.ledger,get?_set]
    split_ifs with hid
    · subst hid
      rw [hg.before] at he
      cases he
      exact ⟨c,rfl,hg.moves.extends⟩
    · exact ⟨e,he,.refl e⟩
  · exact ⟨e,he,.refl e⟩

lemma Extends.run {ops : List Op} (hrun : run World.step w ops=some u) {id : Text}
    (he : w.db.custody.get? id=some e) : ∃ c,u.db.custody.get? id=some c ∧ Extends e c := by
  refine run_invariant (I := fun u => ∃ c,u.db.custody.get? id=some c ∧ Extends e c) ?_ ⟨e,he,.refl e⟩ hrun
  rintro s op t ⟨c,hc,hext⟩ ht
  obtain ⟨d,hd,hext'⟩ := Extends.step ht hc
  exact ⟨d,hd,hext.trans hext'⟩

end Ledger

/-- In every run: the ends of every operation are in order and never go back; a cleanup claim is granted
once for each private object, to a confirmed publication that began with the whole final size of the source
row verified in the stage, while the mirror is at the published revision, and never to an operation that was
cancelled or is between a prepare and its confirm; no two operations share a source ID or a stage path; and
of two calls from the same record only one is granted. -/
theorem custody_keeps_last_copy {ops : List Op} {w : World} (hrun : run World.step {} ops = some w) :
    (∀ id c,w.db.custody.get? id = some c →
      c.punchedEnd ≤ c.verifiedEnd ∧ c.verifiedEnd ≤ min c.stageEOF c.targetEOF) ∧
    (∀ more u,run World.step w more = some u → ∀ id c,w.db.custody.get? id = some c →
      ∃ d,u.db.custody.get? id = some d ∧ c.punchedEnd ≤ d.punchedEnd ∧ c.verifiedEnd ≤ d.verifiedEnd ∧
        c.stageEOF ≤ d.stageEOF ∧ c.targetEOF ≤ d.targetEOF) ∧
    (∀ e published publicIdentity object privateIdentity db c,
      w.db.claimSpoolCleanup e published publicIdentity object privateIdentity = some (db,c) →
        (e.operationID,object) ∉ w.cleanups ∧ e.operationID ∈ w.confirmed ∧
        (∃ r,w.finalRows.get? e.operationID = some (some r) ∧ r.drainState = .draining ∧
          r.size = e.verifiedEnd ∧ e.verifiedEnd = e.stageEOF) ∧
        (w.db.captureToken e.targetPath).incarnation = e.incarnation ∧
        (w.db.captureToken e.targetPath).revision = e.publishedRevision ∧
        e.operationID ∉ w.cancelled ∧ e.operationID ∉ w.prepared) ∧
    w.cleanups.Nodup ∧
    (∀ id id' c c',w.db.custody.get? id = some c → w.db.custody.get? id' = some c' →
      c.sourceID = c'.sourceID ∨ c.stagePath = c'.stagePath → id = id') ∧
    ∀ e call call' db c,w.db.advance e call = some (db,c) →
      ∀ more u,run World.step (w.record e db call) more = some u → u.db.advance e call' = none := by
  have h := Kept.run hrun
  refine ⟨fun id c hc => valid_bounds (h.valid id c hc).1,fun more u hu id c hc => ?_,
    fun e published publicIdentity object privateIdentity db c hclaim => ?_,h.once,h.apart,
    fun e call call' db c hcall more u hu => ?_⟩
  · obtain ⟨d,hd,hext⟩ := Extends.run hu hc
    exact ⟨d,hd,hext.punched,hext.verified,hext.stage,hext.target⟩
  · have hg : Granted w.db db (.claimCleanup published publicIdentity object privateIdentity) e c := .of_advance hclaim
    have hm := hg.moves
    cases hm with
    | claimCleanup phase mirror revision incarnation unclaimed =>
      obtain ⟨hstage,hverified,r,hr,hdraining,hsize⟩ := h.final _ e hg.before (.inr phase)
      refine ⟨fun hmem => ?_,h.confirmed _ e hg.before phase,⟨r,hr,hdraining,hsize.trans hverified.symm,hverified.trans hstage.symm⟩,
        mirror ▸ incarnation,mirror ▸ revision,fun hmem => ?_,fun hmem => ?_⟩
      · rw [((h.history hg.before).cleanups object hmem).1] at unclaimed
        cases unclaimed
      · rw [(h.history hg.before).cancelled hmem] at phase
        cases phase
      · obtain hp | hp := (h.history hg.before).prepared hmem <;> rw [hp] at phase <;> cases phase
  · have hg := Granted.of_advance hcall
    have hc : (w.record e db call).db.custody.get? e.operationID=some c := by
      rw [record_db,hg.ledger,get?_set_self]
    obtain ⟨d,hd,hext⟩ := Extends.run hu hc
    cases hagain : u.db.advance e call' with
    | none => rfl
    | some x =>
      obtain ⟨db',c'⟩ := x
      have hbefore := (Granted.of_advance hagain).before
      rw [hd] at hbefore
      cases hbefore
      have hepoch := hg.moves.operationID.2.2.2
      have := hext.epoch
      omega

def clipCustody : SpoolCustody :=
  { operationID := List.replicate 32 'a', sourceID := List.replicate 32 'b', spoolID := 1, spoolFile := ['/','s'],
    sourceIdentity := ['x'], storeID := ['m'], incarnation := ['i'], targetPath := ['c'], targetRevision := 1,
    stagePath := ['/','t'], targetEOF := 4 }

def clipRow (drainState : DrainState) : SourceRow := ⟨['c'],['/','s'],4,0,drainState,[]⟩

def clipMirror (drainState : DrainState) (revision : ℤ) : Surroundings :=
  { rows := [(1,clipRow drainState)], bindings := [(1,⟨['i'],true⟩)], entries := [(['c'],⟨['i'],revision,4⟩)],
    mirrorStoreID := ['m'] }

def clipToken (revision : ℤ) : MirrorToken := { path := ['c'], incarnation := ['i'], revision }

def clipPublished : SpoolCustody :=
  (((clipCustody.bound ['y']).checkpoint 4 4 4 0).confirmed.publishing).publishedAs ['z'] 2

/-- From the allocation of the stage to the confirmed publication. -/
def clipRun : List Op :=
  [.change (clipMirror .writing 1),
    .begin 1 (clipRow .writing) (clipToken 1) clipCustody.operationID clipCustody.sourceID ['x'] ['/','t'],
    .advance clipCustody (.bind ['x'] ['y']),
    .advance (clipCustody.bound ['y']) (.prepare ['x'] ['y'] 4 4 4 0),
    .advance ((clipCustody.bound ['y']).checkpoint 4 4 4 0) (.confirm ['x'] ['y']),
    .change (clipMirror .draining 1),
    .advance ((clipCustody.bound ['y']).checkpoint 4 4 4 0).confirmed (.beginPublish (clipToken 1) ['x'] ['y']),
    .change (clipMirror .draining 2),
    .advance (((clipCustody.bound ['y']).checkpoint 4 4 4 0).confirmed.publishing) (.confirmPublished (clipToken 2) ['z'])]

/-- The claim on the source of the clip is granted. -/
theorem custody_keeps_last_copy_clip : ∃ w db c,run World.step {} clipRun = some w ∧
    w.db.claimSpoolCleanup clipPublished (clipToken 2) ['z'] .source ['x'] = some (db,c) ∧
    clipPublished.operationID ∈ w.confirmed ∧
    ∃ r,w.finalRows.get? clipPublished.operationID = some (some r) ∧ r.size = clipPublished.verifiedEnd := by
  have hgranted : (run World.step {} clipRun).any (fun w =>
      (w.db.claimSpoolCleanup clipPublished (clipToken 2) ['z'] .source ['x']).isSome)=true := by
    decide +kernel
  obtain ⟨w,hrun,hclaim⟩ := (Option.any_eq_true _ _).mp hgranted
  obtain ⟨⟨db,c⟩,hclaim⟩ := isSome_iff_exists.mp hclaim
  obtain ⟨-,hconfirmed,⟨r,hr,-,hsize,-⟩,-⟩ := (custody_keeps_last_copy hrun).2.2.1 _ _ _ _ _ db c hclaim
  exact ⟨w,db,c,hrun,hclaim,hconfirmed,r,hr,hsize⟩

end JuiceMount.Metadata.Custody
