import JuiceMount.Lib.Transition
import JuiceMount.RespProxy.Guard

/-! First links of self-allocated slices across units. Rule (a) of `validatePushes` reads a slice's
used bit while the unit is decided; the unit's own EXEC sets the bit; the reply caches it. Units of
any number of connections interleave at these points. -/
namespace JuiceMount.RespProxy
open List GoMap Transition Option SliceScope

/-- The slice ids an admitted unit links for the first time: `exec` appends a SETBIT for each. -/
def sliceUsedOf (effects : List GuardEffect) : List ℕ :=
  effects.flatMap (fun e => match e with
    | .sliceUsed ids _ => ids
    | _ => [])

/-- A transaction on its way. While it is decided, `reads` holds the used bits read so far and
`missed` an id that was not cached and whose GETBIT is out. -/
inductive LinkPhase
  | deciding (reads : GoMap ℕ Bool) (missed : Option ℕ)
  | forwarded (ids : List ℕ)
  | executed (ids : List ℕ)
  | ended
  deriving DecidableEq, Repr

structure LinkUnit where
  conn : ℕ
  principal : Principal
  unit : DecisionUnit
  phase : LinkPhase := .deciding [] none

/-- `bits` holds the used bits set in each database, `cache` the ids the proxy remembers as used,
and `linked` which unit's EXEC committed a first link of which slice. -/
structure LinkState where
  bits : List (ℕ × ℕ) := []
  cache : List ℕ := []
  units : GoMap ℕ LinkUnit := []
  next : ℕ := 0
  linked : List (ℕ × ℕ) := []

def usedCacheMax : ℕ := 1000000

/-- `cacheUsed`: the cache is emptied when it is over its limit. -/
def cacheUsed (cache : List ℕ) (id : ℕ) : List ℕ :=
  addNew (if cache.length > usedCacheMax then [] else cache) id

namespace LinkUnit

/-- The unit read the bit of `id` clear, and its EXEC has not run. -/
def pendingOn (t : LinkUnit) (id : ℕ) : Bool :=
  match t.phase with
  | .deciding reads _ => reads.get? id=some false
  | .forwarded ids => ids.contains id
  | _ => false

def isDeciding (t : LinkUnit) : Bool :=
  match t.phase with
  | .deciding _ _ => true
  | _ => false

/-- Its EXEC or its reply is still out. -/
def inFlight (t : LinkUnit) : Bool :=
  match t.phase with
  | .forwarded _ | .executed _ => true
  | _ => false

end LinkUnit

inductive LinkMove
  | lookup (id : ℕ)
  | getbit (answered : Bool)
  | decide (env : GuardEnv) (granted : Bool)
  | exec (commit : Bool)
  | reply (received : Bool)

inductive LinkAction
  | start (conn : ℕ) (p : Principal) (u : DecisionUnit)
  | move (i : ℕ) (m : LinkMove)
  | rollback (id : ℕ)

namespace LinkState

def setPhase (s : LinkState) (i : ℕ) (t : LinkUnit) (ph : LinkPhase) : LinkState :=
  { s with units := s.units.set i { t with phase := ph } }

def waitsFor (s : LinkState) (i : ℕ) (t : LinkUnit) (p : LinkUnit → Bool) : Bool :=
  s.units.any (fun e => e.1 < i && e.2.conn=t.conn && p e.2)

end LinkState

section Steps
variable (vdb : ℕ)

/-- `Used` reads the cache and then, in the volume DB, the bit; `check` decides with what was read
(a read that failed is missing); Redis runs the EXECs of a connection in order, SETBITs included, in
the connection's own DB; the reply of a committed EXEC fills the cache unless it is lost. -/
def moveStep (s : LinkState) (i : ℕ) (t : LinkUnit) (m : LinkMove) : Option LinkState :=
  match m,t.phase with
  | .lookup id,.deciding reads none =>
    if (reads.get? id).isSome then none
    else if s.cache.contains id then some (s.setPhase i t (.deciding (reads.set id true) none))
    else some (s.setPhase i t (.deciding reads (some id)))
  | .getbit answered,.deciding reads (some id) =>
    if !answered then some (s.setPhase i t (.deciding reads none))
    else if s.bits.contains (vdb,id) then
      some (({ s with cache := cacheUsed s.cache id } : LinkState).setPhase i t
        (.deciding (reads.set id true) none))
    else some (s.setPhase i t (.deciding (reads.set id false) none))
  | .decide env granted,.deciding reads none =>
    match check { env with used := reads.get? } t.principal t.unit with
    | .error _ => some (s.setPhase i t .ended)
    | .ok r => some (s.setPhase i t (if granted then .forwarded (sliceUsedOf r.2) else .ended))
  | .exec commit,.forwarded ids =>
    if s.waitsFor i t (fun t => match t.phase with
      | .forwarded _ => true
      | _ => false) then none
    else if commit then
      some (({ s with
        bits := s.bits++ids.map (fun id => (t.unit.db,id))
        linked := s.linked++ids.map (fun id => (i,id)) } : LinkState).setPhase i t (.executed ids))
    else some (s.setPhase i t .ended)
  | .reply received,.executed ids =>
    if s.waitsFor i t LinkUnit.inFlight then none
    else if received then
      some (({ s with cache := ids.foldl cacheUsed s.cache } : LinkState).setPhase i t .ended)
    else some (s.setPhase i t .ended)
  | _,_ => none

/-- A connection decides one transaction at a time; a bare rollback marks its slice in the volume DB. -/
def linkStep (s : LinkState) (a : LinkAction) : Option LinkState :=
  match a with
  | .start conn p u =>
    if u.kind≠.txn || s.units.any (fun e => e.2.conn=conn && e.2.isDeciding) then none
    else some { s with
      units := s.units.set s.next { conn := conn, principal := p, unit := u }, next := s.next+1 }
  | .move i m => (s.units.get? i).bind (fun t => moveStep vdb s i t m)
  | .rollback id => some { s with cache := cacheUsed s.cache id, bits := s.bits++[(vdb,id)] }

/-- A bit is read while no other unit that read it clear is still undecided or unexecuted, and a
unit that links slices commits in the volume DB. -/
def soleLinker (s : LinkState) (a : LinkAction) : Bool :=
  match a with
  | .move i m =>
    (s.units.get? i).all (fun t => match m,t.phase with
      | .getbit true,.deciding _ (some id) =>
        s.bits.contains (vdb,id) || s.units.all (fun e => !e.2.pendingOn id)
      | .exec true,.forwarded ids => ids=[] || t.unit.db=vdb
      | _,_ => true)
  | _ => true

end Steps

section Effects
variable {env : SliceEnv} {u : DecisionUnit} {p : Principal} {sc : SliceScope}

lemma readChunks_firstUse (es : List (Bytes × TrimOp)) (sc : SliceScope) :
    (readChunks env u es sc).1.firstUse=sc.firstUse := by
  induction es generalizing sc with
  | nil => rfl
  | cons e es ih =>
    unfold readChunks
    split
    · rfl
    · exact ih _

lemma sideRead_firstUse (sc : SliceScope) : (sc.sideRead env u).1.firstUse=sc.firstUse := by
  unfold sideRead
  split
  · rfl
  · dsimp only
    split
    · rfl
    · exact readChunks_firstUse _ _

lemma payPush_firstUse {sc' : SliceScope} {raw f : Bytes} (h : sc.payPush env u raw f=.ok sc') :
    sc'.firstUse=sc.firstUse := by
  unfold payPush at h
  split at h
  · cases h
    rfl
  have hside : (sc.sideRead env u).1.firstUse=sc.firstUse := sideRead_firstUse sc
  split at h
  · cases h
  rename_i heq
  rw [heq] at hside
  split at h <;> cases h
  exact hside

lemma noteInc_firstUse (sc : SliceScope) (c : Cmd) (w : KeyWrite) : (sc.noteInc c w).firstUse=sc.firstUse := by
  unfold noteInc
  repeat' split
  all_goals rfl

lemma noteChunk_firstUse (sc : SliceScope) (watched seen : Bool) (c : Cmd) (w : KeyWrite) :
    (sc.noteChunk watched seen c w).firstUse=sc.firstUse := by
  unfold noteChunk
  repeat' split
  all_goals rfl

lemma note_firstUse (st : SliceScope × List Bytes) (w : KeyWrite) : (note u st w).1.firstUse=st.1.firstUse := by
  have hinc := noteInc_firstUse st.1 (u.cmdOf w) w
  unfold note
  dsimp only
  split
  · exact hinc
  · split
    · exact hinc
    · exact (noteChunk_firstUse _ _ _ _ _).trans hinc

lemma newSliceScope_firstUse (u : DecisionUnit) : (newSliceScope u).firstUse=[] := by
  have hfold : ∀ (ws : List KeyWrite) (st : SliceScope × List Bytes),
      (ws.foldl (note u) st).1.firstUse=st.1.firstUse := by
    intro ws
    induction ws with
    | nil => exact fun _ => rfl
    | cons w ws ih => exact fun st => (ih _).trans (note_firstUse st w)
  exact hfold u.writes ({},[])

def Unused (env : SliceEnv) (ids : List ℕ) : Prop := ∀ id∈ids,env.used id=some false

lemma pushOne_unused {w : KeyWrite} {st st' : SliceScope × List ℕ} {v : Bytes}
    (hst : Unused env st.1.firstUse) (h : pushOne env u p w st v=.ok st') : Unused env st'.1.firstUse := by
  unfold pushOne at h
  split at h
  · cases h
  rename_i s hs
  split at h
  · cases h
    exact hst
  split at h
  · cases h
  rename_i first hfirst
  split at h
  · cases h
  rename_i sc hpay
  cases h
  cases first with
  | true =>
    cases hpay
    have hused : env.used s.id=some false := by
      unfold firstLink at hfirst
      repeat' split at hfirst
      all_goals first
        | cases hfirst
        | simp_all
    intro id hid
    rcases mem_append.mp hid with hid | hid
    · exact hst id hid
    · cases mem_singleton.mp hid
      exact hused
  | false =>
    have := payPush_firstUse hpay
    dsimp only
    rwa [this]

lemma validatePushes_unused (h : (newSliceScope u).validatePushes env u p=.ok sc) : Unused env sc.firstUse := by
  unfold validatePushes at h
  split at h
  · cases h
  split at h
  · cases h
  rename_i st hloop
  cases h
  refine Loop.each_induct (I := fun _ st => Unused env st.1.firstUse) hloop
    (by simp [newSliceScope_firstUse,Unused]) (fun _ w _ m n hm hn => ?_)
  unfold pushWrite at hn
  have hloop : Loop.each (pushOne env u p w) m ((u.cmdOf w).args.drop 2)=.ok n →
      Unused env n.1.firstUse := fun hn =>
    Loop.each_induct (I := fun _ st => Unused env st.1.firstUse) hn hm
      (fun _ _ _ _ _ hm hn => pushOne_unused hm hn)
  repeat' split at hn
  all_goals first
    | exact hloop hn
    | (cases hn; exact hm)
    | cases hn

end Effects

section Check
variable {env : GuardEnv} {u : DecisionUnit} {p : Principal}

lemma sliceUsedOf_append (xs ys : List GuardEffect) :
    sliceUsedOf (xs++ys)=sliceUsedOf xs++sliceUsedOf ys := by simp [sliceUsedOf]

lemma sliceUsedOf_ownedBy (name : String) (effects : List GuardEffect) :
    sliceUsedOf (effects.map (.ownedBy name))=sliceUsedOf effects := by
  rw [sliceUsedOf,flatMap_map]
  refine flatMap_congr (fun e _ => ?_)
  cases e <;> rfl

lemma anchorWrite_effects {acc acc' : CleanupAcc} {w : KeyWrite} (hacc : sliceUsedOf acc.effects=[])
    (h : anchorWrite env u acc w=.ok acc') : sliceUsedOf acc'.effects=[] := by
  have hnone : ∀ new : List GuardEffect,sliceUsedOf new=[] → sliceUsedOf (acc.effects++new)=[] :=
    fun new hnew => by rw [sliceUsedOf_append,hacc,hnew]; rfl
  have hdel : ∀ ms : List Bytes,sliceUsedOf (ms.map (fun m => .delAdd m "")) = [] := fun ms => by
    simp [sliceUsedOf]
  have hfield : ∀ (f : SliceField) (a b : CleanupAcc),sliceUsedOf a.effects=[] →
      anchorField env u (u.cmdOf w) a f=.ok b → sliceUsedOf b.effects=[] := by
    intro f a b ha hb
    unfold anchorField at hb
    repeat' split at hb
    all_goals first
      | (cases hb; exact ha)
      | (cases hb; simp only [sliceUsedOf_append,ha]; rfl)
      | cases hb
  have hslices : anchorDelSlices (u.cmdOf w) acc=.ok acc' → sliceUsedOf acc'.effects=[] := by
    intro hb
    unfold anchorDelSlices at hb
    dsimp only at hb
    repeat' split at hb
    all_goals first
      | (cases hb; exact hacc)
      | cases hb
  unfold anchorWrite at h
  dsimp only at h
  repeat' split at h
  all_goals first
    | exact hslices h
    | exact Loop.each_induct (I := fun _ a => sliceUsedOf a.effects=[]) h hacc
        (fun _ f _ m n hm hn => hfield f m n hm hn)
    | (cases h; exact hacc)
    | (cases h; exact hnone _ (hdel _))
    | (cases h; exact hnone _ rfl)
    | cases h

lemma checkRecords_effects {sc : SliceScope} {r : DecisionUnit × List GuardEffect}
    (h : checkRecords env p u sc=.ok r) : sliceUsedOf r.2=[] := by
  unfold checkRecords at h
  dsimp only at h
  split at h
  · split at h
    · split at h
      · cases h
      rename_i acc hacc
      cases h
      dsimp only
      rw [sliceUsedOf_ownedBy]
      unfold anchorCleanup at hacc
      split at hacc
      · cases hacc
      rename_i acc₁ hloop
      have hstart : sliceUsedOf acc₁.effects=[] :=
        Loop.each_induct (I := fun _ a => sliceUsedOf a.effects=[]) hloop rfl
          (fun _ w _ m n hm hn => anchorWrite_effects hm hn)
      refine Loop.each_induct (I := fun _ a => sliceUsedOf a.effects=[]) hacc hstart
        (fun _ e _ m n hm hn => ?_)
      unfold chargeField at hn
      split at hn
      · cases hn
      · cases hn
        exact hm
    · split at h
      · cases h
      rename_i refs effects hdrop
      cases h
      refine Loop.each_induct (I := fun _ a => sliceUsedOf a.2=[]) hdrop rfl
        (fun _ w _ m n hm hn => ?_)
      dsimp only at hn
      split_ifs at hn
      refine Loop.each_induct (I := fun _ a => sliceUsedOf a.2=[]) hn hm
        (fun _ f _ m n hm hn => ?_)
      repeat' split at hn
      all_goals first
        | (cases hn; simp only [sliceUsedOf_append,hm]; rfl)
        | cases hn
  · cases h
    rfl

lemma classGate_effects {acc acc' : DecisionUnit × List GuardEffect} {w : KeyWrite}
    (h : classGate env p acc w=.ok acc') : sliceUsedOf acc'.2=sliceUsedOf acc.2 := by
  obtain ⟨v,effects⟩ := acc
  unfold classGate at h
  dsimp only at h
  repeat' split at h
  all_goals first
    | (cases h; rfl)
    | (cases h; simp [sliceUsedOf])
    | cases h

lemma refinedUnit_kind {v : DecisionUnit} (h : refinedUnit env p u=.ok v) : v.kind=u.kind := by
  unfold refinedUnit at h
  dsimp only at h
  repeat' split at h
  all_goals first
    | (cases h; rfl)
    | cases h

/-- The ids an admitted transaction links under rule (a) were all read as unused. -/
lemma check_unused {r : DecisionUnit × List GuardEffect} (hkind : u.kind=.txn)
    (h : check env p u=.ok r) : Unused env.toSliceEnv (sliceUsedOf r.2) := by
  unfold check at h
  split at h
  · cases h
  rename_i v hrefined
  have hown : ownRecord env v p=none := by
    have hv : v.kind=.txn := (refinedUnit_kind hrefined).trans hkind
    unfold ownRecord
    split
    · simp [hv]
    · rfl
  simp only [hown] at h
  split at h
  · cases h
  rename_i sc hslices
  split at h
  · cases h
  rename_i v' records hrecords
  have hused : Unused env.toSliceEnv sc.firstUse := by
    unfold checkSlices at hslices
    split at hslices
    · cases hslices
      exact nofun
    · exact validatePushes_unused hslices
  have hend := Loop.each_induct (I := fun _ acc => Unused env.toSliceEnv (sliceUsedOf acc.2)) h
    (by
      rw [nil_append,sliceUsedOf_append,checkRecords_effects hrecords,nil_append]
      split
      · exact nofun
      · simpa [sliceUsedOf] using hused)
    (fun _ w _ m n hm hn => by rwa [classGate_effects hn])
  exact hend

end Check

section Runs
variable {vdb : ℕ} {s s' : LinkState} {i : ℕ} {t : LinkUnit} {ph : LinkPhase} {reads : GoMap ℕ Bool}

/-- A committed first link has its bit set in the volume DB; a slice some unit read clear is not
linked, and no second unit read it clear. -/
structure LinkInv (vdb : ℕ) (s : LinkState) : Prop where
  txn : ∀ i t,s.units.get? i=some t → t.unit.kind=.txn
  marked : ∀ i id,(i,id)∈s.linked → (vdb,id)∈s.bits
  unlinked : ∀ i t id,s.units.get? i=some t → t.pendingOn id=true → ∀ j,(j,id) ∉ s.linked
  sole : ∀ i j t t' id,s.units.get? i=some t → s.units.get? j=some t' → t.pendingOn id=true →
    t'.pendingOn id=true → i=j
  unique : ∀ i j id,(i,id)∈s.linked → (j,id)∈s.linked → i=j

lemma setPhase_get? {j : ℕ} {t' : LinkUnit} (h : (s.setPhase i t ph).units.get? j=some t') :
    (j=i ∧ t' = {t with phase := ph}) ∨ (j≠i ∧ s.units.get? j=some t') :=
  of_get?_set h

lemma LinkInv.withUnits (h : LinkInv vdb s) {units : GoMap ℕ LinkUnit} (hold : ∀ j t',units.get? j=some t' →
      t'.unit.kind=.txn ∧ ∀ id,t'.pendingOn id=true → ∃ t₀,s.units.get? j=some t₀ ∧ t₀.pendingOn id=true) :
    LinkInv vdb {s with units} := by
  refine {h with txn := fun j t' hj => (hold j t' hj).1, unlinked := fun j t' id hj hp => ?_, sole := ?_}
  · obtain ⟨t₀,h₀,hp₀⟩ := (hold j t' hj).2 id hp
    exact h.unlinked j t₀ id h₀ hp₀
  · intro j k t₁ t₂ id hj hk h₁ h₂
    obtain ⟨u₁,hu₁,hp₁⟩ := (hold j t₁ hj).2 id h₁
    obtain ⟨u₂,hu₂,hp₂⟩ := (hold k t₂ hk).2 id h₂
    exact h.sole j k u₁ u₂ id hu₁ hu₂ hp₁ hp₂

lemma LinkInv.setPhase (h : LinkInv vdb s) (ht : s.units.get? i=some t)
    (hsub : ∀ id,({t with phase := ph} : LinkUnit).pendingOn id=true → t.pendingOn id=true) :
    LinkInv vdb (s.setPhase i t ph) :=
  h.withUnits (forall_set ⟨h.txn i t ht,fun id hp => ⟨t,ht,hsub id hp⟩⟩
    fun j t' hj => ⟨h.txn j t' hj,fun _ hp => ⟨t',hj,hp⟩⟩)

lemma LinkInv.withCache (h : LinkInv vdb s) (cache : List ℕ) : LinkInv vdb {s with cache := cache} :=
  {h with}

lemma LinkInv.readClear (h : LinkInv vdb s) (ht : s.units.get? i=some t) {id : ℕ}
    (hph : t.phase=.deciding reads (some id)) (hbit : (vdb,id) ∉ s.bits)
    (hall : ∀ j t',s.units.get? j=some t' → t'.pendingOn id=false) :
    LinkInv vdb (s.setPhase i t (.deciding (reads.set id false) none)) := by
  have hpend : ∀ x,({t with phase := .deciding (reads.set id false) none} : LinkUnit).pendingOn x=true →
      x=id ∨ t.pendingOn x=true := by
    intro x hx
    simp only [LinkUnit.pendingOn,decide_eq_true_eq] at hx
    obtain ⟨he,-⟩ | ⟨-,hx⟩ := of_get?_set hx
    · exact .inl he
    · exact .inr (by simp [LinkUnit.pendingOn,hph,hx])
  refine {h with
    txn := forall_set (h.txn i t ht) h.txn, unlinked := fun j t' x hj hp => ?_
    sole := fun j k t₁ t₂ x hj hk h₁ h₂ => ?_}
  · rcases setPhase_get? hj with ⟨rfl,rfl⟩ | ⟨_,hj⟩
    · rcases hpend x hp with rfl | hp
      · exact fun k hk => hbit (h.marked k x hk)
      · exact h.unlinked j t x ht hp
    · exact h.unlinked j t' x hj hp
  · rcases setPhase_get? hj with ⟨rfl,rfl⟩ | ⟨_,hj'⟩ <;>
      rcases setPhase_get? hk with ⟨rfl,rfl⟩ | ⟨_,hk'⟩
    · rfl
    · rcases hpend x h₁ with rfl | h₁
      · rw [hall k t₂ hk'] at h₂
        cases h₂
      · exact h.sole j k t t₂ x ht hk' h₁ h₂
    · rcases hpend x h₂ with rfl | h₂
      · rw [hall j t₁ hj'] at h₁
        cases h₁
      · exact h.sole j k t₁ t x hj' ht h₁ h₂
    · exact h.sole j k t₁ t₂ x hj' hk' h₁ h₂

lemma LinkInv.commit (h : LinkInv vdb s) (ht : s.units.get? i=some t) {ids : List ℕ}
    (hph : t.phase=.forwarded ids) (hdb : ids=[] ∨ t.unit.db=vdb) :
    LinkInv vdb (({s with
      bits := s.bits++ids.map (fun id => (t.unit.db,id))
      linked := s.linked++ids.map (fun id => (i,id))} : LinkState).setPhase i t (.executed ids)) := by
  have hpend : ∀ id∈ids,t.pendingOn id=true := fun id hid => by
    simpa [LinkUnit.pendingOn,hph] using hid
  have hlinked : ∀ j id,(j,id)∈s.linked++ids.map (fun id => (i,id)) →
      (j,id)∈s.linked ∨ (j=i ∧ id∈ids) := by
    intro j id hmem
    rcases mem_append.mp hmem with hmem | hmem
    · exact .inl hmem
    · obtain ⟨x,hx,he⟩ := List.mem_map.mp hmem
      cases he
      exact .inr ⟨rfl,hx⟩
  have hother : ∀ j t' id,(({s with
      bits := s.bits++ids.map (fun id => (t.unit.db,id))
      linked := s.linked++ids.map (fun id => (i,id))} : LinkState).setPhase i t (.executed ids)).units.get? j =
        some t' → t'.pendingOn id=true → j≠i ∧ s.units.get? j=some t' := by
    intro j t' id hj hp
    rcases setPhase_get? hj with ⟨rfl,rfl⟩ | hj
    · simp [LinkUnit.pendingOn] at hp
    · exact hj
  refine ⟨forall_set (h.txn i t ht) h.txn,fun j id hj => ?_,fun j t' id hj hp k hk => ?_,
    fun j k t₁ t₂ id hj hk h₁ h₂ => ?_,fun j k id hj hk => ?_⟩
  · rcases hlinked j id hj with hj | ⟨rfl,hid⟩
    · exact mem_append_left _ (h.marked j id hj)
    · refine mem_append_right _ (List.mem_map.mpr ⟨id,hid,?_⟩)
      rcases hdb with rfl | hdb
      · cases hid
      · rw [hdb]
  · obtain ⟨hne,hj'⟩ := hother j t' id hj hp
    rcases hlinked k id hk with hk' | ⟨rfl,hid⟩
    · exact h.unlinked j t' id hj' hp k hk'
    · exact hne (h.sole j k t' t id hj' ht hp (hpend id hid))
  · exact h.sole j k t₁ t₂ id (hother j t₁ id hj h₁).2 (hother k t₂ id hk h₂).2 h₁ h₂
  · rcases hlinked j id hj with hj' | ⟨rfl,hid⟩ <;> rcases hlinked k id hk with hk' | ⟨rfl,hid'⟩
    · exact h.unique j k id hj' hk'
    · exact absurd hj' (h.unlinked k t id ht (hpend id hid') j)
    · exact absurd hk' (h.unlinked j t id ht (hpend id hid) k)
    · rfl

lemma pendingOn_reads {reads' : GoMap ℕ Bool} {m m' : Option ℕ} (hph : t.phase=.deciding reads m)
    (hsub : ∀ x,reads'.get? x=some false → reads.get? x=some false) (x : ℕ)
    (hx : ({t with phase := .deciding reads' m'} : LinkUnit).pendingOn x=true) : t.pendingOn x=true := by
  simp only [LinkUnit.pendingOn,decide_eq_true_eq] at hx
  simpa [LinkUnit.pendingOn,hph] using hsub x hx

lemma get?_set_true {id x : ℕ} (h : (reads.set id true).get? x=some false) : reads.get? x=some false := by
  obtain ⟨-,h⟩ | ⟨-,h⟩ := of_get?_set h
  · cases h
  · exact h

lemma moveStep_inv (h : LinkInv vdb s) (ht : s.units.get? i=some t) {m : LinkMove}
    (hsole : soleLinker vdb s (.move i m)=true) (hs : moveStep vdb s i t m=some s') : LinkInv vdb s' := by
  have hended : LinkInv vdb (s.setPhase i t .ended) :=
    h.setPhase ht (fun _ hx => by simp [LinkUnit.pendingOn] at hx)
  unfold moveStep at hs
  split at hs
  · rename_i id reads hph
    split at hs
    · cases hs
    split at hs <;> cases hs
    · exact h.setPhase ht (pendingOn_reads hph (fun _ => get?_set_true))
    · exact h.setPhase ht (pendingOn_reads hph (fun _ hx => hx))
  · rename_i answered reads id hph
    cases answered with
    | false =>
      cases hs
      exact h.setPhase ht (pendingOn_reads hph (fun _ hx => hx))
    | true =>
      simp only [Bool.not_true,Bool.false_eq_true,if_false] at hs
      split at hs
      · cases hs
        exact (h.withCache _).setPhase ht (pendingOn_reads hph (fun _ => get?_set_true))
      · rename_i hbit
        cases hs
        simp only [soleLinker,ht,hph,all_some,hbit,Bool.false_or] at hsole
        refine h.readClear ht hph (by simpa using hbit) (fun j t' hj => ?_)
        simpa using List.all_eq_true.mp hsole (j,t') (mem_of_get? hj)
  · rename_i env granted reads hph
    split at hs
    · cases hs
      exact hended
    rename_i r hcheck
    cases hs
    cases granted with
    | false => exact hended
    | true =>
      refine h.setPhase ht (fun id hid => ?_)
      have hunused := check_unused (h.txn i t ht) hcheck id (by simpa [LinkUnit.pendingOn] using hid)
      simpa [LinkUnit.pendingOn,hph] using hunused
  · rename_i commit ids hph
    split at hs
    · cases hs
    split at hs
    · rename_i hcommit
      cases hs
      subst hcommit
      refine h.commit ht hph ?_
      simpa [soleLinker,ht,hph] using hsole
    · cases hs
      exact hended
  · rename_i received ids hph
    split at hs
    · cases hs
    split at hs <;> cases hs
    · exact (h.withCache _).setPhase ht (fun _ hx => by simp [LinkUnit.pendingOn] at hx)
    · exact hended
  · cases hs

lemma linkStep_inv {a : LinkAction} (h : LinkInv vdb s) (hsole : soleLinker vdb s a=true)
    (hs : linkStep vdb s a=some s') : LinkInv vdb s' := by
  cases a with
  | start conn p u =>
    simp only [linkStep] at hs
    split_ifs at hs with hkind
    simp only [ne_eq,Bool.or_eq_true,decide_eq_true_eq,not_or,not_not] at hkind
    cases hs
    refine {h.withUnits (forall_set ⟨hkind.1,fun id hp => ?_⟩ fun j t' hj => ?_) with}
    · simp [LinkUnit.pendingOn] at hp
    · exact ⟨h.txn j t' hj,fun _ hp => ⟨t',hj,hp⟩⟩
  | move i m =>
    obtain ⟨t,ht,hm⟩ := bind_eq_some_iff.mp hs
    exact moveStep_inv h ht hsole hm
  | rollback id =>
    cases hs
    exact {h with marked := fun j x hx => mem_append_left _ (h.marked j x hx)}

end Runs

/-- In every run whose used-bit reads and commits meet the condition, from any used bits and cache,
at most one committed unit links a slice as a first link. -/
theorem first_link_unique {vdb : ℕ} {bits : List (ℕ × ℕ)} {cache : List ℕ} {as : List LinkAction}
    {s : LinkState}
    (hsteps : Transition.AllSteps (linkStep vdb) (fun s a => soleLinker vdb s a = true)
      { bits := bits, cache := cache } as)
    (h : Transition.run (linkStep vdb) { bits := bits, cache := cache } as = some s)
    {i j id : ℕ} (hi : (i,id) ∈ s.linked) (hj : (j,id) ∈ s.linked) : i = j := by
  have hstart : LinkInv vdb { bits := bits, cache := cache } :=
    ⟨by simp,by simp,by simp,by simp,by simp⟩
  have hinv := run_invariant_of_allSteps (I := LinkInv vdb)
    (fun _ _ _ hI hsole hs => linkStep_inv hI hsole hs) hstart hsteps h
  exact hinv.unique i j id hi hj

def macA : Principal := { name := "m:a", kind := .mac, host := "" }

/-- Slice 7 of five bytes as a chunk element. -/
def sliceSeven : Bytes := [0,0,0,0,0,0,0,0,0,0,0,7,0,0,0,5,0,0,0,0,0,0,0,5]

/-- A write of slice 7 into a chunk, in the volume DB 1. -/
def linkUnit (key : Bytes) : DecisionUnit :=
  { kind := .txn, db := 1
    cmds := [{ name := .rpush, cls := .write, args := [ascii "RPUSH",key,sliceSeven], keys := [parseKey key], raw := [key] }] }

def linkerEnv : GuardEnv :=
  { owner := fun _ => some (some "m:a"), used := fun _ => none, chunkElems := fun _ _ => some [] }

/-- One unit links the slice, and a second is decided after its EXEC. -/
def linksInTurn : List LinkAction :=
  [.start 0 macA (linkUnit (ascii "c5_0")),.move 0 (.lookup 7),.move 0 (.getbit true),
    .move 0 (.decide linkerEnv true),.move 0 (.exec true),.start 1 macA (linkUnit (ascii "c6_0")),
    .move 1 (.lookup 7),.move 1 (.getbit true),.move 1 (.decide linkerEnv true),.move 0 (.reply true)]

/-- The second unit is refused: the first link stays the only one. -/
theorem second_link_refused : ∃ s,Transition.run (linkStep 1) {} linksInTurn = some s ∧ s.linked = [(0,7)] ∧
      ∀ j,(j,7) ∈ s.linked → 0 = j := by
  have hrun : (Transition.run (linkStep 1) {} linksInTurn).map LinkState.linked = some [(0,7)] := by
    decide +kernel
  obtain ⟨s,hs,hlinked⟩ := map_eq_some_iff.mp hrun
  have hsteps : Transition.AllSteps (linkStep 1) (fun s a => soleLinker 1 s a=true) {} linksInTurn :=
    allSteps_of_check (by decide +kernel)
  exact ⟨s,hs,hlinked,fun j hj => first_link_unique hsteps hs (by rw [hlinked]; simp) hj⟩

/-- Two transactions pipelined on one connection before any reply is read. -/
def linksPipelined : List LinkAction :=
  [.start 0 macA (linkUnit (ascii "c5_0")),.move 0 (.lookup 7),.move 0 (.getbit true),
    .move 0 (.decide linkerEnv true),.start 0 macA (linkUnit (ascii "c6_0")),.move 1 (.lookup 7),
    .move 1 (.getbit true),.move 1 (.decide linkerEnv true),.move 0 (.exec true),.move 1 (.exec true)]

/-- Both commit a first link of slice 7. -/
theorem pipelined_units_link_twice :
    ∃ s,Transition.run (linkStep 1) {} linksPipelined = some s ∧ (0,7) ∈ s.linked ∧ (1,7) ∈ s.linked := by
  have hrun : (Transition.run (linkStep 1) {} linksPipelined).map LinkState.linked =
      some [(0,7),(1,7)] := by decide +kernel
  obtain ⟨s,hs,hlinked⟩ := map_eq_some_iff.mp hrun
  exact ⟨s,hs,by simp [hlinked],by simp [hlinked]⟩

end JuiceMount.RespProxy
