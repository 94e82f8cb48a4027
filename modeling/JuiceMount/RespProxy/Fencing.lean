import JuiceMount.RespProxy.Engine

/-! Lease fencing. A section of one goroutine leaves the locks of the others alone, and it
changes a tenure only with the project's fence held for writing. A unit keeps the read side of
all its projects from the holder check until its outcome is final, so the tenure it was
admitted under outlives it. -/
namespace JuiceMount.RespProxy
open Engine UnitTask List Transition Option Pc RWLock
namespace Engine

def tenure (s : Engine) (q : ℕ) : Option (String × ℕ × LeaseMode × Bool) :=
  (s.leases q).map Lease.tenure

@[simp] lemma setTask_self (s : Engine) (t : ℕ) (k : Task) : (s.setTask t k).tasks t=k := by
  simp [setTask]
@[simp] lemma setFence_self (s : Engine) (q : ℕ) (f : RWLock ℕ) : (s.setFence q f).fences q=f := by
  simp [setFence]
@[simp] lemma setLease_tenure (s : Engine) (q : ℕ) (l : Lease) : (s.setLease q l).tenure q=some l.tenure := by
  simp [setLease,tenure]

variable {s : Engine} {q t : ℕ} {f : RWLock ℕ}

lemma setFence_reads {p q r : ℕ} (hq : (s.fences q).Reads r)
    (hf : q=p → f.Reads r) : ((s.setFence p f).fences q).Reads r := by
  by_cases h : q=p
  · subst p; simpa using hf rfl
  · simpa [setFence,h] using hq

lemma setFence_writes {p q r : ℕ} (hq : (s.fences q).Writes r)
    (hf : q=p → f.Writes r) : ((s.setFence p f).fences q).Writes r := by
  by_cases h : q=p
  · subst p; simpa using hf rfl
  · simpa [setFence,h] using hq

@[simp] lemma releaseFences_writes {t q r : ℕ} {qs : List ℕ} :
    ((s.releaseFences t qs).fences q).Writes r ↔ (s.fences q).Writes r := by
  simp only [releaseFences]
  split <;> simp

/-- What a section of task `t` keeps for every other task: the task itself, its locks and the
tenures of the projects it has locked. -/
structure Frame (t : ℕ) (s s' : Engine) : Prop where
  tasks : ∀ r, r≠t → s'.tasks r = s.tasks r
  reads : ∀ r q, r≠t → (s.fences q).Reads r → (s'.fences q).Reads r
  writes : ∀ r q, r≠t → (s.fences q).Writes r → (s'.fences q).Writes r
  tenure : ∀ r q, r≠t → (s.fences q).Reads r ∨ (s.fences q).Writes r →
    s'.tenure q = s.tenure q

lemma Frame.refl (t : ℕ) (s : Engine) : Frame t s s :=
  ⟨fun _ _ => rfl,fun _ _ _ h => h,fun _ _ _ h => h,fun _ _ _ _ => rfl⟩

lemma Frame.trans {s m s' : Engine} (h : Frame t s m) (h' : Frame t m s') : Frame t s s' where
  tasks r hr := (h'.tasks r hr).trans (h.tasks r hr)
  reads r q hr hq := h'.reads r q hr (h.reads r q hr hq)
  writes r q hr hq := h'.writes r q hr (h.writes r q hr hq)
  tenure r q hr hq := (h'.tenure r q hr (hq.imp (h.reads r q hr) (h.writes r q hr))).trans
    (h.tenure r q hr hq)

lemma frame_setTask (s : Engine) (t : ℕ) (k : Task) : Frame t s (s.setTask t k) where
  tasks r hr := by simp [setTask,hr]
  reads _ _ _ h := h
  writes _ _ _ h := h
  tenure _ _ _ _ := rfl

lemma frame_topo (s : Engine) (t : ℕ) (l : RWLock ℕ) : Frame t s {s with topo := l} :=
  ⟨fun _ _ => rfl,fun _ _ _ h => h,fun _ _ _ h => h,fun _ _ _ _ => rfl⟩

lemma frame_rlock (h : (s.fences q).rlock t=some f) : Frame t s (s.setFence q f) where
  tasks _ _ := rfl
  reads r x _ hx := setFence_reads hx (fun e => by subst x; exact reads_of_rlock h hx)
  writes r x _ hx := setFence_writes hx (fun e => by
    subst x; exact (not_writes_of_rlock h hx).elim)
  tenure _ _ _ _ := rfl

lemma frame_lock (h : (s.fences q).lock t=some f) : Frame t s (s.setFence q f) where
  tasks _ _ := rfl
  reads r x _ hx := setFence_reads hx (fun e => by
    subst x; exact (not_reads_of_lock h hx).elim)
  writes r x _ hx := setFence_writes hx (fun e => by
    subst x; exact (not_writes_of_lock h hx).elim)
  tenure _ _ _ _ := rfl

lemma frame_unlock (s : Engine) (t q : ℕ) :
    Frame t s (s.setFence q ((s.fences q).unlock t)) where
  tasks _ _ := rfl
  reads r x _ hx := setFence_reads hx (fun e => by subst x; exact reads_of_unlock hx)
  writes r x hr hx := setFence_writes hx (fun e => by
    subst x; exact writes_of_unlock hr hx)
  tenure _ _ _ _ := rfl

lemma frame_releaseFences (s : Engine) (t : ℕ) (qs : List ℕ) :
    Frame t s (s.releaseFences t qs) where
  tasks _ _ := rfl
  reads r q hr hq := by
    simp only [releaseFences]
    split
    · exact reads_of_runlock hr hq
    · exact hq
  writes r q _ hq := releaseFences_writes.mpr hq
  tenure _ _ _ _ := rfl

/-- A record is replaced under the write side, so nobody else has the project locked. -/
lemma frame_setLease (l : Lease) (hw : (s.fences q).Writes t) : Frame t s (s.setLease q l) where
  tasks _ _ := rfl
  reads _ _ _ h := h
  writes _ _ _ h := h
  tenure r x hr hx := by
    have hne : x≠q := by
      rintro rfl
      rcases hx with hx | hx
      · exact hw.not_reads hx
      · exact hr (hx.unique hw)
    simp [tenure,setLease,hne]

lemma frame_mapLeases (s : Engine) (t : ℕ) {f : ℕ → Lease → Lease}
    (hf : ∀ q l, (f q l).tenure=l.tenure) : Frame t s (s.mapLeases f) where
  tasks _ _ := rfl
  reads _ _ _ h := h
  writes _ _ _ h := h
  tenure _ q _ _ := by
    cases h : s.leases q <;> simp [tenure,mapLeases,h,hf]

lemma frame_deny (s : Engine) (t : ℕ) (u : UnitTask) (d : Denial) : Frame t s (s.deny t u d) :=
  (frame_releaseFences s t u.fences).trans (frame_setTask _ t _)

lemma frame_releaseUnit (s : Engine) (t : ℕ) (u : UnitTask) : Frame t s (s.releaseUnit t u) := by
  unfold releaseUnit
  split
  · exact frame_setTask s t _
  · exact ((frame_releaseFences s t u.fences).trans (frame_topo _ t _)).trans (frame_setTask _ t _)

lemma frame_opFinish (s : Engine) (t : ℕ) (o : OpTask) : Frame t s (s.opFinish t o) :=
  (frame_unlock s t o.op.proj).trans (frame_setTask _ t _)

end Engine

/-- `q` is held by the unit's principal under the epoch the unit recorded. -/
def UnitTask.Holds (s : Engine) (u : UnitTask) (q : ℕ) : Prop :=
  ∃ e m,u.epochs.get? q = some e ∧ u.req.principal.name ≠ "" ∧
    s.tenure q = some (u.req.principal.name,e,m,false)

/-- How the read sides held follow the place in the code, for a unit on the projects `projs`. -/
def UnitTask.Covers (u : UnitTask) (projs : List ℕ) : Prop :=
  match u.pc with
  | .topoWait | .granting _ | .grantHeld _ _ | .grantSent _ _ _ _ _ => u.fences=[]
  | .fencing todo => u.fences++todo=projs
  | .touching | .admitted => u.released=false → u.fences=projs
  | _ => True

def UnitTask.checked (u : UnitTask) : Bool :=
  (u.pc=.touching || u.pc=.admitted) && !u.req.bypass

/-- What a transition in flight knows about the quarantined record. -/
def Pc.Pending (s : Engine) (p : Principal) : Pc → Prop
  | .grantSent q _ op old next =>
    s.tenure q = some { old with unresolved := true }.tenure ∧
    ∃ now max label,grantLockedStart old p now max .auto 0 label = .send op next
  | .rollEnding q _ => ∀ w,s.tenure q=some w → w.1=p.name
  | .rollSent q _ old next =>
    s.tenure q = some { old with unresolved := true }.tenure ∧ old.holder=p.name ∧
    ∃ now,endLockedStart (some old) now = .send next
  | _ => True

/-- The invariant of a goroutine in `Decide`, and of its unit once the verdict is out. -/
structure UnitOk (s : Engine) (t : ℕ) (u : UnitTask) : Prop where
  reads : ∀ q∈u.fences,(s.fences q).Reads t
  writes : ∀ q,u.pc.writing=some q → (s.fences q).Writes t
  covers : ∀ projs,u.req.plan = .place projs → u.Covers projs.list
  early : u.pc.armed=false → u.released=false ∧ u.wire=.unsent
  final : u.released=true → u.wire.final=true
  tenured : u.checked=true → u.released=false →
    ∀ projs,u.req.plan = .place projs → ∀ q∈projs.list,u.Holds s q
  pending : u.pc.Pending s u.req.principal

def OpTask.Pending (s : Engine) (o : OpTask) : Prop :=
  match o.pc with
  | .grantSent op old next =>
    s.tenure o.op.proj = some { old with unresolved := true }.tenure ∧
    ∃ p q mode ttl now max label,o.op = .acquire p q mode ttl ∧
      grantLockedStart old p now max mode ttl label = .send op next
  | .endSent old next =>
    s.tenure o.op.proj = some { old with unresolved := true }.tenure ∧
    ∃ now,endLockedStart (some old) now = .send next
  | _ => True

structure OpOk (s : Engine) (t : ℕ) (o : OpTask) : Prop where
  writes : o.pc.writing=true → (s.fences o.op.proj).Writes t
  pending : o.Pending s

def TaskOk (s : Engine) (t : ℕ) : Task → Prop
  | .idle => True
  | .unit u => UnitOk s t u
  | .op o => OpOk s t o

/-- The engine invariant: every goroutine is where its locks say. -/
def Engine.Inv (s : Engine) : Prop := ∀ t,TaskOk s t (s.tasks t)

section FrameTransfer
variable {s s' : Engine} {r t : ℕ}

lemma UnitOk.frame {u : UnitTask} (hf : Frame r s s') (hne : t≠r) (h : UnitOk s t u) :
    UnitOk s' t u where
  reads q hq := hf.reads t q hne (h.reads q hq)
  writes q hq := hf.writes t q hne (h.writes q hq)
  covers := h.covers
  early := h.early
  final := h.final
  tenured hc hr projs hp q hq := by
    obtain ⟨e,m,he,hn,ht⟩ := h.tenured hc hr projs hp q hq
    have hcov := h.covers projs hp
    have hq' : q∈u.fences := by
      simp only [checked,Bool.and_eq_true,Bool.or_eq_true,decide_eq_true_eq] at hc
      rcases hc.1 with hpc | hpc <;> simp only [Covers,hpc] at hcov <;>
        rw [hcov hr] <;> exact hq
    exact ⟨e,m,he,hn,(hf.tenure t q hne (.inl (h.reads q hq'))).trans ht⟩
  pending := by
    have hp := h.pending
    have hkeep : ∀ q,u.pc.writing=some q → s'.tenure q=s.tenure q :=
      fun q hq => hf.tenure t q hne (.inr (h.writes q hq))
    cases hpc : u.pc <;> simp only [hpc,Pc.Pending,writing,Option.some.injEq,forall_eq'] at hp hkeep ⊢
    case grantSent => rwa [hkeep]
    case rollEnding => rwa [hkeep]
    case rollSent => rwa [hkeep]

lemma OpOk.frame {o : OpTask} (hf : Frame r s s') (hne : t≠r) (h : OpOk s t o) :
    OpOk s' t o where
  writes hw := hf.writes t _ hne (h.writes hw)
  pending := by
    have hp := h.pending
    have hkeep : o.pc.writing=true → s'.tenure o.op.proj=s.tenure o.op.proj :=
      fun hw => hf.tenure t _ hne (.inr (h.writes hw))
    unfold OpTask.Pending at hp ⊢
    cases hpc : o.pc <;> simp only [hpc,OpPc.writing,true_implies] at hp hkeep ⊢
    case grantSent => rwa [hkeep]
    case endSent => rwa [hkeep]

lemma TaskOk.frame {k : Task} (hf : Frame r s s') (hne : t≠r) (h : TaskOk s t k) : TaskOk s' t k := by
  cases k with
  | idle => trivial
  | unit u => exact UnitOk.frame hf hne h
  | op o => exact OpOk.frame hf hne h

lemma Engine.Inv.of_frame (hi : s.Inv) (hf : Frame t s s') (ht : TaskOk s' t (s'.tasks t)) : s'.Inv := by
  intro r
  by_cases hr : r=t
  · subst r; exact ht
  · rw [hf.tasks r hr]
    exact (hi r).frame hf hr

end FrameTransfer

lemma checkProjects_clean {p : String} {leases : ℕ → Option Lease} {projs : List ℕ} {epochs : GoMap ℕ ℕ} (hpos : 0 ∉ projs)
    (hu : (checkProjects p leases projs epochs).unresolved=0) (ho : (checkProjects p leases projs epochs).other=none)
    (hf : (checkProjects p leases projs epochs).free=[]) :
    ∀ q∈projs,∃ l,leases q=some l ∧ l.unresolved=false ∧ l.held=true ∧ l.holder=p ∧
      (checkProjects p leases projs epochs).epochs.get? q=some l.epoch := by
  unfold checkProjects at *
  induction projs using List.reverseRecOn with
  | nil => simp
  | append_singleton projs a ih =>
    rw [foldl_append] at hu ho hf ⊢
    simp only [foldl_cons,foldl_nil] at hu ho hf ⊢
    simp only [mem_append,mem_singleton,not_or] at hpos
    set c := projs.foldl (checkProject p leases) {epochs := epochs} with hc
    unfold checkProject at hu ho hf ⊢
    cases hl : leases a with
    | none => simp [hl] at hf
    | some l =>
      simp only [hl] at hu ho hf ⊢
      -- every branch but the last leaves a finding that is never taken back
      by_cases h1 : l.unresolved=true
      · simp only [h1,if_true] at hu
        exact (hpos.2 hu.symm).elim
      by_cases h2 : l.held=true
      swap
      · simp [h1,h2] at hf
      by_cases h3 : l.holder=p
      swap
      · cases hco : c.other <;> simp [h1,h2,h3,hco] at ho
      simp only [h1,h2,h3,if_false,Bool.not_true,Bool.false_eq_true,ne_eq,not_true_eq_false] at hu ho hf ⊢
      intro q hq
      rw [GoMap.get?_set]
      by_cases hqa : q=a
      · subst q
        exact ⟨l,hl,by simpa using h1,h2,h3,by simp⟩
      · simp only [mem_append,mem_singleton,hqa,or_false] at hq
        simp only [hqa,if_false]
        exact ih hpos.1 hu ho hf q hq

variable {s s' : Engine} {t : ℕ} {u : UnitTask} {a : Action}

/-- What task `t` did left the others alone and its own task in order. -/
def Engine.Orderly (t : ℕ) (s s' : Engine) : Prop := Frame t s s' ∧ TaskOk s' t (s'.tasks t)

lemma UnitOk.orderly {m : Engine} (h : UnitOk m t u) (hf : Frame t s m) : Orderly t s (m.setTask t (.unit u)) := by
  refine ⟨hf.trans (frame_setTask m t _),?_⟩
  rw [setTask_self]
  refine {h with pending := ?_}
  have hp := h.pending
  cases hpc : u.pc <;> rw [hpc] at hp <;> exact hp

lemma deny_ok {m : Engine} {d : Denial} (hf : Frame t s m) (hr : u.released=false) : Orderly t s (m.deny t u d) := by
  refine UnitOk.orderly ?_ (hf.trans (frame_releaseFences m t u.fences))
  constructor <;> simp [writing,Covers,armed,hr,checked,Pc.Pending]

section UnitSteps

attribute [local simp] armed writing

/-- No write side is held here, no transition in flight, and the holder check not passed. -/
def Pc.resting : Pc → Bool
  | .topoWait | .fencing _ | .granting _ | .rolling _ | .denied => true
  | _ => false

lemma Pc.resting.facts {pc : Pc} (h : pc.resting=true) :
    pc.writing=none ∧ (∀ s p,pc.Pending s p) ∧ pc≠.touching ∧ pc≠.admitted := by
  cases pc <;> simp_all [resting,Pc.Pending]

lemma UnitOk.move {u' : UnitTask} (h : UnitOk s t u) (hrest : u'.pc.resting=true)
    (hreads : ∀ q∈u'.fences,(s'.fences q).Reads t) (hcov : ∀ projs,u'.req.plan=.place projs → u'.Covers projs.list)
    (hpc : u.pc.armed=true → u'.pc.armed=true) (hrel : u'.released=u.released)
    (hwire : u'.wire=u.wire) : UnitOk s' t u' := by
  obtain ⟨hw,hp,hne,hne'⟩ := resting.facts hrest
  refine ⟨hreads,fun q hq => ?_,hcov,fun ha => ?_,fun hr => ?_,fun hc => ?_,hp _ _⟩
  · rw [hw] at hq
    cases hq
  · rw [hrel,hwire]
    apply h.early
    cases hua : u.pc.armed with
    | false => rfl
    | true => rw [hpc hua] at ha; cases ha
  · rw [hwire]
    exact h.final (hrel ▸ hr)
  · simp [checked,hne,hne'] at hc

/-- The holder check keeps the invariant; a unit it lets through holds all its projects. -/
lemma check_ok {now : ℤ} (h : UnitOk s t u) (hpc : u.pc=.fencing [])
    (hs : s.check t u now=some s') : Orderly t s s' := by
  obtain ⟨hrel,hwire⟩ := h.early (by simp [hpc])
  unfold check at hs
  cases hplan : u.req.plan with
  | refuse d => simp [hplan] at hs
  | dirStat locs =>
    -- a dir-stat unit has no projects of its own, so only the locks matter
    have hadmitted : UnitOk s t {u with pc := .admitted} :=
      ⟨h.reads,by simp,by simp [hplan],by simp,by simp [hrel],
        by simp [hplan],by simp [Pc.Pending]⟩
    simp only [hplan] at hs
    split at hs
    · cases hs; exact deny_ok (Frame.refl t s) hrel
    split at hs
    · cases hs; exact hadmitted.orderly (Frame.refl t s)
    split at hs <;> cases hs
    · exact deny_ok (Frame.refl t s) hrel
    · exact hadmitted.orderly (Frame.refl t s)
  | place projs =>
    have hcov : u.fences=projs.list := by
      have hc := h.covers projs hplan
      simpa [Covers,hpc] using hc
    simp only [hplan] at hs
    set c := checkProjects u.req.principal.name s.leases projs.list u.epochs with hcdef
    split at hs
    · cases hs; exact deny_ok (Frame.refl t s) hrel
    rename_i hun
    split at hs
    · rename_i hby
      cases hs
      refine UnitOk.orderly ?_ (Frame.refl t s)
      refine ⟨h.reads,by simp,?_,by simp,by simp [hrel],?_,by simp [Pc.Pending]⟩
      · simp [hplan,Covers,hcov]
      · simp [checked,hby]
    split at hs
    · cases hs; exact deny_ok (Frame.refl t s) hrel
    rename_i hother
    split at hs
    · rename_i hfree
      cases hs
      refine UnitOk.orderly ?_ (Frame.refl t s)
      refine ⟨h.reads,by simp,?_,by simp [hrel,hwire],by simp [hrel],?_,by simp [Pc.Pending]⟩
      · simp [hplan,Covers,hcov]
      · intro _ _ projs' hplan' q hq
        rw [hplan] at hplan'
        cases hplan'
        obtain ⟨l,hl,hlu,hlh,hlp,hle⟩ :=
          checkProjects_clean projs.pos (not_not.mp hun) hother hfree q hq
        refine ⟨l.epoch,l.mode,hle,?_,?_⟩
        · simpa [Lease.held,hlp] using hlh
        · simp [tenure,hl,Lease.tenure,hlu,hlp]
    · split at hs
      · cases hs; exact deny_ok (Frame.refl t s) hrel
      · cases hs
        exact UnitOk.orderly (h.move rfl (by simp) (by simp [Covers]) (by simp [hpc]) rfl rfl)
          (frame_releaseFences s t _)

variable {i : Input} {q : ℕ} {rest : List ℕ}

lemma topoWait_ok (h : UnitOk s t u) (hpc : u.pc=.topoWait) (hs : s.unitStep t u i=some s') : Orderly t s s' := by
  obtain ⟨hrel,-⟩ := h.early (by simp [hpc])
  simp only [unitStep,hpc,map_eq_some_iff] at hs
  obtain ⟨topo,-,hs⟩ := hs
  have hf := frame_topo s t topo
  cases hplan : u.req.plan with
  | refuse d =>
    simp only [hplan] at hs
    subst hs
    exact deny_ok hf hrel
  | dirStat locs =>
    simp only [hplan] at hs
    subst hs
    exact UnitOk.orderly (h.move rfl h.reads (by simp [hplan]) (by simp [hpc]) rfl rfl) hf
  | place projs =>
    have hcov : u.fences=[] := by
      have hc := h.covers projs hplan
      simpa [Covers,hpc] using hc
    simp only [hplan] at hs
    split at hs <;> subst hs
    · rename_i hnil
      exact UnitOk.orderly ⟨h.reads,by simp,by simp [hplan,Covers,hcov,hnil],
        by simp,by simp [hrel],by simp [hplan,hnil],by simp [Pc.Pending]⟩ hf
    · exact UnitOk.orderly (h.move rfl h.reads (by simp [hplan,Covers,hcov]) (by simp [hpc]) rfl rfl) hf

lemma fencing_ok (h : UnitOk s t u) (hpc : u.pc=.fencing (q::rest)) (hs : s.unitStep t u i=some s') :
    Orderly t s s' := by
  simp only [unitStep,hpc,map_eq_some_iff] at hs
  obtain ⟨f,hf,rfl⟩ := hs
  refine UnitOk.orderly (h.move rfl ?_ ?_ (by simp [hpc]) rfl rfl) (frame_rlock hf)
  · intro x hx
    simp only [mem_append,mem_singleton] at hx
    rcases hx with hx | rfl
    · exact setFence_reads (h.reads x hx)
        (fun e => by subst x; exact reads_of_rlock hf (h.reads q hx))
    · simpa using rlock_reads hf
  · intro projs hplan
    have hc := h.covers projs hplan
    simp only [Covers,hpc] at hc ⊢
    rw [append_assoc]
    exact hc

lemma touching_ok (h : UnitOk s t u) (hpc : u.pc=.touching) (hs : s.unitStep t u i=some s') : Orderly t s s' := by
  obtain ⟨hrel,-⟩ := h.early (by simp [hpc])
  cases hplan : u.req.plan with
  | refuse d | dirStat locs => simp [unitStep,hpc,hplan] at hs
  | place projs =>
    simp only [unitStep,hpc,hplan,Option.some.injEq] at hs
    subst hs
    have htouch : ∀ q l,(if q∈projs.list then touchLease u.req.principal.name i.now l
        else l).tenure=l.tenure := fun q l => by split <;> simp
    refine UnitOk.orderly ?_ (frame_mapLeases s t htouch)
    refine ⟨h.reads,by simp,?_,by simp,by simp [hrel],?_,by simp [Pc.Pending]⟩
    · intro projs' hplan'
      have hc := h.covers projs' hplan'
      simpa [Covers,hpc] using hc
    · intro hc hr projs' hplan' q hq
      have hc' : u.checked=true := by
        simp only [checked,hpc] at hc ⊢
        simpa using hc
      obtain ⟨e,m,he,hn,ht⟩ := h.tenured hc' hr projs' hplan' q hq
      refine ⟨e,m,he,hn,?_⟩
      rw [← ht]
      cases hl : s.leases q <;> simp [tenure,mapLeases,hl,htouch]

lemma lock_ok {f : RWLock ℕ} {pc : Pc} (h : UnitOk s t u)
    (hf : (s.fences q).lock t=some f) (hw : pc.writing=some q) (hp : ∀ s p,pc.Pending s p)
    (hcov : ∀ projs,u.req.plan=.place projs → {u with pc := pc}.Covers projs.list)
    (harm : u.pc.armed=true → pc.armed=true)
    (hc : {u with pc := pc}.checked=false) :
    Orderly t s ((s.setFence q f).setTask t (.unit {u with pc := pc})) := by
  refine UnitOk.orderly ?_ (frame_lock hf)
  refine ⟨?_,?_,hcov,?_,h.final,by simp [hc],hp _ _⟩
  · exact fun x hx => setFence_reads (h.reads x hx) (fun e => by
      subst x; exact (not_reads_of_lock hf (h.reads q hx)).elim)
  · intro x hx
    rw [hw] at hx
    cases hx
    simpa using lock_writes hf
  · intro ha
    refine h.early ?_
    cases hua : u.pc.armed with
    | false => rfl
    | true =>
      have := harm hua
      rw [this] at ha
      cases ha

lemma unlock_ok {m : Engine} {u' : UnitTask} (h : UnitOk s t u) (hm : Frame t s m)
    (hmf : m.fences=s.fences) (hfences : u'.fences=u.fences) (hrest : u'.pc.resting=true)
    (hcov : ∀ projs,u'.req.plan=.place projs → u'.Covers projs.list)
    (harm : u.pc.armed=true → u'.pc.armed=true) (hrel : u'.released=u.released)
    (hwire : u'.wire=u.wire) : Orderly t s ((m.setFence q ((m.fences q).unlock t)).setTask t (.unit u')) := by
  refine UnitOk.orderly (h.move hrest ?_ hcov harm hrel hwire) (hm.trans (frame_unlock m t q))
  intro x hx
  rw [hfences] at hx
  have hx' : (m.fences x).Reads t := by rw [hmf]; exact h.reads x hx
  exact setFence_reads hx' (fun e => by subst x; exact reads_of_unlock hx')

lemma quarantine_ok {l : Lease} {pc : Pc} (h : UnitOk s t u)
    (hq : u.pc.writing=some q) (hw : pc.writing=some q)
    (hcov : ∀ projs,u.req.plan=.place projs → {u with pc := pc}.Covers projs.list)
    (harm : pc.armed=u.pc.armed) (hc : {u with pc := pc}.checked=false)
    (hp : pc.Pending (s.setLease q l) u.req.principal) :
    Orderly t s ((s.setLease q l).setTask t (.unit {u with pc := pc})) := by
  refine UnitOk.orderly ?_ (frame_setLease l (h.writes q hq))
  refine ⟨h.reads,fun x hx => ?_,hcov,by rw [harm]; exact h.early,h.final,by simp [hc],hp⟩
  rw [hw] at hx
  cases hx
  exact h.writes q hq

lemma grantHeld_ok (h : UnitOk s t u) (hpc : u.pc=.grantHeld q rest) (hs : s.unitStep t u i=some s') :
    Orderly t s s' := by
  obtain ⟨hrel,-⟩ := h.early (by simp [hpc])
  have hq : u.pc.writing=some q := by simp [hpc]
  have hcov : ∀ projs,u.req.plan=.place projs → u.fences=[] := fun projs hplan => by
    have hc := h.covers projs hplan
    simpa [Covers,hpc] using hc
  have hset := frame_setLease (s.leaseLocked q) (h.writes q hq)
  simp only [unitStep,hpc] at hs
  split at hs <;> cases hs
  · exact deny_ok (hset.trans (frame_unlock _ t q)) hrel
  · exact unlock_ok h hset rfl rfl rfl hcov (by simp [hpc]) rfl rfl
  · rename_i op next hstart
    exact quarantine_ok h hq rfl hcov (by simp [hpc]) (by simp [checked])
      ⟨by simp,_,_,_,hstart⟩

lemma grantSent_ok {op : TransitionOp} {old next : Lease} (h : UnitOk s t u) (hpc : u.pc=.grantSent q rest op old next)
    (hs : s.unitStep t u i=some s') : Orderly t s s' := by
  obtain ⟨hrel,-⟩ := h.early (by simp [hpc])
  have hq : u.pc.writing=some q := by simp [hpc]
  have hcov : ∀ projs,u.req.plan=.place projs → u.fences=[] := fun projs hplan => by
    have hc := h.covers projs hplan
    simpa [Covers,hpc] using hc
  simp only [unitStep,hpc] at hs
  split at hs <;> cases hs
  · exact deny_ok (frame_unlock s t q) hrel
  · exact unlock_ok h (frame_setLease _ (h.writes q hq)) rfl rfl rfl hcov (by simp [hpc]) rfl rfl

/-- The rollback of one project: it is skipped, or its record is quarantined and ended. -/
lemma roll_ok (h : UnitOk s t u) (hpc : (∃ rest,u.pc=.rollHeld q rest) ∨ (∃ rest,u.pc=.rollEnding q rest) ∨
      ∃ rest old next,u.pc=.rollSent q rest old next) (hs : s.unitStep t u i=some s') : Orderly t s s' := by
  have hskip : ∀ rest m,Frame t s m → m.fences=s.fences →
      Orderly t s ((m.setFence q ((m.fences q).unlock t)).setTask t (.unit {u with pc := .rolling rest})) :=
    fun rest m hm hmf => unlock_ok h hm hmf rfl rfl (by simp [Covers]) (by simp) rfl rfl
  rcases hpc with ⟨rest,hpc⟩ | ⟨rest,hpc⟩ | ⟨rest,old,next,hpc⟩
  · have hq : u.pc.writing=some q := by simp [hpc]
    simp only [unitStep,hpc] at hs
    split at hs <;> cases hs
    · rename_i hmine
      refine UnitOk.orderly ?_ (Frame.refl t s)
      refine ⟨h.reads,?_,by simp [Covers],by simp,h.final,
        by simp [checked],?_⟩
      · intro x hx
        exact h.writes x (by rw [hq]; exact hx)
      · intro w hw
        simp only [tenure,map_eq_some_iff] at hw
        obtain ⟨l,hl,rfl⟩ := hw
        simpa [hl,Lease.tenure] using hmine
    · exact hskip rest s (Frame.refl t s) rfl
  · have hq : u.pc.writing=some q := by simp [hpc]
    simp only [unitStep,hpc] at hs
    split at hs <;> cases hs
    · rename_i l next hl hstart
      refine quarantine_ok h hq rfl (by simp [Covers]) (by simp [hpc])
        (by simp [checked]) ⟨by simp,?_,_,by rw [← hl]; exact hstart⟩
      have hp := h.pending
      simp only [hpc,Pc.Pending] at hp
      exact hp l.tenure (by simp [tenure,hl])
    · exact hskip rest s (Frame.refl t s) rfl
  · have hq : u.pc.writing=some q := by simp [hpc]
    simp only [unitStep,hpc] at hs
    split at hs <;> cases hs
    · exact hskip rest s (Frame.refl t s) rfl
    · exact hskip rest _ (frame_setLease _ (h.writes q hq)) rfl

theorem unitStep_ok (h : UnitOk s t u) (hs : s.unitStep t u i=some s') : Orderly t s s' := by
  cases hpc : u.pc with
  | topoWait => exact topoWait_ok h hpc hs
  | fencing todo =>
    cases todo with
    | nil =>
      simp only [unitStep,hpc] at hs
      exact check_ok h hpc hs
    | cons q rest => exact fencing_ok h hpc hs
  | touching => exact touching_ok h hpc hs
  | granting todo =>
    have hcov : ∀ projs,u.req.plan=.place projs → u.fences=[] := fun projs hplan => by
      have hc := h.covers projs hplan
      simpa [Covers,hpc] using hc
    cases todo with
    | nil =>
      cases hplan : u.req.plan with
      | refuse d | dirStat locs => simp [unitStep,hpc,hplan] at hs
      | place projs =>
        simp only [unitStep,hpc,hplan,Option.some.injEq] at hs
        subst hs
        exact UnitOk.orderly (h.move rfl h.reads (by simp [hplan,Covers,hcov projs hplan])
          (by simp [hpc]) rfl rfl) (Frame.refl t s)
    | cons q rest =>
      simp only [unitStep,hpc,map_eq_some_iff] at hs
      obtain ⟨f,hf,rfl⟩ := hs
      exact lock_ok h hf rfl (by simp [Pc.Pending]) hcov (by simp [hpc])
        (by simp [checked])
  | grantHeld q rest => exact grantHeld_ok h hpc hs
  | grantSent q rest op old next => exact grantSent_ok h hpc hs
  | rolling todo =>
    cases todo with
    | nil =>
      simp only [unitStep,hpc,Option.some.injEq] at hs
      subst hs
      exact UnitOk.orderly (h.move rfl h.reads (by simp [Covers]) (by simp) rfl rfl) (Frame.refl t s)
    | cons q rest =>
      simp only [unitStep,hpc,map_eq_some_iff] at hs
      obtain ⟨f,hf,rfl⟩ := hs
      exact lock_ok h hf rfl (by simp [Pc.Pending]) (by simp [Covers])
        (by simp) (by simp [checked])
  | rollHeld q rest => exact roll_ok h (.inl ⟨rest,hpc⟩) hs
  | rollEnding q rest => exact roll_ok h (.inr (.inl ⟨rest,hpc⟩)) hs
  | rollSent q rest old next => exact roll_ok h (.inr (.inr ⟨rest,old,next,hpc⟩)) hs
  | admitted | denied => simp [unitStep,hpc] at hs

end UnitSteps

def Engine.OpAt (s : Engine) (t : ℕ) : Prop := ∃ o,s.tasks t = .op o ∧ OpOk s t o

section OpSteps
variable {o : OpTask}

lemma opFinish_ok (s : Engine) (t : ℕ) (o : OpTask) : (s.opFinish t o).OpAt t :=
  ⟨_,setTask_self _ t _,by simp [OpPc.writing],by simp [OpTask.Pending]⟩

lemma opMove_ok {m : Engine} {pc : OpPc} (hm : Frame t s m)
    (hw : (m.fences o.op.proj).Writes t) (hp : {o with pc := pc}.Pending m) :
    let s' := m.setTask t (.op {o with pc := pc})
    Frame t s s' ∧ s'.OpAt t := by
  refine ⟨hm.trans (frame_setTask m t _),_,setTask_self m t _,fun _ => hw,?_⟩
  cases pc <;> exact hp

theorem opStep_ok {i : Input} (h : OpOk s t o) (hs : s.opStep t o i=some s') : Frame t s s' ∧ s'.OpAt t := by
  have hfin : ∀ m,Frame t s m → Frame t s (m.opFinish t o) ∧ (m.opFinish t o).OpAt t :=
    fun m hm => ⟨hm.trans (frame_opFinish m t o),opFinish_ok m t o⟩
  have hself := hfin s (Frame.refl t s)
  have hset : o.pc.writing=true → ∀ l,Frame t s (s.setLease o.op.proj l) :=
    fun hw l => frame_setLease l (h.writes hw)
  cases hpc : o.pc with
  | waiting =>
    simp only [opStep,hpc,map_eq_some_iff] at hs
    obtain ⟨f,hf,rfl⟩ := hs
    exact opMove_ok (frame_lock hf) (by simpa using lock_writes hf)
      (by simp [OpTask.Pending])
  | held =>
    have hw : o.pc.writing=true := by simp [hpc,OpPc.writing]
    have hstay : ∀ pc,(∀ m,{o with pc := pc}.Pending m) →
        let s' := s.setTask t (.op {o with pc := pc})
        Frame t s s' ∧ s'.OpAt t :=
      fun pc hp => opMove_ok (Frame.refl t s) (h.writes hw) (hp s)
    simp only [opStep,hpc] at hs
    split at hs
    · rename_i p q mode ttl hop
      split at hs <;> cases hs
      · rename_i op next hstart
        refine opMove_ok (hset hw _) (h.writes hw) ?_
        simp only [OpTask.Pending]
        exact ⟨by simp,p,q,mode,ttl,_,_,_,hop,hstart⟩
      · exact hfin _ (hset hw _)
    · split at hs <;> cases hs
      · exact hstay .ending (by simp [OpTask.Pending])
      · exact hself
    · cases hs
      exact hstay .ending (by simp [OpTask.Pending])
    · split at hs <;> cases hs
      · exact hstay .ending (by simp [OpTask.Pending])
      · exact hself
    split at hs
    · split at hs <;> cases hs
      · exact hstay (.flushSent _) (by simp [OpTask.Pending])
      · exact hself
    · cases hs
      exact hself
  | ending =>
    have hw : o.pc.writing=true := by simp [hpc,OpPc.writing]
    simp only [opStep,hpc] at hs
    split at hs <;> cases hs
    · rename_i l next hl hstart
      refine opMove_ok (hset hw _) (h.writes hw) ?_
      simp only [OpTask.Pending]
      exact ⟨by simp,_,by rw [← hl]; exact hstart⟩
    · exact hself
  | grantSent op old next | flushSent sent =>
    have hw : o.pc.writing=true := by simp [hpc,OpPc.writing]
    simp only [opStep,hpc] at hs
    split at hs <;> cases hs
    · exact hfin _ (hset hw _)
    · exact hself
  | endSent old next =>
    have hw : o.pc.writing=true := by simp [hpc,OpPc.writing]
    simp only [opStep,hpc] at hs
    split at hs <;> cases hs
    · exact hself
    · exact hfin _ (hset hw _)
  | finished => simp [opStep,hpc] at hs

end OpSteps

lemma releaseUnit_ok {w : Wire} {timedOut : Bool} (h : UnitOk s t u) (harm : u.pc.armed=true)
    (hw : w.final=true) :
    Orderly t s (s.releaseUnit t {u with wire := w, timedOut := timedOut}) := by
  refine ⟨frame_releaseUnit s t _,?_⟩
  unfold releaseUnit
  split
  · rename_i hrel
    simp only [setTask_self,TaskOk]
    exact ⟨h.reads,h.writes,h.covers,by simp [harm],fun _ => hw,
      fun _ hr => absurd (hr.symm.trans hrel) (by simp),h.pending⟩
  simp only [setTask_self,TaskOk]
  refine ⟨by simp,fun q hq => ?_,fun projs hplan => ?_,by simp [harm],fun _ => hw,by simp,?_⟩
  · exact releaseFences_writes.mpr (h.writes q hq)
  · have hc := h.covers projs hplan
    cases hpc : u.pc <;> simp_all [Covers,armed]
  · exact h.pending

theorem outcomeStep_ok {a : Action} (h : UnitOk s t u) (ht : s.tasks t=.unit u)
    (hs : s.outcomeStep t u a=some s') : Orderly t s s' := by
  have hsame : Orderly t s s := ⟨Frame.refl t s,by rw [ht]; exact h⟩
  have hwire : ∀ w,u.pc.armed=true → (u.released=true → w.final=true) →
      Orderly t s (s.setTask t (.unit {u with wire := w})) := fun w harm hw =>
    UnitOk.orderly ⟨h.reads,h.writes,h.covers,by simp [harm],hw,h.tenured,h.pending⟩ (Frame.refl t s)
  have harm : u.wire≠.unsent → u.pc.armed=true := fun hne => by
    by_contra hna
    exact hne (h.early (by simpa using hna)).2
  have hret : u.returned=true → u.pc.armed=true := fun hr => by
    simp only [returned,Bool.or_eq_true,decide_eq_true_eq] at hr
    rcases hr with hr | hr <;> simp [hr,armed]
  cases a with
  | send r =>
    simp only [outcomeStep,ite_none_right_eq_some,Option.some.injEq,
      Bool.and_eq_true,Bool.not_eq_true'] at hs
    obtain ⟨⟨⟨hfwd,-⟩,hrel⟩,rfl⟩ := hs
    refine hwire .sent ?_ (by simp [hrel])
    simp only [forwarded,Bool.or_eq_true,Bool.and_eq_true,decide_eq_true_eq] at hfwd
    rcases hfwd with hp | ⟨hp,-⟩ <;> simp [hp,armed]
  | execute r c =>
    simp only [outcomeStep,ite_none_right_eq_some,Option.some.injEq] at hs
    obtain ⟨hsent,rfl⟩ := hs
    refine hwire (.executed c) (harm (by simp [hsent])) (fun hr => ?_)
    have := h.final hr
    simp [hsent,Wire.final] at this
  | reply r =>
    simp only [outcomeStep] at hs
    split at hs
    · rename_i hex
      cases hs
      exact releaseUnit_ok h (harm (by simp [hex])) rfl
    · cases hs
  | lost r killed =>
    simp only [outcomeStep] at hs
    split at hs
    · cases hs
    rename_i hr
    split at hs
    · rename_i hrel
      cases hs
      exact UnitOk.orderly ⟨h.reads,h.writes,h.covers,h.early,h.final,h.tenured,h.pending⟩ (Frame.refl t s)
    split at hs <;> cases hs
    · exact releaseUnit_ok h (hret (by simpa using hr)) rfl
    · exact hsame
  | timeout r killed =>
    simp only [outcomeStep] at hs
    split at hs
    · cases hs
    rename_i hr
    split at hs
    · cases hs; exact hsame
    split at hs <;> cases hs
    · exact releaseUnit_ok h (by simpa using hr) rfl
    · exact hsame
  | abandon r =>
    simp only [outcomeStep,ite_none_right_eq_some,Option.some.injEq,
      Bool.and_eq_true] at hs
    obtain ⟨⟨hr,-⟩,rfl⟩ := hs
    exact releaseUnit_ok h (hret hr) rfl
  | decide r req | operate r op | advance r i | heartbeat p pending now | loadCfg c => simp [outcomeStep] at hs

/-- The task whose goroutine, Redis connection or timer an action belongs to. A heartbeat and
a reload of the lifetimes touch no task and no fence. -/
def Action.actor : Action → Option ℕ
  | .decide t _ | .operate t _ | .advance t _ | .send t | .execute t _ | .reply t | .lost t _
  | .timeout t _ | .abandon t => some t
  | .heartbeat _ _ _ | .loadCfg _ => none

lemma outcome_orderly (hi : s.Inv) {t : ℕ} (h : (match s.tasks t with
    | .unit u => s.outcomeStep t u a
    | _ => none)=some s') : Orderly t s s' := by
  split at h
  · rename_i u hu
    have hok := hi t
    rw [hu] at hok
    exact outcomeStep_ok hok hu h
  · cases h

/-- What one step of the engine does: it frames every task but its own, and leaves its own in
order. -/
theorem step_frame (hi : s.Inv) (hs : s.step a=some s') : (∀ t,a.actor=some t → Orderly t s s') ∧
    (a.actor=none → ∀ t,Frame t s s') := by
  cases a <;> simp only [Action.actor,Option.some.injEq,forall_eq',reduceCtorEq,false_implies,
    implies_true,and_true,true_and,true_implies]
  case decide t req =>
    simp only [step,ite_none_right_eq_some,Option.some.injEq] at hs
    obtain ⟨-,rfl⟩ := hs
    refine UnitOk.orderly ?_ (Frame.refl t s)
    constructor <;> simp [writing,Covers,checked,Pc.Pending]
  case operate t op =>
    simp only [step,ite_none_right_eq_some,Option.some.injEq] at hs
    obtain ⟨-,rfl⟩ := hs
    refine ⟨frame_setTask s t _,?_⟩
    simp only [setTask_self,TaskOk]
    exact ⟨by simp [OpPc.writing],by simp [OpTask.Pending]⟩
  case advance t i =>
    have hok := hi t
    simp only [step] at hs
    split at hs
    · cases hs
    · rename_i u hu
      rw [hu] at hok
      exact unitStep_ok hok hs
    · rename_i o ho
      rw [ho] at hok
      obtain ⟨hf,o',ho',hok'⟩ := opStep_ok hok hs
      exact ⟨hf,by rw [ho']; exact hok'⟩
  case heartbeat p pending now =>
    simp only [step,Option.some.injEq] at hs
    subst hs
    exact fun t => frame_mapLeases s t (fun _ l => heartbeatLease_tenure p _ now l)
  case loadCfg c =>
    simp only [step,Option.some.injEq] at hs
    subst hs
    exact fun t => ⟨fun _ _ => rfl,fun _ _ _ h => h,fun _ _ _ h => h,fun _ _ _ _ => rfl⟩
  case send t => exact outcome_orderly hi hs
  case execute t c => exact outcome_orderly hi hs
  case reply t => exact outcome_orderly hi hs
  case lost t killed => exact outcome_orderly hi hs
  case timeout t killed => exact outcome_orderly hi hs
  case abandon t => exact outcome_orderly hi hs

theorem step_inv (hi : s.Inv) (hs : s.step a=some s') : s'.Inv := by
  obtain ⟨hact,hglobal⟩ := step_frame hi hs
  cases ha : a.actor with
  | some t => exact hi.of_frame (hact t ha).1 (hact t ha).2
  | none =>
    -- a step of no task frames each task against any other
    intro t
    have hf := hglobal ha (t+1)
    have hne : t≠t+1 := by omega
    rw [hf.tasks t hne]
    exact (hi t).frame hf hne

lemma step_others (hi : s.Inv) (hs : s.step a=some s') (ha : a.actor≠some t) : s'.tasks t=s.tasks t := by
  obtain ⟨hact,hglobal⟩ := step_frame hi hs
  cases hr : a.actor with
  | none => exact (hglobal hr (t+1)).tasks t (by omega)
  | some r => exact (hact r hr).1.tasks t (fun htr => ha (htr ▸ hr))

theorem run_inv {leases : ℕ → Option Lease} {cfg : LeaseCfg} {as : List Action}
    (h : Transition.run step (.start leases cfg) as=some s) : s.Inv := by
  have hstart : (start leases cfg).Inv := fun _ => trivial
  exact run_invariant (fun _ _ _ hi hs => step_inv hi hs) hstart h

/-- A later view of a unit that no section of `Decide` has changed: what it recorded stands, and
a final outcome stays final. -/
structure UnitTask.Follows (u u' : UnitTask) : Prop where
  pc : u'.pc=u.pc
  req : u'.req=u.req
  epochs : u'.epochs=u.epochs
  granted : u'.granted=u.granted
  created : u'.created=u.created
  final : u.wire.final=true → u'.wire.final=true

lemma UnitTask.Follows.refl (u : UnitTask) : u.Follows u := ⟨rfl,rfl,rfl,rfl,rfl,id⟩

lemma UnitTask.Follows.trans {u v w : UnitTask} (h : u.Follows v) (h' : v.Follows w) : u.Follows w :=
  ⟨h'.pc.trans h.pc,h'.req.trans h.req,h'.epochs.trans h.epochs,h'.granted.trans h.granted,
    h'.created.trans h.created,fun hf => h'.final (h.final hf)⟩

lemma releaseUnit_follows (s : Engine) (t : ℕ) (u : UnitTask) {w : Wire} {timedOut : Bool}
    (hw : w.final=true) :
    let s' := s.releaseUnit t {u with wire := w, timedOut := timedOut}
    s'.leases=s.leases ∧ ∃ u',s'.tasks t=.unit u' ∧ u.Follows u' := by
  dsimp only
  unfold releaseUnit
  split <;> exact ⟨rfl,_,setTask_self _ t _,rfl,rfl,rfl,rfl,rfl,fun _ => hw⟩

lemma outcomeStep_follows (ht : s.tasks t=.unit u) (hs : s.outcomeStep t u a=some s') :
    s'.leases=s.leases ∧ ∃ u',s'.tasks t=.unit u' ∧ u.Follows u' := by
  have hsame : s.leases=s.leases ∧ ∃ u',s.tasks t=.unit u' ∧ u.Follows u' := ⟨rfl,u,ht,.refl u⟩
  unfold outcomeStep at hs
  split at hs
  · split at hs <;> cases hs
    rename_i h
    simp only [Bool.and_eq_true,decide_eq_true_eq] at h
    exact ⟨rfl,_,setTask_self _ t _,rfl,rfl,rfl,rfl,rfl,by simp [h.1.2,Wire.final]⟩
  · split at hs <;> cases hs
    rename_i h
    exact ⟨rfl,_,setTask_self _ t _,rfl,rfl,rfl,rfl,rfl,by simp [h,Wire.final]⟩
  · split at hs <;> cases hs
    exact releaseUnit_follows s t u rfl
  · split at hs
    · cases hs
    split at hs
    · cases hs; exact ⟨rfl,_,setTask_self _ t _,rfl,rfl,rfl,rfl,rfl,id⟩
    split at hs <;> cases hs
    · exact releaseUnit_follows s t u rfl
    · exact hsame
  · split at hs
    · cases hs
    split at hs
    · cases hs; exact hsame
    split at hs <;> cases hs
    · exact releaseUnit_follows s t u rfl
    · exact hsame
  · split at hs <;> cases hs
    exact releaseUnit_follows s t u rfl
  · cases hs

lemma step_follows (hi : s.Inv) (hs : s.step a=some s') (hu : s.tasks t=.unit u) (hadm : u.pc=.admitted) :
    ∃ u',s'.tasks t=.unit u' ∧ u.Follows u' := by
  by_cases ha : a.actor=some t
  swap
  · exact ⟨u,(step_others hi hs ha).trans hu,.refl u⟩
  cases a <;> simp only [Action.actor,Option.some.injEq,reduceCtorEq] at ha <;> subst ha
  case decide => simp [step,hu] at hs
  case operate => simp [step,hu] at hs
  case advance => simp [step,hu,unitStep,hadm] at hs
  all_goals
    simp only [step,hu] at hs
    exact (outcomeStep_follows hu hs).2

lemma run_follows {as : List Action} (hi : s.Inv) (h : Transition.run step s as=some s') (hu : s.tasks t=.unit u)
    (hadm : u.pc=.admitted) : ∃ u',s'.tasks t=.unit u' ∧ u.Follows u' := by
  refine (run_invariant
    (I := fun m => m.Inv ∧ ∃ u',m.tasks t=.unit u' ∧ u.Follows u') ?_ ⟨hi,u,hu,.refl u⟩ h).2
  rintro m a m' ⟨hm,v,hv,hfol⟩ hs
  obtain ⟨w,hw,hfol'⟩ := step_follows hm hs hv (hfol.pc.trans hadm)
  exact ⟨step_inv hm hs,w,hw,hfol.trans hfol'⟩

lemma Engine.Inv.holds (hi : s.Inv) {projs : ProjSet} {q : ℕ}
    (hu : s.tasks t=.unit u) (hadm : u.pc=.admitted) (hby : u.req.bypass=false)
    (hplan : u.req.plan=.place projs) (hq : q∈projs.list) (hopen : u.wire.final=false) : u.Holds s q := by
  have hok := hi t
  rw [hu] at hok
  have hrel : u.released=false := by
    by_contra hr
    have := hok.final (by simpa using hr)
    rw [hopen] at this
    cases this
  exact hok.tenured (by simp [checked,hadm,hby]) hrel projs hplan q hq

/-- Lease fencing over whole runs. From the state in which a unit was admitted through the
holder check to every later state in which its outcome is not final, the lease of each of its
projects is held by its principal with the epoch recorded at admission; Redis can execute the
unit only in such a state. -/
theorem admitted_unit_keeps_tenure {leases : ℕ → Option Lease} {cfg : LeaseCfg}
    {as bs : List Action} {s s' : Engine} {t q : ℕ} {u u' : UnitTask} {projs : ProjSet}
    (h : Transition.run Engine.step (.start leases cfg) as = some s) (h' : Transition.run Engine.step s bs = some s')
    (hu : s.tasks t = .unit u) (hadm : u.pc = .admitted) (hby : u.req.bypass = false)
    (hplan : u.req.plan = .place projs) (hq : q ∈ projs.list)
    (hu' : s'.tasks t = .unit u') (hopen : u'.wire.final = false) :
    ∃ e l l',u.epochs.get? q = some e ∧ u'.epochs.get? q = some e ∧
      s.leases q = some l ∧ l.held = true ∧ l.holder = u.req.principal.name ∧ l.epoch = e ∧
      s'.leases q = some l' ∧ l'.held = true ∧ l'.holder = u.req.principal.name ∧ l'.epoch = e := by
  have hi := run_inv h
  obtain ⟨v,hv,hfol⟩ := run_follows hi h' hu hadm
  rw [hu'] at hv
  cases hv
  have hreq := hfol.req
  have hi' : s'.Inv := run_inv (run_append h h')
  have hopen0 : u.wire.final=false := by
    by_contra hf
    rw [hfol.final (by simpa using hf)] at hopen
    cases hopen
  obtain ⟨e,m,he,hn,hten⟩ := hi.holds hu hadm hby hplan hq hopen0
  obtain ⟨e',m',he',-,hten'⟩ := hi'.holds hu' (hfol.pc.trans hadm) (by rw [hreq]; exact hby)
    (by rw [hreq]; exact hplan) hq hopen
  have hee : e'=e := by
    rw [hfol.epochs,he] at he'
    cases he'
    rfl
  subst hee
  simp only [tenure,map_eq_some_iff,Lease.tenure,Prod.mk.injEq] at hten hten'
  obtain ⟨l,hl,hlh,hle,-,-⟩ := hten
  obtain ⟨l',hl',hlh',hle',-,-⟩ := hten'
  rw [hreq] at hlh'
  exact ⟨e',l,l',he,he',hl,by simpa [Lease.held,hlh] using hn,hlh,hle,
    hl',by simpa [Lease.held,hlh'] using hn,hlh',hle'⟩

/-- A Mac's first write to the free project 7: the grant, the second holder check, admission. -/
def firstWrite : List Action :=
  [.decide 1 ⟨⟨"m:a",.mac,""⟩,.enforce,false,.place ⟨[7],by decide,by decide⟩⟩,
    .advance 1 {},.advance 1 {},.advance 1 {},.advance 1 {},.advance 1 {},
    .advance 1 { reply := some 1 },.advance 1 {},.advance 1 {},.advance 1 {},.advance 1 {}]

/-- The write is executed while a sweep of the project waits for its fence. -/
theorem first_write_keeps_tenure : ∃ s s' u',Transition.run Engine.step (.start (fun _ => none) ⟨600000,1800000,259200000⟩)
        firstWrite = some s ∧ Transition.run Engine.step s [.send 1,.operate 2 (.expire 7),.execute 1 true] = some s' ∧
      s'.tasks 1 = .unit u' ∧ u'.wire = .executed true ∧
      ∃ l',s'.leases 7 = some l' ∧ l'.holder = "m:a" ∧ u'.epochs.get? 7 = some l'.epoch := by
  let admitted : UnitTask :=
    { req := ⟨⟨"m:a",.mac,""⟩,.enforce,false,.place ⟨[7],by decide,by decide⟩⟩
      pc := .admitted, topo := true, fences := [7], attempt := 1, granted := [7]
      epochs := [(7,1)], created := [(7,1)] }
  have hgo : (Transition.run step (.start (fun _ => none) ⟨600000,1800000,259200000⟩)
      firstWrite).map (fun s => s.tasks 1) = some (.unit admitted) := by decide +kernel
  have hlater : ((Transition.run step (.start (fun _ => none) ⟨600000,1800000,259200000⟩)
      firstWrite).bind (fun s => Transition.run step s
        [.send 1,.operate 2 (.expire 7),.execute 1 true])).map (fun s => s.tasks 1) =
      some (.unit { admitted with wire := .executed true }) := by decide +kernel
  obtain ⟨s,hs,hu⟩ := map_eq_some_iff.mp hgo
  rw [hs] at hlater
  obtain ⟨s',hs',hu'⟩ := map_eq_some_iff.mp hlater
  obtain ⟨e,-,l',-,he',-,-,-,-,hl',-,hh,hle⟩ := admitted_unit_keeps_tenure (q := 7) hs hs' hu rfl rfl
    rfl (by decide) hu' rfl
  exact ⟨s,s',_,hs,hs',hu',rfl,l',hl',hh,by rw [he',hle]⟩

/-- A unit that the holder check admitted for project `q` and whose outcome is not final. -/
structure Engine.Covering (s : Engine) (q : ℕ) where
  task : ℕ
  unit : UnitTask
  projs : ProjSet
  runs : s.tasks task = .unit unit
  admitted : unit.pc=.admitted
  enforced : unit.req.bypass=false
  plan : unit.req.plan = .place projs
  mem : q∈projs.list
  unsettled : unit.wire.final=false

/-- Units of different principals, or of two tenures of one principal, are never under way in one
project at the same time, however grants, releases and sweeps come between them. -/
theorem covering_units_agree {leases : ℕ → Option Lease} {cfg : LeaseCfg} {q : ℕ}
    (r : Reached Engine.step (.start leases cfg)) (a b : r.state.Covering q) :
    a.unit.req.principal.name = b.unit.req.principal.name ∧ a.unit.epochs.get? q = b.unit.epochs.get? q := by
  have hi := run_inv r.run
  obtain ⟨e,m,he,-,hten⟩ := hi.holds a.runs a.admitted a.enforced a.plan a.mem a.unsettled
  obtain ⟨e',m',he',-,hten'⟩ := hi.holds b.runs b.admitted b.enforced b.plan b.mem b.unsettled
  -- both names and epochs stand in the one record of the project
  simp only [hten,some.injEq,Prod.mk.injEq] at hten'
  exact ⟨hten'.1,by rw [he,he',hten'.2.1]⟩

end JuiceMount.RespProxy
