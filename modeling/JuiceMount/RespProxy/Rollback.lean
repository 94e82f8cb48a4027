import JuiceMount.RespProxy.Fencing

/-! The rollback of a refused unit's grants. `rollback` ends every project in `granted` that
the principal still holds, and `granted` also lists the projects `grantLocked` only renewed.
So a tenure that another goroutine of the same principal establishes while the unit has the
project in its window is ended with it; without such a grant, `Decide` leaves every tenure it
did not create alone. -/
namespace JuiceMount.RespProxy
open Engine List Option UnitTask Transition

def Lease.SameTenure (l l' : Lease) : Prop :=
  l'.holder=l.holder ∧ l'.epoch=l.epoch ∧ l'.mode=l.mode

lemma Lease.SameTenure.held {l l' : Lease} (h : l.SameTenure l') : l'.held=l.held := by
  simp [Lease.held,h.1]

lemma Lease.sameTenure_of_tenure {l l' : Lease} {b : Bool}
    (h : l.tenure = {l' with unresolved := b}.tenure) : l.SameTenure l' := by
  simp only [Lease.tenure,Prod.mk.injEq] at h
  exact ⟨h.1.symm,h.2.1.symm,h.2.2.1.symm⟩

def UnitTask.window (u : UnitTask) : List ℕ :=
  match u.pc with
  | .topoWait | .fencing _ => u.granted
  | .granting todo => todo++u.granted
  | .grantHeld q rest | .grantSent q rest _ _ _ => q::rest++u.granted
  | .rolling todo => todo
  | .rollHeld q rest | .rollEnding q rest | .rollSent q rest _ _ => q::rest
  | .touching | .admitted | .denied => []

/-- The principal and project of a new tenure the next section of task `t` would install. -/
def Engine.freshGrant (s : Engine) (t : ℕ) : Option (String × ℕ) :=
  match s.tasks t with
  | .idle => none
  | .unit u =>
    match u.pc with
    | .grantSent q _ .grant _ _ => some (u.req.principal.name,q)
    | _ => none
  | .op o =>
    match o.op,o.pc with
    | .acquire p q _ _,.grantSent .grant _ _ => some (p.name,q)
    | _,_ => none

/-- No goroutine installs a new tenure of a principal on a project that is in the window of
another unit of the same principal. -/
def NoSelfRace (s : Engine) : Action → Prop
  | .advance t _ => ∀ p q,s.freshGrant t = some (p,q) →
      ∀ r v,r≠t → s.tasks r = .unit v → v.req.principal.name=p → q ∉ v.window
  | _ => True

/-- What the principal holds in the unit's window, the unit created. -/
def UnitTask.Owns (s : Engine) (u : UnitTask) : Prop :=
  ∀ q∈u.window,∀ l,s.leases q=some l → l.held=true → l.holder=u.req.principal.name →
    (q,l.epoch)∈u.created

def Engine.Owned (s : Engine) : Prop := ∀ t u,s.tasks t = .unit u → u.Owns s

/-- Every tenure of `s'` was there in `s`; an ACQUIRE may have made it a checkout. -/
def Engine.NoNew (s s' : Engine) : Prop :=
  ∀ q l',s'.leases q=some l' → l'.held=true →
    ∃ l,s.leases q=some l ∧ l'.holder=l.holder ∧ l'.epoch=l.epoch

/-- Every tenure of `s` is still there in `s'`. -/
def Engine.Keeps (s s' : Engine) : Prop :=
  ∀ q l,s.leases q=some l → l.held=true → ∃ l',s'.leases q=some l' ∧ l.SameTenure l'

section Effects
variable {s s' m : Engine} {t : ℕ}

lemma noNew_of_leases (h : s'.leases=s.leases) : s.NoNew s' :=
  fun q l' hl' _ => ⟨l',by rwa [h] at hl',rfl,rfl⟩

lemma keeps_of_leases (h : s'.leases=s.leases) : s.Keeps s' :=
  fun q l hl _ => ⟨l,by rwa [h],rfl,rfl,rfl⟩

lemma NoNew.of_leases (h : s.NoNew m) (hm : s'.leases=m.leases) : s.NoNew s' :=
  fun q l' hl' => h q l' (hm ▸ hl')

lemma Keeps.of_leases (h : s.Keeps m) (hm : s'.leases=m.leases) : s.Keeps s' :=
  fun q l hl hheld => hm ▸ h q l hl hheld

variable {q : ℕ} {l : Lease}

lemma noNew_setLease (h : l.held=true → ∃ l₀,s.leases q=some l₀ ∧ l.holder=l₀.holder ∧ l.epoch=l₀.epoch) :
    s.NoNew (s.setLease q l) := by
  intro x l' hl' hheld
  by_cases hx : x=q
  · subst x
    simp only [setLease,Function.update_self,Option.some.injEq] at hl'
    subst hl'
    exact h hheld
  · simp only [setLease,Function.update_of_ne hx] at hl'
    exact ⟨l',hl',rfl,rfl⟩

lemma keeps_setLease (h : ∀ l₀,s.leases q=some l₀ → l₀.held=true → l₀.SameTenure l) : s.Keeps (s.setLease q l) := by
  intro x l₀ hl₀ hheld
  by_cases hx : x=q
  · subst x
    exact ⟨l,by simp [setLease],h l₀ hl₀ hheld⟩
  · exact ⟨l₀,by simpa [setLease,hx] using hl₀,rfl,rfl,rfl⟩

lemma leaseLocked_origin (hl : s.leaseLocked q=l) (hheld : l.held=true) : s.leases q=some l := by
  unfold leaseLocked at hl
  cases h : s.leases q with
  | none =>
    rw [h] at hl
    subst hl
    simp [Lease.held] at hheld
  | some l₀ =>
    rw [h] at hl
    exact congrArg some hl

lemma leaseLocked_of_some (hl : s.leases q=some l) : s.leaseLocked q=l := by simp [leaseLocked,hl]

lemma noNew_mapLeases {f : ℕ → Lease → Lease} (hf : ∀ q l,(f q l).tenure=l.tenure) : s.NoNew (s.mapLeases f) := by
  intro q l' hl' _
  simp only [mapLeases,map_eq_some_iff] at hl'
  obtain ⟨l,hl,rfl⟩ := hl'
  have h := hf q l
  simp only [Lease.tenure,Prod.mk.injEq] at h
  exact ⟨l,hl,h.1,h.2.1⟩

lemma keeps_mapLeases {f : ℕ → Lease → Lease} (hf : ∀ q l,(f q l).tenure=l.tenure) : s.Keeps (s.mapLeases f) := by
  intro q l hl _
  have h := hf q l
  simp only [Lease.tenure,Prod.mk.injEq] at h
  exact ⟨f q l,by simp [mapLeases,hl],h.1,h.2.1,h.2.2.1⟩

lemma sameTenure_of_pending {old : Lease} (h : s.tenure q=some {old with unresolved := true}.tenure) :
    ∃ l,s.leases q=some l ∧ l.SameTenure old := by
  simp only [tenure,map_eq_some_iff] at h
  obtain ⟨l,hl,ht⟩ := h
  exact ⟨l,hl,Lease.sameTenure_of_tenure ht⟩

end Effects

/-- The sections of `Decide` that write the lease table, and what they write. -/
inductive LeaseWrite (s : Engine) (u : UnitTask) (reply : Option ℕ) : Engine → Prop
  | same (s' : Engine) (h : s'.leases=s.leases) : LeaseWrite s u reply s'
  | touch (s' : Engine) (f : ℕ → Lease → Lease) (hf : ∀ q l,(f q l).tenure=l.tenure)
      (h : s'.leases = (s.mapLeases f).leases) : LeaseWrite s u reply s'
  | start (s' : Engine) (q : ℕ) (b : Bool)
      (h : s'.leases = (s.setLease q { s.leaseLocked q with unresolved := b }).leases) :
      LeaseWrite s u reply s'
  | grant (s' : Engine) (q : ℕ) (rest : List ℕ) (op : TransitionOp) (old next : Lease) (ep : ℕ)
      (hpc : u.pc = .grantSent q rest op old next) (hep : transition op old reply=some ep)
      (h : s'.leases = (s.setLease q (grantLockedEnd op u.req.principal next ep)).leases) :
      LeaseWrite s u reply s'
  | rollback (s' : Engine) (q : ℕ) (rest : List ℕ) (old next : Lease) (ep : ℕ)
      (hpc : u.pc = .rollSent q rest old next)
      (h : s'.leases = (s.setLease q (endLockedEnd next ep)).leases) : LeaseWrite s u reply s'

section UnitEffects
variable {s s' : Engine} {t : ℕ} {u : UnitTask} {i : Input}

lemma checkProjects_free {p : String} {leases : ℕ → Option Lease} {projs : List ℕ}
    {epochs : GoMap ℕ ℕ} {q : ℕ} (hq : q∈(checkProjects p leases projs epochs).free) :
    ∀ l,leases q=some l → l.held=false := by
  unfold checkProjects at hq
  induction projs using List.reverseRecOn with
  | nil => simp at hq
  | append_singleton projs a ih =>
    rw [foldl_append] at hq
    simp only [foldl_cons,foldl_nil] at hq
    unfold checkProject at hq
    split at hq
    · rename_i hl
      simp only [mem_append,mem_singleton] at hq
      rcases hq with hq | rfl
      · exact ih hq
      · intro l h
        rw [hl] at h
        cases h
    · rename_i l hl
      split at hq
      · exact ih hq
      split at hq
      · rename_i hheld
        simp only [mem_append,mem_singleton] at hq
        rcases hq with hq | rfl
        · exact ih hq
        · intro l' h
          rw [hl] at h
          cases h
          simpa using hheld
      split at hq <;> exact ih hq

/-- What a section of `Decide` leaves of the unit: it forgets no creation, and a project enters
the window only while nobody holds it. -/
def UnitTask.Narrows (s : Engine) (u u' : UnitTask) : Prop :=
  u'.req=u.req ∧ u.created ⊆ u'.created ∧
  ∀ q∈u'.window,q∈u.window ∨ ∀ l,s.leases q=some l → l.held=false

/-- What a section of `Decide` does: its write to the table, and what it leaves of the unit. -/
structure UnitEffect (s : Engine) (t : ℕ) (u : UnitTask) (reply : Option ℕ) (s' : Engine) : Prop where
  write : LeaseWrite s u reply s'
  unit : ∃ u',s'.tasks t = .unit u' ∧ u.Narrows s u' ∧
    ∀ q rest old next ep,u.pc = .grantSent q rest .grant old next →
      transition .grant old reply=some ep → (q,ep)∈u'.created

lemma UnitEffect.go {m : Engine} {v : UnitTask} {reply : Option ℕ}
    (hwrite : LeaseWrite s u reply (m.setTask t (.unit v))) (hreq : v.req=u.req)
    (hcreated : v.created=u.created) (hwin : ∀ q∈v.window,q∈u.window)
    (hpc : ∀ q rest old next,u.pc≠.grantSent q rest .grant old next) : UnitEffect s t u reply (m.setTask t (.unit v)) :=
  ⟨hwrite,v,setTask_self m t _,⟨hreq,by simp [hcreated],fun q hq => .inl (hwin q hq)⟩,
    fun q rest old next _ h => (hpc q rest old next h).elim⟩

lemma check_effect (hpc : u.pc=.fencing []) (hs : s.check t u i.now=some s') : UnitEffect s t u i.reply s' := by
  have hgo : ∀ (m : Engine) (v : UnitTask),m.leases=s.leases → v.req=u.req → v.created=u.created →
      (∀ q∈v.window,q∈u.granted ∨ ∀ l,s.leases q=some l → l.held=false) →
      UnitEffect s t u i.reply (m.setTask t (.unit v)) := fun m v hm hr hc hw =>
    ⟨.same _ hm,v,setTask_self m t _,
      ⟨hr,by simp [hc],fun q hq => by simpa [window,hpc] using hw q hq⟩,by simp [hpc]⟩
  have hdeny : ∀ (v : UnitTask) (d : Denial),v.req=u.req → v.created=u.created → v.granted=u.granted →
      UnitEffect s t u i.reply (s.deny t v d) := fun v d hr hc hg =>
    hgo _ _ rfl hr hc (fun q hq => .inl (hg ▸ hq))
  cases hplan : u.req.plan with
  | refuse d => simp [check,hplan] at hs
  | dirStat locs =>
    simp only [check,hplan] at hs
    split at hs
    · cases hs; exact hdeny _ _ rfl rfl rfl
    split at hs
    · cases hs; exact hgo _ _ rfl rfl rfl (by simp [window])
    split at hs <;> cases hs
    · exact hdeny _ _ rfl rfl rfl
    · exact hgo _ _ rfl rfl rfl (by simp [window])
  | place projs =>
    simp only [check,hplan] at hs
    split at hs
    · cases hs; exact hdeny _ _ rfl rfl rfl
    split at hs
    · cases hs; exact hgo _ _ rfl rfl rfl (by simp [window])
    split at hs
    · cases hs; exact hdeny _ _ rfl rfl rfl
    split at hs
    · cases hs; exact hgo _ _ rfl rfl rfl (by simp [window])
    split at hs <;> cases hs
    · exact hdeny _ _ rfl rfl rfl
    · refine hgo _ _ rfl rfl rfl (fun q hq => ?_)
      simp only [window,mem_append] at hq
      exact hq.elim (fun hq => .inr (checkProjects_free hq)) .inl

/-- The reply to a grant: the project stays in the window once it is granted. -/
lemma grantSent_effect {q : ℕ} {rest : List ℕ} {op : TransitionOp} {old next : Lease}
    (hpc : u.pc=.grantSent q rest op old next) (hs : s.unitStep t u i=some s') : UnitEffect s t u i.reply s' := by
  simp only [unitStep,hpc] at hs
  split at hs <;> cases hs <;> rename_i hep
  · refine ⟨.same _ rfl,_,setTask_self _ t _,⟨rfl,List.Subset.refl _,fun x hx => .inl ?_⟩,?_⟩
    · simp only [window] at hx
      simp [window,hpc,hx]
    · intro q' rest' old' next' ep h hep'
      cases hpc.symm.trans h
      cases hep.symm.trans hep'
  · refine ⟨.grant _ q rest op old next _ hpc hep rfl,_,setTask_self _ t _,⟨rfl,?_,fun x hx => .inl ?_⟩,?_⟩
    · dsimp only
      split
      · exact subset_append_left _ _
      · exact List.Subset.refl _
    · simp only [window,mem_append] at hx
      simp only [window,hpc,cons_append,mem_cons,mem_append]
      rcases hx with hx | hx
      · exact .inr (.inl hx)
      · split at hx
        · simp only [mem_append,mem_singleton] at hx
          tauto
        · exact .inr (.inr hx)
    · intro q' rest' old' next' ep' h hep'
      cases hpc.symm.trans h
      cases hep.symm.trans hep'
      simp

lemma unitStep_effect (hs : s.unitStep t u i=some s') : UnitEffect s t u i.reply s' := by
  cases hpc : u.pc with
  | topoWait =>
    simp only [unitStep,hpc,map_eq_some_iff] at hs
    obtain ⟨topo,-,hs⟩ := hs
    cases hplan : u.req.plan with
    | refuse d | dirStat locs =>
      simp only [hplan] at hs
      subst hs
      exact .go (.same _ rfl) rfl rfl (by simp [window,hpc]) (by simp [hpc])
    | place projs =>
      simp only [hplan] at hs
      split at hs <;> subst hs
      · exact .go (.same _ rfl) rfl rfl (by simp [window]) (by simp [hpc])
      · exact .go (.same _ rfl) rfl rfl (by simp [window,hpc]) (by simp [hpc])
  | fencing todo =>
    cases todo with
    | nil =>
      simp only [unitStep,hpc] at hs
      exact check_effect hpc hs
    | cons q rest =>
      simp only [unitStep,hpc,map_eq_some_iff] at hs
      obtain ⟨f,-,rfl⟩ := hs
      exact .go (.same _ rfl) rfl rfl (by simp [window,hpc]) (by simp [hpc])
  | touching =>
    simp only [unitStep,hpc] at hs
    split at hs <;> cases hs
    refine .go (.touch _ _ (fun q l => ?_) rfl) rfl rfl (by simp [window]) (by simp [hpc])
    split <;> simp
  | granting todo =>
    cases todo with
    | nil =>
      simp only [unitStep,hpc] at hs
      split at hs <;> cases hs
      exact .go (.same _ rfl) rfl rfl (by simp [window,hpc]) (by simp [hpc])
    | cons q rest =>
      simp only [unitStep,hpc,map_eq_some_iff] at hs
      obtain ⟨f,-,rfl⟩ := hs
      exact .go (.same _ rfl) rfl rfl (by simp [window,hpc]) (by simp [hpc])
  | grantHeld q rest =>
    simp only [unitStep,hpc] at hs
    split at hs <;> cases hs
    · exact .go (.start _ q (s.leaseLocked q).unresolved rfl) rfl rfl
        (by simp +contextual [window,hpc]) (by simp [hpc])
    · refine .go (.start _ q (s.leaseLocked q).unresolved rfl) rfl rfl (fun x hx => ?_) (by simp [hpc])
      simp only [window,hpc,cons_append,mem_cons] at hx ⊢
      exact .inr hx
    · exact .go (.start _ q true rfl) rfl rfl (by simp [window,hpc]) (by simp [hpc])
  | grantSent q rest op old next => exact grantSent_effect hpc hs
  | rolling todo =>
    cases todo with
    | nil =>
      simp only [unitStep,hpc,Option.some.injEq] at hs
      subst hs
      exact .go (.same _ rfl) rfl rfl (by simp [window]) (by simp [hpc])
    | cons q rest =>
      simp only [unitStep,hpc,map_eq_some_iff] at hs
      obtain ⟨f,-,rfl⟩ := hs
      exact .go (.same _ rfl) rfl rfl (by simp [window,hpc]) (by simp [hpc])
  | rollHeld q rest =>
    simp only [unitStep,hpc] at hs
    split at hs <;> cases hs <;>
      exact .go (.same _ rfl) rfl rfl (by simp +contextual [window,hpc]) (by simp [hpc])
  | rollEnding q rest =>
    simp only [unitStep,hpc] at hs
    split at hs <;> cases hs
    · rename_i l next hl _
      exact .go (.start _ q true (by rw [leaseLocked_of_some hl]; rfl)) rfl rfl
        (by simp [window,hpc]) (by simp [hpc])
    · exact .go (.same _ rfl) rfl rfl (by simp +contextual [window,hpc]) (by simp [hpc])
  | rollSent q rest old next =>
    simp only [unitStep,hpc] at hs
    split at hs <;> cases hs
    · exact .go (.same _ rfl) rfl rfl (by simp +contextual [window,hpc]) (by simp [hpc])
    · exact .go (.rollback _ q rest old next _ hpc rfl) rfl rfl
        (by simp +contextual [window,hpc]) (by simp [hpc])
  | admitted | denied => simp [unitStep,hpc] at hs

lemma unitStep_keeps (h : UnitOk s t u) (hs : s.unitStep t u i=some s') :
    s.Keeps s' ∨ ∃ q rest old next,u.pc=.rollSent q rest old next ∧ ∀ x,x≠q → s'.leases x=s.leases x := by
  cases (unitStep_effect hs).write with
  | same h' => exact .inl (keeps_of_leases h')
  | touch f hf h' => exact .inl (Keeps.of_leases (keeps_mapLeases hf) h')
  | start q b h' =>
    refine .inl (Keeps.of_leases (keeps_setLease fun l₀ hl₀ _ => ?_) h')
    rw [leaseLocked_of_some hl₀]
    exact ⟨rfl,rfl,rfl⟩
  | grant q rest op old next ep hpc hep h' =>
    refine .inl (Keeps.of_leases (keeps_setLease fun l₀ hl₀ hheld₀ => ?_) h')
    have hp := h.pending
    simp only [hpc,Pc.Pending] at hp
    obtain ⟨hten,now,max,label,hstart⟩ := hp
    obtain ⟨l₁,hl₁,hsame⟩ := sameTenure_of_pending hten
    rw [hl₀] at hl₁
    cases hl₁
    rcases grantLockedStart_send hstart with ⟨-,-,rfl,rfl⟩ | ⟨hfree,-,-⟩
    · obtain ⟨hh,he,hm⟩ := renewedLease_identity old now max .auto 0
      have hren := transition_renew hep
      exact ⟨hh.trans hsame.1,hren.trans hsame.2.1,(hm rfl).trans hsame.2.2⟩
    · -- a fresh grant replaces a record nobody holds
      rw [hsame.held,hheld₀] at hfree
      cases hfree
  | rollback q rest old next ep hpc h' =>
    refine .inr ⟨q,rest,old,next,hpc,fun x hx => ?_⟩
    rw [h']
    simp [setLease,hx]

lemma unitStep_noNew (h : UnitOk s t u) (hs : s.unitStep t u i=some s') :
    s.NoNew s' ∨ ∃ q rest old next ep,u.pc=.grantSent q rest .grant old next ∧ transition .grant old i.reply=some ep ∧
      (∃ l',s'.leases q=some l' ∧ l'.holder=u.req.principal.name ∧ l'.epoch=ep) ∧ ∀ x,x≠q → s'.leases x=s.leases x := by
  cases (unitStep_effect hs).write with
  | same h' => exact .inl (noNew_of_leases h')
  | touch f hf h' => exact .inl (NoNew.of_leases (noNew_mapLeases hf) h')
  | start q b h' =>
    refine .inl (NoNew.of_leases (noNew_setLease fun hheld => ?_) h')
    exact ⟨s.leaseLocked q,leaseLocked_origin rfl hheld,rfl,rfl⟩
  | grant q rest op old next ep hpc hep h' =>
    have hp := h.pending
    simp only [hpc,Pc.Pending] at hp
    obtain ⟨hten,now,max,label,hstart⟩ := hp
    rcases grantLockedStart_send hstart with ⟨-,-,rfl,rfl⟩ | ⟨-,rfl,rfl⟩
    · refine .inl (NoNew.of_leases (noNew_setLease fun _ => ?_) h')
      obtain ⟨l,hl,hsame⟩ := sameTenure_of_pending hten
      have hh := (renewedLease_identity old now max .auto 0).1
      exact ⟨l,hl,hh.trans hsame.1,(transition_renew hep).trans hsame.2.1⟩
    · refine .inr ⟨q,rest,old,_,ep,hpc,hep,⟨_,by rw [h']; simp [setLease]; rfl,rfl,rfl⟩,?_⟩
      intro x hx
      rw [h']
      simp [setLease,hx]
  | rollback q rest old next ep hpc h' =>
    refine .inl (NoNew.of_leases (noNew_setLease fun hheld => ?_) h')
    have hp := h.pending
    simp only [hpc,Pc.Pending] at hp
    obtain ⟨-,-,now,hstart⟩ := hp
    have hend := (endLockedStart_send hstart).2
    simp [endLockedEnd,Lease.held,hend] at hheld

end UnitEffects

variable {s s' : Engine} {t : ℕ} {a : Action}

lemma opStep_noNew {o : OpTask} {i : Input} (h : OpOk s t o) (hs : s.opStep t o i=some s') :
    s.NoNew s' ∨ ∃ p q mode ttl old next,o.op=.acquire p q mode ttl ∧
      o.pc=.grantSent .grant old next ∧ (∃ l',s'.leases q=some l' ∧ l'.holder=p.name) ∧
      ∀ x,x≠q → s'.leases x=s.leases x := by
  have hlocked : ∀ b,s.NoNew (s.setLease o.op.proj {s.leaseLocked o.op.proj with unresolved := b}) :=
    fun b => noNew_setLease (fun hheld =>
      ⟨s.leaseLocked o.op.proj,leaseLocked_origin rfl hheld,rfl,rfl⟩)
  cases hpc : o.pc with
  | waiting =>
    simp only [opStep,hpc,map_eq_some_iff] at hs
    obtain ⟨f,-,rfl⟩ := hs
    exact .inl (noNew_of_leases rfl)
  | held =>
    simp only [opStep,hpc] at hs
    left
    split at hs
    · split at hs <;> cases hs
      · exact hlocked true
      · exact hlocked (s.leaseLocked o.op.proj).unresolved
    · split at hs <;> cases hs <;> exact noNew_of_leases rfl
    · cases hs; exact noNew_of_leases rfl
    · split at hs <;> cases hs <;> exact noNew_of_leases rfl
    · split at hs
      · split at hs <;> cases hs <;> exact noNew_of_leases rfl
      · cases hs; exact noNew_of_leases rfl
  | ending =>
    simp only [opStep,hpc] at hs
    left
    split at hs <;> cases hs
    · rename_i l next hl _
      have hset := hlocked true
      rwa [leaseLocked_of_some hl] at hset
    · exact noNew_of_leases rfl
  | grantSent op old next =>
    have hp := h.pending
    simp only [OpTask.Pending,hpc] at hp
    obtain ⟨hten,p,q,mode,ttl,now,max,label,hop,hstart⟩ := hp
    simp only [opStep,hpc] at hs
    split at hs <;> cases hs
    · rename_i p' q' mode' ttl' ep hop' hep
      rw [hop] at hop'
      cases hop'
      rcases grantLockedStart_send hstart with ⟨-,-,rfl,rfl⟩ | ⟨-,rfl,rfl⟩
      · left
        obtain ⟨l,hl,hsame⟩ := sameTenure_of_pending hten
        have hh := (renewedLease_identity old now max mode ttl).1
        exact noNew_setLease (fun _ =>
          ⟨l,hl,hh.trans hsame.1,(transition_renew hep).trans hsame.2.1⟩)
      · right
        refine ⟨p,q,mode,ttl,old,_,hop,rfl,
          ⟨grantLockedEnd .grant p (grantedLease old p now mode ttl label) ep,?_,rfl⟩,fun x hx => ?_⟩
        · simp only [opFinish,setTask,setFence,setLease,hop,LeaseOp.proj,Function.update_self]
        · simp [opFinish,setTask,setFence,setLease,hop,LeaseOp.proj,hx]
    · exact .inl (noNew_of_leases rfl)
  | endSent old next =>
    have hp := h.pending
    simp only [OpTask.Pending,hpc] at hp
    obtain ⟨-,now,hstart⟩ := hp
    simp only [opStep,hpc] at hs
    left
    split at hs <;> cases hs
    · exact noNew_of_leases rfl
    · refine noNew_setLease (fun hheld => ?_)
      simp [endLockedEnd,Lease.held,(endLockedStart_send hstart).2] at hheld
  | flushSent sent =>
    simp only [opStep,hpc] at hs
    left
    split at hs <;> cases hs
    · rename_i l hl
      obtain ⟨hh,he,-⟩ := flushEnd_identity l sent i.reply.isSome
      exact noNew_setLease (fun _ => ⟨l,hl,hh,he⟩)
    · exact noNew_of_leases rfl
  | finished => simp [opStep,hpc] at hs

lemma outcome_noNew {t q : ℕ} {l' : Lease} (h : (match s.tasks t with
    | .unit u => s.outcomeStep t u a
    | _ => none)=some s') (hl' : s'.leases q=some l') (hheld : l'.held=true) :
    ∃ l,s.leases q=some l ∧ l'.holder=l.holder ∧ l'.epoch=l.epoch := by
  split at h
  · rename_i hu
    exact noNew_of_leases (outcomeStep_follows hu h).1 q l' hl' hheld
  · cases h

lemma step_origin (hi : s.Inv) (hs : s.step a=some s') {q : ℕ}
    {l' : Lease} (hl' : s'.leases q=some l') (hheld : l'.held=true) :
    (∃ l,s.leases q=some l ∧ l'.holder=l.holder ∧ l'.epoch=l.epoch) ∨
    ∃ t i,a=.advance t i ∧ s.freshGrant t=some (l'.holder,q) := by
  cases a with
  | decide t req | operate t op =>
    simp only [step,ite_none_right_eq_some,Option.some.injEq] at hs
    obtain ⟨-,rfl⟩ := hs
    exact .inl (noNew_of_leases rfl q l' hl' hheld)
  | advance t i =>
    have hok := hi t
    simp only [step] at hs
    split at hs
    · cases hs
    · rename_i u hu
      rw [hu] at hok
      rcases unitStep_noNew hok hs with hn | ⟨q',rest,old,next,ep,hpc,-,⟨l₁,hl₁,hh,-⟩,hoth⟩
      · exact .inl (hn q l' hl' hheld)
      by_cases hq : q=q'
      · subst q'
        rw [hl₁] at hl'
        cases hl'
        exact .inr ⟨t,i,rfl,by simp [freshGrant,hu,hpc,hh]⟩
      · exact .inl ⟨l',by rw [← hoth q hq]; exact hl',rfl,rfl⟩
    · rename_i o ho
      rw [ho] at hok
      rcases opStep_noNew hok hs with hn | ⟨p,q',mode,ttl,old,next,hop,hpc,⟨l₁,hl₁,hh⟩,hoth⟩
      · exact .inl (hn q l' hl' hheld)
      by_cases hq : q=q'
      · subst q'
        rw [hl₁] at hl'
        cases hl'
        exact .inr ⟨t,i,rfl,by simp [freshGrant,ho,hop,hpc,hh]⟩
      · exact .inl ⟨l',by rw [← hoth q hq]; exact hl',rfl,rfl⟩
  | heartbeat p pending now =>
    simp only [step,Option.some.injEq] at hs
    subst hs
    exact .inl (noNew_mapLeases (fun _ l => heartbeatLease_tenure p _ now l) q l' hl' hheld)
  | loadCfg c =>
    simp only [step,Option.some.injEq] at hs
    subst hs
    exact .inl (noNew_of_leases rfl q l' hl' hheld)
  | send t | execute t c | reply t | lost t killed | timeout t killed | abandon t => exact .inl (outcome_noNew hs hl' hheld)

lemma step_other_follows {u' : UnitTask} (hi : s.Inv)
    (hs : s.step a=some s') (hu' : s'.tasks t=.unit u') (ha : ∀ i,a≠.advance t i) :
    (∃ u,s.tasks t=.unit u ∧ u.Follows u') ∨ u'.window=[] := by
  by_cases hac : a.actor=some t
  swap
  · exact .inl ⟨u',(step_others hi hs hac).symm.trans hu',.refl u'⟩
  cases a <;> simp only [Action.actor,Option.some.injEq,reduceCtorEq] at hac <;> subst hac
  case decide =>
    simp only [step,ite_none_right_eq_some,Option.some.injEq] at hs
    obtain ⟨-,rfl⟩ := hs
    simp only [setTask_self,Task.unit.injEq] at hu'
    subst hu'
    exact .inr rfl
  case operate =>
    simp only [step,ite_none_right_eq_some,Option.some.injEq] at hs
    obtain ⟨-,rfl⟩ := hs
    simp at hu'
  case advance i => exact (ha i rfl).elim
  all_goals
    simp only [step] at hs
    split at hs
    · rename_i u hu
      obtain ⟨-,v,hv,hfol⟩ := outcomeStep_follows hu hs
      cases hu'.symm.trans hv
      exact .inl ⟨u,hu,hfol⟩
    · cases hs

lemma UnitTask.Follows.window {u u' : UnitTask} (h : u.Follows u') : u'.window=u.window := by
  simp only [UnitTask.window,h.pc,h.granted]

theorem step_owned (hi : s.Inv) (ho : s.Owned) (hg : NoSelfRace s a) (hs : s.step a=some s') : s'.Owned := by
  intro t u' hu' q hq l' hl' hheld hholder
  by_cases ha : ∃ i,a=.advance t i
  · -- the unit's own section: its window narrows, and a fresh grant is recorded
    obtain ⟨i,rfl⟩ := ha
    have hok := hi t
    simp only [step] at hs
    split at hs
    · cases hs
    · rename_i u hu
      rw [hu] at hok
      obtain ⟨v,hv,⟨hreq,hcre,hwin⟩,hfresh⟩ := (unitStep_effect hs).unit
      rw [hu'] at hv
      cases hv
      have hold : ∀ l,s.leases q=some l → l'.holder=l.holder → l'.epoch=l.epoch →
          (q,l'.epoch)∈u'.created := fun l hl hh he => by
        have hlheld : l.held=true := by simpa [Lease.held,← hh] using hheld
        rcases hwin q hq with hw | hw
        · rw [he]
          exact hcre (ho t u hu q hw l hl hlheld (by rw [← hh,hholder,hreq]))
        · rw [hw l hl] at hlheld
          cases hlheld
      rcases unitStep_noNew hok hs with hn | ⟨q',rest,old,next,ep,hpc,hep,⟨l₁,hl₁,-,he₁⟩,hoth⟩
      · obtain ⟨l,hl,hh,he⟩ := hn q l' hl' hheld
        exact hold l hl hh he
      by_cases hqq : q=q'
      · subst q'
        rw [hl₁] at hl'
        cases hl'
        rw [he₁]
        exact hfresh q rest old next ep hpc hep
      · exact hold l' (by rw [← hoth q hqq]; exact hl') rfl rfl
    · rename_i o ho
      rw [ho] at hok
      obtain ⟨-,o',ho',-⟩ := opStep_ok hok hs
      cases hu'.symm.trans ho'
  · rcases step_other_follows hi hs hu' (fun i h => ha ⟨i,h⟩) with ⟨u,hu,hfol⟩ | hw
    · rw [hfol.created]
      rw [hfol.window] at hq
      rw [hfol.req] at hholder
      rcases step_origin hi hs hl' hheld with ⟨l,hl,hh,he⟩ | ⟨r,i,rfl,hfresh⟩
      · rw [he]
        exact ho t u hu q hq l hl (by simpa [Lease.held,← hh] using hheld) (by rw [← hh,hholder])
      · -- a fresh grant of another goroutine of the principal: excluded in the window
        have hne : t≠r := by
          rintro rfl
          exact ha ⟨i,rfl⟩
        exact (hg _ q hfresh t u hne hu hholder.symm hq).elim
    · rw [hw] at hq
      cases hq

theorem run_owned {leases : ℕ → Option Lease} {cfg : LeaseCfg} {as : List Action}
    (hg : Transition.AllSteps step NoSelfRace (.start leases cfg) as)
    (h : run step (.start leases cfg) as=some s) : s.Inv ∧ s.Owned := by
  refine run_invariant_of_allSteps (I := fun s => s.Inv ∧ s.Owned) ?_ ?_ hg h
  · rintro m a m' ⟨hi,ho⟩ hga hs
    exact ⟨step_inv hi hs,step_owned hi ho hga hs⟩
  · refine ⟨fun _ => trivial,fun t u hu => ?_⟩
    simp [start] at hu

/-- In a run in which no goroutine of a principal creates a tenure on a project that another
unit of the principal may still roll back, no section of any `Decide`, its rollback included,
ends or alters a tenure that its own grants did not create: holder, mode and epoch stay. -/
theorem decide_keeps_foreign_tenures {leases : ℕ → Option Lease} {cfg : LeaseCfg}
    {as : List Action} {s s' : Engine} {t : ℕ} {u : UnitTask} {i : Input}
    (hg : Transition.AllSteps Engine.step NoSelfRace (.start leases cfg) as)
    (h : Transition.run Engine.step (.start leases cfg) as = some s)
    (hu : s.tasks t = .unit u) (hs : s.step (.advance t i) = some s') :
    ∀ q l,s.leases q = some l → l.held = true → (q,l.epoch) ∉ u.created →
      ∃ l',s'.leases q = some l' ∧ l'.holder = l.holder ∧ l'.epoch = l.epoch ∧ l'.mode = l.mode := by
  intro q l hl hheld hforeign
  obtain ⟨hi,ho⟩ := run_owned hg h
  have hok := hi t
  rw [hu] at hok
  simp only [step,hu] at hs
  rcases unitStep_keeps hok hs with hk | ⟨x,rest,old,next,hpc,hoth⟩
  · exact hk q l hl hheld
  by_cases hq : q=x
  · -- the tenure being rolled back is in the window, hence the unit's own
    subst x
    have hp := hok.pending
    simp only [hpc,Pc.Pending] at hp
    obtain ⟨hten,hholder,-⟩ := hp
    obtain ⟨l₀,hl₀,hsame⟩ := sameTenure_of_pending hten
    rw [hl] at hl₀
    cases hl₀
    have hwin : q∈u.window := by simp [window,hpc]
    exact (hforeign (ho t u hu q hwin l hl hheld (hsame.1 ▸ hholder))).elim
  · exact ⟨l,by rw [hoth q hq]; exact hl,rfl,rfl,rfl⟩

lemma noSelfRace_of_one_task {as : List Action} (hi : s.Inv)
    (hidle : ∀ r,r≠t → s.tasks r=.idle) (has : ∀ a∈as,a.actor=some t) : Transition.AllSteps step NoSelfRace s as := by
  induction as generalizing s with
  | nil => trivial
  | cons a as ih =>
    have ha := has a (by simp)
    refine ⟨?_,fun m hm => ?_⟩
    · cases a <;> try trivial
      cases ha
      intro p q _ r v hr hv
      rw [hidle r hr] at hv
      cases hv
    · have hf := ((step_frame hi hm).1 t ha).1
      exact ih (step_inv hi hm) (fun r hr => (hf.tasks r hr).trans (hidle r hr))
        (fun b hb => has b (mem_cons_of_mem _ hb))

/-- What the unit of a task created. -/
def Engine.createdBy (s : Engine) (t : ℕ) : Option (List (ℕ × ℕ)) :=
  match s.tasks t with
  | .unit u => some u.created
  | _ => none

/-- A unit on the free projects 7 and 8 is granted 7; the grant of 8 fails, and the rollback of
7 is in flight. -/
def refusedUnit : List Action :=
  [.decide 1 ⟨⟨"m:a",.mac,""⟩,.enforce,false,.place ⟨[7,8],by decide,by decide⟩⟩,
    .advance 1 {},.advance 1 {},.advance 1 {},.advance 1 {},.advance 1 {},.advance 1 {},
    .advance 1 { reply := some 1 },.advance 1 {},.advance 1 {},.advance 1 {},.advance 1 {},
    .advance 1 {},.advance 1 {}]

/-- The rollback of 7 leaves the tenure of another Mac on 9 alone. -/
theorem refused_unit_keeps_foreign_tenure :
    let leases : ℕ → Option Lease := fun q =>
      if q = 9 then some { proj := 9, holder := "m:b", epoch := 3, mode := .auto } else none
    ∃ s s',run step (.start leases ⟨600000,1800000,259200000⟩) refusedUnit = some s ∧
      s.step (.advance 1 { reply := some 2 }) = some s' ∧
      (∃ l',s'.leases 7 = some l' ∧ l'.held = false) ∧
      ∃ l',s'.leases 9 = some l' ∧ l'.holder = "m:b" ∧ l'.epoch = 3 ∧ l'.mode = .auto := by
  intro leases
  have hgo : (run step (.start leases ⟨600000,1800000,259200000⟩)
      refusedUnit).map (fun s => (s.createdBy 1,s.leases 9)) = some (some [(7,1)],
        some { proj := 9, holder := "m:b", epoch := 3, mode := .auto }) := by decide +kernel
  have hend : ((run step (.start leases ⟨600000,1800000,259200000⟩)
      refusedUnit).bind (fun s => s.step (.advance 1 { reply := some 2 }))).map
        (fun s => (s.leases 7).map Lease.held) = some (some false) := by decide +kernel
  obtain ⟨s,hs,hobs⟩ := map_eq_some_iff.mp hgo
  rw [hs] at hend
  obtain ⟨s',hs',hl'⟩ := map_eq_some_iff.mp hend
  simp only [Prod.mk.injEq] at hobs
  obtain ⟨htask,hl⟩ := hobs
  unfold createdBy at htask
  split at htask
  case h_2 => cases htask
  rename_i u hu
  rw [Option.some.injEq] at htask
  refine ⟨s,s',hs,hs',map_eq_some_iff.mp hl',?_⟩
  refine decide_keeps_foreign_tenures ?_ hs hu hs' 9 _ hl rfl ?_
  · exact noSelfRace_of_one_task (t := 1) (fun _ => trivial) (fun _ _ => rfl) (by decide)
  · rw [htask]
    decide

/-- A unit on the free projects 7 and 8 passes the free check. Before its grants, its own
principal acquires a checkout of 7 and another Mac acquires 8. The unit renews 7, is refused
for 8, and the rollback of 7 is in flight. -/
def refusedUnitAfterCheckout : List Action :=
  [.decide 1 ⟨⟨"m:a",.mac,""⟩,.enforce,false,.place ⟨[7,8],by decide,by decide⟩⟩,
    .advance 1 {},.advance 1 {},.advance 1 {},.advance 1 {},
    .operate 2 (.acquire ⟨"m:a",.mac,""⟩ 7 .checkout 3600000),
    .advance 2 {},.advance 2 {},.advance 2 { reply := some 1 },
    .operate 3 (.acquire ⟨"m:b",.mac,""⟩ 8 .auto 0),
    .advance 3 {},.advance 3 {},.advance 3 { reply := some 1 },
    .advance 1 {},.advance 1 {},.advance 1 { reply := some 1 },.advance 1 {},.advance 1 {},
    .advance 1 {},.advance 1 {},.advance 1 {},.advance 1 {},.advance 1 {},.advance 1 {},.advance 1 {}]

/-- The rollback of a refused unit ends the checkout an ACQUIRE established: the unit created
no tenure at all. -/
theorem rollback_ends_checkout : ¬∀ (leases : ℕ → Option Lease) (cfg : LeaseCfg) (as : List Action) (s s' : Engine) (t : ℕ)
      (u : UnitTask) (i : Input), Transition.run Engine.step (.start leases cfg) as = some s → s.tasks t = .unit u →
      s.step (.advance t i) = some s' → ∀ q l,s.leases q = some l → l.held = true → (q,l.epoch) ∉ u.created →
        ∃ l',s'.leases q = some l' ∧ l'.holder = l.holder ∧ l'.epoch = l.epoch ∧ l'.mode = l.mode := by
  intro hall
  have hgo : (run step (.start (fun _ => none) ⟨600000,1800000,259200000⟩)
      refusedUnitAfterCheckout).map (fun s => (s.createdBy 1,(s.leases 7).map (fun l => (l.holder,l.mode,l.held)))) =
      some (some [],some ("m:a",.checkout,true)) := by decide +kernel
  have hend : ((run step (.start (fun _ => none) ⟨600000,1800000,259200000⟩)
      refusedUnitAfterCheckout).bind (fun s => s.step (.advance 1 { reply := some 2 }))).map
        (fun s => (s.leases 7).map Lease.holder) = some (some "") := by decide +kernel
  obtain ⟨s,hs,hobs⟩ := map_eq_some_iff.mp hgo
  rw [hs] at hend
  obtain ⟨s',hs',hl'⟩ := map_eq_some_iff.mp hend
  simp only [Prod.mk.injEq,map_eq_some_iff] at hobs hl'
  obtain ⟨htask,l,hl,hholder,-,hheld⟩ := hobs
  obtain ⟨l₁,hl₁,hfree⟩ := hl'
  unfold createdBy at htask
  split at htask
  · rename_i u hu
    obtain ⟨l₂,hl₂,hh,-⟩ := hall _ _ _ s s' 1 u _ hs hu hs' 7 l hl hheld (by simp_all)
    rw [hl₁] at hl₂
    cases hl₂
    rw [hfree,hholder] at hh
    exact absurd hh (by decide)
  · cases htask

end JuiceMount.RespProxy
