import JuiceMount.Nfs.FdPool

/-! What the descriptor pool serves. A descriptor that a Get gives out was opened after every earlier
invalidation of its slot, an invalidation of the read slots leaves the write slots alone, and a stopped
pool gives out nothing and keeps nothing open. -/
namespace JuiceMount.Nfs.Fd
open Transition List GoMap Option

section Custody
variable {p q : FDPool} {k : FdKey} {e : PoolEntry} {fd t : ℕ}

/-- Who will close a descriptor: the pool that has it, or a call that is still running. -/
inductive Custodian (p : FDPool) (fd : ℕ) : Prop
  | entry (k : FdKey) (e : PoolEntry) (h : p.entries.get? k=some e) (hfd : e.fd=fd)
  | orphan (o : OrphanEntry) (h : o∈p.orphans) (hfd : o.fd=fd)
  | closing (h : fd∈p.closing)
  | getter (k : FdKey) (h : p.getters.get? fd = some ⟨k,some true⟩)

lemma Custodian.mono (h : Custodian p fd) (hentry : ∀ k e,p.entries.get? k=some e → e.fd=fd → Custodian q fd)
    (horphans : p.orphans ⊆ q.orphans) (hclosing : p.closing ⊆ q.closing)
    (hgetter : ∀ k,p.getters.get? fd=some ⟨k,some true⟩ → Custodian q fd) : Custodian q fd := by
  cases h with
  | entry k e hk hfd => exact hentry k e hk hfd
  | orphan o ho hfd => exact .orphan o (horphans ho) hfd
  | closing hc => exact .closing (hclosing hc)
  | getter k hk => exact hgetter k hk

lemma Custodian.of_eq (h : Custodian p fd) (hentries : q.entries=p.entries) (horphans : q.orphans=p.orphans)
    (hclosing : p.closing ⊆ q.closing)
    (hgetters : ∀ k,p.getters.get? fd=some ⟨k,some true⟩ → q.getters.get? fd=some ⟨k,some true⟩) : Custodian q fd :=
  h.mono (fun k e he hfd => .entry k e (hentries ▸ he) hfd) (horphans ▸ List.Subset.refl _) hclosing
    fun k hk => .getter k (hgetters k hk)

lemma Custodian.without (h : Custodian p fd) (hp : p.entries.get? k=some e) (hne : e.fd≠fd)
    (hentries : q.entries=p.entries.erase k) (horphans : p.orphans ⊆ q.orphans) (hclosing : p.closing ⊆ q.closing)
    (hgetters : q.getters=p.getters) : Custodian q fd := by
  refine h.mono (fun x y hy hfd => ?_) horphans hclosing fun x hx => .getter x (hgetters ▸ hx)
  have hx : x≠k := by
    rintro rfl
    rw [hp] at hy
    cases hy
    exact hne hfd
  exact .entry x y (by rw [hentries,get?_erase_ne hx,hy]) hfd

/-- The bookkeeping of the pool: what is in flight is registered under its slot, an entry has a descriptor
that was opened for its slot, and every open descriptor has somebody who will close it. -/
structure Sound (p : FDPool) : Prop where
  handed : ∀ h∈p.handouts,h.began<p.clock ∧ h.key.path≠[]
  registered : ∀ t g,p.getters.get? t=some g → t<p.clock ∧ ∃ r,p.openInFlight.get? t=some r ∧ r.key=g.key
  unopened : ∀ t k,p.getters.get? t = some ⟨k,none⟩ → p.openedFor.get? t=none
  opened : ∀ t k,p.getters.get? t = some ⟨k,some true⟩ → p.openedFor.get? t=some k ∧ k.path≠[]
  past : ∀ t k,p.openedFor.get? t=some k → t<p.clock
  entry : ∀ k e,p.entries.get? k=some e → p.openedFor.get? e.fd=some k ∧ k.path≠[]
  custody : ∀ fd∈p.live,Custodian p fd
  detached : p.stopped=true → p.entries=[] ∧ p.orphans=[]

lemma Sound.start : Sound {} :=
  ⟨nofun,nofun,nofun,nofun,nofun,nofun,nofun,fun _ => ⟨rfl,rfl⟩⟩

lemma Sound.running (h : Sound p) (hp : p.entries.get? k=some e) : p.stopped≠true := by
  intro hstop
  rw [(h.detached hstop).1] at hp
  cases hp

lemma Sound.setEntry (h : Sound p) (hp : p.entries.get? k=some e) (e' : PoolEntry) (hfd : e'.fd=e.fd) :
    Sound {p with entries := p.entries.set k e'} := by
  refine {h with
    entry := forall_set (hfd ▸ h.entry k e hp) h.entry
    custody := fun fd hlive => (h.custody fd hlive).mono (fun x y hy hyfd => ?_) (List.Subset.refl _) (List.Subset.refl _)
      fun x hx => .getter x hx
    detached := fun hstop => absurd hstop (h.running hp)}
  by_cases hx : x=k
  · subst x
    rw [hp] at hy
    cases hy
    exact .entry k e' (get?_set_self _ _ _) (hfd.trans hyfd)
  · exact .entry x y ((get?_set_ne hx _).trans hy) hyfd

lemma Sound.discard (h : Sound p) (hp : p.entries.get? k=some e) (underLock : Bool) :
    Sound (FDPool.shut {p with entries := p.entries.erase k} underLock e.fd) := by
  cases underLock with
  | true =>
    refine {h with
      entry := fun x y hy => h.entry x y (of_get?_erase hy).2
      custody := fun fd hlive => ?_
      detached := fun hstop => absurd hstop (h.running hp)}
    simp only [FDPool.shut,if_true,mem_filter,decide_eq_true_eq] at hlive
    exact (h.custody fd hlive.1).without hp (Ne.symm hlive.2) rfl (List.Subset.refl _) (List.Subset.refl _) rfl
  | false =>
    refine {h with
      entry := fun x y hy => h.entry x y (of_get?_erase hy).2
      custody := fun fd hlive => ?_
      detached := fun hstop => absurd hstop (h.running hp)}
    by_cases hfd : e.fd=fd
    · exact .closing (hfd ▸ mem_cons_self)
    · exact (h.custody fd hlive).without hp hfd rfl (List.Subset.refl _) (subset_cons_self _ _) rfl

lemma Sound.displace (h : Sound p) (hp : p.entries.get? k=some e) (now : ℤ) : Sound (p.displaceStaleLocked k e now) := by
  unfold FDPool.displaceStaleLocked
  split
  · exact h.discard hp true
  · refine ⟨h.handed,h.registered,h.unopened,h.opened,h.past,fun x y hy => h.entry x y (of_get?_erase hy).2,
      fun fd hlive => ?_,fun hstop => absurd hstop (h.running hp)⟩
    by_cases hfd : e.fd=fd
    · exact .orphan ⟨e.fd,now⟩ (mem_append_right _ mem_cons_self) hfd
    · exact (h.custody fd hlive).without hp hfd rfl (subset_append_left _ _) (List.Subset.refl _) rfl

lemma Sound.later (h : Sound p) {c : ℕ} (hc : p.clock≤c) : Sound {p with clock := c} :=
  {h with
    handed := fun x hx => ⟨(h.handed x hx).1.trans_le hc,(h.handed x hx).2⟩
    registered := fun t g hg => ⟨(h.registered t g hg).1.trans_le hc,(h.registered t g hg).2⟩
    past := fun t k hk => (h.past t k hk).trans_le hc
    custody := fun fd hlive => (h.custody fd hlive).of_eq rfl rfl (List.Subset.refl _) fun _ => id}

lemma Sound.handOut (h : Sound p) {x : Handout} {c : ℕ} (hx : x.began<c ∧ x.key.path≠[]) (hc : p.clock≤c) :
    Sound {p with handouts := x::p.handouts, clock := c} := by
  have hl := h.later hc
  exact {hl with
    handed := forall_mem_cons.mpr ⟨hx,hl.handed⟩
    custody := fun fd hlive => (hl.custody fd hlive).of_eq rfl rfl (List.Subset.refl _) fun _ => id}

lemma Sound.tick (h : Sound p) : Sound p.tick := h.later (Nat.le_succ _)

lemma Sound.beginOpen (h : Sound p) (k : FdKey) : Sound (p.beginOpenLocked k).tick := by
  refine {h.tick with registered := fun t g hg => ?_, unopened := fun t x hx => ?_, opened := fun t x hx => ?_, custody := ?_}
  · obtain ⟨rfl,rfl⟩ | ⟨hne,hg⟩ := of_get?_set hg
    · exact ⟨Nat.lt_succ_self _,_,get?_set_self _ _ _,rfl⟩
    · obtain ⟨hlt,r,hr,hkey⟩ := h.registered t g hg
      exact ⟨hlt.trans (Nat.lt_succ_self _),r,(get?_set_ne hne _).trans hr,hkey⟩
  · obtain ⟨rfl,-⟩ | ⟨-,hx⟩ := of_get?_set hx
    · exact eq_none_iff_forall_ne_some.mpr fun y hopened => lt_irrefl _ (h.past _ y hopened)
    · exact h.unopened t x hx
  · obtain ⟨-,hx⟩ | ⟨-,hx⟩ := of_get?_set hx
    · cases hx
    · exact h.opened t x hx
  · refine fun fd hlive => (h.custody fd hlive).of_eq rfl rfl (List.Subset.refl _) fun x hx => ?_
    exact (get?_set_ne (h.registered fd _ hx).1.ne _).trans hx

lemma Sound.get (h : Sound p) (k : FdKey) (now : ℤ) : Sound (p.get k now).tick := by
  unfold FDPool.get
  split
  · exact h.tick
  split
  · rename_i e he
    split
    · exact (h.displace he now).beginOpen k
    · have hserved := h.setEntry he {e with lastUsed := now, refCount := e.refCount+1} rfl
      exact hserved.handOut (x := ⟨k,p.clock,e.fd⟩) ⟨Nat.lt_succ_self p.clock,(h.entry k e he).2⟩ (Nat.le_succ p.clock)
  · exact h.beginOpen k

lemma Sound.openReturns {ok : Bool} (h : Sound p) (hq : p.openReturns t ok=some q) : Sound q := by
  unfold FDPool.openReturns at hq
  split at hq
  case h_2 => cases hq
  rename_i k hk
  obtain ⟨hlt,r,hr,hkey⟩ := h.registered t _ hk
  have hnone := h.unopened t k hk
  -- the getter's answer is the only one that changes
  have hreg : ∀ b x g,(p.getters.set t ⟨k,some b⟩).get? x=some g →
      x<p.clock ∧ ∃ r,p.openInFlight.get? x=some r ∧ r.key=g.key :=
    fun b => forall_set ⟨hlt,r,hr,hkey⟩ h.registered
  have hget : ∀ b fd x,p.getters.get? fd=some ⟨x,some true⟩ →
      (p.getters.set t ⟨k,some b⟩).get? fd=some ⟨x,some true⟩ := by
    intro b fd x hx
    have hne : fd≠t := by
      rintro rfl
      rw [hk] at hx
      cases hx
    exact (get?_set_ne hne _).trans hx
  split_ifs at hq with hok hpath
  · cases hq
    refine {h with
      registered := hreg true, unopened := fun x y hy => ?_, opened := fun x y hy => ?_
      past := forall_set hlt h.past
      entry := fun x y hy => ?_, custody := fun fd hlive => ?_}
    · obtain ⟨-,hy⟩ | ⟨hne,hy⟩ := of_get?_set hy
      · cases hy
      · exact (get?_set_ne hne _).trans (h.unopened x y hy)
    · obtain ⟨rfl,hnew⟩ | ⟨hne,hy⟩ := of_get?_set hy
      · cases hnew
        exact ⟨get?_set_self _ _ _,hpath⟩
      · rw [get?_set_ne hne]
        exact h.opened x y hy
    · have hy' := h.entry x y hy
      have hne : y.fd≠t := by
        intro heq
        rw [heq,hnone] at hy'
        exact absurd hy'.1 (by simp)
      exact ⟨(get?_set_ne hne _).trans hy'.1,hy'.2⟩
    · obtain rfl | hlive := mem_cons.mp hlive
      · exact .getter k (get?_set_self _ _ _)
      · exact (h.custody fd hlive).of_eq rfl rfl (List.Subset.refl _) (hget true fd)
  · cases hq
    refine {h with
      registered := hreg false
      unopened := fun x y hy => ?_
      opened := fun x y hy => ?_
      custody := fun fd hlive => ?_}
    · obtain ⟨-,hy⟩ | ⟨-,hy⟩ := of_get?_set hy
      · cases hy
      · exact h.unopened x y hy
    · obtain ⟨-,hy⟩ | ⟨-,hy⟩ := of_get?_set hy
      · cases hy
      · exact h.opened x y hy
    · exact (h.custody fd hlive).of_eq rfl rfl (List.Subset.refl _) (hget false fd)

lemma Sound.enclose (h : Sound p) (fd : ℕ) : Sound (p.shut false fd) :=
  {h with custody := fun x hlive => (h.custody x hlive).of_eq rfl rfl (subset_cons_self _ _) fun _ => id}

lemma Sound.insert (h : Sound p) (hrunning : p.stopped≠true) (hnone : p.entries.get? k=none)
    (hopened : p.openedFor.get? t=some k ∧ k.path≠[]) (now : ℤ) (poisoned : Bool) :
    Sound (p.insert k t now poisoned) := by
  refine {h with
    handed := forall_mem_cons.mpr ⟨⟨h.past t k hopened.1,hopened.2⟩,h.handed⟩
    entry := forall_set hopened h.entry
    custody := fun fd hlive => (h.custody fd hlive).mono (fun x y hy hfd => ?_) (List.Subset.refl _) (List.Subset.refl _)
      fun x hx => .getter x hx
    detached := fun hstop => absurd hstop hrunning}
  have hx : x≠k := by
    rintro rfl
    rw [hnone] at hy
    cases hy
  exact .entry x y ((get?_set_ne hx _).trans hy) hfd

lemma displaceStaleLocked_entries (p : FDPool) (k : FdKey) (e : PoolEntry) (now : ℤ) :
    (p.displaceStaleLocked k e now).entries=p.entries.erase k := by
  unfold FDPool.displaceStaleLocked FDPool.shut
  split <;> rfl

lemma displaceStaleLocked_frame (p : FDPool) (k : FdKey) (e : PoolEntry) (now : ℤ) :
    (p.displaceStaleLocked k e now).stopped=p.stopped ∧ (p.displaceStaleLocked k e now).openedFor=p.openedFor ∧
    (p.displaceStaleLocked k e now).getters=p.getters ∧ (p.displaceStaleLocked k e now).openInFlight=p.openInFlight ∧
    (p.displaceStaleLocked k e now).handouts=p.handouts ∧ (p.displaceStaleLocked k e now).clock=p.clock := by
  unfold FDPool.displaceStaleLocked FDPool.shut
  split <;> exact ⟨rfl,rfl,rfl,rfl,rfl,rfl⟩

/-- The descriptor of a Get that comes back is closed by the Get, or is an entry from then on. -/
lemma Sound.settle (h : Sound p) (hopened : p.openedFor.get? t=some k ∧ k.path≠[]) (now : ℤ) (poisoned : Bool) :
    Sound (p.settle k t now poisoned) ∧ (t∈(p.settle k t now poisoned).closing ∨
      ∃ e,(p.settle k t now poisoned).entries.get? k=some e ∧ e.fd=t) := by
  unfold FDPool.settle
  split
  · exact ⟨h.enclose t,.inl mem_cons_self⟩
  rename_i hrunning
  split
  · rename_i e he
    split
    · obtain ⟨hstop,hfor,-⟩ := displaceStaleLocked_frame p k e now
      have hnone : (p.displaceStaleLocked k e now).entries.get? k=none := by
        rw [displaceStaleLocked_entries,get?_erase_self]
      exact ⟨(h.displace he now).insert (hstop ▸ hrunning) hnone (hfor ▸ hopened) now poisoned,
        .inr ⟨_,get?_set_self _ _ _,rfl⟩⟩
    · have hserved := h.setEntry he {e with lastUsed := now, refCount := e.refCount+1} rfl
      exact ⟨(hserved.handOut (x := ⟨k,t,e.fd⟩) ⟨h.past t k hopened.1,hopened.2⟩ le_rfl).enclose t,.inl mem_cons_self⟩
  · rename_i hnone
    exact ⟨h.insert hrunning hnone hopened now poisoned,.inr ⟨_,get?_set_self _ _ _,rfl⟩⟩

lemma settle_endOpenLocked (p : FDPool) (k : FdKey) (t u : ℕ) (now : ℤ) (poisoned : Bool) :
    (p.endOpenLocked u).settle k t now poisoned=(p.settle k t now poisoned).endOpenLocked u := by
  unfold FDPool.settle
  have hentries : (p.endOpenLocked u).entries=p.entries := rfl
  have hstopped : (p.endOpenLocked u).stopped=p.stopped := rfl
  rw [hentries,hstopped]
  split
  · rfl
  split
  · split
    · unfold FDPool.displaceStaleLocked
      split <;> rfl
    · rfl
  · rfl

/-- The record of an open is retired when nobody needs it to close the descriptor. -/
lemma Sound.endOpen (h : Sound p)
    (ht : t∈p.live → t∈p.closing ∨ (∃ k e,p.entries.get? k=some e ∧ e.fd=t) ∨ p.getters.get? t=some ⟨k,some false⟩) :
    Sound (p.endOpenLocked t) := by
  refine ⟨h.handed,fun x g hg => ?_,fun x y hy => h.unopened x y (of_get?_erase hy).2,
    fun x y hy => h.opened x y (of_get?_erase hy).2,h.past,h.entry,fun fd hlive => ?_,h.detached⟩
  · obtain ⟨hne,hg⟩ := of_get?_erase hg
    obtain ⟨hlt,r,hr,hkey⟩ := h.registered x g hg
    exact ⟨hlt,r,(get?_erase_ne hne).trans hr,hkey⟩
  · refine (h.custody fd hlive).mono (fun x y hy hfd => .entry x y hy hfd) (List.Subset.refl _) (List.Subset.refl _) fun x hx => ?_
    by_cases hfd : fd=t
    · subst fd
      obtain hc | ⟨y,e,he,hfd⟩ | hfalse := ht hlive
      · exact .closing hc
      · exact .entry y e he hfd
      · rw [hfalse] at hx
        cases hx
    · exact .getter x ((get?_erase_ne hfd).trans hx)

lemma Sound.finish {now : ℤ} (h : Sound p) (hq : p.finish t now=some q) : Sound q := by
  unfold FDPool.finish at hq
  split at hq
  case h_2 => cases hq
  rename_i k ok hk
  simp only [Option.some.injEq] at hq
  subst hq
  cases ok with
  | true =>
    simp only [if_true,settle_endOpenLocked]
    obtain ⟨hsettled,hcustody⟩ := h.settle (h.opened t k hk) now ((p.openInFlight.get? t).any (·.poisoned))
    refine hsettled.endOpen (k := k) fun _ => ?_
    obtain hc | ⟨e,he,hfd⟩ := hcustody
    · exact .inl hc
    · exact .inr (.inl ⟨k,e,he,hfd⟩)
  | false =>
    simp only [Bool.false_eq_true,if_false]
    exact h.endOpen fun _ => .inr (.inr hk)

lemma get?_poisonOpensLocked (p : FDPool) (covered : FdKey → Bool) (t : ℕ) :
    (p.poisonOpensLocked covered).openInFlight.get? t=(p.openInFlight.get? t).map (OpenRec.poison covered) :=
  get?_map p.openInFlight (OpenRec.poison covered) t

lemma Sound.poison (h : Sound p) (covered : FdKey → Bool) : Sound (p.poisonOpensLocked covered) := by
  refine {h with registered := fun t g hg => ?_, custody := fun fd hlive => ?_}
  · obtain ⟨hlt,r,hr,hkey⟩ := h.registered t g hg
    exact ⟨hlt,r.poison covered,by rw [get?_poisonOpensLocked,hr,map_some],hkey⟩
  · exact (h.custody fd hlive).of_eq rfl rfl (List.Subset.refl _) fun _ => id

lemma Sound.dispose (h : Sound p) (disposition : PoolEntry → FDPool.Disposition) (underLock : Bool) (k : FdKey) :
    Sound (p.dispose disposition underLock k) := by
  unfold FDPool.dispose
  split
  · exact h
  · rename_i e he
    split
    · exact h
    · exact h.setEntry he _ rfl
    · exact h.discard he underLock

lemma Sound.disposeAll (h : Sound p) (disposition : PoolEntry → FDPool.Disposition) (underLock : Bool) (ks : List FdKey) :
    Sound (ks.foldl (FDPool.dispose disposition underLock) p) := by
  induction ks generalizing p with
  | nil => exact h
  | cons k ks ih => exact ih (h.dispose disposition underLock k)

lemma Sound.release (h : Sound p) (k : FdKey) : Sound (p.release k) := by
  have hdebt : ∀ refs,Sound {p with pendingRefs := refs} := fun refs =>
    {h with custody := fun fd hlive => (h.custody fd hlive).of_eq rfl rfl (List.Subset.refl _) fun _ => id}
  unfold FDPool.release
  split
  · rename_i e he
    split
    · exact h.setEntry he _ rfl
    · exact h
  · split
    · exact h
    · split <;> exact hdebt _

lemma Sound.evict (h : Sound p) (now : ℤ) : Sound (p.evict now) := by
  have hq := h.disposeAll (FDPool.idle now) false p.entries.keys
  unfold FDPool.evict
  extract_lets q
  change Sound q at hq
  refine {hq with custody := fun fd hlive => ?_, detached := fun hstop => ?_}
  · cases hq.custody fd hlive with
    | entry x y hy hfd => exact .entry x y hy hfd
    | orphan o ho hfd =>
      by_cases hgrace : fdOrphanGrace<now-o.orphaned
      · exact .closing (mem_append_left _ (List.mem_map.mpr ⟨o,mem_filter.mpr ⟨ho,by simpa using hgrace⟩,hfd⟩))
      · exact .orphan o (mem_filter.mpr ⟨ho,by simpa using hgrace⟩) hfd
    | closing hc => exact .closing (mem_append_right _ hc)
    | getter x hx => exact .getter x hx
  · obtain ⟨hentries,horphans⟩ := hq.detached hstop
    exact ⟨hentries,by simp [horphans]⟩

lemma Sound.stop (h : Sound p) : Sound p.stop := by
  unfold FDPool.stop
  split
  · exact h
  refine {h with entry := nofun, custody := fun fd hlive => ?_, detached := fun _ => ⟨rfl,rfl⟩}
  cases h.custody fd hlive with
  | entry x y hy hfd =>
    exact .closing (mem_append_left _ (mem_append_left _ (List.mem_map.mpr ⟨_,mem_of_get? hy,hfd⟩)))
  | orphan o ho hfd => exact .closing (mem_append_left _ (mem_append_right _ (List.mem_map.mpr ⟨o,ho,hfd⟩)))
  | closing hc => exact .closing (mem_append_right _ hc)
  | getter x hx => exact .getter x hx

lemma Sound.close (h : Sound p) (hq : p.close fd=some q) : Sound q := by
  unfold FDPool.close at hq
  split_ifs at hq
  cases hq
  refine {h with custody := fun x hlive => ?_}
  obtain ⟨hlive,hne⟩ := mem_filter.mp hlive
  cases h.custody x hlive with
  | entry y e hy hfd => exact .entry y e hy hfd
  | orphan o ho hfd => exact .orphan o ho hfd
  | closing hc => exact .closing ((mem_erase_of_ne (by simpa using hne)).mpr hc)
  | getter y hy => exact .getter y hy

lemma Sound.step {op : PoolOp} (h : Sound p) (hq : p.step op=some q) : Sound q := by
  obtain ⟨r,hr,rfl⟩ := map_eq_some_iff.mp hq
  cases op with
  | get k now =>
    cases hr
    exact h.get k now
  | openReturns t ok => exact (h.openReturns hr).tick
  | finish t now => exact (h.finish hr).tick
  | release k =>
    cases hr
    exact (h.release k).tick
  | invalidatePath path includeWrite =>
    cases hr
    unfold FDPool.invalidatePath
    split
    · exact h.tick
    · exact ((h.disposeAll _ false _).poison _).tick
  | invalidateTree root includeWrite =>
    cases hr
    unfold FDPool.invalidateTree
    split
    · exact h.tick
    · exact ((h.disposeAll _ false _).poison _).tick
  | flushStale =>
    cases hr
    exact ((h.poison _).disposeAll _ true _).tick
  | evict now =>
    cases hr
    exact (h.evict now).tick
  | stop =>
    cases hr
    exact h.stop.tick
  | close fd => exact (h.close hr).tick

lemma Sound.run {ops : List PoolOp} (hrun : run FDPool.step {} ops=some p) : Sound p :=
  run_invariant (fun _ _ _ h => h.step) .start hrun

end Custody

section Freshness
variable {p q r : FDPool} {k : FdKey} {e : PoolEntry} {i t : ℕ} {x : FdKey}

/-- A call that serves nobody: what can be served after it could be served before. -/
structure Aged (p q : FDPool) : Prop where
  entry : ∀ k e,q.entries.get? k=some e → e.stale=false →
    ∃ e',p.entries.get? k=some e' ∧ e'.stale=false ∧ e'.fd=e.fd
  opens : ∀ t r,q.openInFlight.get? t=some r → r.poisoned=false →
    ∃ r',p.openInFlight.get? t=some r' ∧ r'.key=r.key ∧ r'.poisoned=false
  handouts : q.handouts=p.handouts
  clock : q.clock=p.clock
  stopped : p.stopped=true → q.stopped=true

lemma Aged.refl (p : FDPool) : Aged p p := ⟨fun _ e he hs => ⟨e,he,hs,rfl⟩,fun _ r hr hp => ⟨r,hr,rfl,hp⟩,rfl,rfl,id⟩

lemma Aged.trans (h : Aged p q) (h' : Aged q r) : Aged p r := by
  refine ⟨fun k e he hs => ?_,fun t x hx hp => ?_,h'.handouts.trans h.handouts,h'.clock.trans h.clock,h'.stopped ∘ h.stopped⟩
  · obtain ⟨e',he',hs',hfd'⟩ := h'.entry k e he hs
    obtain ⟨e'',he'',hs'',hfd''⟩ := h.entry k e' he' hs'
    exact ⟨e'',he'',hs'',hfd''.trans hfd'⟩
  · obtain ⟨x',hx',hk',hp'⟩ := h'.opens t x hx hp
    obtain ⟨x'',hx'',hk'',hp''⟩ := h.opens t x' hx' hp'
    exact ⟨x'',hx'',hk''.trans hk',hp''⟩

lemma Aged.of_entries (hentry : ∀ k e,q.entries.get? k=some e → e.stale=false →
      ∃ e',p.entries.get? k=some e' ∧ e'.stale=false ∧ e'.fd=e.fd)
    (hopens : q.openInFlight=p.openInFlight) (hhandouts : q.handouts=p.handouts) (hclock : q.clock=p.clock)
    (hstopped : p.stopped=true → q.stopped=true) : Aged p q :=
  ⟨hentry,fun _ x hx hp => ⟨x,hopens ▸ hx,rfl,hp⟩,hhandouts,hclock,hstopped⟩

lemma Aged.of_eq (hentries : q.entries=p.entries) (hopens : q.openInFlight=p.openInFlight)
    (hhandouts : q.handouts=p.handouts) (hclock : q.clock=p.clock) (hstopped : q.stopped=p.stopped) : Aged p q :=
  .of_entries (fun _ e he hs => ⟨e,hentries ▸ he,hs,rfl⟩) hopens hhandouts hclock fun h => hstopped.trans h

lemma Aged.erase (hentries : q.entries=p.entries.erase k) (hopens : q.openInFlight=p.openInFlight)
    (hhandouts : q.handouts=p.handouts) (hclock : q.clock=p.clock) (hstopped : q.stopped=p.stopped) : Aged p q :=
  .of_entries (fun _ e he hs => ⟨e,(of_get?_erase (hentries ▸ he)).2,hs,rfl⟩) hopens hhandouts hclock
    fun h => hstopped.trans h

lemma Aged.set {e' : PoolEntry} (hp : p.entries.get? k=some e) (hfd : e'.fd=e.fd)
    (hstale : e'.stale=false → e.stale=false) : Aged p {p with entries := p.entries.set k e'} := by
  refine .of_entries (fun x y hy hs => ?_) rfl rfl rfl id
  obtain ⟨rfl,rfl⟩ | ⟨-,hy⟩ := of_get?_set hy
  · exact ⟨e,hp,hstale hs,hfd.symm⟩
  · exact ⟨y,hy,hs,rfl⟩

lemma Aged.displace (p : FDPool) (k : FdKey) (e : PoolEntry) (now : ℤ) : Aged p (p.displaceStaleLocked k e now) := by
  obtain ⟨hstopped,-,-,hopens,hhandouts,hclock⟩ := displaceStaleLocked_frame p k e now
  exact .erase (displaceStaleLocked_entries p k e now) hopens hhandouts hclock hstopped

lemma Aged.dispose (disposition : PoolEntry → FDPool.Disposition) (underLock : Bool) (p : FDPool) (k : FdKey) :
    Aged p (p.dispose disposition underLock k) := by
  unfold FDPool.dispose
  split
  · exact .refl p
  · rename_i e he
    split
    · exact .refl p
    · exact .set he rfl nofun
    · cases underLock <;> exact .erase (k := k) rfl rfl rfl rfl rfl

lemma Aged.disposeAll (disposition : PoolEntry → FDPool.Disposition) (underLock : Bool) (p : FDPool) (ks : List FdKey) :
    Aged p (ks.foldl (FDPool.dispose disposition underLock) p) := by
  induction ks generalizing p with
  | nil => exact .refl p
  | cons k ks ih => exact (Aged.dispose disposition underLock p k).trans (ih _)

lemma Aged.poison (p : FDPool) (covered : FdKey → Bool) : Aged p (p.poisonOpensLocked covered) := by
  refine ⟨fun _ e he hs => ⟨e,he,hs,rfl⟩,fun t x hx hp => ?_,rfl,rfl,id⟩
  rw [get?_poisonOpensLocked] at hx
  obtain ⟨y,hy,rfl⟩ := map_eq_some_iff.mp hx
  exact ⟨y,hy,rfl,(Bool.or_eq_false_iff.mp hp).1⟩

lemma Aged.release (p : FDPool) (k : FdKey) : Aged p (p.release k) := by
  unfold FDPool.release
  split
  · rename_i e he
    split
    · exact .set he rfl id
    · exact .refl p
  · split
    · exact .refl p
    · split <;> exact .of_eq rfl rfl rfl rfl rfl

lemma Aged.endOpen (p : FDPool) (t : ℕ) : Aged p (p.endOpenLocked t) :=
  ⟨fun _ e he hs => ⟨e,he,hs,rfl⟩,fun _ r hr hp => ⟨r,(of_get?_erase hr).2,rfl,hp⟩,rfl,rfl,id⟩

lemma Aged.invalidatePath (p : FDPool) (path : List Char) (includeWrite : Bool) :
    Aged p (p.invalidatePath path includeWrite) := by
  unfold FDPool.invalidatePath
  split
  · exact .refl p
  · exact (Aged.disposeAll _ _ _ _).trans (.poison _ _)

lemma Aged.invalidateTree (p : FDPool) (root : List Char) (includeWrite : Bool) :
    Aged p (p.invalidateTree root includeWrite) := by
  unfold FDPool.invalidateTree
  split
  · exact .refl p
  · exact (Aged.disposeAll _ _ _ _).trans (.poison _ _)

lemma Aged.flushStale (p : FDPool) : Aged p p.flushStale := (Aged.poison p _).trans (.disposeAll _ _ _ _)

lemma Aged.stop (p : FDPool) : Aged p p.stop := by
  unfold FDPool.stop
  split
  · exact .refl p
  · exact .of_entries nofun rfl rfl rfl fun _ => rfl

lemma Aged.apply {op : PoolOp} (hq : p.apply op=some q) :
    Aged p q ∨ (∃ k now,op=.get k now ∧ q=p.get k now) ∨ ∃ t now,op=.finish t now ∧ p.finish t now=some q := by
  cases op with
  | get k now =>
    cases hq
    exact .inr (.inl ⟨k,now,rfl,rfl⟩)
  | openReturns t ok =>
    refine .inl ?_
    simp only [FDPool.apply,FDPool.openReturns] at hq
    split at hq
    · split_ifs at hq <;> cases hq <;> exact .of_eq rfl rfl rfl rfl rfl
    · cases hq
  | finish t now => exact .inr (.inr ⟨t,now,rfl,hq⟩)
  | release k =>
    cases hq
    exact .inl (.release p k)
  | invalidatePath path includeWrite =>
    cases hq
    exact .inl (.invalidatePath p path includeWrite)
  | invalidateTree root includeWrite =>
    cases hq
    exact .inl (.invalidateTree p root includeWrite)
  | flushStale =>
    cases hq
    exact .inl (.flushStale p)
  | evict now =>
    cases hq
    exact .inl ((Aged.disposeAll (FDPool.idle now) false p p.entries.keys).trans (.of_eq rfl rfl rfl rfl rfl))
  | stop =>
    cases hq
    exact .inl (.stop p)
  | close fd =>
    simp only [FDPool.apply,FDPool.close] at hq
    split_ifs at hq
    cases hq
    exact .inl (.of_eq rfl rfl rfl rfl rfl)

/-- Since the moment `i` the slot serves only what was opened after it. -/
structure Fresh (i : ℕ) (k : FdKey) (p : FDPool) : Prop where
  entry : ∀ e,p.entries.get? k=some e → e.stale=false → i<e.fd
  opens : ∀ t r,p.openInFlight.get? t=some r → r.key=k → r.poisoned=false → i<t
  handed : ∀ h∈p.handouts,h.key=k → i<h.began → i<h.fd
  clock : i<p.clock

lemma Fresh.aged (h : Fresh i k p) (ha : Aged p q) : Fresh i k q := by
  refine ⟨fun e he hs => ?_,fun t r hr hk hp => ?_,ha.handouts ▸ h.handed,ha.clock ▸ h.clock⟩
  · obtain ⟨e',he',hs',hfd⟩ := ha.entry k e he hs
    exact hfd ▸ h.entry e' he' hs'
  · obtain ⟨r',hr',hk',hp'⟩ := ha.opens t r hr hp
    exact h.opens t r' hr' (hk'.trans hk) hp'

lemma Fresh.serve (h : Fresh i k p) (he : p.entries.get? x=some e) (hs : e.stale≠true) (began : ℕ) (now : ℤ) :
    Fresh i k (p.serve x e began now) := by
  have haged : Aged p {p with entries := p.entries.set x {e with lastUsed := now, refCount := e.refCount+1}} :=
    .set he rfl id
  have hfresh := h.aged haged
  refine ⟨hfresh.entry,hfresh.opens,fun y hy hkey hbegan => ?_,h.clock⟩
  obtain rfl | hy := mem_cons.mp hy
  · exact h.entry e (hkey ▸ he) (Bool.eq_false_iff.mpr hs)
  · exact h.handed y hy hkey hbegan

lemma Fresh.beginOpen (h : Fresh i k p) (x : FdKey) : Fresh i k (p.beginOpenLocked x) := by
  refine ⟨h.entry,fun t r hr hkey hp => ?_,h.handed,h.clock⟩
  obtain ⟨rfl,-⟩ | ⟨-,hr⟩ := of_get?_set hr
  · exact h.clock
  · exact h.opens t r hr hkey hp

lemma Fresh.insert {poisoned : Bool} (h : Fresh i k p) (hp : x=k → poisoned=false → i<t) (now : ℤ) :
    Fresh i k (p.insert x t now poisoned) := by
  refine ⟨fun e he hs => ?_,h.opens,fun y hy hkey hbegan => ?_,h.clock⟩
  · obtain ⟨hx,rfl⟩ | ⟨-,he⟩ := of_get?_set he
    · exact hp hx.symm hs
    · exact h.entry e he hs
  · obtain rfl | hy := mem_cons.mp hy
    · exact hbegan
    · exact h.handed y hy hkey hbegan

lemma Fresh.get (h : Fresh i k p) (x : FdKey) (now : ℤ) : Fresh i k (p.get x now) := by
  unfold FDPool.get
  split
  · exact h
  split
  · rename_i e he
    split
    · exact (h.aged (.displace p x e now)).beginOpen x
    · rename_i hs
      exact h.serve he hs p.clock now
  · exact h.beginOpen x

lemma Fresh.settle {poisoned : Bool} (h : Fresh i k p) (hp : x=k → poisoned=false → i<t) (now : ℤ) :
    Fresh i k (p.settle x t now poisoned) := by
  unfold FDPool.settle
  split
  · exact h.aged (.of_eq rfl rfl rfl rfl rfl)
  split
  · rename_i e he
    split
    · exact (h.aged (.displace p x e now)).insert hp now
    · rename_i hs
      exact (h.serve he hs t now).aged (.of_eq rfl rfl rfl rfl rfl)
  · exact h.insert hp now

/-- The open that comes back is one of those in flight, and was poisoned if it is too old. -/
lemma Fresh.finish {now : ℤ} (hsound : Sound p) (h : Fresh i k p) (hq : p.finish t now=some q) : Fresh i k q := by
  unfold FDPool.finish at hq
  split at hq
  case h_2 => cases hq
  rename_i x ok hx
  obtain ⟨-,r,hr,hkey⟩ := hsound.registered t _ hx
  simp only [Option.some.injEq] at hq
  subst hq
  have hretired := h.aged (.endOpen p t)
  split
  · refine hretired.settle (fun hxk hp => ?_) now
    rw [hr,any_some] at hp
    exact h.opens t r hr (hkey.trans hxk) hp
  · exact hretired

lemma Fresh.tick (h : Fresh i k p) : Fresh i k p.tick :=
  ⟨h.entry,h.opens,h.handed,h.clock.trans (Nat.lt_succ_self _)⟩

lemma Fresh.step {op : PoolOp} (hsound : Sound p) (h : Fresh i k p) (hq : p.step op=some q) : Fresh i k q := by
  obtain ⟨r,hr,rfl⟩ := map_eq_some_iff.mp hq
  obtain haged | ⟨x,now,-,rfl⟩ | ⟨t,now,-,hfinish⟩ := Aged.apply hr
  · exact (h.aged haged).tick
  · exact (h.get x now).tick
  · exact (h.finish hsound hfinish).tick

lemma Fresh.run {ops : List PoolOp} (hsound : Sound p) (h : Fresh i k p) (hrun : run FDPool.step p ops=some q) :
    Fresh i k q :=
  (run_invariant (I := fun p => Sound p ∧ Fresh i k p) (fun _ _ _ h hq => ⟨h.1.step hq,h.2.step h.1 hq⟩) ⟨hsound,h⟩ hrun).2

end Freshness

section Serving
variable {p q s : FDPool} {k : FdKey} {op : PoolOp} {ks : List FdKey}

/-- The slots an invalidation is about: those of its path or of the tree at its root, all of them or the ones
for reading. -/
def covers : PoolOp → FdKey → Bool
  | .invalidatePath path includeWrite,k => k.path=path && (includeWrite || !k.write)
  | .invalidateTree root includeWrite,k => FDPool.inScope root includeWrite k
  | .flushStale,_ => true
  | _,_ => false

def unrooted : PoolOp → Bool
  | .invalidateTree root _ => root=[] || root = ['/']
  | _ => false

/-- InvalidateReads and InvalidateReadsTree. -/
def readsOnly : PoolOp → Bool
  | .invalidatePath _ includeWrite => !includeWrite
  | .invalidateTree _ includeWrite => !includeWrite
  | _ => false

lemma get_clock (p : FDPool) (k : FdKey) (now : ℤ) : (p.get k now).clock=p.clock := by
  unfold FDPool.get
  split
  · rfl
  split
  · rename_i e he
    split
    · exact (displaceStaleLocked_frame p k e now).2.2.2.2.2
    · rfl
  · rfl

lemma settle_clock (p : FDPool) (k : FdKey) (t : ℕ) (now : ℤ) (poisoned : Bool) :
    (p.settle k t now poisoned).clock=p.clock := by
  unfold FDPool.settle
  split
  · rfl
  split
  · rename_i e he
    split
    · exact (displaceStaleLocked_frame p k e now).2.2.2.2.2
    · rfl
  · rfl

lemma finish_clock {t : ℕ} {now : ℤ} (hq : p.finish t now=some q) : q.clock=p.clock := by
  unfold FDPool.finish at hq
  split at hq
  · cases hq
    split
    · exact settle_clock _ _ _ _ _
    · rfl
  · cases hq

lemma step_clock (hq : p.step op=some q) : q.clock=p.clock+1 := by
  obtain ⟨r,hr,rfl⟩ := map_eq_some_iff.mp hq
  obtain haged | ⟨x,now,-,rfl⟩ | ⟨t,now,-,hfinish⟩ := Aged.apply hr
  · exact congrArg (·+1) haged.clock
  · exact congrArg (·+1) (get_clock p x now)
  · exact congrArg (·+1) (finish_clock hfinish)

lemma run_clock {ops : List PoolOp} (hrun : run FDPool.step p ops=some q) : q.clock=p.clock+ops.length := by
  induction ops generalizing p with
  | nil =>
    cases hrun
    rfl
  | cons op ops ih =>
    obtain ⟨m,hm,hrest⟩ := run_cons_eq_some.mp hrun
    rw [ih hrest,step_clock hm,length_cons]
    omega

lemma stale_of_disposeAll (hk : k∈ks) {underLock : Bool} {e : PoolEntry}
    (he : (ks.foldl (FDPool.dispose FDPool.invalidateEntryLocked underLock) p).entries.get? k=some e) : e.stale=true := by
  by_contra hstale
  rw [Bool.not_eq_true] at hstale
  induction ks generalizing p with
  | nil => exact absurd hk not_mem_nil
  | cons x ks ih =>
    obtain rfl | hk := mem_cons.mp hk
    · obtain ⟨y,hy,hfresh,-⟩ := (Aged.disposeAll FDPool.invalidateEntryLocked underLock _ ks).entry k e he hstale
      unfold FDPool.dispose at hy
      split at hy
      · rename_i hnone
        rw [hnone] at hy
        cases hy
      rename_i z hz
      unfold FDPool.invalidateEntryLocked at hy
      split_ifs at hy with hheld hmarked
      · simp only at hy
        cases underLock <;> simp [FDPool.shut] at hy
      · simp only at hy
        rw [hz] at hy
        cases hy
        simp [hmarked] at hfresh
      · simp only [get?_set_self,Option.some.injEq] at hy
        subst hy
        simp at hfresh
    · exact ih hk he

lemma Fresh.cleared (h : Sound p) (haged : Aged p q) (hentry : ∀ e,q.entries.get? k=some e → e.stale=true)
    (hopens : ∀ t r,q.openInFlight.get? t=some r → r.key=k → r.poisoned=true) : Fresh p.clock k q.tick := by
  refine ⟨fun e he hs => ?_,fun t r hr hkey hp => ?_,fun x hx _ hbegan => ?_,?_⟩
  · rw [hentry e he] at hs
    cases hs
  · rw [hopens t r hr hkey] at hp
    cases hp
  · exact absurd (h.handed x (haged.handouts ▸ hx)).1 (not_lt.mpr hbegan.le)
  · exact haged.clock ▸ Nat.lt_succ_self q.clock

lemma poisoned_of_covered {covered : FdKey → Bool} (hk : covered k=true) {t : ℕ} {r : OpenRec}
    (hr : (p.poisonOpensLocked covered).openInFlight.get? t=some r) (hkey : r.key=k) : r.poisoned=true := by
  rw [get?_poisonOpensLocked] at hr
  obtain ⟨y,-,rfl⟩ := map_eq_some_iff.mp hr
  subst hkey
  exact Bool.or_eq_true_iff.mpr (.inr hk)

lemma stale_of_sweep (hk : k∈p.entries.keys → k∈ks) {underLock : Bool} {e : PoolEntry}
    (he : (ks.foldl (FDPool.dispose FDPool.invalidateEntryLocked underLock) p).entries.get? k=some e) : e.stale=true := by
  by_contra hstale
  obtain ⟨e',he',-⟩ := (Aged.disposeAll FDPool.invalidateEntryLocked underLock p ks).entry k e he (Bool.eq_false_iff.mpr hstale)
  exact hstale (stale_of_disposeAll (hk (mem_keys_of_get? he')) he)

lemma Fresh.covered (h : Sound p) (hq : p.step op=some q) (hk : covers op k=true) (hroot : unrooted op=false)
    (hpath : k.path≠[]) : Fresh p.clock k q := by
  cases op with
  | invalidatePath path includeWrite =>
    cases hq
    refine Fresh.cleared h (.invalidatePath p path includeWrite) ?_ ?_
    all_goals
      simp only [covers,Bool.and_eq_true,decide_eq_true_eq] at hk
      obtain ⟨rfl,hslot⟩ := hk
      simp only [FDPool.invalidatePath,if_neg hpath]
    · refine fun e he => stale_of_disposeAll ?_ he
      obtain ⟨path,write⟩ := k
      cases includeWrite <;> cases write <;> simp_all [FDPool.slots]
    · exact fun t r => poisoned_of_covered (by simpa using hslot)
  | invalidateTree root includeWrite =>
    cases hq
    refine Fresh.cleared h (.invalidateTree p root includeWrite) ?_ ?_
    all_goals
      simp only [unrooted] at hroot
      simp only [FDPool.invalidateTree,hroot,Bool.false_eq_true,if_false]
    · exact fun e he => stale_of_sweep (fun hmem => mem_filter.mpr ⟨hmem,hk⟩) he
    · exact fun t r => poisoned_of_covered hk
  | flushStale =>
    cases hq
    refine Fresh.cleared h (.flushStale p) (fun e he => stale_of_sweep id he) fun t r hr hkey => ?_
    by_contra hp
    obtain ⟨r',hr',hkey',hp'⟩ := (Aged.disposeAll _ _ _ _).opens t r hr (Bool.eq_false_iff.mpr hp)
    rw [poisoned_of_covered rfl hr' (hkey'.trans hkey)] at hp'
    cases hp'
  | _ => cases hk

/-- No write slot is closed, marked or poisoned: its entry and its opens in flight are as they were, and
what is taken out to be closed was opened for reading. -/
structure SparesWrites (p q : FDPool) : Prop where
  entries : ∀ k,k.write=true → q.entries.get? k = p.entries.get? k
  opens : ∀ t r,r.key.write=true → (q.openInFlight.get? t=some r ↔ p.openInFlight.get? t=some r)
  orphans : q.orphans=p.orphans
  opened : q.openedFor=p.openedFor
  live : q.live=p.live
  closing : ∀ fd∈q.closing,fd∈p.closing ∨ ∃ k,p.openedFor.get? fd=some k ∧ k.write=false

lemma SparesWrites.refl (p : FDPool) : SparesWrites p p :=
  ⟨fun _ _ => rfl,fun _ _ _ => Iff.rfl,rfl,rfl,rfl,fun _ h => .inl h⟩

lemma SparesWrites.trans (h : SparesWrites p q) (h' : SparesWrites q s) : SparesWrites p s := by
  refine ⟨fun k hk => (h'.entries k hk).trans (h.entries k hk),fun t r hr => (h'.opens t r hr).trans (h.opens t r hr),
    h'.orphans.trans h.orphans,h'.opened.trans h.opened,h'.live.trans h.live,fun fd hfd => ?_⟩
  obtain hfd | hread := h'.closing fd hfd
  · exact h.closing fd hfd
  · exact .inr (h.opened ▸ hread)

lemma SparesWrites.dispose (h : Sound p) (disposition : PoolEntry → FDPool.Disposition) (hk : k.write=false) :
    SparesWrites p (p.dispose disposition false k) := by
  have hne : ∀ x : FdKey,x.write=true → x≠k := by
    rintro x hx rfl
    rw [hk] at hx
    cases hx
  unfold FDPool.dispose
  split
  · exact .refl p
  rename_i e he
  split
  · exact .refl p
  · exact ⟨fun x hx => get?_set_ne (hne x hx) _,fun _ _ _ => Iff.rfl,rfl,rfl,rfl,fun _ h => .inl h⟩
  · refine ⟨fun x hx => get?_erase_ne (hne x hx),fun _ _ _ => Iff.rfl,rfl,rfl,rfl,fun fd hfd => ?_⟩
    obtain rfl | hfd := mem_cons.mp hfd
    · exact .inr ⟨k,(h.entry k e he).1,hk⟩
    · exact .inl hfd

lemma SparesWrites.disposeAll (h : Sound p) (disposition : PoolEntry → FDPool.Disposition)
    (hks : ∀ k∈ks,k.write=false) : SparesWrites p (ks.foldl (FDPool.dispose disposition false) p) := by
  induction ks generalizing p with
  | nil => exact .refl p
  | cons k ks ih =>
    exact (SparesWrites.dispose h disposition (hks k mem_cons_self)).trans
      (ih (h.dispose disposition false k) fun x hx => hks x (mem_cons_of_mem k hx))

lemma SparesWrites.poison {covered : FdKey → Bool} (hcovered : ∀ k,k.write=true → covered k=false) :
    SparesWrites p (p.poisonOpensLocked covered) := by
  refine ⟨fun _ _ => rfl,fun t r hr => ?_,rfl,rfl,rfl,fun _ h => .inl h⟩
  have hsame : ∀ x : OpenRec,x.key.write=true → x.poison covered=x := fun x hx => by
    simp [OpenRec.poison,hcovered _ hx]
  rw [get?_poisonOpensLocked]
  constructor
  · intro hx
    obtain ⟨y,hy,rfl⟩ := map_eq_some_iff.mp hx
    rw [hy,hsame y hr]
  · intro hx
    rw [hx,map_some,hsame r hr]

lemma SparesWrites.of_readsOnly (h : Sound p) (hop : readsOnly op=true) (hq : p.apply op=some q) : SparesWrites p q := by
  cases op with
  | invalidatePath path includeWrite =>
    obtain rfl : includeWrite=false := by simpa [readsOnly] using hop
    cases hq
    unfold FDPool.invalidatePath
    split
    · exact .refl p
    · refine (SparesWrites.disposeAll h _ fun k hk => ?_).trans (.poison fun k hk => by simp [hk])
      rw [mem_singleton.mp hk]
  | invalidateTree root includeWrite =>
    obtain rfl : includeWrite=false := by simpa [readsOnly] using hop
    cases hq
    unfold FDPool.invalidateTree
    split
    · exact .refl p
    · refine (SparesWrites.disposeAll h _ fun k hk => ?_).trans (.poison fun k hk => by simp [FDPool.inScope,hk])
      have hscope := (mem_filter.mp hk).2
      simp only [FDPool.inScope,Bool.false_or,Bool.and_eq_true,Bool.not_eq_true'] at hscope
      exact hscope.1
  | _ => cases hop

lemma stopped_step (hstop : p.stopped=true) (hq : p.step op=some q) : q.stopped=true ∧ q.handouts=p.handouts := by
  obtain ⟨r,hr,rfl⟩ := map_eq_some_iff.mp hq
  obtain haged | ⟨x,now,-,rfl⟩ | ⟨t,now,-,hfinish⟩ := Aged.apply hr
  · exact ⟨haged.stopped hstop,haged.handouts⟩
  · have hget : p.get x now=p := by simp [FDPool.get,hstop]
    rw [hget]
    exact ⟨hstop,rfl⟩
  · unfold FDPool.finish at hfinish
    split at hfinish
    case h_2 => cases hfinish
    rename_i x ok hx
    cases hfinish
    cases ok with
    | true =>
      have hsettle : (p.endOpenLocked t).settle x t now ((p.openInFlight.get? t).any (·.poisoned)) =
          (p.endOpenLocked t).shut false t := if_pos hstop
      simp only [if_true,hsettle]
      exact ⟨hstop,rfl⟩
    | false => exact ⟨hstop,rfl⟩

lemma stopped_run {ops : List PoolOp} (hstop : p.stopped=true) (hrun : run FDPool.step p ops=some q) :
    q.stopped=true ∧ q.handouts=p.handouts :=
  run_invariant (I := fun q => q.stopped=true ∧ q.handouts=p.handouts)
    (fun _ _ _ h hq => ⟨(stopped_step h.1 hq).1,(stopped_step h.1 hq).2.trans h.2⟩) ⟨hstop,rfl⟩ hrun

/-- In every run: after an invalidation, other than of the tree of the root directory, a Get that begins later
gets a descriptor whose open began later, if the call covered its slot; an invalidation of read slots spares
the write slots; and after Stop nothing is given out, and what is still open will be closed by a call that is
still running. -/
theorem pool_serves_current_files {before after : List PoolOp} (hp : run FDPool.step {} before = some p)
    (hq : p.step op = some q) (hs : run FDPool.step q after = some s) : (∀ k,covers op k = true → unrooted op = false →
      ∀ h ∈ s.handouts,h.key = k → before.length < h.began → before.length < h.fd) ∧
    (readsOnly op = true → SparesWrites p q) ∧ (op = .stop → s.handouts = p.handouts ∧ s.entries = [] ∧ s.orphans = [] ∧
      ∀ fd ∈ s.live,fd ∈ s.closing ∨ ∃ k,s.getters.get? fd = some ⟨k,some true⟩) := by
  have hsound := Sound.run hp
  have hclock : p.clock=before.length := by simpa using run_clock hp
  have hlater := run_invariant (fun _ _ _ h => Sound.step h) (hsound.step hq) hs
  refine ⟨fun k hk hroot h hh hkey hbegan => ?_,fun hop => ?_,fun hop => ?_⟩
  · have hpath : k.path≠[] := hkey ▸ (hlater.handed h hh).2
    have hfresh := (Fresh.covered hsound hq hk hroot hpath).run (hsound.step hq) hs
    rw [← hclock] at hbegan ⊢
    exact hfresh.handed h hh hkey hbegan
  · obtain ⟨r,hr,rfl⟩ := map_eq_some_iff.mp hq
    have := SparesWrites.of_readsOnly hsound hop hr
    exact ⟨this.entries,this.opens,this.orphans,this.opened,this.live,this.closing⟩
  · subst hop
    cases hq
    have hstopped : p.stop.tick.stopped=true := by
      change p.stop.stopped=true
      unfold FDPool.stop
      split
      · assumption
      · rfl
    obtain ⟨hstop,hhandouts⟩ := stopped_run hstopped hs
    obtain ⟨hentries,horphans⟩ := hlater.detached hstop
    refine ⟨hhandouts.trans (Aged.stop p).handouts,hentries,horphans,fun fd hlive => ?_⟩
    cases hlater.custody fd hlive with
    | entry k e he hfd =>
      rw [hentries] at he
      cases he
    | orphan o ho hfd =>
      rw [horphans] at ho
      cases ho
    | closing hc => exact .inl hc
    | getter k hk => exact .inr ⟨k,hk⟩

/-- A file is read, moved away and read again under its name: the second Get opens it again. -/
theorem pool_serves_replaced_file : ∃ p q s,
    run FDPool.step {} [.get ⟨['/','a'],false⟩ 0,.openReturns 0 true,.finish 0 1] = some p ∧
    p.step (.invalidatePath ['/','a'] true) = some q ∧
    run FDPool.step q [.get ⟨['/','a'],false⟩ 2,.openReturns 4 true,.finish 4 3] = some s ∧
    s.handouts = [⟨⟨['/','a'],false⟩,4,4⟩,⟨⟨['/','a'],false⟩,0,0⟩] ∧
    ∀ h ∈ s.handouts,h.key = ⟨['/','a'],false⟩ → 3 < h.began → 3 < h.fd := by
  refine ⟨_,_,_,rfl,rfl,rfl,rfl,?_⟩
  exact (pool_serves_current_files
    (show run FDPool.step {} [.get ⟨['/','a'],false⟩ 0,.openReturns 0 true,.finish 0 1] = some _ from rfl)
    (show FDPool.step _ (.invalidatePath ['/','a'] true) = some _ from rfl)
    (show run FDPool.step _ [.get ⟨['/','a'],false⟩ 2,.openReturns 4 true,.finish 4 3] = some _ from rfl)).1 _ (by decide) rfl

/-- The tree of the root directory is left alone: a file in it is served from the descriptor of before. -/
theorem root_tree_not_invalidated : ∃ p q s,
    run FDPool.step {} [.get ⟨['/','a'],false⟩ 0,.openReturns 0 true,.finish 0 1] = some p ∧
    p.step (.invalidateTree ['/'] true) = some q ∧ covers (.invalidateTree ['/'] true) ⟨['/','a'],false⟩ = true ∧
    run FDPool.step q [.get ⟨['/','a'],false⟩ 2] = some s ∧
    ∃ h ∈ s.handouts,h.key = ⟨['/','a'],false⟩ ∧ 3 < h.began ∧ h.fd = 0 := by
  refine ⟨_,_,_,rfl,rfl,by decide,rfl,⟨⟨['/','a'],false⟩,4,0⟩,?_,rfl,by decide,rfl⟩
  exact mem_cons_self

end Serving

/-- No descriptor leaks and none serves two slots: in every state each open descriptor has somebody who will
close it, and the entry that hands it out is the one it was opened for. -/
theorem descriptors_in_custody (r : Reached FDPool.step {}) : (∀ fd ∈ r.state.live,Custodian r.state fd) ∧
    ∀ k e k' e',r.state.entries.get? k = some e → r.state.entries.get? k' = some e' → e.fd = e'.fd →
      k = k' ∧ r.state.openedFor.get? e.fd = some k := by
  have h := Sound.run r.run
  refine ⟨h.custody,fun k e k' e' he he' hfd => ?_⟩
  have hk := (h.entry k e he).1
  have hk' := (h.entry k' e' he').1
  rw [← hfd,hk] at hk'
  exact ⟨Option.some.inj hk',hk⟩

end JuiceMount.Nfs.Fd
