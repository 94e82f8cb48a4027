import JuiceMount.Unmountd.Moves

/-! Every unmount call rests on a snapshot of its own. The log of a job shows, before each call, the
snapshot it started after its last wait and what was asked of it; the gate per fsid keeps two calls out
of the kernel at once. -/
namespace JuiceMount.Unmountd
open Transition List JuiceMount.Lists Service

/-! ### What a call rests on -/

/-- The snapshot shows the receipt's mount, and nothing else under its fsid. -/
def Ours (r : Receipt) (snap : Snapshot) : Prop :=
  snap.boot=r.boot ∧ ∃ e, (snap.entries.filter fun e => e.fsid=r.fsid) = [e] ∧ e.owner=r.uid ∧ e.type=r.type.name ∧
    e.mntOnName=r.mntOnName ∧ e.mntFromName=r.mntFromName ∧
    tokenCarried r.type r.token r.generation e.mntOnName e.mntFromName=true

def Bare (r : Receipt) (snap : Snapshot) : Prop := ∀ e∈snap.entries, ¬(r.mntOnName++['/']) <+: e.mntOnName

namespace Event

def isAsked : Event → Bool
  | .asked _ => true
  | _ => false

def snap? : Event → Option Snapshot
  | .verified snap => some snap
  | _ => none

end Event

def deeds (log : List Event) : List Event := log.filter fun e => !e.isAsked

def snaps (log : List Event) : List Snapshot := log.filterMap Event.snap?

def Asked (log : List Event) : Prop := ∃ req, .asked req∈log ∧ req.wantsForce=true

def Fresh (r : Receipt) (log : List Event) : Prop := ∃ snap rest, deeds log = .verified snap::.snapStarted::rest ∧ Ours r snap

def TwiceBare (r : Receipt) (log : List Event) : Prop := ∃ a b rest, snaps log = a::b::rest ∧ Bare r a ∧ Bare r b

/-- What precedes a call in the log of its job. -/
structure Proved (r : Receipt) (force : Bool) (log : List Event) : Prop where
  fresh : Fresh r log
  ordinary : force=false → ¬Asked log
  forced : force=true → Asked log ∧ TwiceBare r log

/-! ### The predicate -/

section Predicate
variable {cfg : Config} {r : Receipt} {caller : ℕ} {snap : Snapshot} {desc : List Entry}

lemma verify_act (h : verify cfg r caller snap=.act desc) :
    Ours r snap ∧ desc=(snap.entries.filter fun o => o.fsid≠r.fsid).filter (foldedInside cfg r) := by
  unfold verify at h
  split at h
  · cases h
  rename_i hboot
  split at h
  · cases h
  rename_i huid
  split at h
  · cases h
  · rename_i e hits
    dsimp only at h
    split_ifs at h with howner htype hstrings htoken
    cases h
    simp only [Bool.or_eq_true,decide_eq_true_eq,not_or,not_not] at hstrings
    refine ⟨⟨not_not.mp hboot,e,hits,?_,not_not.mp htype,hstrings.1,hstrings.2,by simpa using htoken⟩,rfl⟩
    exact (not_not.mp howner).trans (not_not.mp huid)
  · cases h

/-- The folded test finds every mount that lies inside. -/
theorem bare_of_verify (h : verify cfg r caller snap=.act []) : Bare r snap := by
  obtain ⟨⟨-,e,hits,-,-,honName,-⟩,hdesc⟩ := verify_act h
  intro o ho hin
  by_cases hfsid : o.fsid=r.fsid
  · -- only the mount itself has the fsid, and it does not lie inside itself
    have hoe : o∈[e] := hits ▸ mem_filter.mpr ⟨ho,decide_eq_true hfsid⟩
    rw [mem_singleton.mp hoe,honName] at hin
    have := hin.length_le
    simp at this
  · have hfolded : foldedInside cfg r o=true := by
      have hmap := hin.map cfg.toLower
      rw [map_append,map_singleton,cfg.toLower_slash] at hmap
      exact List.isPrefixOf_iff_prefix.mpr hmap
    have hmem : o∈(snap.entries.filter fun o => o.fsid≠r.fsid).filter (foldedInside cfg r) :=
      mem_filter.mpr ⟨mem_filter.mpr ⟨ho,decide_eq_true hfsid⟩,hfolded⟩
    rw [← hdesc] at hmem
    cases hmem

end Predicate

/-! ### Jobs -/

section Log
variable {e : Event} {log : List Event} {force : Bool}

@[simp] lemma snaps_asked (req : RetireRequest) : snaps (.asked req::log)=snaps log := rfl

@[simp] lemma snaps_waited : snaps (.waited::log)=snaps log := rfl

@[simp] lemma snaps_snapStarted : snaps (.snapStarted::log)=snaps log := rfl

@[simp] lemma snaps_issued : snaps (.issued force::log)=snaps log := rfl

@[simp] lemma snaps_verified (snap : Snapshot) : snaps (.verified snap::log)=snap::snaps log := rfl

@[simp] lemma asked_cons : Asked (e::log) ↔ (∃ req, e=.asked req ∧ req.wantsForce=true) ∨ Asked log := by
  simp only [Asked,mem_cons,or_and_right,exists_or,eq_comm]

end Log

namespace Job

/-- What the log says of the calls so far, and of the one the job is about to make. -/
structure Sound (j : Job) : Prop where
  asked : j.req.wantsForce=true ↔ Asked j.log
  proved : ∀ newer force older, j.log = newer++.issued force::older → Proved j.receipt force older
  snapping : j.pc=.snapping → ∃ rest, deeds j.log = .snapStarted::rest
  chosen : ∀ force nested, j.pc = .chosen force nested →
    Fresh j.receipt j.log ∧ (force=true → Asked j.log ∧ TwiceBare j.receipt j.log)
  streak : j.live=true → 0<j.cleanStreak → ∃ a rest, snaps j.log = a::rest ∧ Bare j.receipt a

namespace Sound
variable {cfg : Config} {j j' : Job}

lemma start (k : JobKey) (r : Receipt) (req : RetireRequest) : (Job.start k r req).Sound where
  asked := by simp [Job.start,Asked]
  proved newer force older h := by
    rcases newer with - | ⟨x,- | ⟨y,newer⟩⟩ <;> cases h
  snapping := nofun
  chosen := nofun
  streak _ h := absurd h (Nat.lt_irrefl 0)

theorem proved_cons (h : j.Sound) {e : Event} {newer older : List Event} {force : Bool}
    (heq : e::j.log=newer++.issued force::older) (he : e≠.issued force) : Proved j.receipt force older := by
  cases newer with
  | nil => exact absurd (List.cons.inj heq).1 he
  | cons x newer => exact h.proved newer force older (List.cons.inj heq).2

lemma idle (h : j.Sound) (hi : Idle j j') : j'.Sound := by
  have hsnaps : snaps j'.log=snaps j.log := by
    rcases hi.log with hlog | hlog <;> rw [hlog]
    rfl
  have hasked : Asked j'.log ↔ Asked j.log := by
    rcases hi.log with hlog | hlog <;> rw [hlog]
    simp
  refine ⟨?_,fun newer force older heq => ?_,fun hpc => absurd hpc hi.snapping,
    fun force nested hpc => absurd hpc (hi.chosen force nested),fun _ hpos => ?_⟩
  · rw [hi.req,hasked]
    exact h.asked
  · rw [hi.receipt]
    rcases hi.log with hlog | hlog
    · exact h.proved newer force older (hlog.symm.trans heq)
    · exact h.proved_cons (hlog.symm.trans heq) nofun
  · rw [hsnaps,hi.receipt]
    rcases hi.streak with hzero | hsame
    · omega
    · exact h.streak hi.live (hsame ▸ hpos)

/-- The pass after a snapshot that proved the mount: it waits, or has what its call rests on. -/
theorem choose (h : j.Sound) (hlive : j.live=true) {snap : Snapshot} {desc : List Entry}
    (hfresh : Fresh j.receipt (.verified snap::j.log)) (hbare : desc=[] → Bare j.receipt snap) :
    ({j with log := .verified snap::j.log}.choose desc).Sound := by
  have hasked : j.req.wantsForce=true ↔ Asked (.verified snap::j.log) := by simpa using h.asked
  have hproved : ∀ newer force older, .verified snap::j.log=newer++.issued force::older → Proved j.receipt force older :=
    fun _ _ _ heq => h.proved_cons heq nofun
  unfold Job.choose
  split
  · rename_i hforce
    split
    · exact ⟨hasked,hproved,nofun,nofun,fun _ hpos => absurd hpos (Nat.lt_irrefl 0)⟩
    rename_i hdesc
    have hclean := hbare (not_not.mp hdesc)
    split
    · exact ⟨hasked,hproved,nofun,nofun,fun _ _ => ⟨snap,_,rfl,hclean⟩⟩
    · rename_i hstreak
      dsimp only at hstreak
      obtain ⟨a,rest,hsnaps,ha⟩ := h.streak hlive (by omega)
      refine ⟨hasked,hproved,nofun,?_,fun _ hpos => absurd hpos (Nat.lt_irrefl 0)⟩
      rintro force nested ⟨⟩
      exact ⟨hfresh,fun _ => ⟨hasked.mp hforce,snap,a,rest,congrArg (snap::·) hsnaps,hclean,ha⟩⟩
  · refine ⟨hasked,hproved,nofun,?_,fun _ hpos => absurd hpos (Nat.lt_irrefl 0)⟩
    rintro force nested ⟨⟩
    exact ⟨hfresh,nofun⟩

lemma verified (h : j.Sound) (hpc : j.pc=.snapping) (snap : Option Snapshot) (deleted : ℕ) :
    (j.verified cfg snap deleted).1.Sound := by
  have hlive : j.live=true := by simp [live,hpc]
  obtain ⟨rest,hrest⟩ := h.snapping hpc
  unfold Job.verified
  split
  · exact h.idle (.wait hlive .verify)
  rename_i snap hsnap
  have hlog : ∀ st, ({j with log := .verified snap::j.log}.finish st).Sound := fun st =>
    ⟨by simpa [Job.finish] using h.asked,fun _ _ _ heq => h.proved_cons heq (by simp),by simp [Job.finish],by simp [Job.finish],
      by simp [Job.finish,live]⟩
  dsimp only
  split
  · exact hlog .void
  · exact hlog .retired
  · exact hlog .refusedIdentity
  · rename_i desc hact
    obtain ⟨hours,-⟩ := verify_act hact
    refine h.choose hlive ⟨snap,rest,?_,hours⟩ fun hdesc => bare_of_verify (hdesc ▸ hact)
    exact congrArg (Event.verified snap::·) hrest

lemma issueFor (h : j.Sound) (inflight : Option ℕ) (n : ℕ) {force nested : Bool} (hpc : j.pc=.chosen force nested) :
    (j.issueFor inflight n force nested).1.Sound := by
  have hlive : j.live=true := by simp [live,hpc]
  obtain ⟨hfresh,hforced⟩ := h.chosen force nested hpc
  unfold Job.issueFor
  split
  · exact h.idle ⟨hlive,rfl,rfl,rfl,rfl,.inl rfl,by simp,by simp,rfl,.inl rfl⟩
  rename_i hguard
  split
  · exact h.idle ⟨hlive,rfl,rfl,rfl,rfl,.inl rfl,by simp,by simp,rfl,.inr rfl⟩
  simp only [Bool.or_eq_true,Bool.and_eq_true,not_or,not_and,Bool.not_eq_true'] at hguard
  refine ⟨by simpa using h.asked,fun newer f older heq => ?_,by simp,by simp,fun _ hpos => h.streak hlive hpos⟩
  cases newer with
  | nil =>
    cases heq
    exact ⟨hfresh,fun hordinary hasked => hguard.2 hordinary (h.asked.mpr hasked),hforced⟩
  | cons x newer => exact h.proved newer f older (List.cons.inj heq).2

theorem move (h : j.Sound) {inflight : Option ℕ} {n : ℕ} {e : Effect} (hm : Move cfg inflight n j j' e) : j'.Sound := by
  cases hm with
  | idle hi _ => exact h.idle hi
  | check hlive =>
    exact ⟨by simpa using h.asked,fun _ _ _ heq => h.proved_cons heq nofun,fun _ => ⟨deeds j.log,rfl⟩,nofun,
      fun _ hpos => h.streak hlive hpos⟩
  | verified hpc snap deleted => exact h.verified hpc snap deleted
  | issueFor hpc => exact h.issueFor inflight n hpc
  | revive _ _ => exact ⟨h.asked,h.proved,nofun,nofun,fun _ hpos => absurd hpos (Nat.lt_irrefl 0)⟩
  | close _ _ | remove _ => exact ⟨h.asked,h.proved,nofun,nofun,nofun⟩

lemma join (h : j.Sound) (req : RetireRequest) : (j.join req).Sound where
  asked := by
    have hjoin : (j.req.join req).wantsForce=true ↔ req.wantsForce=true ∨ j.req.wantsForce=true := by
      rcases j.req with ⟨l,e⟩
      rcases req with ⟨l',e'⟩
      cases l <;> cases l' <;> cases e <;> cases e' <;> decide
    simp only [Job.join,asked_cons,Event.asked.injEq]
    rw [hjoin,h.asked]
    simp
  proved _ _ _ heq := h.proved_cons heq nofun
  snapping := h.snapping
  chosen force nested hpc := by
    obtain ⟨hfresh,hforced⟩ := h.chosen force nested hpc
    exact ⟨hfresh,fun hf => ⟨asked_cons.mpr (.inr (hforced hf).1),(hforced hf).2⟩⟩
  streak := h.streak

lemma cancel (h : j.Sound) : {j with cancelled := true}.Sound := ⟨h.asked,h.proved,h.snapping,h.chosen,h.streak⟩

end Sound

end Job

/-! ### The service -/

lemma JobsMove.sound {cfg : Config} {s : Service} {l : List Job} (h : JobsMove cfg s l) (hs : ∀ j∈s.jobs, j.Sound) :
    ∀ j∈l, j.Sound := by
  have hset : ∀ {i : ℕ} {j' : Job}, j'.Sound → ∀ x∈s.jobs.set i j', x.Sound := by
    intro i j' hj' x hx
    rcases mem_or_eq_of_mem_set hx with hx | rfl
    · exact hs x hx
    · exact hj'
  cases h with
  | same => exact hs
  | move hj hmove => exact hset ((hs _ (mem_of_getElem? hj)).move hmove)
  | join hj req => exact hset ((hs _ (mem_of_getElem? hj)).join req)
  | cancel hj => exact hset (hs _ (mem_of_getElem? hj)).cancel
  | start k r req =>
    exact forall_mem_append.mpr ⟨hs,forall_mem_singleton.mpr (.start k r req)⟩

/-- The gate of the kernel: a call that is not done holds its fsid. -/
structure Gate (s : Service) : Prop where
  held : ∀ (c : ℕ) (x : KCall), s.calls[c]? = some x → x.closed=false → s.inflight x.fsid=some c
  result : ∀ (c : ℕ) (x : KCall), s.calls[c]? = some x → x.result=none → x.closed=false

namespace Gate
variable {cfg : Config} {s s' : Service}

lemma of_eq (h : Gate s) (hcalls : s'.calls=s.calls) (hinflight : s'.inflight=s.inflight) : Gate s' :=
  ⟨fun c x hx => hinflight ▸ h.held c x (hcalls ▸ hx),fun c x hx => h.result c x (hcalls ▸ hx)⟩

lemma issue (h : Gate s) (j : Job) (force : Bool) (hfree : s.inflight j.receipt.fsid=none) :
    Gate (s.effect j (.issue force)) := by
  refine ⟨fun c x hx hclosed => ?_,fun c x hx hresult => ?_⟩
  · rcases getElem?_concat_some hx with hx | ⟨rfl,rfl⟩
    · have hheld := h.held c x hx hclosed
      have hne : x.fsid≠j.receipt.fsid := fun heq => by simp [heq,hfree] at hheld
      simpa [effect,Function.update_of_ne hne] using hheld
    · simp [effect]
  · rcases getElem?_concat_some hx with hx | ⟨rfl,rfl⟩
    · exact h.result c x hx hresult
    · rfl

lemma kernel (h : Gate s) {c : ℕ} {e : Errno} (hs : s.kernel c e=some s') : Gate s' := by
  obtain ⟨x,hx,hs⟩ := Option.bind_eq_some_iff.mp hs
  split_ifs at hs
  cases hs
  refine ⟨fun d y hy hclosed => ?_,fun d y hy hresult => ?_⟩
  · rcases getElem?_set_some hy with ⟨rfl,rfl⟩ | ⟨-,hy⟩
    · exact h.held d x hx hclosed
    · exact h.held d y hy hclosed
  · rcases getElem?_set_some hy with ⟨-,rfl⟩ | ⟨-,hy⟩
    · cases hresult
    · exact h.result d y hy hresult

lemma settle (h : Gate s) {c : ℕ} (hs : s.settle c=some s') : Gate s' := by
  obtain ⟨x,hx,hs⟩ := Option.bind_eq_some_iff.mp hs
  split_ifs at hs with hopen
  simp only [Bool.or_eq_true,not_or,Bool.not_eq_true] at hopen
  cases hs
  refine ⟨fun d y hy hclosed => ?_,fun d y hy hresult => ?_⟩
  · rcases getElem?_set_some hy with ⟨-,rfl⟩ | ⟨hne,hy⟩
    · cases hclosed
    have hheld := h.held d y hy hclosed
    have hfsid : y.fsid≠x.fsid := by
      intro heq
      rw [heq,h.held c x hx hopen.2] at hheld
      exact hne (Option.some.inj hheld).symm
    simpa only [Function.update_of_ne hfsid] using hheld
  · rcases getElem?_set_some hy with ⟨-,rfl⟩ | ⟨-,hy⟩
    · rw [show x.result=none from hresult] at hopen
      cases hopen.1
    · exact h.result d y hy hresult

lemma step (h : Gate s) {a : Act} (hs : s.step cfg a=some s') : Gate s' := by
  cases a with
  | job i b =>
    obtain ⟨j,j',e,-,hmove,rfl⟩ := jobStep_some hs
    cases e with
    | none | delete deleted | remove st => exact h.of_eq rfl rfl
    | issue force => exact (h.issue j force ((Job.Stepped.of_move hmove).issue force rfl).1).of_eq rfl rfl
  | kernel c e => exact h.kernel hs
  | settle c => exact h.settle hs
  | restart =>
    cases hs
    exact ⟨fun _ _ hx => by simp at hx,fun _ _ hx => by simp at hx⟩
  | _ =>
    have hquick := step_quick hs nofun nofun nofun nofun
    exact h.of_eq hquick.calls hquick.inflight

end Gate

/-- Every call is in the log of a job of its op, with its flavour. -/
def Logged (s : Service) : Prop :=
  ∀ x∈s.calls, ∃ j∈s.jobs, j.key=x.key ∧ j.receipt.fsid=x.fsid ∧ .issued x.force∈j.log

namespace Logged
variable {cfg : Config} {s s' : Service}

theorem jobs (h : Logged s) {l : List Job} (hmove : JobsMove cfg s l) :
    ∀ x∈s.calls, ∃ j∈l, j.key=x.key ∧ j.receipt.fsid=x.fsid ∧ .issued x.force∈j.log := by
  intro x hx
  obtain ⟨j,hj,hkey,hfsid,hlog⟩ := h x hx
  have hset : ∀ {i : ℕ} {old new : Job}, s.jobs[i]? = some old → new.key=old.key → new.receipt=old.receipt →
      old.log <:+ new.log →
      ∃ j∈s.jobs.set i new, j.key=x.key ∧ j.receipt.fsid=x.fsid ∧ .issued x.force∈j.log := by
    intro i old new hold hk hr hl
    obtain ⟨n,hn⟩ := mem_iff_getElem?.mp hj
    by_cases hin : i=n
    · subst n
      cases hold.symm.trans hn
      have hi := (List.getElem?_eq_some_iff.mp hold).1
      exact ⟨new,mem_iff_getElem?.mpr ⟨i,getElem?_set_self hi⟩,hk.trans hkey,(congrArg _ hr).trans hfsid,
        hl.subset hlog⟩
    · exact ⟨j,mem_iff_getElem?.mpr ⟨n,(getElem?_set_ne hin).trans hn⟩,hkey,hfsid,hlog⟩
  cases hmove with
  | same => exact ⟨j,hj,hkey,hfsid,hlog⟩
  | move hold hm =>
    have hstep := Job.Stepped.of_move hm
    exact hset hold hstep.key hstep.receipt hstep.log
  | join hold req => exact hset hold rfl rfl (suffix_cons _ _)
  | cancel hold => exact hset hold rfl rfl (suffix_refl _)
  | start k r req => exact ⟨j,mem_append_left _ hj,hkey,hfsid,hlog⟩

lemma kernel (hk : Service.Kernel s s')
    (h : ∀ x∈s.calls, ∃ j∈s'.jobs, j.key=x.key ∧ j.receipt.fsid=x.fsid ∧ .issued x.force∈j.log) : Logged s' := by
  obtain ⟨c,x,x',hx,hkey,hfsid,hforce,hcalls⟩ := hk.calls
  intro y hy
  rw [hcalls] at hy
  rcases mem_or_eq_of_mem_set hy with hy | rfl
  · exact h y hy
  · rw [hkey,hfsid,hforce]
    exact h x (mem_of_getElem? hx)

lemma step (h : Logged s) {a : Act} (hs : s.step cfg a=some s') : Logged s' := by
  by_cases hrestart : a=.restart
  · subst a
    cases hs
    exact fun _ hx => absurd hx not_mem_nil
  have hjobs := h.jobs (step_jobs hs hrestart)
  cases a with
  | job i b =>
    obtain ⟨j,j',e,hj,hmove,rfl⟩ := jobStep_some hs
    have hstep := Job.Stepped.of_move hmove
    have hi := (List.getElem?_eq_some_iff.mp hj).1
    cases e with
    | none => exact hjobs
    | delete deleted => exact hjobs
    | issue force =>
      refine forall_mem_append.mpr ⟨hjobs,forall_mem_singleton.mpr ?_⟩
      exact ⟨j',mem_iff_getElem?.mpr ⟨i,getElem?_set_self hi⟩,hstep.key,congrArg _ hstep.receipt,
        (hstep.issue force rfl).2.2.2⟩
    | remove st => exact hjobs
  | kernel c e => exact kernel (kernel_some hs) hjobs
  | settle c => exact kernel (settle_some hs) hjobs
  | restart => exact absurd rfl hrestart
  | _ =>
    intro x hx
    rw [(step_quick hs nofun nofun nofun nofun).calls] at hx
    exact hjobs x hx

end Logged

/-- The helper unmounts only what it has just proved: in every run at most one unmount call per fsid is in
the kernel, and every call is in the log of its job behind a snapshot the job started after its last wait
and that shows the receipt's mount. An ordinary call is never made once a force was asked for; a forced one
only if it was, and if the last two snapshots of the verify step showed no mount inside. -/
theorem unmounts_only_what_is_proved (cfg : Config) {acts : List Act} {s : Service}
    (hrun : run (Service.step cfg) {} acts = some s) :
    (∀ (a b : ℕ) (x y : KCall), s.calls[a]? = some x → s.calls[b]? = some y → x.result = none → y.result = none →
      x.fsid = y.fsid → a = b) ∧ Logged s ∧
    ∀ j ∈ s.jobs, ∀ newer force older, j.log = newer++.issued force::older → Proved j.receipt force older := by
  have hinv := run_invariant (I := fun s => Gate s ∧ Logged s ∧ ∀ j∈s.jobs, j.Sound) (fun s a s' hi hstep => by
    refine ⟨hi.1.step hstep,hi.2.1.step hstep,?_⟩
    by_cases hrestart : a=.restart
    · subst a
      cases hstep
      exact fun _ hx => absurd hx not_mem_nil
    · exact (step_jobs hstep hrestart).sound hi.2.2)
    ⟨⟨fun _ _ hx => by simp at hx,fun _ _ hx => by simp at hx⟩,fun _ hx => absurd hx not_mem_nil,
      fun _ hx => absurd hx not_mem_nil⟩ hrun
  obtain ⟨hgate,hlogged,hsound⟩ := hinv
  refine ⟨fun a b x y hx hy hxr hyr hfsid => ?_,hlogged,fun j hj => (hsound j hj).proved⟩
  have ha := hgate.held a x hx (hgate.result a x hx hxr)
  have hb := hgate.held b y hy (hgate.result b y hy hyr)
  rw [← hfsid,ha] at hb
  exact Option.some.inj hb

/-! ### A run -/

def sampleConfig : Config := ⟨Char.toLower,by decide,3⟩

def sampleReceipt : Receipt where
  uid := 501
  boot := ['b']
  op := ['m']
  type := .nfs
  fsid := (1,2)
  token := ['t']
  mntOnName := "/v".toList
  mntFromName := "l:/jm-t".toList
  generation := 0

def sampleTable : Snapshot := ⟨['b'],[⟨(1,2),501,"nfs".toList,"/v".toList,"l:/jm-t".toList⟩]⟩

def samplePass : List Act := [.job 0 .top,.job 0 .check,.job 0 (.snapped (some sampleTable) 0)]

def ejectRun : List Act :=
  [.register sampleReceipt sampleTable,.retire sampleReceipt.key { ejectNow := true },.call 0 true,.call 0 true,.call 0 true,
    .call 0 true,.call 0 true]++samplePass++[.job 0 .wait]++samplePass++[.job 0 .issue]

theorem eject_run_forces : ∃ s, run (Service.step sampleConfig) {} ejectRun = some s ∧ s.calls.map KCall.force = [true] ∧
    Logged s ∧ ∀ j ∈ s.jobs, ∀ newer force older, j.log = newer++.issued force::older → Proved j.receipt force older := by
  have hany : (run (step sampleConfig) {} ejectRun).any (fun s => s.calls.map KCall.force = [true])=true := by
    decide +kernel
  obtain ⟨s,hs,hforce⟩ := (Option.any_eq_true _ _).mp hany
  exact ⟨s,hs,of_decide_eq_true hforce,(unmounts_only_what_is_proved sampleConfig hs).2⟩

end JuiceMount.Unmountd
