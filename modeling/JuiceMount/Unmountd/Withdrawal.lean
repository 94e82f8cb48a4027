import JuiceMount.Unmountd.Authority

/-! A withdrawn retirement. A withdrawal lives in the flag of a job, in a map and in a file; a request that
overtakes it takes it back. It stands as long as no Cancel overlaps a request on its way to a job. -/
namespace JuiceMount.Unmountd
open Transition Service List JuiceMount.Lists Thread

/-! ### Calls on their way -/

/-- On the way to a job: a Retire before it waits, or a timer that has seen no withdrawal in memory. -/
def Place.requests : Place → Bool
  | .clear | .clearMark | .readMark | .deciding false | .lookup | .joining _ | .awaitGone _ | .reading | .starting _ => true
  | _ => false

def Thread.requests (t : Thread) : Bool := t.kind≠.cancel && t.place.requests

def Withdrawing (k : JobKey) (s : Service) : Prop := ∃ t∈s.threads, t.key=k ∧ t.cancels=true

def Requesting (k : JobKey) (s : Service) : Prop := ∃ t∈s.threads, t.key=k ∧ t.requests=true

instance (k : JobKey) (s : Service) : Decidable (Withdrawing k s) :=
  inferInstanceAs (Decidable (∃ t∈s.threads, t.key=k ∧ t.cancels=true))

instance (k : JobKey) (s : Service) : Decidable (Requesting k s) :=
  inferInstanceAs (Decidable (∃ t∈s.threads, t.key=k ∧ t.requests=true))

/-- No Cancel of the op overlaps a request of it on its way to a job, and no request of it takes a step while
a job of the op has returned its result and is not ended yet. -/
def Apart (k : JobKey) (s : Service) : Act → Bool
  | .register r _ => r.key≠k || !decide (Withdrawing k s)
  | .retire k' _ => k'≠k || !decide (Withdrawing k s)
  | .cancel k' => k'≠k || !decide (Requesting k s)
  | .call n _ =>
    (s.threads[n]?).all fun t =>
      t.key≠k || t.kind=.cancel ||
        ((t.place≠.readMem || !decide (Withdrawing k s)) && s.jobs.all fun j => j.key≠k || !j.stopped)
  | _ => true

variable {k : JobKey} {s s' : Service} {t : Thread} {o : Op} {l : List Job} {cfg : Config} {a : Act}

lemma apart_call {n : ℕ} {io : Bool} (h : Apart k s (.call n io)=true)
    (ht : s.threads[n]? = some t) (hkey : t.key=k) (hkind : t.kind≠.cancel) :
    (t.place=.readMem → ¬Withdrawing k s) ∧ ∀ j∈s.jobs, j.key=k → j.stopped=false := by
  simp only [Apart,ht,Option.all_some,hkey,hkind,ne_eq,not_true,decide_false,Bool.false_or,Bool.and_eq_true,Bool.or_eq_true,
    decide_eq_true_eq,Bool.not_eq_true',decide_eq_false_iff_not,List.all_eq_true] at h
  exact ⟨fun hp => h.1.resolve_left (not_not_intro hp),fun j hj hk => (h.2 j hj).resolve_left (not_not_intro hk)⟩

def unmounts (k : JobKey) (s : Service) : ℕ := (s.calls.map KCall.key).count k

lemma Thread.cancels_of_open (hk : t.kind=.cancel) (hp : ∀ a, t.place≠.answered a) : t.cancels=true := by
  unfold cancels
  split
  · exact absurd ‹_› (hp _)
  · simpa using hk

lemma CallMove.cancels {t t' : Thread} (h : CallMove s t o l t') (hc : t'.cancels=true) : t.cancels=true := by
  have hkind : t.kind=.cancel := by
    rw [← h.kind]
    simp only [Thread.cancels,Bool.and_eq_true,decide_eq_true_eq] at hc
    exact hc.1
  have hopen : ∀ {p : Place}, t.place=p → (∀ a, p≠.answered a) → t.cancels=true :=
    fun hp hne => t.cancels_of_open hkind (hp ▸ hne)
  cases h with
  | cancelGoes _ hp _ => exact hopen rfl hp
  | cancel _ hp _ | withdraw _ hp | mark _ hp | withdrawn _ hp => exact hopen hp nofun
  | goes hk _ | clear hk _ | clearMark _ hk _ | park hk _ | restart hk _ | join hk _ _ _ _ | start hk _ _ _ =>
    exact absurd hkind hk

lemma Withdrawing.of_call {n : ℕ} {t t' : Thread}
    (ht : s.threads[n]? = some t) (hm : CallMove s t o l t') (h : Withdrawing k (s.after n t' o l)) : Withdrawing k s := by
  obtain ⟨u,hu,hkey,hc⟩ := h
  rcases mem_or_eq_of_mem_set hu with hu | rfl
  · exact ⟨u,hu,hkey,hc⟩
  · exact ⟨t,mem_of_getElem? ht,hm.key ▸ hkey,hm.cancels hc⟩

/-! ### The jobs of an op -/

def Place.job? : Place → Option ℕ
  | .joining i | .awaitGone i | .waiting i | .cancelling i | .awaitEnd i => some i
  | _ => none

/-- The map of jobs names the one job of an op that is not gone, and calls are at jobs of their op. -/
structure Indexed (s : Service) : Prop where
  running : ∀ k i, (s.ops k).running=some i → ∃ j, s.jobs[i]? = some j ∧ j.key=k
  listed : ∀ (i : ℕ) (j : Job), s.jobs[i]? = some j → j.isGone=false → (s.ops j.key).running=some i
  placed : ∀ t∈s.threads, ∀ i, t.place.job? = some i → ∃ j, s.jobs[i]? = some j ∧ j.key=t.key

def Grows (l l' : List Job) : Prop := ∀ (i : ℕ) (j : Job), l[i]? = some j → ∃ j', l'[i]? = some j' ∧ j'.key=j.key

lemma Grows.set {i : ℕ} {j j' : Job} (hj : l[i]? = some j) (hkey : j'.key=j.key) : Grows l (l.set i j') := by
  intro n x hx
  by_cases hin : i=n
  · subst n
    cases hj.symm.trans hx
    exact ⟨j',getElem?_set_self (List.getElem?_eq_some_iff.mp hj).1,hkey⟩
  · exact ⟨x,(getElem?_set_ne hin).trans hx,rfl⟩

lemma Grows.append (l m : List Job) : Grows l (l++m) := fun _ x hx =>
  ⟨x,(getElem?_append_left (List.getElem?_eq_some_iff.mp hx).1).trans hx,rfl⟩

lemma Grows.of_key {l l' : List Job} (h : Grows l l') {i : ℕ} (hj : ∃ j, l[i]? = some j ∧ j.key=k) :
    ∃ j, l'[i]? = some j ∧ j.key=k := by
  obtain ⟨j,hj,rfl⟩ := hj
  exact h i j hj

lemma JobsMove.grows (h : JobsMove cfg s l) : Grows s.jobs l := by
  cases h with
  | same => exact fun _ j hj => ⟨j,hj,rfl⟩
  | move hj hmove => exact .set hj (Job.Stepped.of_move hmove).key
  | join hj req | cancel hj => exact .set hj rfl
  | start k r req => exact .append _ _

namespace Indexed

lemma of_frame (h : Indexed s) (hrun : ∀ k, (s'.ops k).running=(s.ops k).running) (hjobs : s'.jobs=s.jobs)
    (hthreads : ∀ u∈s'.threads, u.place.job? = none ∨ ∃ v∈s.threads, v.key=u.key ∧ v.place=u.place) : Indexed s' := by
  refine ⟨fun k i hi => ?_,fun i j hj hgone => ?_,fun u hu i hi => ?_⟩
  · rw [hrun] at hi
    rw [hjobs]
    exact h.running k i hi
  · rw [hrun]
    exact h.listed i j (hjobs ▸ hj) hgone
  · rw [hjobs]
    rcases hthreads u hu with hnone | ⟨v,hv,hkey,hplace⟩
    · rw [hnone] at hi
      cases hi
    · rw [← hkey]
      exact h.placed v hv i (hplace ▸ hi)

variable {i : ℕ} {t' : Thread}

/-- Without a job in the map every job of the op is gone. -/
theorem gone (h : Indexed s) {k : JobKey} {j : Job} (hj : s.jobs[i]? = some j) (hkey : j.key=k)
    (hrun : (s.ops k).running≠some i) : j.isGone=true := by
  by_contra hgone
  exact hrun (hkey ▸ h.listed i j hj (by simpa using hgone))

theorem place (h : Indexed s) (ht : t∈s.threads) (hm : CallMove s t o l t')
    (hgrow : Grows s.jobs l) (hi : t'.place.job? = some i) : ∃ j, l[i]? = some j ∧ j.key=t.key := by
  have hsame : t.place.job? = some i → ∃ j, l[i]? = some j ∧ j.key=t.key := fun hp => hgrow.of_key (h.placed t ht i hp)
  cases hm with
  | goes _ hg =>
    cases hg with
    | toJoin _ hrun =>
      cases hi
      exact h.running _ _ hrun
    | ended hp => exact hsame (by rw [hp]; exact hi)
    | _ => cases hi
  | cancelGoes _ _ hg =>
    cases hg with
    | toJob _ hrun =>
      cases hi
      exact h.running _ _ hrun
    | toEnd hp _ _ => exact hsame (by rw [hp]; exact hi)
    | _ => cases hi
  | join _ hp _ _ hto =>
    rcases hto with rfl | rfl
    · exact hsame (by rw [hp]; exact hi)
    · cases hi
  | start _ _ _ hto =>
    rcases hto with rfl | rfl
    · cases hi
      exact ⟨_,getElem?_concat_length,rfl⟩
    · cases hi
  | _ => cases hi

theorem running_of_move (hm : CallMove s t o l t') : (o.running=(s.ops t.key).running ∧
      ∀ (i : ℕ) (j' : Job), l[i]? = some j' → ∃ j, s.jobs[i]? = some j ∧ j'.key=j.key ∧ j'.isGone=j.isGone) ∨
    ((s.ops t.key).running=none ∧ o.running=some s.jobs.length ∧ ∃ j, l=s.jobs++[j] ∧ j.key=t.key) := by
  have hset : ∀ {i : ℕ} {x y : Job}, s.jobs[i]? = some x → y.key=x.key → y.isGone=x.isGone →
      ∀ (n : ℕ) (j' : Job), (s.jobs.set i y)[n]? = some j' → ∃ j, s.jobs[n]? = some j ∧ j'.key=j.key ∧ j'.isGone=j.isGone := by
    intro i x y hx hkey hgone n j' hj'
    rcases getElem?_set_some hj' with ⟨rfl,rfl⟩ | ⟨-,hj'⟩
    · exact ⟨x,hx,hkey,hgone⟩
    · exact ⟨j',hj',rfl,rfl⟩
  cases hm with
  | join _ _ hj _ _ | cancel _ _ hj => exact .inl ⟨rfl,hset hj rfl rfl⟩
  | start _ _ hrun _ => exact .inr ⟨hrun,rfl,_,rfl,rfl⟩
  | _ => exact .inl ⟨rfl,fun _ j' hj' => ⟨j',hj',rfl,rfl⟩⟩

lemma call (h : Indexed s) {n : ℕ} (ht : s.threads[n]? = some t)
    (hm : CallMove s t o l t') (hgrow : Grows s.jobs l) : Indexed (s.after n t' o l) := by
  have hself : (s.after n t' o l).ops t.key=o := by simp [Service.after,hm.key]
  have hne : ∀ k, k≠t.key → (s.after n t' o l).ops k=s.ops k := fun k hk => Function.update_of_ne (hm.key.symm ▸ hk) _ _
  refine ⟨fun k i hi => ?_,fun i j hj hgone => ?_,fun u hu i hi => ?_⟩
  · by_cases hk : k=t.key
    · subst k
      rw [hself] at hi
      rcases running_of_move hm with ⟨hrun,-⟩ | ⟨-,hrun,j,rfl,hkey⟩
      · exact hgrow.of_key (h.running _ i (hrun ▸ hi))
      · cases hrun.symm.trans hi
        exact ⟨j,getElem?_concat_length,hkey⟩
    · rw [hne k hk] at hi
      exact hgrow.of_key (h.running k i hi)
  · rcases running_of_move hm with ⟨hrun,hjobs⟩ | ⟨hnone,hrun,x,rfl,hkey⟩
    · obtain ⟨x,hx,hkey,hsame⟩ := hjobs i j hj
      have hlisted := h.listed i x hx (hsame ▸ hgone)
      rw [hkey]
      by_cases hk : x.key=t.key
      · rw [hk,hself,hrun,← hk]
        exact hlisted
      · rw [hne _ hk]
        exact hlisted
    · rcases getElem?_concat_some hj with hj | ⟨rfl,rfl⟩
      · have hlisted := h.listed i j hj hgone
        by_cases hk : j.key=t.key
        · rw [hk,hnone] at hlisted
          cases hlisted
        · rw [hne _ hk]
          exact hlisted
      · rw [hkey,hself]
        exact hrun
  · rcases mem_or_eq_of_mem_set hu with hu | rfl
    · exact hgrow.of_key (h.placed u hu i hi)
    · rw [hm.key]
      exact h.place (mem_of_getElem? ht) hm hgrow hi

lemma ended_of_gone {j : Job} (h : j.isGone=true) : j.ended=true := by
  unfold Job.isGone at h
  unfold Job.ended
  split at h <;> simp_all

theorem not_gone {inflight : Option ℕ} {j j' : Job} {e : Effect} (h : Job.Stepped inflight j j' e) : j.isGone=false := by
  cases hgone : j.isGone with
  | false => rfl
  | true =>
    obtain ⟨st,he⟩ := h.ended (ended_of_gone hgone)
    rw [Job.isGone,(h.remove st he).1] at hgone
    cases hgone

lemma job (h : Indexed s) {j j' : Job} {e : Effect} (hj : s.jobs[i]? = some j)
    (hm : j.Move cfg (s.inflight j.receipt.fsid) s.calls.length j' e) : Indexed ((s.effect j e).setJob i j') := by
  have hstep := Job.Stepped.of_move hm
  have hgrow : Grows s.jobs (s.jobs.set i j') := .set hj hstep.key
  have hjobs : ((s.effect j e).setJob i j').jobs=s.jobs.set i j' := by cases e <;> rfl
  have hlisted := h.listed i j hj (not_gone hstep)
  have hrun : ∀ k, ((s.effect j e).ops k).running=(s.ops k).running ∨
      (k=j.key ∧ ((s.effect j e).ops k).running=none ∧ ∃ st, e=.remove st) := by
    intro k
    cases e with
    | none => exact .inl rfl
    | issue force => exact .inl rfl
    | delete deleted =>
      by_cases hk : k=j.key
      · simp [effect,upd,hk,Op.delete]
      · simp [effect,upd,Function.update_of_ne hk]
    | remove st =>
      by_cases hk : k=j.key
      · refine .inr ⟨hk,?_,st,rfl⟩
        subst hk
        simp only [effect,upd,Function.update_self,Op.remove]
        split <;> rfl
      · simp [effect,upd,Function.update_of_ne hk]
  refine ⟨fun k n hn => ?_,fun n x hx hgone => ?_,fun t ht n hn => ?_⟩
  · rcases hrun k with hsame | ⟨-,hnone,-⟩
    · exact hjobs ▸ hgrow.of_key (h.running k n (hsame ▸ hn))
    · cases hnone.symm.trans hn
  · rw [hjobs] at hx
    change ((s.effect j e).ops x.key).running=some n
    rcases getElem?_set_some hx with ⟨rfl,rfl⟩ | ⟨hni,hx⟩
    · rw [hstep.key]
      rcases hrun j.key with hsame | ⟨-,-,st,he⟩
      · exact hsame.trans hlisted
      · rw [Job.isGone,(hstep.remove st he).2] at hgone
        cases hgone
    · have hxl := h.listed n x hx hgone
      rcases hrun x.key with hsame | ⟨hk,-,-⟩
      · exact hsame.trans hxl
      · rw [hk,hlisted] at hxl
        exact absurd (Option.some.inj hxl).symm hni
  · exact hjobs ▸ hgrow.of_key (h.placed t (s.effect_threads j e ▸ ht) n hn)

lemma step (h : Indexed s) {a : Act} (hs : s.step cfg a=some s') : Indexed s' := by
  have hupd : ∀ (k : JobKey) (f : Op → Op), (∀ o, (f o).running=o.running) → ∀ k', ((s.upd k f).ops k').running =
      (s.ops k').running := fun k _ hf => s.upd_rel (R := fun o o' => o'.running=o.running) (fun _ => rfl) hf k
  have hold : ∀ u∈s.threads, u.place.job? = none ∨ ∃ v∈s.threads, v.key=u.key ∧ v.place=u.place :=
    fun u hu => .inr ⟨u,hu,rfl,rfl⟩
  have hspawn : ∀ {t : Thread}, t.place.job? = none → ∀ u∈s.threads++[t], u.place.job? = none ∨
      ∃ v∈s.threads, v.key=u.key ∧ v.place=u.place := fun hnone =>
    forall_mem_append.mpr ⟨hold,forall_mem_singleton.mpr (.inl hnone)⟩
  cases a with
  | register r snap =>
    cases register_some hs
    exact h.of_frame (hupd _ _ fun _ => rfl) rfl hold
  | retire k req =>
    cases hs
    exact h.of_frame (hupd k (fun o => {o with quiet := false}) fun _ => rfl) rfl (hspawn rfl)
  | cancel k =>
    cases hs
    refine h.of_frame (fun _ => rfl) rfl (forall_mem_append.mpr
      ⟨forall_mem_map.mpr fun v hv => .inr ⟨v,hv,?_⟩,forall_mem_singleton.mpr (.inl rfl)⟩)
    split <;> exact ⟨rfl,rfl⟩
  | disconnected k liveness =>
    cases disconnected_some hs
    exact h.of_frame (hupd k (fun o => {o with orphan := some s.threads.length}) fun _ => rfl) rfl (hspawn rfl)
  | reclaim k =>
    cases hs
    exact h.of_frame (hupd _ _ fun o => by split <;> rfl) rfl hold
  | sweep k snap deleted =>
    cases sweep_some hs
    exact h.of_frame (hupd _ _ fun _ => rfl) rfl hold
  | call n io =>
    have hquick : Quick cfg s s' := callStep_quick hs
    obtain ⟨t,ht,o,l,t',hm,rfl⟩ := callStep_moves hs
    exact h.call ht hm hquick.jobs.grows
  | job i b =>
    obtain ⟨j,j',e,hj,hm,rfl⟩ := jobStep_some hs
    exact h.job hj hm
  | kernel c e =>
    have hk := kernel_some hs
    exact h.of_frame (fun k => by rw [hk.ops]) hk.jobs (hk.threads ▸ hold)
  | settle c =>
    have hk := settle_some hs
    exact h.of_frame (fun k => by rw [hk.ops]) hk.jobs (hk.threads ▸ hold)
  | restart =>
    cases hs
    exact ⟨nofun,fun _ _ hj => by simp at hj,forall_mem_nil _⟩

end Indexed

/-! ### What becomes of a Retire -/

def Kept (req old : RetireRequest) : Prop :=
  (req.ejectNow=true → old.ejectNow=true) ∧ (req.liveness.provenGone=true → old.liveness.provenGone=true)

lemma Kept.refl (req : RetireRequest) : Kept req req := ⟨id,id⟩

lemma Kept.joined (req old : RetireRequest) : Kept req (old.join req) :=
  ⟨fun h => by simp [RetireRequest.join,h],fun h => by simp [RetireRequest.join,h]⟩

lemma Kept.join {req old : RetireRequest} (h : Kept req old) (new : RetireRequest) : Kept req (old.join new) := by
  refine ⟨fun he => by simp [RetireRequest.join,h.1 he],fun hl => ?_⟩
  simp only [RetireRequest.join]
  split
  · rename_i hg
    simpa [h.2 hl] using hg
  · exact h.2 hl

/-- As it stands the job does not end CANCELLED. -/
structure Job.Serves (j : Job) : Prop where
  wanted : j.cancelled=false
  ending : j.pc ≠ .ending .cancelled
  gone : j.pc ≠ .gone .cancelled

lemma Job.Serves.joined {j : Job} (h : j.ended=false) (req : RetireRequest) : (j.join req).Serves := by
  refine ⟨rfl,fun (hpc : j.pc=_) => ?_,fun (hpc : j.pc=_) => ?_⟩ <;> simp [Job.ended,hpc] at h

/-- What a call is owed: it is served by a job that has its request, and if no Cancel came after it the job
does not end CANCELLED. -/
structure Served (s : Service) (t : Thread) : Prop where
  alone : t.last=true → ¬Withdrawing t.key s
  kept : ∀ (i : ℕ) (j : Job), t.place = .waiting i → s.jobs[i]? = some j → Kept t.request j.req
  serves : t.last=true → ∀ (i : ℕ) (j : Job), t.place = .waiting i → s.jobs[i]? = some j → j.Serves
  answer : t.last=true → t.place ≠ .answered (.ok .cancelled)

namespace Served
variable {u : Thread}

theorem idle (halone : t.last=true → ¬Withdrawing t.key s) (hp : ∀ i, t.place≠.waiting i)
    (ha : t.last=true → t.place≠.answered (.ok .cancelled)) : Served s t :=
  ⟨halone,fun i _ h => absurd h (hp i),fun _ i _ h => absurd h (hp i),ha⟩

/-- A step of others: no new Cancel, and the job it waits for goes on serving it. -/
theorem other (h : Served s u) (hw : u.last=true → Withdrawing u.key s' → Withdrawing u.key s)
    (hjobs : ∀ (i : ℕ) (j' : Job), u.place=.waiting i → s'.jobs[i]? = some j' →
      ∃ j, s.jobs[i]? = some j ∧ (Kept u.request j.req → Kept u.request j'.req) ∧ (u.last=true → j.Serves → j'.Serves)) :
    Served s' u := by
  refine ⟨fun hl hw' => h.alone hl (hw hl hw'),fun i j' hp hj' => ?_,fun hl i j' hp hj' => ?_,h.answer⟩
  · obtain ⟨j,hj,hkept,-⟩ := hjobs i j' hp hj'
    exact hkept (h.kept i j hp hj)
  · obtain ⟨j,hj,-,hserves⟩ := hjobs i j' hp hj'
    exact hserves hl (h.serves hl i j hp hj)

theorem set (h : Served s u) {i : ℕ} {x y : Job} (hw : u.last=true → Withdrawing u.key s' → Withdrawing u.key s)
    (hx : s.jobs[i]? = some x) (hjobs : s'.jobs=s.jobs.set i y) (hkept : Kept u.request x.req → Kept u.request y.req)
    (hserves : u.place=.waiting i → u.last=true → x.Serves → y.Serves) : Served s' u := by
  refine h.other hw fun n j' hp hj' => ?_
  rw [hjobs] at hj'
  rcases getElem?_set_some hj' with ⟨rfl,rfl⟩ | ⟨-,hj'⟩
  · exact ⟨x,hx,hkept,hserves hp⟩
  · exact ⟨j',hj',id,fun _ => id⟩

theorem call (hi : Indexed s) (h : Served s u) (hu : u∈s.threads) {n : ℕ} {t' : Thread}
    (ht : s.threads[n]? = some t) (hm : CallMove s t o l t') : Served (s.after n t' o l) u := by
  have hw : u.last=true → Withdrawing u.key (s.after n t' o l) → Withdrawing u.key s := fun _ => .of_call ht hm
  cases hm with
  | join _ _ hj _ _ => exact h.set hw hj rfl (fun hk => hk.join _) fun _ _ hs => ⟨rfl,hs.ending,hs.gone⟩
  | start _ _ _ _ =>
    refine h.other hw fun i j' hp hj' => ?_
    rcases getElem?_concat_some hj' with hj' | ⟨hlen,-⟩
    · exact ⟨j',hj',id,fun _ => id⟩
    · obtain ⟨j,hj,-⟩ := hi.placed u hu i (by rw [hp]; rfl)
      exact absurd (List.getElem?_eq_some_iff.mp hj).1 (by omega)
  | @cancel i j hk hp hj =>
    refine h.set hw hj rfl id fun hwait hl _ => ?_
    -- a Cancel is at this job, so it is a Cancel of the waiting call's op
    obtain ⟨x,hx,hxt⟩ := hi.placed t (mem_of_getElem? ht) i (by rw [hp]; rfl)
    obtain ⟨y,hy,hyu⟩ := hi.placed u hu i (by rw [hwait]; rfl)
    cases hx.symm.trans hy
    refine absurd ⟨t,mem_of_getElem? ht,hxt.symm.trans hyu,?_⟩ (h.alone hl)
    simp [cancels,hk,hp]
  | _ => exact h.other hw fun _ j' _ hj' => ⟨j',hj',id,fun _ => id⟩

theorem self (h : Served s t) {n : ℕ} {t' : Thread} (ht : s.threads[n]? = some t)
    (hm : CallMove s t o l t') : Served (s.after n t' o l) t' := by
  have halone : t'.last=true → ¬Withdrawing t'.key (s.after n t' o l) := fun hl hw =>
    h.alone (hm.last ▸ hl) (hm.key ▸ hw.of_call ht hm)
  have hopen : t.kind=.cancel → (∀ a, t.place≠.answered a) → t.last=false := by
    intro hk hp
    by_contra hl
    exact h.alone (by simpa using hl) ⟨t,mem_of_getElem? ht,rfl,t.cancels_of_open hk hp⟩
  cases hm with
  | goes _ hg =>
    cases hg with
    | served hp hj hpc =>
      refine .idle halone nofun fun hl heq => ?_
      cases heq
      exact (h.serves hl _ _ hp hj).gone hpc
    | _ => exact .idle halone nofun nofun
  | cancelGoes hk hp hg =>
    refine .idle halone ?_ fun hl => absurd ((hopen hk hp).symm.trans hl) nofun
    cases hg <;> exact nofun
  | join _ _ hj hended hto =>
    have hi := (List.getElem?_eq_some_iff.mp hj).1
    rcases hto with rfl | rfl
    · refine ⟨halone,fun i j hp hj' => ?_,fun _ i j hp hj' => ?_,nofun⟩
      · cases hp
        cases (getElem?_set_self hi).symm.trans hj'
        exact .joined _ _
      · cases hp
        cases (getElem?_set_self hi).symm.trans hj'
        exact .joined hended _
    · exact .idle halone nofun nofun
  | start _ _ _ hto =>
    rcases hto with rfl | rfl
    · refine ⟨halone,fun i j hp hj' => ?_,fun _ i j hp hj' => ?_,nofun⟩
      · cases hp
        cases getElem?_concat_length.symm.trans hj'
        exact .refl _
      · cases hp
        cases getElem?_concat_length.symm.trans hj'
        exact ⟨rfl,nofun,nofun⟩
    · exact .idle halone nofun nofun
  | withdrawn hk hp =>
    exact .idle halone nofun fun hl => absurd ((hopen hk (by rw [hp]; exact nofun)).symm.trans hl) nofun
  | _ => exact .idle halone nofun nofun

lemma job (h : Served s u) {i : ℕ} {j j' : Job} {e : Effect} (hj : s.jobs[i]? = some j)
    (hm : j.Move cfg (s.inflight j.receipt.fsid) s.calls.length j' e) : Served ((s.effect j e).setJob i j') u := by
  have hstep := Job.Stepped.of_move hm
  have hthreads : ((s.effect j e).setJob i j').threads=s.threads := by cases e <;> rfl
  refine h.set (fun _ hw => ?_) hj (by cases e <;> rfl) (fun hk => hstep.req ▸ hk) fun _ _ hs => ⟨?_,fun hpc => ?_,fun hpc => ?_⟩
  · rwa [Withdrawing,hthreads] at hw
  · rw [hstep.cancelled]
    exact hs.wanted
  · have hcancelled := (hstep.ending _ hpc).2 rfl
    rw [hs.wanted] at hcancelled
    cases hcancelled
  · exact hs.ending (hstep.remove _ (hstep.gone _ hpc)).1

end Served

theorem withdrawing_of_spawn (ht : t.cancels=false) (hthreads : s'.threads=s.threads++[t])
    (h : Withdrawing k s') : Withdrawing k s := by
  obtain ⟨u,hu,hkey,hc⟩ := h
  rw [hthreads] at hu
  rcases mem_append.mp hu with hu | hu
  · exact ⟨u,hu,hkey,hc⟩
  · cases mem_singleton.mp hu
    cases ht.symm.trans hc

lemma served_step (hi : Indexed s) (h : ∀ t∈s.threads, Served s t)
    (hs : s.step cfg a=some s') : ∀ t∈s'.threads, Served s' t := by
  -- the steps of the environment that leave jobs and calls alone
  have hsame : ∀ {r : Service}, r.jobs=s.jobs → r.threads=s.threads → ∀ u∈r.threads, Served r u := by
    intro r hjobs hthreads u hu
    rw [hthreads] at hu
    refine (h u hu).other (fun _ hw => ?_) fun i j' _ hj' => ⟨j',hjobs ▸ hj',id,fun _ => id⟩
    rwa [Withdrawing,hthreads] at hw
  have hspawn : ∀ {r : Service} {t : Thread}, t.cancels=false → r.jobs=s.jobs ∧ r.threads=s.threads++[t] →
      ∀ u∈s.threads, Served r u := fun ht hr u hu =>
    (h u hu).other (fun _ => withdrawing_of_spawn ht hr.2) fun i j' _ hj' => ⟨j',hr.1 ▸ hj',id,fun _ => id⟩
  cases a with
  | register r snap =>
    cases register_some hs
    exact hsame rfl rfl
  | retire k req =>
    cases hs
    refine forall_mem_append.mpr ⟨hspawn rfl ⟨rfl,rfl⟩,forall_mem_singleton.mpr
      (.idle (fun hl hw => ?_) nofun nofun)⟩
    obtain ⟨t,ht,hkey,hc⟩ := withdrawing_of_spawn rfl rfl hw
    have hany : (s.threads.any fun t => t.key=k && t.cancels)=true := List.any_eq_true.mpr ⟨t,ht,by simp [hkey,hc]⟩
    simp [hany] at hl
  | cancel k =>
    cases hs
    refine forall_mem_append.mpr ⟨forall_mem_map.mpr fun v hv => ?_,forall_mem_singleton.mpr
      (.idle nofun nofun nofun)⟩
    split
    · exact ⟨nofun,(h v hv).kept,fun hl => (by cases hl),fun hl => (by cases hl)⟩
    rename_i hk
    refine (h v hv).other (fun _ => ?_) fun i j' _ hj' => ⟨j',hj',id,fun _ => id⟩
    rintro ⟨t,ht,hkey,hc⟩
    rcases mem_append.mp ht with ht | ht
    · obtain ⟨w,hw,rfl⟩ := mem_map.mp ht
      refine ⟨w,hw,?_⟩
      split at hkey <;> split at hc <;> exact ⟨hkey,hc⟩
    · cases mem_singleton.mp ht
      exact absurd hkey.symm hk
  | disconnected k liveness =>
    cases disconnected_some hs
    exact forall_mem_append.mpr ⟨hspawn rfl ⟨rfl,rfl⟩,forall_mem_singleton.mpr (.idle nofun nofun nofun)⟩
  | reclaim k =>
    cases hs
    exact hsame rfl rfl
  | sweep k snap deleted =>
    cases sweep_some hs
    exact hsame rfl rfl
  | call n io =>
    obtain ⟨t,ht,o,l,t',hm,rfl⟩ := callStep_moves hs
    intro u hu
    rcases mem_or_eq_of_mem_set hu with hu | rfl
    · exact (h u hu).call hi hu ht hm
    · exact (h t (mem_of_getElem? ht)).self ht hm
  | job i b =>
    obtain ⟨j,j',e,hj,hm,rfl⟩ := jobStep_some hs
    exact fun u hu => (h u (s.effect_threads j e ▸ hu)).job hj hm
  | kernel c e => exact hsame (kernel_some hs).jobs (kernel_some hs).threads
  | settle c => exact hsame (settle_some hs).jobs (settle_some hs).threads
  | restart =>
    cases hs
    exact forall_mem_nil _

/-! ### What a withdrawal leaves -/

def Op.Spent (o : Op) : Prop := o.mark=true ∨ o.receipt=none

def Stopped (k : JobKey) (l : List Job) : Prop :=
  ∀ (i : ℕ) (j : Job), l[i]? = some j → j.key=k → j.cancelled=true ∨ j.ended=true

def Only (k : JobKey) (l : List Job) (n : ℕ) : Prop :=
  ∀ (i : ℕ) (j : Job), l[i]? = some j → j.key=k → i≠n → j.ended=true

/-- A request on its way is there while the op is withdrawn only if it will find nothing to start. -/
def Asks (o : Op) : Place → Prop
  | .deciding _ | .lookup | .reading => o.quiet=true → o.receipt=none ∧ o.running=none
  | .readMark => o.quiet=true → o.running=none ∧ o.Spent
  | _ => o.quiet=false

def Holds (k : JobKey) (o : Op) (l : List Job) : Place → Prop
  | .status => o.running=none
  | .cancelling i => Only k l i
  | .awaitEnd _ | .withdraw _ => Stopped k l
  | .marking _ => Stopped k l ∧ o.withdrawn=true
  | .settling _ marked => Stopped k l ∧ o.withdrawn=true ∧ (marked=true → o.Spent)
  | _ => True

structure Calm (k : JobKey) (s : Service) : Prop where
  apart : Withdrawing k s → ¬Requesting k s
  asks : ∀ t∈s.threads, t.key=k → t.requests=true → Asks (s.ops k) t.place
  holds : ∀ t∈s.threads, t.key=k → t.cancels=true → Holds k (s.ops k) s.jobs t.place
  stopped : (s.ops k).quiet=true → Stopped k s.jobs
  quiet : (s.ops k).quiet=true → (s.ops k).withdrawn=true ∨ (s.ops k).running=none ∧ (s.ops k).Spent
  durable : (s.ops k).quiet=true → (s.ops k).durable=true → (s.ops k).Spent

/-- Nothing new is asked of the op. -/
structure Calmer (o o' : Op) : Prop where
  quiet : o'.quiet=true → o.quiet=true
  receipt : o.receipt=none → o'.receipt=none
  running : o.running=none → o'.running=none
  withdrawn : o.withdrawn=true → o'.withdrawn=true
  spent : o.Spent → o'.Spent
  durable : o'.durable=true → o.durable=true

lemma Calmer.refl (o : Op) : Calmer o o := ⟨id,id,id,id,id,id⟩

lemma Calmer.delete (o : Op) (deleted : ℕ) : Calmer o (o.delete deleted) := by
  refine ⟨id,fun h => ?_,id,id,fun h => ?_,id⟩
  · simp [Op.delete,h]
  · by_cases hd : 1≤deleted
    · exact .inr (by simp [Op.delete,hd])
    · rcases h with h | h
      · exact .inl (by simp [Op.delete,h,show ¬2≤deleted by omega])
      · exact .inr (by simp [Op.delete,h])

lemma Calmer.remove (o : Op) (st : State) : Calmer o (o.remove st) := by
  unfold Op.remove
  split <;> exact ⟨id,id,fun _ => rfl,id,id,id⟩

def Quieter (k : JobKey) (l l' : List Job) : Prop :=
  ∀ (i : ℕ) (j' : Job), l'[i]? = some j' → j'.key=k →
    ∃ j, l[i]? = some j ∧ j.key=k ∧ (j.cancelled=true → j'.cancelled=true) ∧ (j.ended=true → j'.ended=true)

namespace Quieter
variable {l' : List Job}

lemma refl (k : JobKey) (l : List Job) : Quieter k l l := fun _ j hj hk => ⟨j,hj,hk,id,id⟩

lemma set {i : ℕ} {j j' : Job} (hj : l[i]? = some j) (hkey : j'.key=j.key)
    (h : j.key=k → (j.cancelled=true → j'.cancelled=true) ∧ (j.ended=true → j'.ended=true)) : Quieter k l (l.set i j') := by
  intro n x hx hk
  rcases getElem?_set_some hx with ⟨rfl,rfl⟩ | ⟨-,hx⟩
  · have hjk := hkey ▸ hk
    exact ⟨j,hj,hjk,h hjk⟩
  · exact ⟨x,hx,hk,id,id⟩

lemma append {j : Job} (h : j.key≠k) : Quieter k l (l++[j]) := by
  intro n x hx hk
  rcases getElem?_concat_some hx with hx | ⟨-,rfl⟩
  · exact ⟨x,hx,hk,id,id⟩
  · exact absurd hk h

lemma stopped (h : Quieter k l l') (hs : Stopped k l) : Stopped k l' := by
  intro i j' hj' hk
  obtain ⟨j,hj,hkey,hcancelled,hended⟩ := h i j' hj' hk
  exact (hs i j hj hkey).imp hcancelled hended

lemma only (h : Quieter k l l') {n : ℕ} (hs : Only k l n) : Only k l' n := by
  intro i j' hj' hk hne
  obtain ⟨j,hj,hkey,-,hended⟩ := h i j' hj' hk
  exact hended (hs i j hj hkey hne)

end Quieter

lemma Asks.loud (h : o.quiet=false) (p : Place) : Asks o p := by
  cases p <;> simp [Asks,h]

lemma Asks.mono {o o' : Op} (hop : Calmer o o') {p : Place} (h : Asks o p) : Asks o' p := by
  cases hq : o'.quiet with
  | false => exact .loud hq p
  | true =>
    have hquiet := hop.quiet hq
    cases p with
    | deciding b | lookup | reading => exact fun _ => ⟨hop.receipt (h hquiet).1,hop.running (h hquiet).2⟩
    | readMark => exact fun _ => ⟨hop.running (h hquiet).1,hop.spent (h hquiet).2⟩
    | _ => cases hquiet.symm.trans h

lemma Holds.mono {o o' : Op} {l l' : List Job} (hop : Calmer o o') (hjobs : Quieter k l l') {p : Place}
    (h : Holds k o l p) : Holds k o' l' p := by
  cases p with
  | status => exact hop.running h
  | cancelling i => exact hjobs.only h
  | awaitEnd i | withdraw x => exact hjobs.stopped h
  | marking x => exact ⟨hjobs.stopped h.1,hop.withdrawn h.2⟩
  | settling x marked => exact ⟨hjobs.stopped h.1,hop.withdrawn h.2.1,fun hm => hop.spent (h.2.2 hm)⟩
  | _ => trivial

/-- The same call, as far as the op can tell. -/
structure Alike (u v : Thread) : Prop where
  key : u.key=v.key
  kind : u.kind=v.kind
  place : u.place=v.place

namespace Alike
variable {u v : Thread}

lemma refl (u : Thread) : Alike u u := ⟨rfl,rfl,rfl⟩

lemma requests (h : Alike u v) : u.requests=v.requests := by
  rw [Thread.requests,Thread.requests,h.kind,h.place]

lemma cancels (h : Alike u v) : u.cancels=v.cancels := by
  rw [Thread.cancels,Thread.cancels,h.kind,h.place]

end Alike

lemma Thread.not_both (hr : t.requests=true) (hc : t.cancels=true) : False := by
  simp only [requests,cancels,Bool.and_eq_true,decide_eq_true_eq] at hr hc
  exact hr.1 hc.1

namespace Calm

theorem loud (hq : (s.ops k).quiet=false) (h : ¬Withdrawing k s) : Calm k s where
  apart hw := absurd hw h
  asks _ _ _ _ := .loud hq _
  holds t ht hk hc := absurd ⟨t,ht,hk,hc⟩ h
  stopped hquiet := absurd (hq.symm.trans hquiet) nofun
  quiet hquiet := absurd (hq.symm.trans hquiet) nofun
  durable hquiet := absurd (hq.symm.trans hquiet) nofun

/-- A step that asks nothing new of the op; one call may be new or elsewhere. -/
theorem calmer (h : Calm k s) (hop : Calmer (s.ops k) (s'.ops k)) (hjobs : Quieter k s.jobs s'.jobs) (new : Thread)
    (hthreads : ∀ u∈s'.threads, u=new ∨ ∃ v∈s.threads, Alike u v)
    (hasks : new.key=k → new.requests=true → ¬Withdrawing k s ∧ Asks (s'.ops k) new.place)
    (hholds : new.key=k → new.cancels=true → ¬Requesting k s ∧ Holds k (s'.ops k) s'.jobs new.place) : Calm k s' := by
  refine ⟨?_,fun u hu hk hr => ?_,fun u hu hk hc => ?_,fun hq => hjobs.stopped (h.stopped (hop.quiet hq)),fun hq => ?_,
    fun hq hd => hop.spent (h.durable (hop.quiet hq) (hop.durable hd))⟩
  · rintro ⟨u,hu,huk,hc⟩ ⟨v,hv,hvk,hr⟩
    rcases hthreads u hu with rfl | ⟨u',hu',hau⟩ <;> rcases hthreads v hv with rfl | ⟨v',hv',hav⟩
    · exact not_both hr hc
    · exact (hholds huk hc).1 ⟨v',hv',hav.key ▸ hvk,hav.requests ▸ hr⟩
    · exact (hasks hvk hr).1 ⟨u',hu',hau.key ▸ huk,hau.cancels ▸ hc⟩
    · exact h.apart ⟨u',hu',hau.key ▸ huk,hau.cancels ▸ hc⟩ ⟨v',hv',hav.key ▸ hvk,hav.requests ▸ hr⟩
  · rcases hthreads u hu with rfl | ⟨v,hv,ha⟩
    · exact (hasks hk hr).2
    · rw [ha.place]
      exact (h.asks v hv (ha.key ▸ hk) (ha.requests ▸ hr)).mono hop
  · rcases hthreads u hu with rfl | ⟨v,hv,ha⟩
    · exact (hholds hk hc).2
    · rw [ha.place]
      exact (h.holds v hv (ha.key ▸ hk) (ha.cancels ▸ hc)).mono hop hjobs
  · exact (h.quiet (hop.quiet hq)).imp hop.withdrawn fun hr => ⟨hop.running hr.1,hop.spent hr.2⟩

theorem same (h : Calm k s) (hop : Calmer (s.ops k) (s'.ops k)) (hjobs : Quieter k s.jobs s'.jobs)
    (hthreads : s'.threads=s.threads) : Calm k s' :=
  h.calmer hop hjobs {key := k, kind := .cancel, place := .answered .failed} (fun u hu => .inr ⟨u,hthreads ▸ hu,.refl u⟩)
    (fun _ hr => by cases hr) (fun _ hc => by cases hc)

lemma asked (h : Calm k s) (ht : t∈s.threads) (hkey : t.key=k) (hk : t.kind≠.cancel)
    (hp : t.place.requests=true) : ¬Withdrawing k s ∧ Asks (s.ops k) t.place := by
  have hreq : t.requests=true := by simp [requests,hk,hp]
  exact ⟨fun hw => h.apart hw ⟨t,ht,hkey,hreq⟩,h.asks t ht hkey hreq⟩

/-- A request that goes on: it was one already, or it is a timer that has just seen no withdrawal. -/
theorem goes (h : Calm k s) {p : Place} (ht : t∈s.threads) (hkey : t.key=k) (hk : t.kind≠.cancel)
    (hg : Goes s t p) (hfree : t.place=.readMem → ¬Withdrawing k s) (hr : p.requests=true) :
    ¬Withdrawing k s ∧ Asks (s.ops k) p := by
  subst hkey
  have hold := h.asked ht rfl hk
  cases hg with
  | toJoin hp hrun =>
    rw [hp] at hold
    obtain ⟨hw,ha⟩ := hold rfl
    refine ⟨hw,?_⟩
    by_contra hq
    have := (ha (by simpa [Asks] using hq)).2
    rw [hrun] at this
    cases this
  | toRead hp | ended hp =>
    rw [hp] at hold
    exact hold rfl
  | again hp | raced hp =>
    rw [hp] at hold
    exact ⟨(hold rfl).1,.loud (hold rfl).2 _⟩
  | toStart hp hrec =>
    rw [hp] at hold
    obtain ⟨hw,ha⟩ := hold rfl
    refine ⟨hw,?_⟩
    by_contra hq
    have := (ha (by simpa [Asks] using hq)).1
    rw [hrec] at this
    cases this
  | toMark hp hmem =>
    refine ⟨hfree hp,fun hq => ?_⟩
    rcases h.quiet hq with hw | hw
    · cases hmem.symm.trans hw
    · exact hw
  | @sawMark b hp hb =>
    cases b with
    | true => cases hr
    | false =>
      rw [hp] at hold
      obtain ⟨hw,ha⟩ := hold rfl
      refine ⟨hw,fun hq => ?_⟩
      obtain ⟨hrun,hspent⟩ := ha hq
      rcases hspent with hmark | hrec
      · cases (hb rfl).symm.trans hmark
      · exact ⟨hrec,hrun⟩
  | _ => cases hr

theorem cancelGoes (h : Calm k s) (hi : Indexed s) {p : Place} (ht : t∈s.threads) (hkey : t.key=k)
    (hc : t.cancels=true) (hg : CancelGoes s t p) : Holds k (s.ops k) s.jobs p := by
  have hold := h.holds t ht hkey hc
  subst hkey
  cases hg with
  | toJob _ hrun =>
    intro i j hj hk hne
    exact Indexed.ended_of_gone (hi.gone hj hk (by rw [hrun]; exact fun heq => hne (Option.some.inj heq).symm))
  | toStatus _ hrun => exact hrun
  | state hp =>
    rw [hp] at hold
    exact fun i j hj hk => .inr (Indexed.ended_of_gone (hi.gone hj hk (by rw [show (s.ops t.key).running=none from hold]; exact nofun)))
  | @toEnd i j hp hj hend =>
    rw [hp] at hold
    intro n x hx hk
    by_cases hni : n=i
    · subst hni
      cases hj.symm.trans hx
      exact .inr hend
    · exact .inr (hold n x hx hk hni)
  | stateOfJob hp =>
    rw [hp] at hold
    exact hold
  | answer => trivial

section Call
variable {n : ℕ} {t' : Thread}

theorem call_other (h : Calm k s) (hi : Indexed s) (ht : s.threads[n]? = some t) (hm : CallMove s t o l t') (hne : t.key≠k) :
    Calm k (s.after n t' o l) := by
  have hops : (s.after n t' o l).ops k=s.ops k := Function.update_of_ne (hm.key.symm ▸ hne.symm) _ _
  have hjobs : Quieter k s.jobs l := by
    cases hm with
    | join _ hp hj _ _ =>
      refine .set hj rfl fun hjk => ?_
      obtain ⟨x,hx,hxt⟩ := hi.placed t (mem_of_getElem? ht) _ (by rw [hp]; rfl)
      cases hj.symm.trans hx
      exact absurd (hxt.symm.trans hjk) hne
    | start _ _ _ _ => exact .append hne
    | cancel _ _ hj => exact .set hj rfl fun _ => ⟨fun _ => rfl,id⟩
    | _ => exact .refl _ _
  have hkey : t'.key≠k := hm.key.symm ▸ hne
  refine h.calmer (hops ▸ .refl _) hjobs t' (fun u hu => ?_) (fun hk => absurd hk hkey) (fun hk => absurd hk hkey)
  rcases mem_or_eq_of_mem_set hu with hu | rfl
  · exact .inr ⟨u,hu,.refl u⟩
  · exact .inl rfl

/-- A Cancel returns: from here on the op is withdrawn. -/
theorem withdrawn (h : Calm t.key s) (ht : s.threads[n]? = some t) {x : Held} {marked : Bool} (hk : t.kind=.cancel)
    (hp : t.place=.settling x marked) (st : State) :
    Calm t.key (s.after n {t with place := .answered (.ok st)} {s.ops t.key with quiet := true, durable := marked} s.jobs) := by
  have hmem := mem_of_getElem? ht
  have hc : t.cancels=true := by simp [cancels,hk,hp]
  have hnone := h.apart ⟨t,hmem,rfl,hc⟩
  have hholds := h.holds t hmem rfl hc
  rw [hp] at hholds
  obtain ⟨hstopped,hw,hspent⟩ := hholds
  have hidle : ¬Requesting t.key (s.after n {t with place := .answered (.ok st)}
      {s.ops t.key with quiet := true, durable := marked} s.jobs) := by
    rintro ⟨u,hu,huk,hr⟩
    rcases mem_or_eq_of_mem_set hu with hu | rfl
    · exact hnone ⟨u,hu,huk,hr⟩
    · simp [requests,Place.requests] at hr
  have hops : (s.after n {t with place := .answered (.ok st)} {s.ops t.key with quiet := true, durable := marked} s.jobs).ops
      t.key = {s.ops t.key with quiet := true, durable := marked} := Function.update_self ..
  refine ⟨fun _ => hidle,fun u hu huk hr => absurd ⟨u,hu,huk,hr⟩ hidle,fun u hu huk hcu => ?_,fun _ => hstopped,fun _ => ?_,
    fun _ hd => ?_⟩
  · rw [hops]
    rcases mem_or_eq_of_mem_set hu with hu | rfl
    · have hold := h.holds u hu huk hcu
      cases hpu : u.place <;> rw [hpu] at hold <;> exact hold
    · trivial
  · rw [hops]
    exact .inl hw
  · rw [hops] at hd ⊢
    exact hspent hd

theorem call_own (h : Calm t.key s) (hi : Indexed s) (ht : s.threads[n]? = some t) (hm : CallMove s t o l t')
    (hfree : t.kind≠.cancel → t.place=.readMem → ¬Withdrawing t.key s) : Calm t.key (s.after n t' o l) := by
  have hmem := mem_of_getElem? ht
  have hops : (s.after n t' o l).ops t.key=o := by simp [Service.after,hm.key]
  have hthreads : ∀ u∈(s.after n t' o l).threads, u=t' ∨ ∃ v∈s.threads, Alike u v := by
    intro u hu
    rcases mem_or_eq_of_mem_set hu with hu | rfl
    · exact .inr ⟨u,hu,.refl u⟩
    · exact .inl rfl
  have hasks := h.asked hmem rfl
  have hloud : t.kind≠.cancel → t.place.requests=true → o.quiet=false → Calm t.key (s.after n t' o l) :=
    fun hk hp hq => loud (hops.symm ▸ hq) fun hw => (hasks hk hp).1 (hw.of_call ht hm)
  have hholds : t.cancels=true → ¬Requesting t.key s ∧ Holds t.key (s.ops t.key) s.jobs t.place := fun hc =>
    ⟨h.apart ⟨t,hmem,rfl,hc⟩,h.holds t hmem rfl hc⟩
  have hopen : ∀ {q : Place}, t.kind=.cancel → t.place=q → (∀ a, q≠.answered a) → t.cancels=true :=
    fun hk hp hq => t.cancels_of_open hk (hp ▸ hq)
  -- the cases in which nothing new is asked
  have hcalm : Calmer (s.ops t.key) o → Quieter t.key s.jobs l →
      (t'.requests=true → ¬Withdrawing t.key s ∧ Asks o t'.place) →
      (t'.cancels=true → ¬Requesting t.key s ∧ Holds t.key o l t'.place) → Calm t.key (s.after n t' o l) :=
    fun hop hjobs hr hc => h.calmer (hops.symm ▸ hop) hjobs t' hthreads (fun _ hx => hops.symm ▸ hr hx)
      fun _ hx => hops.symm ▸ hc hx
  have hreq : t'.kind=.cancel → t'.requests=true → ¬Withdrawing t.key s ∧ Asks o t'.place := fun hk hx =>
    absurd hk (by simpa using (Bool.and_eq_true_iff.mp hx).1)
  have hcan : t'.kind≠.cancel → t'.cancels=true → ¬Requesting t.key s ∧ Holds t.key o l t'.place := fun hk hx =>
    absurd (by simpa using (Bool.and_eq_true_iff.mp hx).1) hk
  cases hm with
  | goes hk hg =>
    exact hcalm (.refl _) (.refl _ _) (fun hx => h.goes hmem rfl hk hg (hfree hk) (Bool.and_eq_true_iff.mp hx).2) (hcan hk)
  | cancelGoes hk hp hg =>
    have hc := hopen hk rfl hp
    exact hcalm (.refl _) (.refl _ _) (hreq hk) fun _ => ⟨(hholds hc).1,h.cancelGoes hi hmem rfl hc hg⟩
  | clear hk hp | clearMark io hk hp | join hk hp _ _ _ | start hk hp _ _ =>
    rw [hp] at hasks hloud
    exact hloud hk rfl (hasks hk rfl).2
  | park hk hp => exact hcalm ⟨id,id,id,id,id,id⟩ (.refl _ _) (fun hx => by simp [requests,Place.requests] at hx) (hcan hk)
  | restart hk hp =>
    rw [hp] at hasks
    exact hcalm ⟨id,id,id,id,id,id⟩ (.refl _ _) (fun _ => hasks hk rfl) (hcan hk)
  | @cancel i j hk hp hj =>
    have hc := hopen hk hp (by simp)
    rw [hp] at hholds
    refine hcalm (.refl _) (.set hj rfl fun _ => ⟨fun _ => rfl,id⟩) (hreq hk) fun _ => ⟨(hholds hc).1,fun m x hx hxk => ?_⟩
    rcases getElem?_set_some hx with ⟨-,rfl⟩ | ⟨hne,hx⟩
    · exact .inl rfl
    · exact .inr ((hholds hc).2 m x hx hxk hne)
  | withdraw hk hp =>
    have hc := hopen hk hp (by simp)
    rw [hp] at hholds
    exact hcalm ⟨id,id,id,fun _ => rfl,id,id⟩ (.refl _ _) (hreq hk) fun _ => ⟨(hholds hc).1,(hholds hc).2,rfl⟩
  | mark hk hp =>
    have hc := hopen hk hp (by simp)
    rw [hp] at hholds
    refine hcalm ⟨id,id,id,id,fun hs => hs.imp (fun hm => by simp [hm]) id,id⟩ (.refl _ _) (hreq hk) fun _ => ?_
    exact ⟨(hholds hc).1,(hholds hc).2.1,(hholds hc).2.2,fun hm => .inl (by simp [hm])⟩
  | withdrawn hk hp => exact h.withdrawn ht hk hp _

end Call

lemma job (h : Calm k s) {i : ℕ} {j j' : Job} {e : Effect} (hj : s.jobs[i]? = some j)
    (hm : j.Move cfg (s.inflight j.receipt.fsid) s.calls.length j' e) : Calm k ((s.effect j e).setJob i j') := by
  have hstep := Job.Stepped.of_move hm
  refine h.same ?_ ?_ (s.effect_threads j e)
  · cases e with
    | none => exact .refl _
    | issue force => exact .refl _
    | delete deleted => exact s.upd_rel .refl (.delete · deleted) j.key k
    | remove st => exact s.upd_rel .refl (.remove · st) j.key k
  · have hjobs : ((s.effect j e).setJob i j').jobs=s.jobs.set i j' := by cases e <;> rfl
    rw [hjobs]
    refine .set hj hstep.key fun _ => ⟨fun hc => hstep.cancelled.trans hc,fun hended => ?_⟩
    obtain ⟨st,he⟩ := hstep.ended hended
    simp [Job.ended,(hstep.remove st he).2]

lemma step (h : Calm k s) (hi : Indexed s) (ha : Apart k s a=true) (hs : s.step cfg a=some s') : Calm k s' := by
  have hupd : ∀ (k' : JobKey) (f : Op → Op), (∀ o, Calmer o (f o)) → Calmer (s.ops k) ((s.upd k' f).ops k) :=
    fun k' _ hf => s.upd_rel .refl hf k' k
  have hspawn : ∀ {t : Thread}, ∀ u∈s.threads++[t], u=t ∨ ∃ v∈s.threads, Alike u v :=
    forall_mem_append.mpr ⟨fun u hu => .inr ⟨u,hu,.refl u⟩,forall_mem_singleton.mpr (.inl rfl)⟩
  cases a with
  | register r snap =>
    cases register_some hs
    by_cases hk : k=r.key
    · subst hk
      have hfree : ¬Withdrawing r.key s := by simpa [Apart] using ha
      exact loud (by rw [upd_self]) hfree
    · exact h.same (by rw [upd_ne _ hk]; exact .refl _) (.refl _ _) rfl
  | retire k' req =>
    cases hs
    by_cases hk : k=k'
    · subst hk
      have hfree : ¬Withdrawing k s := by simpa [Apart] using ha
      exact loud (congrArg Op.quiet (upd_self (s := s) k fun o => {o with quiet := false}))
        fun hw => hfree (withdrawing_of_spawn rfl rfl hw)
    · exact h.calmer (hupd k' (fun o => {o with quiet := false}) fun o => ⟨nofun,id,id,id,id,id⟩) (.refl _ _) _ hspawn
        (fun huk => absurd huk.symm hk) (fun huk => absurd huk.symm hk)
  | cancel k' =>
    cases hs
    refine h.calmer (.refl _) (.refl _ _) {key := k', kind := .cancel, place := .find} (forall_mem_append.mpr
      ⟨forall_mem_map.mpr fun v hv => .inr ⟨v,hv,?_⟩,forall_mem_singleton.mpr (.inl rfl)⟩)
      (fun _ hr => by cases hr) (fun huk _ => ?_)
    · split <;> exact ⟨rfl,rfl,rfl⟩
    · exact ⟨by simpa [Apart,show k'=k from huk] using ha,trivial⟩
  | disconnected k' liveness =>
    cases disconnected_some hs
    exact h.calmer (hupd k' (fun o => {o with orphan := some s.threads.length}) fun o => ⟨id,id,id,id,id,id⟩) (.refl _ _) _ hspawn
      (fun _ hr => by cases hr) (fun _ hc => by cases hc)
  | reclaim k' =>
    cases hs
    refine h.same (hupd k' _ fun o => ?_) (.refl _ _) rfl
    split <;> exact ⟨id,id,id,id,id,id⟩
  | sweep k' snap deleted =>
    cases sweep_some hs
    exact h.same (hupd k' _ fun o => .delete o deleted) (.refl _ _) rfl
  | call n io =>
    obtain ⟨t,ht,o,l,t',hm,rfl⟩ := callStep_moves hs
    by_cases hk : t.key=k
    · subst hk
      exact h.call_own hi ht hm fun hkind => (apart_call ha ht rfl hkind).1
    · exact h.call_other hi ht hm hk
  | job i b =>
    obtain ⟨j,j',e,hj,hm,rfl⟩ := jobStep_some hs
    exact h.job hj hm
  | kernel c e =>
    have hk := kernel_some hs
    exact h.same (hk.ops ▸ .refl _) (hk.jobs ▸ .refl _ _) hk.threads
  | settle c =>
    have hk := settle_some hs
    exact h.same (hk.ops ▸ .refl _) (hk.jobs ▸ .refl _ _) hk.threads
  | restart =>
    cases hs
    refine ⟨fun ⟨_,ht,_⟩ => absurd ht not_mem_nil,forall_mem_nil _,
      forall_mem_nil _,fun _ _ _ hj => by simp at hj,fun hq => .inr ⟨rfl,?_⟩,fun hq _ => ?_⟩ <;>
    · obtain ⟨hq,hd⟩ := Bool.and_eq_true_iff.mp hq
      exact h.durable hq hd

end Calm

theorem fresh_step (hi : Indexed s)
    (h : ∀ t∈s.threads, t.key=k → t.stale=false) (ha : Apart k s a=true) (hs : s.step cfg a=some s') :
    ∀ t∈s'.threads, t.key=k → t.stale=false := by
  have hspawn : ∀ {t : Thread}, t.stale=false → ∀ u∈s.threads++[t], u.key=k → u.stale=false := fun ht =>
    forall_mem_append.mpr ⟨h,forall_mem_singleton.mpr fun _ => ht⟩
  cases a with
  | register r snap =>
    cases register_some hs
    exact h
  | retire k' req =>
    cases hs
    exact hspawn rfl
  | cancel k' =>
    cases hs
    refine forall_mem_append.mpr ⟨forall_mem_map.mpr fun v hv hk => ?_,forall_mem_singleton.mpr fun _ => rfl⟩
    split at hk <;> split <;> exact h v hv hk
  | disconnected k' liveness =>
    cases disconnected_some hs
    exact hspawn rfl
  | reclaim k' =>
    cases hs
    exact h
  | sweep k' snap deleted =>
    cases sweep_some hs
    exact h
  | call n io =>
    obtain ⟨t,ht,o,l,t',hm,rfl⟩ := callStep_moves hs
    intro u hu hk
    rcases mem_or_eq_of_mem_set hu with hu | rfl
    · exact h u hu hk
    have hmem := mem_of_getElem? ht
    have hkey : t.key=k := hm.key ▸ hk
    have hold := h t hmem hkey
    cases hm with
    | join hkind hp hj _ _ =>
      obtain ⟨x,hx,hxt⟩ := hi.placed t hmem _ (by rw [hp]; rfl)
      cases hj.symm.trans hx
      have hstopped := (apart_call ha ht hkey hkind).2 _ (mem_of_getElem? hj) (hxt.trans hkey)
      simp [hold,hstopped]
    | _ => exact hold
  | job i b =>
    obtain ⟨j,j',e,-,-,rfl⟩ := jobStep_some hs
    exact s.effect_threads j e ▸ h
  | kernel c e => exact (kernel_some hs).threads ▸ h
  | settle c => exact (settle_some hs).threads ▸ h
  | restart =>
    cases hs
    exact forall_mem_nil _

theorem unmounts_step (h : Stopped k s.jobs) (hs : s.step cfg a=some s') : unmounts k s'≤unmounts k s := by
  have hkernel : Kernel s s' → unmounts k s'≤unmounts k s := by
    intro hk
    obtain ⟨c,x,x',hx,hkey,-,-,hcalls⟩ := hk.calls
    have hget : (s.calls.map KCall.key)[c]? = some x.key := by simp [hx]
    obtain ⟨hlt,hget⟩ := List.getElem?_eq_some_iff.mp hget
    rw [unmounts,unmounts,hcalls,map_set,hkey,← hget,set_getElem_self]
  cases a with
  | job i b =>
    obtain ⟨j,j',e,hj,hm,rfl⟩ := jobStep_some hs
    cases e with
    | issue force =>
      obtain ⟨-,hcancelled,hended,-⟩ := (Job.Stepped.of_move hm).issue force rfl
      have hne : j.key≠k := fun hk => by simpa [hcancelled,hended] using h i j hj hk
      simp [unmounts,effect,setJob,count_append,hne]
    | _ => exact le_rfl
  | kernel c e => exact hkernel (kernel_some hs)
  | settle c => exact hkernel (settle_some hs)
  | restart =>
    cases hs
    exact Nat.zero_le _
  | _ => exact le_of_eq (congrArg (fun l => (l.map KCall.key).count k) (step_quick hs (by simp) (by simp) (by simp) (by simp)).calls)

/-- A withdrawn retirement stays withdrawn, as long as no Cancel of the op overlaps a request of it on its
way and no request comes between the result of a job and its end: while the op is withdrawn no step issues
an unmount call for it, and a Retire is never answered CANCELLED unless a Cancel came after it, joins only
jobs that still converge, and finds its proof and its "eject now" in the request of the job it waits for. -/
theorem withdrawn_stays_withdrawn (cfg : Config) (k : JobKey) {acts : List Act} {s : Service}
    (hrun : run (Service.step cfg) {} acts = some s)
    (hapart : AllSteps (Service.step cfg) (fun s a => Apart k s a = true) {} acts) :
    ((s.ops k).quiet = true → ∀ a s', s.step cfg a = some s' → unmounts k s' ≤ unmounts k s) ∧
    ∀ t ∈ s.threads, t.key = k → ∀ req, t.kind = .retire req →
      t.stale = false ∧ (t.last = true → t.place ≠ .answered (.ok .cancelled)) ∧
      ∀ (i : ℕ) (j : Job), t.place = .waiting i → s.jobs[i]? = some j → Kept req j.req := by
  have hinv := run_invariant_of_allSteps
    (I := fun s => Indexed s ∧ (∀ t∈s.threads, Served s t) ∧ Calm k s ∧ ∀ t∈s.threads, t.key=k → t.stale=false)
    (fun s a s' hi ha hstep => ⟨hi.1.step hstep,served_step hi.1 hi.2.1 hstep,hi.2.2.1.step hi.1 ha hstep,
      fresh_step hi.1 hi.2.2.2 ha hstep⟩)
    ⟨⟨fun _ _ hr => (by cases hr),fun _ _ hj => (by simp at hj),forall_mem_nil _⟩,forall_mem_nil _,
      .loud rfl fun ⟨_,ht,_⟩ => absurd ht not_mem_nil,forall_mem_nil _⟩ hapart hrun
  obtain ⟨-,hserved,hcalm,hfresh⟩ := hinv
  refine ⟨fun hq a s' hs => unmounts_step (hcalm.stopped hq) hs,fun t ht hk req hreq => ?_⟩
  refine ⟨hfresh t ht hk,(hserved t ht).answer,fun i j hp hj => ?_⟩
  have hkept := (hserved t ht).kept i j hp hj
  rwa [request,hreq] at hkept

/-- One job at a time retires an op, however calls, timers and restarts come together: jobs of one op that are
not gone are one job, and the job a call waits for is one of its op. -/
theorem one_job_per_op (cfg : Config) (r : Reached (Service.step cfg) {}) :
    (∀ (i i' : ℕ) (j j' : Job), r.state.jobs[i]? = some j → r.state.jobs[i']? = some j' → j.key = j'.key →
      j.isGone = false → j'.isGone = false → i = i') ∧
    ∀ t ∈ r.state.threads, ∀ i, t.place.job? = some i → ∃ j, r.state.jobs[i]? = some j ∧ j.key = t.key := by
  have h : Indexed r.state := run_invariant (fun _ _ _ h hs => h.step hs)
    ⟨fun _ _ hr => (by cases hr),fun _ _ hj => (by simp at hj),forall_mem_nil _⟩ r.run
  refine ⟨fun i i' j j' hj hj' hkey hgone hgone' => ?_,h.placed⟩
  have hrun := h.listed i j hj hgone
  rw [hkey,h.listed i' j' hj' hgone'] at hrun
  exact (Option.some.inj hrun).symm

/-! ### Runs -/

/-- A Retire starts the job; a Cancel of it returns while the job still snapshots. -/
def cancelRun : List Act :=
  [.register sampleReceipt sampleTable,.retire sampleReceipt.key {},.call 0 true,.call 0 true,.call 0 true,.call 0 true,
    .call 0 true]++samplePass++[.cancel sampleReceipt.key,.call 1 true,.call 1 true,.call 1 true,.call 1 true,.call 1 true]

theorem cancel_run_stays_withdrawn : ∃ s, run (Service.step sampleConfig) {} cancelRun = some s ∧
    (s.ops sampleReceipt.key).quiet = true ∧
    ∀ a s', s.step sampleConfig a = some s' → unmounts sampleReceipt.key s' ≤ unmounts sampleReceipt.key s := by
  have hany : (run (step sampleConfig) {} cancelRun).any (fun s => (s.ops sampleReceipt.key).quiet)=true := by
    decide +kernel
  have hcheck : checkSteps (step sampleConfig) (Apart sampleReceipt.key) {} cancelRun=true := by decide +kernel
  obtain ⟨s,hs,hquiet⟩ := (Option.any_eq_true _ _).mp hany
  exact ⟨s,hs,hquiet,(withdrawn_stays_withdrawn sampleConfig sampleReceipt.key hs (allSteps_of_check hcheck)).1 hquiet⟩

/-- A timer has seen no withdrawal when a Cancel runs from beginning to end; then the timer goes on. -/
def lateTimerRun : List Act :=
  [.register sampleReceipt sampleTable,.disconnected sampleReceipt.key .unknown,.call 0 true,.call 0 true,.call 0 true,
    .cancel sampleReceipt.key,.call 1 true,.call 1 true,.call 1 true,.call 1 true,.call 1 true,
    .call 0 true,.call 0 true,.call 0 true,.call 0 true]++samplePass

/-- A job has found another owner's mount; before it is ended a Retire asks for "eject now". -/
def lateJoinRun : List Act :=
  [.register sampleReceipt sampleTable,.retire sampleReceipt.key {},.call 0 true,.call 0 true,.call 0 true,.call 0 true,
    .call 0 true,.job 0 .top,.job 0 .check,
    .job 0 (.snapped (some { sampleTable with entries := sampleTable.entries.map fun e => { e with owner := 0 } }) 0),
    .retire sampleReceipt.key { ejectNow := true },.call 1 true,.call 1 true,.call 1 true,.call 1 true,
    .job 0 .decide,.job 0 .remove,.call 1 true]

/-- The timer's job unmounts what the Cancel withdrew, and the late Retire is answered by a pass that never
saw its request. -/
theorem late_requests_undo_withdrawal :
    (∃ s s', run (Service.step sampleConfig) {} lateTimerRun = some s ∧ (s.ops sampleReceipt.key).quiet = true ∧
      s.step sampleConfig (.job 0 .issue) = some s' ∧ unmounts sampleReceipt.key s < unmounts sampleReceipt.key s') ∧
    ∃ s, run (Service.step sampleConfig) {} lateJoinRun = some s ∧
      ∃ t ∈ s.threads, t.kind = .retire { ejectNow := true } ∧ t.last = true ∧ t.stale = true ∧
        t.place = .answered (.ok .refusedIdentity) := by
  have htimer : (run (step sampleConfig) {} lateTimerRun).any (fun s => (s.ops sampleReceipt.key).quiet &&
      (s.step sampleConfig (.job 0 .issue)).any fun s' => unmounts sampleReceipt.key s < unmounts sampleReceipt.key s')=true := by
    decide +kernel
  have hjoin : (run (step sampleConfig) {} lateJoinRun).any (fun s => decide (∃ t∈s.threads,
      t.kind = .retire { ejectNow := true } ∧ t.last=true ∧ t.stale=true ∧ t.place = .answered (.ok .refusedIdentity))) =
      true := by
    decide +kernel
  obtain ⟨s,hs,htimer⟩ := (Option.any_eq_true _ _).mp htimer
  obtain ⟨hquiet,hissue⟩ := Bool.and_eq_true_iff.mp htimer
  obtain ⟨s',hs',hlt⟩ := (Option.any_eq_true _ _).mp hissue
  obtain ⟨r,hr,hjoin⟩ := (Option.any_eq_true _ _).mp hjoin
  exact ⟨⟨s,s',hs,hquiet,hs',of_decide_eq_true hlt⟩,r,hr,of_decide_eq_true hjoin⟩

end JuiceMount.Unmountd
