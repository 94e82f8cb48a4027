import JuiceMount.Unmountd.Service

/-! What a step can do. A job's goroutine moves inside of convergence, makes a call or ends; a call of the
service goes from place to place, and at most changes its own op and one job. -/
namespace JuiceMount.Unmountd
open List Option

namespace Job

def live (j : Job) : Bool :=
  match j.pc with
  | .returned _ | .ending _ | .gone _ => false
  | _ => true

/-- A step inside of convergence that makes no call and takes no snapshot of the verify step. -/
structure Idle (j j' : Job) : Prop where
  live : j.live=true
  key : j'.key=j.key
  receipt : j'.receipt=j.receipt
  req : j'.req=j.req
  cancelled : j'.cancelled=j.cancelled
  log : j'.log=j.log ∨ j'.log = .waited::j.log
  snapping : j'.pc≠.snapping
  chosen : ∀ force nested, j'.pc ≠ .chosen force nested
  ended : j'.ended=false
  streak : j'.cleanStreak=0 ∨ j'.cleanStreak=j.cleanStreak

namespace Idle
variable {cfg : Config} {j : Job}

lemma wait (hlive : j.live=true) (st : State) : Idle j (j.wait st) :=
  ⟨hlive,rfl,rfl,rfl,rfl,.inl rfl,nofun,nofun,rfl,.inr rfl⟩

lemma waited (hlive : j.live=true) : Idle j j.waited := ⟨hlive,rfl,rfl,rfl,rfl,.inr rfl,nofun,nofun,rfl,.inr rfl⟩

lemma finish (hlive : j.live=true) (st : State) : Idle j (j.finish st) :=
  ⟨hlive,rfl,rfl,rfl,rfl,.inl rfl,nofun,nofun,rfl,.inr rfl⟩

lemma handle (hlive : j.live=true) (pending : Option ℕ) (err : Errno) :
    Idle j ({j.waited with pending := pending}.handle err) := by
  cases err <;> exact ⟨hlive,rfl,rfl,rfl,rfl,.inr rfl,nofun,nofun,rfl,.inr rfl⟩

lemma polled (hlive : j.live=true) (snap : Option Snapshot) (deleted : ℕ) : Idle j (j.polled cfg snap deleted).1 := by
  unfold Job.polled
  split
  · exact finish hlive .retired
  · exact finish hlive .void
  · exact waited hlive

lemma posted (hlive : j.live=true) (snap : Option Snapshot) (deleted : ℕ) : Idle j (j.posted cfg snap deleted).1 := by
  unfold Job.posted
  split
  · exact ⟨hlive,rfl,rfl,rfl,rfl,.inl rfl,nofun,nofun,rfl,.inr rfl⟩
  · exact finish hlive .void
  · exact finish hlive .retired
  · dsimp only
    split <;> exact ⟨hlive,rfl,rfl,rfl,rfl,.inl rfl,nofun,nofun,rfl,.inr rfl⟩

end Idle

/-- Everything a step of the goroutine can be. -/
inductive Move (cfg : Config) (inflight : Option ℕ) (n : ℕ) (j : Job) : Job → Effect → Prop
  | idle {j' : Job} {e : Effect} (h : Idle j j') (he : e=.none ∨ ∃ deleted, e = .delete deleted) : Move cfg inflight n j j' e
  | check (hlive : j.live=true) :
      Move cfg inflight n j { j with pc := .snapping, state := .verify, log := .snapStarted::j.log } .none
  | verified (hpc : j.pc=.snapping) (snap : Option Snapshot) (deleted : ℕ) :
      Move cfg inflight n j (j.verified cfg snap deleted).1 (j.verified cfg snap deleted).2
  | issueFor {force nested : Bool} (hpc : j.pc = .chosen force nested) :
      Move cfg inflight n j (j.issueFor inflight n force nested).1 (j.issueFor inflight n force nested).2
  | revive (hpc : j.pc = .returned .cancelled) (hcancelled : j.cancelled=false) :
      Move cfg inflight n j { j with pc := .top, pending := none, cleanStreak := 0, zeroPresent := 0 } .none
  | close {st : State} (hpc : j.pc = .returned st) (hcancelled : st=.cancelled → j.cancelled=true) :
      Move cfg inflight n j { j with pc := .ending st } .none
  | remove {st : State} (hpc : j.pc = .ending st) : Move cfg inflight n j { j with pc := .gone st } (.remove st)

lemma polled_effect (cfg : Config) (j : Job) (snap : Option Snapshot) (deleted : ℕ) :
    (j.polled cfg snap deleted).2=.none ∨ ∃ deleted', (j.polled cfg snap deleted).2=.delete deleted' := by
  unfold polled
  split
  · exact .inr ⟨_,rfl⟩
  · exact .inr ⟨_,rfl⟩
  · exact .inl rfl

lemma posted_effect (cfg : Config) (j : Job) (snap : Option Snapshot) (deleted : ℕ) :
    (j.posted cfg snap deleted).2=.none ∨ ∃ deleted', (j.posted cfg snap deleted).2=.delete deleted' := by
  unfold posted
  split
  · exact .inl rfl
  · exact .inr ⟨_,rfl⟩
  · exact .inr ⟨_,rfl⟩
  · exact .inl rfl

lemma next_move {cfg : Config} {inflight : Option ℕ} {n : ℕ} {closed : ℕ → Option (Errno × Bool)} {j j' : Job} {a : JobAct}
    {e : Effect} (h : j.next cfg inflight n closed a=some (j',e)) : Move cfg inflight n j j' e := by
  cases a with simp only [next] at h
  | top =>
    split_ifs at h with hpc
    have hlive : j.live=true := by simp [live,not_not.mp hpc]
    split at h <;> cases h <;>
      exact .idle ⟨hlive,rfl,rfl,rfl,rfl,.inl rfl,nofun,nofun,rfl,.inr rfl⟩ (.inl rfl)
  | check =>
    split at h
    · cases h
    rename_i hpc
    have hlive : j.live=true := by simp [live,not_not.mp hpc]
    split at h
    · cases h
      exact .idle (.finish hlive .cancelled) (.inl rfl)
    · cases h
      exact .check hlive
  | snapped snap deleted =>
    split_ifs at h with hpc
    obtain ⟨rfl,rfl⟩ : _ = j' ∧ _ = e := Prod.ext_iff.mp (Option.some.inj h)
    exact .verified hpc snap deleted
  | issue =>
    split at h
    · rename_i hpc
      obtain ⟨rfl,rfl⟩ : _ = j' ∧ _ = e := Prod.ext_iff.mp (Option.some.inj h)
      exact .issueFor hpc
    · cases h
  | watch =>
    split at h
    · rename_i hpc
      cases h
      exact .idle ⟨by simp [live,hpc],rfl,rfl,rfl,rfl,.inr rfl,nofun,nofun,rfl,.inr rfl⟩ (.inl rfl)
    · cases h
  | done =>
    split at h
    · rename_i hpc
      have hlive : j.live=true := by simp [live,hpc]
      obtain ⟨r,-,hr⟩ := map_eq_some_iff.mp h
      cases hr
      split
      · exact .idle ⟨hlive,rfl,rfl,rfl,rfl,.inr rfl,nofun,nofun,rfl,.inr rfl⟩ (.inl rfl)
      · exact .idle (.handle hlive j.pending r.1) (.inl rfl)
    · rename_i hpc
      have hlive : j.live=true := by simp [live,hpc]
      obtain ⟨r,-,hr⟩ := map_eq_some_iff.mp h
      cases hr
      split
      · exact .idle (.handle hlive none r.1) (.inl rfl)
      · exact .idle (.waited hlive) (.inl rfl)
    · cases h
  | poll snap deleted =>
    split at h
    · rename_i hpc
      obtain ⟨rfl,rfl⟩ : _ = j' ∧ _ = e := Prod.ext_iff.mp (Option.some.inj h)
      exact .idle (.polled (by simp [live,hpc]) snap deleted) (polled_effect cfg j snap deleted)
    · cases h
  | post snap deleted =>
    split_ifs at h with hpc
    obtain ⟨rfl,rfl⟩ : _ = j' ∧ _ = e := Prod.ext_iff.mp (Option.some.inj h)
    exact .idle (.posted (by simp [live,hpc]) snap deleted) (posted_effect cfg j snap deleted)
  | wait =>
    split_ifs at h with hpc
    cases h
    exact .idle (.waited (by simp [live,hpc])) (.inl rfl)
  | decide =>
    split at h
    case h_2 => cases h
    rename_i st hpc
    cases h
    split
    · rename_i hguard
      simp only [Bool.and_eq_true,decide_eq_true_eq,Bool.not_eq_true'] at hguard
      exact .revive (hguard.1 ▸ hpc) hguard.2
    · rename_i hguard
      exact .close hpc fun hst => by simpa [hst] using hguard
  | remove =>
    split at h
    · rename_i hpc
      cases h
      exact .remove hpc
    · cases h

/-- What a step of a job's goroutine leaves alone, and what its effects tell. -/
structure Stepped (inflight : Option ℕ) (j j' : Job) (e : Effect) : Prop where
  key : j'.key=j.key
  receipt : j'.receipt=j.receipt
  req : j'.req=j.req
  cancelled : j'.cancelled=j.cancelled
  log : j.log <:+ j'.log
  issue : ∀ force, e = .issue force → inflight=none ∧ j.cancelled=false ∧ j.ended=false ∧ .issued force∈j'.log
  remove : ∀ st, e = .remove st → j.pc = .ending st ∧ j'.pc = .gone st
  gone : ∀ st, j'.pc = .gone st → e = .remove st
  ending : ∀ st, j'.pc = .ending st → j.pc = .returned st ∧ (st=.cancelled → j.cancelled=true)
  ended : j.ended=true → ∃ st, e = .remove st

namespace Stepped
variable {cfg : Config} {inflight : Option ℕ} {n : ℕ} {j j' : Job} {e : Effect}

lemma ended_of_live (hlive : j.live=true) : j.ended=false := by
  unfold Job.live at hlive
  unfold Job.ended
  split at hlive <;> simp_all

theorem inside (hlive : j.live=true) (hkey : j'.key=j.key) (hreceipt : j'.receipt=j.receipt) (hreq : j'.req=j.req)
    (hcancelled : j'.cancelled=j.cancelled) (hlog : j.log <:+ j'.log) (hpc : j'.ended=false)
    (he : e=.none ∨ ∃ deleted, e=.delete deleted) : Stepped inflight j j' e := by
  refine ⟨hkey,hreceipt,hreq,hcancelled,hlog,?_,?_,fun st hst => ?_,fun st hst => ?_,fun hended => ?_⟩
  · rcases he with rfl | ⟨_,rfl⟩ <;> exact nofun
  · rcases he with rfl | ⟨_,rfl⟩ <;> exact nofun
  · simp [Job.ended,hst] at hpc
  · simp [Job.ended,hst] at hpc
  · rw [ended_of_live hlive] at hended
    cases hended

lemma verified (hlive : j.live=true) (snap : Option Snapshot) (deleted : ℕ) :
    Stepped inflight j (j.verified cfg snap deleted).1 (j.verified cfg snap deleted).2 := by
  unfold Job.verified
  split
  · exact inside hlive rfl rfl rfl rfl (suffix_refl _) rfl (.inl rfl)
  have hlog := suffix_cons (Event.verified ‹_›) j.log
  dsimp only
  split
  · exact inside hlive rfl rfl rfl rfl hlog rfl (.inr ⟨_,rfl⟩)
  · exact inside hlive rfl rfl rfl rfl hlog rfl (.inr ⟨_,rfl⟩)
  · exact inside hlive rfl rfl rfl rfl hlog rfl (.inl rfl)
  · unfold Job.choose
    split
    · split
      · exact inside hlive rfl rfl rfl rfl hlog rfl (.inl rfl)
      · split <;> exact inside hlive rfl rfl rfl rfl hlog rfl (.inl rfl)
    · exact inside hlive rfl rfl rfl rfl hlog rfl (.inl rfl)

lemma issueFor (n : ℕ) {force nested : Bool} (hpc : j.pc=.chosen force nested) :
    Stepped inflight j (j.issueFor inflight n force nested).1 (j.issueFor inflight n force nested).2 := by
  have hlive : j.live=true := by simp [Job.live,hpc]
  unfold Job.issueFor
  split
  · exact inside hlive rfl rfl rfl rfl (suffix_refl _) rfl (.inl rfl)
  rename_i hguard
  split
  · exact inside hlive rfl rfl rfl rfl (suffix_refl _) rfl (.inl rfl)
  rename_i hfree
  refine ⟨rfl,rfl,rfl,rfl,suffix_cons _ _,?_,nofun,nofun,nofun,fun hended => by simp [Job.ended,hpc] at hended⟩
  rintro f ⟨⟩
  simp only [Bool.or_eq_true,not_or,Bool.not_eq_true] at hguard
  exact ⟨by simpa using hfree,hguard.1,ended_of_live hlive,mem_cons_self⟩

lemma of_move (h : Move cfg inflight n j j' e) : Stepped inflight j j' e := by
  cases h with
  | idle hi he =>
    refine inside hi.live hi.key hi.receipt hi.req hi.cancelled ?_ hi.ended he
    rcases hi.log with hlog | hlog <;> rw [hlog]
    exact suffix_cons _ _
  | check hlive => exact inside hlive rfl rfl rfl rfl (suffix_cons _ _) rfl (.inl rfl)
  | verified hpc snap deleted => exact verified (by simp [Job.live,hpc]) snap deleted
  | issueFor hpc => exact issueFor n hpc
  | revive hpc _ =>
    exact ⟨rfl,rfl,rfl,rfl,suffix_refl _,nofun,nofun,nofun,nofun,fun h => by simp [Job.ended,hpc] at h⟩
  | close hpc hcancelled =>
    refine ⟨rfl,rfl,rfl,rfl,suffix_refl _,nofun,nofun,nofun,?_,fun h => by simp [Job.ended,hpc] at h⟩
    rintro st ⟨⟩
    exact ⟨hpc,hcancelled⟩
  | remove hpc =>
    refine ⟨rfl,rfl,rfl,rfl,suffix_refl _,nofun,?_,?_,nofun,fun _ => ⟨_,rfl⟩⟩
    · rintro st ⟨⟩
      exact ⟨hpc,rfl⟩
    · rintro st ⟨⟩
      rfl

end Stepped

end Job

/-! ### The calls -/

/-- The moves of a call that change nothing else. -/
inductive Goes (s : Service) (t : Thread) : Place → Prop
  | toJoin {i : ℕ} (hp : t.place=.lookup) (hrun : (s.ops t.key).running=some i) : Goes s t (.joining i)
  | known (hp : t.place=.lookup) : Goes s t (.answered (.ok .retired))
  | toRead (hp : t.place=.lookup) : Goes s t .reading
  | ended {i : ℕ} (hp : t.place = .joining i) : Goes s t (.awaitGone i)
  | again {i : ℕ} (hp : t.place = .awaitGone i) : Goes s t .lookup
  | toStart {r : Receipt} (hp : t.place=.reading) (hr : (s.ops t.key).receipt=some r) : Goes s t (.starting r)
  | unread (hp : t.place=.reading) : Goes s t (.answered .failed)
  | raced {r : Receipt} (hp : t.place = .starting r) : Goes s t .lookup
  | served {i : ℕ} {j : Job} {st : State} (hp : t.place = .waiting i) (hj : s.jobs[i]? = some j) (hpc : j.pc = .gone st) :
      Goes s t (.answered (.ok st))
  | left {i : ℕ} (hp : t.place = .waiting i) : Goes s t (.answered .pending)
  | fire (hp : t.place=.armed) : Goes s t .readMem
  | sawMem (hp : t.place=.readMem) : Goes s t (.deciding true)
  | toMark (hp : t.place=.readMem) (hw : (s.ops t.key).withdrawn=false) : Goes s t .readMark
  | sawMark {b : Bool} (hp : t.place=.readMark) (hb : b=false → (s.ops t.key).mark=false) : Goes s t (.deciding b)
  | superseded {b : Bool} (hp : t.place = .deciding b) : Goes s t (.answered .pending)

/-- The moves of a Cancel that change nothing else. -/
inductive CancelGoes (s : Service) (t : Thread) : Place → Prop
  | toJob {i : ℕ} (hp : t.place=.find) (hrun : (s.ops t.key).running=some i) : CancelGoes s t (.cancelling i)
  | toStatus (hp : t.place=.find) (hrun : (s.ops t.key).running=none) : CancelGoes s t .status
  | state {st : State} (hp : t.place=.status) : CancelGoes s t (.withdraw (.state st))
  | toEnd {i : ℕ} {j : Job} (hp : t.place = .cancelling i) (hj : s.jobs[i]? = some j) (hended : j.ended=true) :
      CancelGoes s t (.awaitEnd i)
  | stateOfJob {i : ℕ} {st : State} (hp : t.place = .awaitEnd i) : CancelGoes s t (.withdraw (.state st))
  | answer {a : Answer} : CancelGoes s t (.answered a)

/-- Everything a section of a call can be: what becomes of its op, of the jobs and of the call. -/
inductive CallMove (s : Service) (t : Thread) : Op → List Job → Thread → Prop
  | goes {p : Place} (hk : t.kind≠.cancel) (h : Goes s t p) : CallMove s t (s.ops t.key) s.jobs { t with place := p }
  | cancelGoes {p : Place} (hk : t.kind=.cancel) (hp : ∀ a, t.place ≠ .answered a) (h : CancelGoes s t p) :
      CallMove s t (s.ops t.key) s.jobs { t with place := p }
  | clear (hk : t.kind≠.cancel) (hp : t.place=.clear) :
      CallMove s t { s.ops t.key with withdrawn := false } s.jobs { t with place := .clearMark }
  | clearMark (io : Bool) (hk : t.kind≠.cancel) (hp : t.place=.clearMark) :
      CallMove s t { s.ops t.key with mark := (s.ops t.key).mark && !io } s.jobs { t with place := .lookup }
  | park (hk : t.kind≠.cancel) (hp : t.place = .deciding true) :
      CallMove s t { s.ops t.key with orphan := none, parked := true } s.jobs { t with place := .answered .pending }
  | restart (hk : t.kind≠.cancel) (hp : t.place = .deciding false) :
      CallMove s t { s.ops t.key with orphan := none } s.jobs { t with place := .lookup }
  | join {i : ℕ} {j : Job} {p : Place} (hk : t.kind≠.cancel) (hp : t.place = .joining i) (hj : s.jobs[i]? = some j)
      (hended : j.ended=false) (hto : p = .waiting i ∨ p = .answered .pending) :
      CallMove s t (s.ops t.key) (s.jobs.set i (j.join t.request)) { t with place := p, stale := t.stale || j.stopped }
  | start {r : Receipt} {p : Place} (hk : t.kind≠.cancel) (hp : t.place = .starting r)
      (hrun : (s.ops t.key).running=none) (hto : p = .waiting s.jobs.length ∨ p = .answered .pending) :
      CallMove s t { s.ops t.key with running := some s.jobs.length } (s.jobs++[.start t.key r t.request]) { t with place := p }
  | cancel {i : ℕ} {j : Job} (hk : t.kind=.cancel) (hp : t.place = .cancelling i) (hj : s.jobs[i]? = some j) :
      CallMove s t (s.ops t.key) (s.jobs.set i { j with cancelled := true }) { t with place := .withdraw (.job i) }
  | withdraw {h : Held} (hk : t.kind=.cancel) (hp : t.place = .withdraw h) :
      CallMove s t { s.ops t.key with withdrawn := true } s.jobs { t with place := .marking h }
  | mark {h : Held} {marked : Bool} (hk : t.kind=.cancel) (hp : t.place = .marking h) :
      CallMove s t { s.ops t.key with mark := (s.ops t.key).mark || marked } s.jobs { t with place := .settling h marked }
  | withdrawn {h : Held} {marked : Bool} {st : State} (hk : t.kind=.cancel) (hp : t.place = .settling h marked) :
      CallMove s t { s.ops t.key with quiet := true, durable := marked } s.jobs { t with place := .answered (.ok st) }

namespace CallMove
variable {s : Service} {t t' : Thread} {o : Op} {l : List Job}

lemma key (h : CallMove s t o l t') : t'.key=t.key := by
  cases h <;> rfl

lemma kind (h : CallMove s t o l t') : t'.kind=t.kind := by
  cases h <;> rfl

lemma last (h : CallMove s t o l t') : t'.last=t.last := by
  cases h <;> rfl

end CallMove

namespace Service
variable {cfg : Config} {s s' : Service} {n : ℕ} {t : Thread} {io : Bool}

lemma upd_self (k : JobKey) (f : Op → Op) : (s.upd k f).ops k=f (s.ops k) := Function.update_self ..

lemma upd_ne {k k' : JobKey} (f : Op → Op) (h : k'≠k) : (s.upd k f).ops k'=s.ops k' := Function.update_of_ne h ..

theorem upd_rel {R : Op → Op → Prop} (hrefl : ∀ o, R o o) {f : Op → Op} (hf : ∀ o, R o (f o)) (k k' : JobKey) :
    R (s.ops k') ((s.upd k f).ops k') := by
  by_cases hk : k'=k
  · rw [hk,upd_self]
    exact hf _
  · rw [upd_ne f hk]
    exact hrefl _

def after (s : Service) (n : ℕ) (t : Thread) (o : Op) (l : List Job) : Service :=
  { s with ops := Function.update s.ops t.key o, jobs := l, threads := s.threads.set n t }

lemma goto_eq (p : Place) : s.goto n t p=s.after n {t with place := p} (s.ops t.key) s.jobs := by
  simp [goto,after]

def MovesBy (s : Service) (n : ℕ) (t : Thread) (s' : Service) : Prop := ∃ o l t', CallMove s t o l t' ∧ s' = s.after n t' o l

lemma MovesBy.goes {p : Place} (hk : t.kind≠.cancel) (h : Goes s t p) : MovesBy s n t (s.goto n t p) :=
  ⟨_,_,_,.goes hk h,goto_eq p⟩

lemma joined_eq (i : ℕ) : ∃ p, (p=.waiting i ∨ p=.answered .pending) ∧ s.joined n t i=s.goto n t p := by
  unfold joined
  split
  · exact ⟨_,.inl rfl,rfl⟩
  · exact ⟨_,.inr rfl,rfl⟩

lemma requestStep_moves (hk : t.kind≠.cancel) (h : s.requestStep n t io=some s') : MovesBy s n t s' := by
  unfold requestStep at h
  dsimp only at h
  split at h
  · rename_i hp
    cases h
    exact ⟨_,_,_,.clear hk hp,rfl⟩
  · rename_i hp
    cases h
    exact ⟨_,_,_,.clearMark io hk hp,rfl⟩
  · rename_i hp
    split at h
    · rename_i hrun
      cases h
      exact .goes hk (.toJoin hp hrun)
    · cases h
      split
      · exact .goes hk (.known hp)
      · exact .goes hk (.toRead hp)
  · rename_i i hp
    obtain ⟨j,hj,rfl⟩ := map_eq_some_iff.mp h
    split
    · exact .goes hk (.ended hp)
    · rename_i hended
      obtain ⟨p,hto,heq⟩ := joined_eq (s := s.setJob i (j.join t.request)) (n := n)
        (t := {t with stale := t.stale || j.stopped}) i
      exact ⟨_,_,_,.join hk hp hj (by simpa using hended) hto,heq.trans (goto_eq p)⟩
  · rename_i i hp
    obtain ⟨j,hj,hs⟩ := bind_eq_some_iff.mp h
    split_ifs at hs
    cases hs
    exact .goes hk (.again hp)
  · rename_i hp
    split at h
    · rename_i hr
      cases h
      split
      · exact .goes hk (.toStart hp hr)
      · exact .goes hk (.unread hp)
    · cases h
      exact .goes hk (.unread hp)
  · rename_i r hp
    split at h
    · cases h
      exact .goes hk (.raced hp)
    · rename_i hrun
      cases h
      obtain ⟨p,hto,heq⟩ := joined_eq (n := n) (t := t) s.jobs.length
        (s := (s.addJob (.start t.key r t.request)).upd t.key fun o => {o with running := some s.jobs.length})
      exact ⟨_,_,_,.start hk hp (by simpa using hrun) hto,heq⟩
  · rename_i i hp
    obtain ⟨j,hj,rfl⟩ := map_eq_some_iff.mp h
    split
    · rename_i st hpc
      split
      · exact .goes hk (.served hp hj hpc)
      · exact .goes hk (.left hp)
    · exact .goes hk (.left hp)
  · cases h

lemma timerStep_moves (hk : t.kind≠.cancel) (h : s.timerStep n t io=some s') : MovesBy s n t s' := by
  unfold timerStep at h
  dsimp only at h
  split at h
  · rename_i hp
    cases h
    exact .goes hk (.fire hp)
  · rename_i hp
    cases h
    split
    · exact .goes hk (.sawMem hp)
    · rename_i hw
      exact .goes hk (.toMark hp (by simpa using hw))
  · rename_i hp
    cases h
    exact .goes hk (.sawMark hp fun hb => (Bool.or_eq_false_iff.mp hb).1)
  · rename_i withdrawn hp
    split at h
    · cases h
      exact .goes hk (.superseded hp)
    split at h
    · rename_i hw
      cases h
      exact ⟨_,_,_,.park hk (hw ▸ hp),rfl⟩
    · rename_i hw
      cases h
      exact ⟨_,_,_,.restart hk (hp.trans (congrArg _ (Bool.not_eq_true _ ▸ hw))),rfl⟩
  · exact requestStep_moves hk h

lemma returns_moves (hk : t.kind=.cancel) {h : Held} {marked : Bool} (hp : t.place=.settling h marked) (st : State) :
    MovesBy s n t (s.returns n t st marked) := by
  unfold returns
  split
  · exact ⟨_,_,_,.cancelGoes hk (by rw [hp]; exact nofun) .answer,goto_eq _⟩
  · exact ⟨_,_,_,.withdrawn hk hp,rfl⟩

lemma cancelStep_moves (hk : t.kind=.cancel) (h : s.cancelStep n t io=some s') : MovesBy s n t s' := by
  have hgo : ∀ {p q : Place}, t.place=q → (∀ a, q≠.answered a) → CancelGoes s t p → MovesBy s n t (s.goto n t p) :=
    fun hp hq h => ⟨_,_,_,.cancelGoes hk (hp ▸ hq) h,goto_eq _⟩
  unfold cancelStep at h
  split at h
  · rename_i hp
    cases h
    split
    · exact hgo hp nofun (.toJob hp ‹_›)
    · exact hgo hp nofun (.toStatus hp ‹_›)
  · rename_i hp
    cases h
    split
    · exact hgo hp nofun .answer
    · split
      · exact hgo hp nofun .answer
      · exact hgo hp nofun (.state hp)
  · rename_i i hp
    obtain ⟨j,hj,rfl⟩ := map_eq_some_iff.mp h
    split
    · exact hgo hp nofun (.toEnd hp hj ‹_›)
    · split
      · exact ⟨_,_,_,.cancel hk hp hj,goto_eq _⟩
      · exact hgo hp nofun .answer
  · rename_i i hp
    obtain ⟨j,hj,rfl⟩ := map_eq_some_iff.mp h
    split
    · exact hgo hp nofun .answer
    · exact hgo hp nofun (.stateOfJob hp)
  · rename_i hp
    cases h
    exact ⟨_,_,_,.withdraw hk hp,rfl⟩
  · rename_i hp
    cases h
    exact ⟨_,_,_,.mark hk hp,rfl⟩
  · rename_i hp
    cases h
    exact returns_moves hk hp _
  · rename_i hp
    obtain ⟨j,hj,rfl⟩ := map_eq_some_iff.mp h
    exact returns_moves hk hp _
  · cases h

lemma callStep_moves (h : s.callStep n io=some s') : ∃ t, s.threads[n]? = some t ∧ MovesBy s n t s' := by
  obtain ⟨t,ht,h⟩ := bind_eq_some_iff.mp h
  refine ⟨t,ht,?_⟩
  split at h
  · rename_i hk
    exact requestStep_moves (by rw [hk]; exact nofun) h
  · rename_i hk
    exact timerStep_moves (by rw [hk]; exact nofun) h
  · exact cancelStep_moves ‹_› h

end Service

/-! ### The service -/

/-- What a step other than a restart does to the jobs. -/
inductive JobsMove (cfg : Config) (s : Service) : List Job → Prop
  | same : JobsMove cfg s s.jobs
  | move {i : ℕ} {j j' : Job} {e : Effect} (hj : s.jobs[i]? = some j)
      (hmove : j.Move cfg (s.inflight j.receipt.fsid) s.calls.length j' e) : JobsMove cfg s (s.jobs.set i j')
  | join {i : ℕ} {j : Job} (hj : s.jobs[i]? = some j) (req : RetireRequest) : JobsMove cfg s (s.jobs.set i (j.join req))
  | cancel {i : ℕ} {j : Job} (hj : s.jobs[i]? = some j) : JobsMove cfg s (s.jobs.set i { j with cancelled := true })
  | start (k : JobKey) (r : Receipt) (req : RetireRequest) : JobsMove cfg s (s.jobs++[.start k r req])

namespace Service
variable {cfg : Config} {s s' : Service} {n : ℕ} {io : Bool}

lemma register_some {r : Receipt} {snap : Snapshot} (h : s.register cfg r snap=some s') :
    s'=s.upd r.key fun o => {o with receipt := some r, mark := false, quiet := false} := by
  simp only [register] at h
  split at h
  · split_ifs at h
    · exact (Option.some.inj h).symm
  · cases h

lemma disconnected_some {k : JobKey} {liveness : Liveness} (h : s.disconnected k liveness=some s') :
    s'=(s.upd k fun o => {o with orphan := some s.threads.length}).spawn
      {key := k, kind := .timer liveness, place := .armed} := by
  simp only [disconnected] at h
  split_ifs at h
  · exact (Option.some.inj h).symm

lemma sweep_some {k : JobKey} {snap : Snapshot} {deleted : ℕ} (h : s.sweep cfg k snap deleted=some s') :
    s'=s.upd k (Op.delete deleted) := by
  obtain ⟨r,-,h⟩ := bind_eq_some_iff.mp h
  split at h
  · exact (Option.some.inj h).symm
  · exact (Option.some.inj h).symm
  · cases h

/-- A call returns, or is known to have returned. -/
structure Kernel (s s' : Service) : Prop where
  ops : s'.ops=s.ops
  jobs : s'.jobs=s.jobs
  threads : s'.threads=s.threads
  calls : ∃ c x x', s.calls[c]? = some x ∧ x'.key=x.key ∧ x'.fsid=x.fsid ∧ x'.force=x.force ∧ s'.calls = s.calls.set c x'

lemma kernel_some {c : ℕ} {e : Errno} (h : s.kernel c e=some s') : Kernel s s' := by
  obtain ⟨x,hx,h⟩ := bind_eq_some_iff.mp h
  split_ifs at h
  · cases h
    exact ⟨rfl,rfl,rfl,c,x,{x with result := some e},hx,rfl,rfl,rfl,rfl⟩

lemma settle_some {c : ℕ} (h : s.settle c=some s') : Kernel s s' := by
  obtain ⟨x,hx,h⟩ := bind_eq_some_iff.mp h
  split_ifs at h
  · cases h
    exact ⟨rfl,rfl,rfl,c,x,{x with closed := true},hx,rfl,rfl,rfl,rfl⟩

/-- A section of a call changes no call in the kernel. -/
structure Quick (cfg : Config) (s s' : Service) : Prop where
  calls : s'.calls=s.calls
  inflight : s'.inflight=s.inflight
  jobs : JobsMove cfg s s'.jobs

lemma callStep_quick (h : s.callStep n io=some s') : Quick cfg s s' := by
  obtain ⟨t,-,o,l,t',hmove,rfl⟩ := callStep_moves h
  refine ⟨rfl,rfl,?_⟩
  cases hmove with
  | join _ _ hj _ _ => exact .join hj _
  | start => exact .start _ _ _
  | cancel _ _ hj => exact .cancel hj
  | _ => exact .same

theorem step_quick {a : Act} (h : s.step cfg a=some s') (hjob : ∀ i b, a≠.job i b) (hkernel : ∀ c e, a≠.kernel c e)
    (hsettle : ∀ c, a≠.settle c) (hrestart : a≠.restart) : Quick cfg s s' := by
  cases a with
  | register r snap =>
    cases register_some h
    exact ⟨rfl,rfl,.same⟩
  | retire k req | cancel k | reclaim k =>
    cases h
    exact ⟨rfl,rfl,.same⟩
  | disconnected k liveness =>
    cases disconnected_some h
    exact ⟨rfl,rfl,.same⟩
  | sweep k snap deleted =>
    cases sweep_some h
    exact ⟨rfl,rfl,.same⟩
  | call n io => exact callStep_quick h
  | job i b => exact absurd rfl (hjob i b)
  | kernel c e => exact absurd rfl (hkernel c e)
  | settle c => exact absurd rfl (hsettle c)
  | restart => exact absurd rfl hrestart

@[simp] lemma effect_jobs (s : Service) (j : Job) (e : Effect) : (s.effect j e).jobs=s.jobs := by
  cases e <;> rfl

lemma effect_threads (s : Service) (j : Job) (e : Effect) : (s.effect j e).threads=s.threads := by
  cases e <;> rfl

lemma jobStep_some {i : ℕ} {a : JobAct} (h : s.jobStep cfg i a=some s') :
    ∃ j j' e, s.jobs[i]? = some j ∧ j.Move cfg (s.inflight j.receipt.fsid) s.calls.length j' e ∧
      s'=(s.effect j e).setJob i j' := by
  obtain ⟨j,hj,h⟩ := bind_eq_some_iff.mp h
  obtain ⟨⟨j',e⟩,hnext,rfl⟩ := map_eq_some_iff.mp h
  exact ⟨j,j',e,hj,Job.next_move hnext,rfl⟩

lemma step_jobs {a : Act} (h : s.step cfg a=some s') (hrestart : a≠.restart) : JobsMove cfg s s'.jobs := by
  cases a with
  | job i b =>
    obtain ⟨j,j',e,hj,hmove,rfl⟩ := jobStep_some h
    rw [setJob,effect_jobs]
    exact .move hj hmove
  | kernel c e => exact (kernel_some h).jobs ▸ .same
  | settle c => exact (settle_some h).jobs ▸ .same
  | restart => exact absurd rfl hrestart
  | _ => exact (step_quick h nofun nofun nofun nofun).jobs

end Service

end JuiceMount.Unmountd
