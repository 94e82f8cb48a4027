import JuiceMount.Lib.Lists
import JuiceMount.Lib.Transition

/-! The cache session. A call of Qualify does its network and SQL work without the lock, one step for each
answer it waits for, and publishes under the lock; the other operations close admission in between. -/
namespace JuiceMount.Cache.Qualification
open Transition List JuiceMount.Lists Option

/-- Whether an error is ErrVolumeBinding. -/
inductive Failure
  | volumeBinding | other
  deriving DecidableEq, Repr

/-- Where a call of Qualify is; it has the slot from `admitted` to `leaving`. -/
inductive Stage
  | waiting | admitted | probing | making | revalidating | rechecking | saving | publishing | leaving | finished
  deriving DecidableEq, Repr

/-- A call of Qualify with its variables; `expired` says that its context has an error. -/
structure Call (B : Type*) where
  stage : Stage := .waiting
  expired : Bool := false
  epoch : ℕ := 0
  binding : Option B := none
  reader : Option ℕ := none
  live : Option B := none
  created : Option ℕ := none
  revalidated : Bool := false
  discardMappings : Bool := false
  err : Option Failure := none
  published : Bool := false
  deriving DecidableEq, Repr

/-- The zero binding is `none`. Readers are numbered as they are made: `available` are those with remote fetches
enabled, and `stopped` those that were stopped. `last` is the call that published last. -/
structure Session (B : Type*) where
  binding : Option B := none
  reader : Option ℕ := none
  online : Bool := false
  closed : Bool := false
  qualified : Bool := false
  identityRefused : Bool := false
  transportResets : ℕ := 0
  epoch : ℕ := 0
  qualificationSlot : Option ℕ := none
  calls : List (Call B) := []
  readers : ℕ := 0
  available : List ℕ := []
  stopped : List ℕ := []
  last : Option (Call B) := none
  deriving DecidableEq, Repr

/-- What makeReader did; a reader that was made before the error has been stopped there. -/
inductive Made
  | made
  | unavailable
  | failed (e : Failure) (stopped : Bool)
  deriving DecidableEq, Repr

/-- The answer of revalidateMappingsForSession. -/
inductive Revalidation
  | done
  | sliceMapping
  | failed (e : Failure)
  deriving DecidableEq, Repr

inductive Act (B : Type*)
  | setOnline (online : Bool)
  | transportChanged
  | transportReset
  | refuseIdentity (e : Failure)
  | stop
  | join
  | qualify
  | expire (i : ℕ)
  | giveUp (i : ℕ)
  | take (i : ℕ)
  | capture (i : ℕ)
  | probe (i : ℕ) (answer : Except Failure B)
  | makeReader (i : ℕ) (result : Made)
  | revalidate (i : ℕ) (answer : Revalidation)
  | recheck (i : ℕ) (err : Option Failure)
  | save (i : ℕ) (err : Option Failure)
  | publish (i : ℕ)
  | leave (i : ℕ)
  deriving Repr

variable {B : Type*} {s t : Session B} {c d : Call B} {i : ℕ}

namespace Call

def holding (c : Call B) : Prop := c.stage≠.waiting ∧ c.stage≠.finished

def fail (c : Call B) (e : Failure) : Call B := { c with err := some e, stage := .publishing }

def probed [DecidableEq B] (c : Call B) : Except Failure B → Call B
  | .error e => c.fail e
  | .ok live =>
    if c.binding≠none ∧ c.binding≠some live then { c with live := some live }.fail .volumeBinding
    else { c with live := some live, stage := if c.reader=none then .making else .revalidating }

def revalidate (c : Call B) : Revalidation → Call B
  | .done => { c with revalidated := true, stage := .saving }
  | .sliceMapping => { c with stage := .rechecking }
  | .failed e => c.fail e

/-- A malformed slice list is discarded only after a fresh proof of the same volume. -/
def recheck (c : Call B) : Option Failure → Call B
  | none => { c with discardMappings := true, stage := .saving }
  | some e => c.fail e

def save (c : Call B) (err : Option Failure) : Call B :=
  { c with err := if c.expired then c.err else err, stage := .publishing }

end Call

namespace Session

def admits (s : Session B) : Bool := !s.closed && s.online && s.transportResets=0

/-- SetRemoteAvailable(false) on the reader of the session. -/
def suspend (s : Session B) : Session B :=
  { s with qualified := false, available := s.available.filter (fun r => s.reader≠some r) }

def nextEpoch (s : Session B) : Session B := { s.suspend with epoch := s.epoch+1 }

def setOnline (s : Session B) (online : Bool) : Session B :=
  if s.closed then s
  else if s.online≠online ∨ !online then { s.nextEpoch with online }
  else s

def transportChanged (s : Session B) : Session B :=
  if s.closed then s else { s.nextEpoch with transportResets := s.transportResets+1 }

def refuseIdentity (s : Session B) (e : Failure) : Session B :=
  if e≠.volumeBinding ∨ s.closed then s else { s.nextEpoch with identityRefused := true }

def stop (s : Session B) : Session B :=
  if s.closed then s else { s.nextEpoch with closed := true }

def put (s : Session B) (i : ℕ) (c : Call B) : Session B := { s with calls := s.calls.set i c }

def atStage (s : Session B) (i : ℕ) (stage : Stage) (next : Call B → Session B) : Option (Session B) :=
  match s.calls[i]? with
  | some c => if c.stage=stage then some (next c) else none
  | none => none

/-- The second look at the session, with the slot, and the values the call goes on with. -/
def capture (s : Session B) (c : Call B) : Call B :=
  if s.admits then { c with stage := .probing, epoch := s.epoch, binding := s.binding, reader := s.reader }
  else { c with stage := .leaving }

def makeReader (s : Session B) (i : ℕ) (c : Call B) : Made → Session B
  | .made =>
    { s.put i { c with reader := some s.readers, created := some s.readers, stage := .revalidating } with
      readers := s.readers+1 }
  | .unavailable =>
    { s.put i { c with stage := .saving } with readers := s.readers+1, stopped := s.readers::s.stopped }
  | .failed e true => { s.put i (c.fail e) with readers := s.readers+1, stopped := s.readers::s.stopped }
  | .failed e false => s.put i (c.fail e)

def publish (s : Session B) (i : ℕ) (c : Call B) : Session B :=
  if !s.admits || s.epoch≠c.epoch || c.expired then s.put i { c with stage := .leaving }
  else match c.err with
  | some e =>
    { s.suspend.put i { c with stage := .leaving } with
      identityRefused := s.identityRefused || e = .volumeBinding }
  | none =>
    { s.put i { c with stage := .leaving, published := true } with
      binding := c.live
      identityRefused := false
      reader := c.created.or s.reader
      available := (c.created.or s.reader).toList++s.available
      qualified := true
      last := some c }

/-- Qualify returns: a reader of its own that was not published is stopped, and the slot is free again. -/
def leave (s : Session B) (i : ℕ) (c : Call B) : Session B :=
  { s.put i { c with stage := .finished } with
    qualificationSlot := none
    stopped := (if c.published then none else c.created).toList++s.stopped }

def step [DecidableEq B] (s : Session B) : Act B → Option (Session B)
  | .setOnline online => some (s.setOnline online)
  | .transportChanged => some s.transportChanged
  | .transportReset =>
    if s.transportResets=0 then none else some { s with transportResets := s.transportResets-1 }
  | .refuseIdentity e => some (s.refuseIdentity e)
  | .stop => some s.stop
  -- Stop has waited for every call and every reset
  | .join =>
    if s.closed && s.transportResets=0 && s.calls.all (·.stage=.finished) then
      some { s with stopped := s.reader.toList++s.stopped }
    else none
  | .qualify => some (if s.admits then { s with calls := s.calls++[{}] } else s)
  | .expire i => s.calls[i]?.map fun c => s.put i { c with expired := true }
  | .giveUp i => do
    let c ← s.calls[i]?
    if c.stage=.waiting ∧ (c.expired ∨ s.closed) then some (s.put i { c with stage := .finished }) else none
  | .take i =>
    if s.qualificationSlot=none then
      s.atStage i .waiting fun c =>
        { s.put i { c with stage := if c.expired then .leaving else .admitted } with qualificationSlot := some i }
    else none
  | .capture i => s.atStage i .admitted fun c => s.put i (s.capture c)
  | .probe i answer => s.atStage i .probing fun c => s.put i (c.probed answer)
  | .makeReader i result => s.atStage i .making fun c => s.makeReader i c result
  | .revalidate i answer => s.atStage i .revalidating fun c => s.put i (c.revalidate answer)
  | .recheck i err => s.atStage i .rechecking fun c => s.put i (c.recheck err)
  | .save i err => s.atStage i .saving fun c => s.put i (c.save err)
  | .publish i => s.atStage i .publishing (s.publish i)
  | .leave i => s.atStage i .leaving (s.leave i)

/-- Remote fetches of reader `r` are justified: the call that published last captured the epoch that is still
current, for the volume the session is bound to, and has revalidated or discarded the mappings of `r`. -/
def Admitted (s : Session B) (r : ℕ) : Prop :=
  s.reader=some r ∧ s.admits ∧ ∃ c, s.last=some c ∧ c.epoch=s.epoch ∧ c.live≠none ∧
    s.binding=c.live ∧ c.reader=some r ∧ (c.revalidated ∨ c.discardMappings)

end Session

namespace Call
open Session

def Bound (s : Session B) (c : Call B) : Prop := c.live≠none ∧ (s.binding=none ∨ s.binding=c.live)

/-- The reader the call works on is the session's, or its own while the session has none. -/
def Own (s : Session B) (c : Call B) : Prop :=
  (c.created=none ∧ c.reader=s.reader) ∨ (s.reader=none ∧ c.reader=c.created)

def Checked (c : Call B) : Prop := c.reader=none ∨ c.revalidated ∨ c.discardMappings

def Ok (s : Session B) (c : Call B) : Prop :=
  match c.stage with
  | .waiting | .admitted => c.created=none
  | .probing => c.binding=s.binding ∧ c.created=none ∧ c.reader=s.reader
  | .making => c.Bound s ∧ c.created=none ∧ c.reader=none ∧ s.reader=none
  | .revalidating | .rechecking => c.Bound s ∧ c.Own s
  | .saving => c.Bound s ∧ c.Own s ∧ c.Checked
  | .publishing => c.Own s ∧ (c.err=none → c.Bound s ∧ c.Checked)
  | .leaving => True
  | .finished => ¬c.published → ∀ r, c.created=some r → r∈s.stopped

end Call

namespace Session
variable {b₀ : Option B} {e₀ : ℕ} {stage : Stage}

/-- What holds in every state that a run reaches which began with binding `b₀` in epoch `e₀`. -/
structure Inv (b₀ : Option B) (e₀ : ℕ) (s : Session B) : Prop where
  slot : ∀ i c, s.calls[i]? = some c → c.holding → s.qualificationSlot=some i
  calls : ∀ c∈s.calls,c.Ok s
  remote : ∀ r∈s.available,s.Admitted r
  kept : b₀≠none → s.binding=b₀
  epoch : e₀ ≤ s.epoch

lemma Inv.suspend_available {p : ℕ → Prop} (h : Inv b₀ e₀ s) : ∀ r∈s.suspend.available,p r := by
  intro r hr
  obtain ⟨hr,hne⟩ := mem_filter.mp hr
  simp [(h.remote r hr).1] at hne

lemma Inv.ite {p : Prop} [Decidable p] (hs : Inv b₀ e₀ s) (ht : Inv b₀ e₀ t) : Inv b₀ e₀ (if p then s else t) := by
  split_ifs <;> assumption

lemma atStage_eq_some {next : Call B → Session B} :
    s.atStage i stage next=some t ↔ ∃ c, s.calls[i]? = some c ∧ c.stage=stage ∧ next c=t := by
  unfold atStage
  cases s.calls[i]? <;> simp

/-- A call that keeps the slot, or has none, goes on to another stage. -/
lemma Inv.put (h : Inv b₀ e₀ s) (hc : s.calls[i]? = some c) (hd : d.Ok s) (hold : d.holding → c.holding) :
    Inv b₀ e₀ (s.put i d) := by
  refine {h with slot := fun j x hx hhold => ?_, calls := forall_mem_set h.calls hd}
  rcases getElem?_set_some hx with ⟨rfl,rfl⟩ | ⟨-,hx⟩
  · exact h.slot _ c hc (hold hhold)
  · exact h.slot j x hx hhold

lemma Inv.call (h : Inv b₀ e₀ s) {next : Call B → Session B} (hstep : s.atStage i stage next=some t) :
    ∃ c, s.calls[i]? = some c ∧ c.stage=stage ∧ c.Ok s ∧ next c=t := by
  obtain ⟨c,hc,hstage,ht⟩ := atStage_eq_some.mp hstep
  exact ⟨c,hc,hstage,h.calls c (mem_of_getElem? hc),ht⟩

lemma Inv.move (h : Inv b₀ e₀ s) {next : Call B → Call B} (hstep : s.atStage i stage (fun c => s.put i (next c))=some t)
    (hstage : stage≠.waiting ∧ stage≠.finished)
    (hnext : ∀ c : Call B, c.stage=stage → c.Ok s → (next c).Ok s) : Inv b₀ e₀ t := by
  obtain ⟨c,hc,rfl,hok,rfl⟩ := h.call hstep
  exact h.put hc (hnext c rfl hok) fun _ => hstage

end Session

namespace Call
open Session

lemma Ok.capture (h : c.Ok s) (hc : c.stage=.admitted) : (s.capture c).Ok s := by
  simp only [Ok,hc] at h
  unfold Session.capture
  split
  · exact ⟨rfl,h,rfl⟩
  · trivial

lemma Ok.probed [DecidableEq B] (h : c.Ok s) (hc : c.stage=.probing) (answer : Except Failure B) : (c.probed answer).Ok s := by
  simp only [Ok,hc] at h
  obtain ⟨hbinding,hcreated,hreader⟩ := h
  cases answer with
  | error e => exact ⟨.inl ⟨hcreated,hreader⟩,nofun⟩
  | ok live =>
    have hbound : ¬(c.binding≠none ∧ c.binding≠some live) → s.binding=none ∨ s.binding=some live := by
      rw [hbinding]
      tauto
    simp only [Call.probed]
    split_ifs with hdiff hnone
    · exact ⟨.inl ⟨hcreated,hreader⟩,nofun⟩
    · exact ⟨⟨nofun,hbound hdiff⟩,hcreated,hnone,hreader ▸ hnone⟩
    · exact ⟨⟨nofun,hbound hdiff⟩,.inl ⟨hcreated,hreader⟩⟩

lemma Ok.revalidate (h : c.Ok s) (hc : c.stage=.revalidating) (answer : Revalidation) : (c.revalidate answer).Ok s := by
  simp only [Ok,hc] at h
  cases answer with
  | done => exact ⟨h.1,h.2,.inr (.inl rfl)⟩
  | sliceMapping => exact h
  | failed e => exact ⟨h.2,nofun⟩

lemma Ok.recheck (h : c.Ok s) (hc : c.stage=.rechecking) (err : Option Failure) : (c.recheck err).Ok s := by
  simp only [Ok,hc] at h
  cases err with
  | none => exact ⟨h.1,h.2,.inr (.inr rfl)⟩
  | some e => exact ⟨h.2,nofun⟩

lemma Ok.save (h : c.Ok s) (hc : c.stage=.saving) (err : Option Failure) : (c.save err).Ok s := by
  simp only [Ok,hc] at h
  exact ⟨h.2.1,fun _ => ⟨h.1,h.2.2⟩⟩

lemma Ok.of_not_holding (h : c.Ok s) (hc : ¬c.holding) (hstopped : s.stopped ⊆ t.stopped) : c.Ok t := by
  unfold holding at hc
  rcases hstage : c.stage <;> simp only [Ok,hstage] at h ⊢ <;> simp_all
  exact fun hp r hr => hstopped (h hp r hr)

lemma Ok.stopped (h : c.Ok s) (hbinding : t.binding=s.binding) (hreader : t.reader=s.reader)
    (hstopped : s.stopped ⊆ t.stopped) : c.Ok t := by
  unfold Ok Bound Own at h ⊢
  rw [hbinding,hreader]
  split <;> simp_all
  exact fun hp r hr => hstopped (h hp r hr)

end Call

namespace Session
variable {b₀ : Option B} {e₀ : ℕ}

/-- Admission is closed and the epoch goes on; the calls do not notice. -/
lemma Inv.nextEpoch (h : Inv b₀ e₀ s) : Inv b₀ e₀ s.nextEpoch :=
  ⟨h.slot,h.calls,h.suspend_available,h.kept,le_trans h.epoch (Nat.le_succ _)⟩

lemma Inv.stop_readers (h : Inv b₀ e₀ s) (stopped : List ℕ) : Inv b₀ e₀ {s with stopped := stopped++s.stopped} :=
  {h with calls := fun c hc => (h.calls c hc).stopped rfl rfl (subset_append_right _ _)}

lemma Inv.makeReader (h : Inv b₀ e₀ s) {result : Made}
    (hstep : s.atStage i .making (fun c => s.makeReader i c result)=some t) : Inv b₀ e₀ t := by
  obtain ⟨c,hc,hstage,hok,rfl⟩ := h.call hstep
  have hold : c.holding := by simp [Call.holding,hstage]
  simp only [Call.Ok,hstage] at hok
  obtain ⟨hbound,hcreated,hnone,hreader⟩ := hok
  have hown : c.Own s := .inl ⟨hcreated,hnone.trans hreader.symm⟩
  have hfail (e : Failure) : Inv b₀ e₀ (s.put i (c.fail e)) := h.put hc ⟨hown,nofun⟩ fun _ => hold
  rcases result with _ | _ | ⟨e,_ | _⟩
  · have hnew := h.put hc (d := {c with reader := some s.readers, created := some s.readers, stage := .revalidating})
      ⟨hbound,.inr ⟨hreader,rfl⟩⟩ fun _ => hold
    exact {hnew with}
  · have hsaving := (h.put hc (d := {c with stage := .saving}) ⟨hbound,hown,.inl hnone⟩ fun _ => hold).stop_readers
      [s.readers]
    exact {hsaving with}
  · exact hfail e
  · exact {(hfail e).stop_readers [s.readers] with}

lemma Inv.publish (h : Inv b₀ e₀ s) (hstep : s.atStage i .publishing (s.publish i)=some t) : Inv b₀ e₀ t := by
  obtain ⟨c,hc,hstage,hok,rfl⟩ := h.call hstep
  have hold : c.holding := by simp [Call.holding,hstage]
  simp only [Call.Ok,hstage] at hok
  obtain ⟨hown,hgood⟩ := hok
  unfold Session.publish
  split_ifs with hlost
  · exact h.put hc trivial fun _ => hold
  split
  · have hleave := h.put hc (d := {c with stage := .leaving}) trivial fun _ => hold
    exact {hleave with remote := h.suspend_available}
  rename_i herr
  obtain ⟨⟨hlive,hbinding⟩,hchecked⟩ := hgood herr
  have hreader : c.created.or s.reader=c.reader := by
    rcases hown with ⟨hnone,heq⟩ | ⟨hnone,heq⟩
    · simp [hnone,heq]
    · simp [hnone,heq]
  -- what is available already is the reader of the session, which the call has captured
  have hsame : ∀ r∈(c.created.or s.reader).toList++s.available,c.reader=some r := by
    intro r hr
    rw [hreader,mem_append,mem_toList] at hr
    refine hr.elim id fun hr => ?_
    have := (h.remote r hr).1
    rcases hown with ⟨-,heq⟩ | ⟨hnone,-⟩
    · exact heq.trans this
    · simp [hnone] at this
  simp only [Bool.or_eq_true,not_or,Bool.not_eq_true,Bool.not_eq_false',decide_eq_true_eq,not_not] at hlost
  refine ⟨?_,?_,fun r hr => ?_,fun hb => ?_,h.epoch⟩
  · exact (h.put hc (d := {c with stage := .leaving, published := true}) trivial fun _ => hold).slot
  · intro x hx
    obtain ⟨j,hj⟩ := mem_iff_getElem?.mp hx
    rcases getElem?_set_some hj with ⟨-,rfl⟩ | ⟨hne,hj⟩
    · trivial
    · refine (h.calls x (mem_of_getElem? hj)).of_not_holding (fun hx => hne ?_) (List.Subset.refl _)
      exact Option.some.inj ((h.slot j x hj hx).symm.trans (h.slot i c hc hold))
  · have hr := hsame r hr
    refine ⟨hreader.trans hr,hlost.1.1,c,rfl,hlost.1.2.symm,hlive,rfl,hr,?_⟩
    exact hchecked.resolve_left (by simp [hr])
  · have := h.kept hb
    rcases hbinding with hnone | heq
    · exact absurd (this.symm.trans hnone) hb
    · exact heq.symm.trans this

lemma Inv.leave (h : Inv b₀ e₀ s) (hstep : s.atStage i .leaving (s.leave i)=some t) : Inv b₀ e₀ t := by
  obtain ⟨c,hc,hstage,-,rfl⟩ := h.call hstep
  have hslot := h.slot i c hc (by simp [Call.holding,hstage])
  have hmore := h.stop_readers (if c.published then none else c.created).toList
  refine {hmore with slot := fun j x hx hhold => ?_, calls := forall_mem_set hmore.calls ?_}
  · rcases getElem?_set_some hx with ⟨rfl,rfl⟩ | ⟨hne,hx⟩
    · exact absurd rfl hhold.2
    · exact absurd (Option.some.inj ((h.slot j x hx hhold).symm.trans hslot)) hne
  · intro hp r hr
    have hp : c.published=false := by simpa using hp
    exact mem_append_left _ (by simpa [hp] using hr)

variable [DecidableEq B]

lemma Inv.step (h : Inv b₀ e₀ s) {a : Act B} (hstep : s.step a=some t) : Inv b₀ e₀ t := by
  cases a with
  | setOnline online =>
    cases hstep
    exact h.ite (.ite {h.nextEpoch with remote := h.suspend_available} h)
  | transportChanged | refuseIdentity e | stop =>
    cases hstep
    exact h.ite {h.nextEpoch with remote := h.suspend_available}
  | transportReset =>
    simp only [Session.step,ite_none_left_eq_some,Option.some.injEq] at hstep
    obtain ⟨hresets,rfl⟩ := hstep
    refine {h with remote := fun r hr => ?_}
    have := (h.remote r hr).2.1
    simp [admits,hresets] at this
  | join =>
    simp only [Session.step,ite_none_right_eq_some,Option.some.injEq] at hstep
    obtain ⟨-,rfl⟩ := hstep
    exact h.stop_readers _
  | qualify =>
    cases hstep
    split_ifs
    · refine {h with slot := fun j x hx hhold => ?_, calls := fun x hx => ?_}
      · rcases getElem?_concat_some hx with hx | ⟨-,rfl⟩
        · exact h.slot j x hx hhold
        · exact absurd rfl hhold.1
      · rcases mem_append.mp hx with hx | hx
        · exact h.calls x hx
        · cases mem_singleton.mp hx
          exact (rfl : (none : Option ℕ)=none)
    · exact h
  | expire i =>
    obtain ⟨c,hc,rfl⟩ := map_eq_some_iff.mp hstep
    exact h.put hc (h.calls c (mem_of_getElem? hc)) id
  | giveUp i =>
    simp only [Session.step,bind_eq_bind,bind_eq_some_iff,ite_none_right_eq_some,Option.some.injEq]
      at hstep
    obtain ⟨c,hc,⟨hstage,-⟩,rfl⟩ := hstep
    have hok := h.calls c (mem_of_getElem? hc)
    simp only [Call.Ok,hstage] at hok
    exact h.put hc (fun _ r hr => by simp [hok] at hr) fun hold => absurd rfl hold.2
  | take i =>
    simp only [Session.step,ite_none_right_eq_some] at hstep
    obtain ⟨hslot,hstep⟩ := hstep
    obtain ⟨c,hc,hstage,hok,rfl⟩ := h.call hstep
    simp only [Call.Ok,hstage] at hok
    refine {h with slot := fun j x hx hhold => ?_, calls := forall_mem_set h.calls ?_}
    · rcases getElem?_set_some hx with ⟨rfl,-⟩ | ⟨-,hx⟩
      · rfl
      · exact absurd (hslot.symm.trans (h.slot j x hx hhold)) nofun
    · split_ifs
      · trivial
      · exact hok
  | capture i => exact h.move hstep ⟨nofun,nofun⟩ fun c hc hok => hok.capture hc
  | probe i answer => exact h.move hstep ⟨nofun,nofun⟩ fun c hc hok => hok.probed hc answer
  | makeReader i result => exact h.makeReader hstep
  | revalidate i answer => exact h.move hstep ⟨nofun,nofun⟩ fun c hc hok => hok.revalidate hc answer
  | recheck i err => exact h.move hstep ⟨nofun,nofun⟩ fun c hc hok => hok.recheck hc err
  | save i err => exact h.move hstep ⟨nofun,nofun⟩ fun c hc hok => hok.save hc err
  | publish i => exact h.publish hstep
  | leave i => exact h.leave hstep

lemma Inv.run (h : Inv b₀ e₀ s) {as : List (Act B)} (hrun : run Session.step s as=some t) : Inv b₀ e₀ t :=
  run_invariant (fun _ _ _ h hstep => h.step hstep) h hrun

def publication : List (Act Bool) := [.setOnline true,.qualify,.take 0,.capture 0,.probe 0 (.ok true),
  .makeReader 0 .made,.revalidate 0 .done,.save 0 none,.publish 0,.leave 0]

end Session
end JuiceMount.Cache.Qualification
