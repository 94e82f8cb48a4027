import JuiceMount.Manager.Admissions

/-! The auto-approve window over whole runs. The Manager runs together with a history of enrolments,
reload requests and approvals: how many Macs a window approves, from which addresses, and what the
proxy has applied by then. -/
namespace JuiceMount.Manager
open List Keyed Bool
open RespProxy (Bytes ascii)

/-- An enrolment: its record, and how many windows were set and reload requests written before it. -/
structure Enrolled where
  who : Candidate
  window : ℕ
  request : ℕ
  deriving DecidableEq, Repr

/-- The Manager with its history. Reload requests are numbered; `applied` is the last one the proxy
applied, `proofs` are the batches a request was written for, and `granted` the Macs that passes
approved since the window was last set. -/
structure Watch where
  world : World
  windows : ℕ := 0
  requests : ℕ := 0
  applied : ℕ := 0
  enrolled : List Enrolled
  proofs : List (List Candidate × ℕ) := []
  granted : List Mac := []
  deriving DecidableEq, Repr

/-- A step of the Manager, a reload request for another change of the proxy's files, or a request
the proxy applied. -/
inductive Event
  | act (a : Act)
  | requested
  | applied (n : ℕ)

def World.joined (w w' : World) : List Mac := w'.mem.recs.filter fun r => (w.mem.mac r.name).isNone

def World.newly (w w' : World) : List Mac := w'.mem.recs.filter fun r => r.auto && !(w.mem.mac r.name).any Mac.auto

namespace Watch

def asks (x : Watch) : Act → Option (List Candidate)
  | .passProof i _ io =>
    match x.world.calls[i]? with
    | some (.pass batch false) => if (x.world.requestReload io).2 then some batch else none
    | _ => none
  | _ => none

/-- A pass commits when the proxy has applied the request written for its batch, or a later one. -/
def proven (x : Watch) : Act → Bool
  | .passCommit i _ _ =>
    match x.world.calls[i]? with
    | some (.pass batch true) => x.proofs.any fun p => p.1=batch && p.2≤x.applied
    | _ => true
  | _ => true

def after (x : Watch) (a : Act) (w : World) : Watch where
  world := w
  windows := if a.sets x.world.mem then x.windows+1 else x.windows
  requests := x.requests+(x.asks a).toList.length
  applied := x.applied
  enrolled := x.enrolled++(x.world.joined w).map fun r => ⟨r.candidate,x.windows,x.requests⟩
  proofs := x.proofs++(x.asks a).toList.map fun batch => (batch,x.requests+1)
  granted := if a.sets x.world.mem then [] else x.granted++x.world.newly w

/-- No two enrolments make the same record: their hashes are salted. -/
def step (cfg : Config) (x : Watch) : Event → Option Watch
  | .act a =>
    if a.running && x.proven a then
      (x.world.step cfg a).bind fun w =>
        if (x.world.joined w).all (fun r => r.candidate ∉ x.enrolled.map Enrolled.who) then some (x.after a w) else none
    else none
  | .requested => some { x with requests := x.requests+1 }
  | .applied n => if n≤x.requests then some { x with applied := max x.applied n } else none

/-- The Macs from these addresses that wait on the window or were approved for it. -/
def tally (x : Watch) (p : Bytes → Bool) : ℕ :=
  x.world.mem.recs.countP (fun r => r.waits && p r.sourceIP)+x.granted.countP fun r => p r.sourceIP

end Watch

/-- The window's counters cover the Macs it let in. -/
structure Covered (x : Watch) : Prop where
  total : x.tally (fun _ => true)≤x.world.mem.window.used
  limit : x.world.mem.window.used≤x.world.mem.window.max
  address : ∀ ip, x.tally (fun a => a=ip) ≤ x.world.mem.window.perIP.getD ip 0
  perIP : ∀ ip, x.world.mem.window.perIP.getD ip 0≤Store.maxAutoApprovePerIP

/-- What holds of the window and the history in every run. -/
structure Inside (x : Watch) : Prop where
  nodup : (x.world.mem.recs.map Mac.name).Nodup
  covered : Covered x
  known : ∀ r∈x.world.mem.recs,∃ e∈x.enrolled, e.who=r.candidate ∧ e.request≤x.requests ∧
    (r.waits=true → e.window=x.windows)
  once : (x.enrolled.map Enrolled.who).Nodup
  batches : ∀ batch proven, Call.pass batch proven∈x.world.calls → ∀ c∈batch,∃ e∈x.enrolled, e.who=c ∧ e.request≤x.requests
  proofs : ∀ p∈x.proofs, ∀ c∈p.1,∃ e∈x.enrolled, e.who=c ∧ e.request<p.2

section
variable {cfg : Config} {x x' : Watch} {a : Act} {w : World} {s : Store}

lemma step_act (h : x.step cfg (.act a)=some x') : a.running=true ∧ x.proven a=true ∧
    ∃ w, x.world.step cfg a=some w ∧ (∀ r∈x.world.joined w, r.candidate ∉ x.enrolled.map Enrolled.who) ∧ x'=x.after a w := by
  change (if _ then _ else none)=_ at h
  split_ifs at h with hguard
  obtain ⟨w,hw,h⟩ := Option.bind_eq_some_iff.mp h
  split at h
  · rename_i hfresh
    cases h
    rw [and_eq_true] at hguard
    refine ⟨hguard.1,hguard.2,w,hw,fun r hr => ?_,rfl⟩
    simpa using List.all_eq_true.mp hfresh r hr
  · cases h

lemma mac_none {name : Bytes} (h : ∀ r∈s.recs, r.name≠name) : s.mac name=none := find_eq_none.mpr h

lemma auto_known {r r' : Mac} (hnodup : (s.recs.map Mac.name).Nodup) (hr : r∈s.recs) (ht : Tame r r')
    (hauto : r'.auto=true) : (s.mac r'.name).any Mac.auto=true := by
  rw [ht.name,Store.mac,find_of_mem hnodup hr]
  exact ht.auto hauto

/-- Macs the window let go, or approved, are Macs that waited. -/
theorem tally_le {p : Bytes → Bool} {batch : List Candidate} (hnodup : (x.world.mem.recs.map Mac.name).Nodup)
    (hnodup' : (w.mem.recs.map Mac.name).Nodup)
    (horigin : ∀ r'∈w.mem.recs,∃ r∈x.world.mem.recs, Tame r r' ∨ Granted x.world.mem batch r r') :
    w.mem.recs.countP (fun r => r.waits && p r.sourceIP)+(x.world.newly w).countP (fun r => p r.sourceIP) ≤
      x.world.mem.recs.countP fun r => r.waits && p r.sourceIP := by
  have hapart : ∀ l : List Mac, l.countP (fun r => r.waits && p r.sourceIP)+
      l.countP (fun r => p r.sourceIP && (r.auto && !(x.world.mem.mac r.name).any Mac.auto)) =
      l.countP fun r => (r.waits && p r.sourceIP) || (p r.sourceIP && (r.auto && !(x.world.mem.mac r.name).any Mac.auto)) := by
    intro l
    induction l with
    | nil => rfl
    | cons r l ih =>
      have hne : r.waits=true → r.auto=false := by
        intro hw
        simp only [Mac.waits,and_eq_true,decide_eq_true_eq] at hw
        simp [Mac.auto,hw.1]
      simp only [countP_cons,← ih]
      cases hw : r.waits with
      | false => simp; omega
      | true => simp [hne hw]; omega
  rw [World.newly,countP_filter,hapart]
  refine countP_le_of_origin hnodup' fun r' hr' hcount => ?_
  obtain ⟨r,hr,horig⟩ := horigin r' hr'
  simp only [or_eq_true,and_eq_true,not_eq_true'] at hcount
  rcases horig with ht | hg
  · rcases hcount with ⟨hw,hp⟩ | ⟨-,hauto,hnot⟩
    · exact ⟨r,hr,by rw [ht.waits hw,← ht.ip,hp]; rfl,ht.name.symm⟩
    · rw [auto_known hnodup hr ht hauto] at hnot
      cases hnot
  · have hp : p r'.sourceIP=true := by
      rcases hcount with hc | hc
      · exact hc.2
      · exact hc.1
    exact ⟨r,hr,by rw [hg.waited,← hg.ip,hp]; rfl,(congrArg Candidate.name hg.who).symm⟩

lemma newly_nil (hnodup : (x.world.mem.recs.map Mac.name).Nodup)
    (horigin : ∀ r'∈w.mem.recs, r'.auto=true → ∃ r∈x.world.mem.recs, Tame r r') : x.world.newly w=[] := by
  refine filter_eq_nil_iff.mpr fun r' hr' hnew => ?_
  rw [and_eq_true] at hnew
  obtain ⟨r,hr,ht⟩ := horigin r' hr' hnew.1
  rw [auto_known hnodup hr ht hnew.1] at hnew
  cases hnew.2

lemma Covered.of_le (h : Covered x) (hwindow : x'.world.mem.window=x.world.mem.window) (htally : ∀ p, x'.tally p≤x.tally p) :
    Covered x' := by
  refine ⟨(htally _).trans ?_,?_,fun ip => (htally _).trans ?_,?_⟩
  all_goals rw [hwindow]
  · exact h.total
  · exact h.limit
  · exact h.address ip
  · exact h.perIP

theorem Covered.admit {ip : Bytes} {now : ℤ} (h : Covered x) (hwindow : x'.world.mem.window=(x.world.mem.countAuto ip).window)
    (hauto : x.world.mem.autoApprovable now ip=true) (htally : ∀ p, x'.tally p≤x.tally p+if p ip then 1 else 0) : Covered x' := by
  unfold Store.autoApprovable at hauto
  simp only [and_eq_true,decide_eq_true_eq] at hauto
  obtain ⟨⟨-,hroom⟩,hfew⟩ := hauto
  have hcount : ∀ a, x'.world.mem.window.perIP.getD a 0 =
      if a=ip then x.world.mem.window.perIP.getD ip 0+1 else x.world.mem.window.perIP.getD a 0 := by
    intro a
    rw [hwindow]
    exact GoMap.getD_set _ _ _ _ _
  refine ⟨?_,?_,fun a => ?_,fun a => ?_⟩
  · rw [hwindow]
    exact (htally _).trans (Nat.add_le_add_right h.total 1)
  · rw [hwindow]
    exact hroom
  · have hle := htally fun b => decide (b=a)
    have hold := h.address a
    rw [hcount]
    by_cases ha : a=ip
    · subst ha
      simp only [decide_true,if_true] at hle ⊢
      omega
    · simp only [decide_eq_false (Ne.symm ha)] at hle
      rw [if_neg ha]
      simpa using hle.trans (Nat.add_le_add_right hold _)
  · rw [hcount]
    split
    · exact hfew
    · exact h.perIP a

lemma Covered.reset {length : ℤ} {limit : ℕ} {now : ℤ} (h : Covered x)
    (hwindow : x'.world.mem.window=World.newWindow length limit now x.world.mem.window) (htally : ∀ p, x'.tally p=0) :
    Covered x' := by
  have hnew : x'.world.mem.window.used≤x'.world.mem.window.max ∧
      ∀ ip, x'.world.mem.window.perIP.getD ip 0≤Store.maxAutoApprovePerIP := by
    rw [hwindow]
    unfold World.newWindow
    split
    · exact ⟨h.limit,h.perIP⟩
    · exact ⟨Nat.zero_le _,fun _ => Nat.zero_le _⟩
  exact ⟨by rw [htally]; exact Nat.zero_le _,hnew.1,fun ip => by rw [htally]; exact Nat.zero_le _,hnew.2⟩

lemma covered_turn (hnodup : (x.world.mem.recs.map Mac.name).Nodup) (h : Covered x)
    (hturn : Turn x.world.mem x.world.calls a w.mem) : Covered (x.after a w) := by
  have hgrants : ∀ batch : List Candidate, a.sets x.world.mem=false → (w.mem.recs.map Mac.name).Nodup →
      (∀ r'∈w.mem.recs,∃ r∈x.world.mem.recs, Tame r r' ∨ Granted x.world.mem batch r r') →
      ∀ p, (x.after a w).tally p≤x.tally p := by
    intro batch hsets hnodup' horigin p
    have hle := tally_le (p := p) hnodup hnodup' horigin
    simp only [Watch.tally,Watch.after,hsets,false_eq_true,if_false,countP_append]
    omega
  cases hturn with
  | tame _ _ sets tamed =>
    refine h.of_le tamed.window (hgrants [] sets tamed.nodup fun r' hr' => ?_)
    obtain ⟨r,hr,ht⟩ := tamed.origin r' hr'
    exact ⟨r,hr,.inl ht⟩
  | entered _ _ m now sets entered =>
    have hnone : x.world.newly w=[] := by
      refine newly_nil hnodup fun r' hr' hauto => ?_
      rcases entered.origin r' hr' with horig | ht
      · exact horig
      · exact absurd (ht.auto hauto) (by rw [entered.auto]; exact false_ne_true)
    have hcount : ∀ p : Bytes → Bool, w.mem.recs.countP (fun r => r.waits && p r.sourceIP) ≤
        x.world.mem.recs.countP (fun r => r.waits && p r.sourceIP)+if m.waits && p m.sourceIP then 1 else 0 := by
      intro p
      have hle := countP_le_of_origin (l := x.world.mem.recs++[m]) (q := fun r => r.waits && p r.sourceIP)
        (p := fun r => r.waits && p r.sourceIP) entered.nodup fun r' hr' hw => ?_
      · rw [countP_append,countP_singleton] at hle
        exact hle
      · rw [and_eq_true] at hw
        have hsame : ∀ r, Tame r r' → (r.waits && p r.sourceIP)=true := by
          intro r ht
          rw [ht.waits hw.1,← ht.ip,hw.2]
          rfl
        rcases entered.origin r' hr' with ⟨r,hr,ht⟩ | ht
        · exact ⟨r,mem_append_left _ hr,hsame r ht,ht.name.symm⟩
        · exact ⟨m,mem_append_right _ (mem_singleton_self m),hsame m ht,ht.name.symm⟩
    have htally : ∀ p : Bytes → Bool, (x.after a w).tally p≤x.tally p+if m.waits && p m.sourceIP then 1 else 0 := by
      intro p
      have hle := hcount p
      simp only [Watch.tally,Watch.after,sets,false_eq_true,if_false,hnone,append_nil]
      omega
    rcases entered.window with ⟨hwindow,hwaits⟩ | ⟨hwindow,hauto⟩
    · refine h.of_le hwindow fun p => ?_
      simpa [hwaits] using htally p
    · refine h.admit hwindow hauto fun p => (htally p).trans (Nat.add_le_add_left ?_ _)
      cases m.waits <;> simp
  | granted i now io batch _ call isOpen nodup window origin => exact h.of_le window (hgrants batch rfl nodup origin)
  | set _ _ length limit now sets tamed window dropped =>
    refine h.reset window fun p => ?_
    have hnone : w.mem.recs.countP (fun r => r.waits && p r.sourceIP)=0 := by
      refine countP_eq_zero.mpr fun r hr => ?_
      rw [dropped r hr]
      exact false_ne_true
    simp [Watch.tally,Watch.after,sets,hnone]

theorem Turn.cases_record (hturn : Turn x.world.mem x.world.calls a w.mem) {r' : Mac} (hr' : r'∈w.mem.recs) :
    (∃ r∈x.world.mem.recs, r'.candidate=r.candidate ∧ (r'.waits=true → r.waits=true ∧ a.sets x.world.mem=false)) ∨
      r'∈x.world.joined w ∧ a.sets x.world.mem=false := by
  cases hturn with
  | tame _ _ sets tamed =>
    obtain ⟨r,hr,ht⟩ := tamed.origin r' hr'
    exact .inl ⟨r,hr,ht.who,fun hw => ⟨ht.waits hw,sets⟩⟩
  | entered _ _ m now sets entered =>
    rcases entered.origin r' hr' with ⟨r,hr,ht⟩ | ht
    · exact .inl ⟨r,hr,ht.who,fun hw => ⟨ht.waits hw,sets⟩⟩
    · refine .inr ⟨mem_filter.mpr ⟨hr',?_⟩,sets⟩
      rw [ht.name,mac_none entered.new]
      rfl
  | granted i now io batch _ call isOpen nodup window origin =>
    obtain ⟨r,hr,ht | hg⟩ := origin r' hr'
    · exact .inl ⟨r,hr,ht.who,fun hw => ⟨ht.waits hw,rfl⟩⟩
    · exact .inl ⟨r,hr,hg.who,fun hw => absurd hw (by rw [hg.settled]; exact false_ne_true)⟩
  | set _ _ length limit now sets tamed window dropped =>
    obtain ⟨r,hr,ht⟩ := tamed.origin r' hr'
    exact .inl ⟨r,hr,ht.who,fun hw => absurd hw (by rw [dropped r' hr']; exact false_ne_true)⟩

lemma Turn.nodup (hturn : Turn x.world.mem x.world.calls a w.mem) : (w.mem.recs.map Mac.name).Nodup := by
  cases hturn with
  | tame _ _ _ tamed | set _ _ _ _ _ _ tamed _ _ => exact tamed.nodup
  | entered _ _ _ _ _ entered => exact entered.nodup
  | granted _ _ _ _ _ _ _ nodup _ _ => exact nodup

lemma candidates_mem {c : Candidate} (h : c∈World.candidates s) : ∃ r∈s.recs, r.candidate=c := by
  obtain ⟨r,hr,rfl⟩ := mem_map.mp h
  exact ⟨r,(mem_filter.mp hr).1,rfl⟩

lemma candidate_nodup {l : List Mac} (h : (l.map Mac.name).Nodup) : (l.map Mac.candidate).Nodup := by
  refine List.Nodup.of_map Candidate.name ?_
  rw [map_map]
  exact h

lemma asks_batch {batch : List Candidate} (h : x.asks a=some batch) : Call.pass batch false∈x.world.calls := by
  unfold Watch.asks at h
  split at h
  case h_2 => cases h
  split at h
  · rename_i hcall
    split at h
    · cases h
      exact mem_of_getElem? hcall
    · cases h
  · cases h

lemma Inside.act (h : Inside x) (hstep : x.step cfg (.act a)=some x') : Inside x' := by
  obtain ⟨hrunning,-,w,hw,hfresh,rfl⟩ := step_act hstep
  have hturn := step_turn h.nodup hrunning hw
  have hold : ∀ {e : Enrolled}, e∈x.enrolled → e∈(x.after a w).enrolled := fun he => mem_append_left _ he
  have hrequests : x.requests≤(x.after a w).requests := Nat.le_add_right _ _
  refine ⟨hturn.nodup,covered_turn h.nodup h.covered hturn,fun r' hr' => ?_,?_,fun batch proven hc c hcb => ?_,fun p hp c hc => ?_⟩
  · rcases hturn.cases_record hr' with ⟨r,hr,hwho,hwaits⟩ | ⟨hjoined,hsets⟩
    · obtain ⟨e,he,hewho,hle,hwindow⟩ := h.known r hr
      refine ⟨e,hold he,hewho.trans hwho.symm,hle.trans hrequests,fun hw' => ?_⟩
      obtain ⟨hwr,hsets⟩ := hwaits hw'
      simp only [Watch.after,hsets,false_eq_true,if_false]
      exact hwindow hwr
    · refine ⟨⟨r'.candidate,x.windows,x.requests⟩,?_,rfl,hrequests,fun _ => ?_⟩
      · exact mem_append_right _ (mem_map.mpr ⟨r',hjoined,rfl⟩)
      · simp only [Watch.after,hsets,false_eq_true,if_false]
  · change ((x.enrolled++(x.world.joined w).map _).map Enrolled.who).Nodup
    rw [map_append,map_map]
    have hjoined := candidate_nodup (hturn.nodup.sublist (List.Sublist.map Mac.name filter_sublist : ((x.world.joined w).map Mac.name).Sublist _))
    refine nodup_append.mpr ⟨h.once,hjoined,fun c hc d hd hcd => ?_⟩
    obtain ⟨r,hr,rfl⟩ := mem_map.mp hd
    rw [hcd] at hc
    exact hfresh r hr hc
  · have hbefore : ∀ {p : Bool}, Call.pass batch p∈x.world.calls →
        ∃ e∈(x.after a w).enrolled, e.who=c ∧ e.request≤(x.after a w).requests := by
      intro p hp
      obtain ⟨e,he,hewho,hle⟩ := h.batches batch p hp c hcb
      exact ⟨e,hold he,hewho,hle.trans hrequests⟩
    rcases step_calls hw hc with hcall | hnew
    · exact hbefore hcall
    cases hnew with
    | batch =>
      obtain ⟨r,hr,rfl⟩ := candidates_mem hcb
      obtain ⟨e,he,hewho,hle,-⟩ := h.known r hr
      exact ⟨e,hold he,hewho,hle.trans hrequests⟩
    | proven _ waiting => exact hbefore waiting
  · rcases mem_append.mp hp with hp | hp
    · obtain ⟨e,he,hlt⟩ := h.proofs p hp c hc
      exact ⟨e,hold he,hlt⟩
    · -- the request is written after every enrolment of the batch
      obtain ⟨batch,hbatch,rfl⟩ := mem_map.mp hp
      obtain ⟨e,he,hewho,hle⟩ := h.batches batch false (asks_batch (Option.mem_toList.mp hbatch)) c hc
      exact ⟨e,hold he,hewho,Nat.lt_succ_of_le hle⟩

lemma Inside.step {ev : Event} (h : Inside x) (hstep : x.step cfg ev=some x') : Inside x' := by
  cases ev with
  | act a => exact h.act hstep
  | requested =>
    cases hstep
    refine ⟨h.nodup,⟨h.covered.total,h.covered.limit,h.covered.address,h.covered.perIP⟩,fun r hr => ?_,h.once,
      fun batch proven hc c hcb => ?_,h.proofs⟩
    · obtain ⟨e,he,hwho,hle,hwindow⟩ := h.known r hr
      exact ⟨e,he,hwho,Nat.le_succ_of_le hle,hwindow⟩
    · obtain ⟨e,he,hwho,hle⟩ := h.batches batch proven hc c hcb
      exact ⟨e,he,hwho,Nat.le_succ_of_le hle⟩
  | applied n =>
    change (if _ then _ else none)=_ at hstep
    split_ifs at hstep
    cases hstep
    exact ⟨h.nodup,⟨h.covered.total,h.covered.limit,h.covered.address,h.covered.perIP⟩,h.known,h.once,h.batches,h.proofs⟩

end

/-- A Manager that starts on this store: the history begins with its records. -/
def Watch.start (w : World) : Watch where
  world := w
  enrolled := w.mem.recs.map fun r => ⟨r.candidate,0,0⟩

/-- The store's window covers the Macs that wait on it, and nothing is under way. -/
structure Startable (w : World) : Prop where
  idle : w.calls=[]
  nodup : (w.mem.recs.map Mac.name).Nodup
  covered : Covered (.start w)

lemma Startable.inside {w : World} (h : Startable w) : Inside (.start w) where
  nodup := h.nodup
  covered := h.covered
  known := fun r hr => ⟨⟨r.candidate,0,0⟩,mem_map.mpr ⟨r,hr,rfl⟩,rfl,Nat.le_refl _,fun _ => rfl⟩
  once := by
    change ((w.mem.recs.map _).map Enrolled.who).Nodup
    rw [map_map]
    exact candidate_nodup h.nodup
  batches := fun batch proven hc => by
    change _ ∈ w.calls at hc
    rw [h.idle] at hc
    cases hc
  proofs := fun _ hp => by cases hp

end JuiceMount.Manager
