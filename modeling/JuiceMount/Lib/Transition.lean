import Mathlib.Tactic

/-! Finite runs of a partial step function, and the two induction rules for them:
an invariant of every step, and an invariant of every step that meets a side condition. -/
namespace JuiceMount.Transition

variable {σ α : Type*}

/-- Run the actions in order; an action that is not enabled stops the run. -/
def run (step : σ → α → Option σ) : σ → List α → Option σ
  | s,[] => some s
  | s,a::as => (step s a).bind (fun t => run step t as)

@[simp] lemma run_nil (step : σ → α → Option σ) (s : σ) : run step s []=some s := rfl

variable {step : σ → α → Option σ} {s t : σ} {as : List α} {G H : σ → α → Prop} {I : σ → Prop}

lemma run_cons_eq_some {a : α} : run step s (a::as)=some t ↔ ∃ m, step s a=some m ∧ run step m as=some t := by
  simp [run,Option.bind_eq_some_iff]

lemma run_append {s m t : σ} {as bs : List α} (h : run step s as=some m) (h' : run step m bs=some t) :
    run step s (as++bs)=some t := by
  induction as generalizing s with
  | nil =>
    cases h
    exact h'
  | cons a as ih =>
    obtain ⟨n,hn,hr⟩ := run_cons_eq_some.mp h
    exact run_cons_eq_some.mpr ⟨n,hn,ih hr⟩

/-- Every step of the run from `s` meets `G` in the state it starts from. -/
def AllSteps (step : σ → α → Option σ) (G : σ → α → Prop) : σ → List α → Prop
  | _,[] => True
  | s,a::as => G s a ∧ ∀ t, step s a=some t → AllSteps step G t as

lemma allSteps_of_forall (h : ∀ a∈as,∀ s,G s a) : AllSteps step G s as := by
  induction as generalizing s with
  | nil => trivial
  | cons a as ih =>
    exact ⟨h a List.mem_cons_self s,fun t _ => ih (fun b hb => h b (List.mem_cons_of_mem a hb))⟩

lemma AllSteps.mono (hGH : ∀ s a, G s a → H s a) (h : AllSteps step G s as) : AllSteps step H s as := by
  induction as generalizing s with
  | nil => trivial
  | cons a as ih => exact ⟨hGH s a h.1,fun t ht => ih (h.2 t ht)⟩

lemma AllSteps.and (h : AllSteps step G s as)
    (h' : AllSteps step H s as) : AllSteps step (fun s a => G s a ∧ H s a) s as := by
  induction as generalizing s with
  | nil => trivial
  | cons a as ih => exact ⟨⟨h.1,h'.1⟩,fun t ht => ih (h.2 t ht) (h'.2 t ht)⟩

lemma AllSteps.of_invariant
    (hstep : ∀ s a t, I s → G s a → step s a=some t → I t) (hH : ∀ s a, I s → G s a → H s a) (hs : I s)
    (h : AllSteps step G s as) : AllSteps step H s as := by
  induction as generalizing s with
  | nil => trivial
  | cons a as ih => exact ⟨hH s a hs h.1,fun t ht => ih (hstep s a t hs h.1 ht) (h.2 t ht)⟩

def checkSteps (step : σ → α → Option σ) (g : σ → α → Bool) : σ → List α → Bool
  | _,[] => true
  | s,a::as => g s a && (step s a).all (fun t => checkSteps step g t as)

lemma allSteps_of_check {g : σ → α → Bool}
    (h : checkSteps step g s as=true) : AllSteps step (fun s a => g s a=true) s as := by
  induction as generalizing s with
  | nil => trivial
  | cons a as ih =>
    obtain ⟨hg,hrest⟩ := Bool.and_eq_true_iff.mp h
    refine ⟨hg,fun t ht => ih ?_⟩
    rw [ht] at hrest
    exact hrest

/-- What each step preserves, every run preserves. -/
theorem run_invariant (hstep : ∀ s a t, I s → step s a=some t → I t) (hs : I s) (h : run step s as=some t) : I t := by
  induction as generalizing s with
  | nil =>
    cases h
    exact hs
  | cons a as ih =>
    obtain ⟨m,hm,hr⟩ := run_cons_eq_some.mp h
    exact ih (hstep s a m hs hm) hr

/-- What each step that meets `G` preserves, every run of such steps preserves. -/
theorem run_invariant_of_allSteps (hstep : ∀ s a t, I s → G s a → step s a=some t → I t)
    (hs : I s) (hG : AllSteps step G s as) (h : run step s as=some t) : I t := by
  induction as generalizing s with
  | nil =>
    cases h
    exact hs
  | cons a as ih =>
    obtain ⟨m,hm,hr⟩ := run_cons_eq_some.mp h
    exact ih (hstep s a m hs hG.1 hm) (hG.2 m hm) hr

/-- A state and a run from `s₀` that reaches it. -/
structure Reached (step : σ → α → Option σ) (s₀ : σ) where
  state : σ
  acts : List α
  run : run step s₀ acts=some state

end JuiceMount.Transition
