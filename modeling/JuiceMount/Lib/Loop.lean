import Mathlib.Tactic

/-! Loops whose body may stop with an error, and the rule that carries a property of the
elements visited so far through them. -/
namespace JuiceMount.Loop

variable {σ α ε : Type*}

def each (body : σ → α → Except ε σ) : σ → List α → Except ε σ
  | s,[] => .ok s
  | s,a::as =>
    match body s a with
    | .error e => .error e
    | .ok t => each body t as

lemma each_cons_eq_ok {body : σ → α → Except ε σ} {s t : σ} {a : α} {as : List α} :
    each body s (a::as)=.ok t ↔ ∃ m,body s a=.ok m ∧ each body m as=.ok t := by
  simp only [each]
  cases body s a <;> simp

/-- What every pass of the body establishes for one element more holds of all of them at the
end. -/
lemma each_induct {body : σ → α → Except ε σ} {I : List α → σ → Prop} {s t : σ} {as : List α}
    (h : each body s as=.ok t) (h0 : I [] s)
    (hstep : ∀ seen a,a∈as → ∀ m n,I seen m → body m a=.ok n → I (seen++[a]) n) : I as t := by
  suffices H : ∀ seen rest s,seen++rest=as → each body s rest=.ok t → I seen s → I as t from
    H [] as s rfl h h0
  intro seen rest
  induction rest generalizing seen with
  | nil =>
    intro s hsplit hs hI
    cases hs
    rwa [← hsplit,List.append_nil]
  | cons a rest ih =>
    intro s hsplit hs hI
    obtain ⟨m,hm,hrest⟩ := each_cons_eq_ok.mp hs
    have hmem : a∈as := by rw [← hsplit]; simp
    exact ih (seen++[a]) m (by simpa using hsplit) hrest (hstep seen a hmem s m hI hm)

end JuiceMount.Loop
