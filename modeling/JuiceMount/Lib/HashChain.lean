import Mathlib.Data.List.Chain

/-! Lists in which every element names the hash of the element before it. Two such lists that end
in the same element agree backwards from there, for as long as the hash tells their elements
apart. -/
namespace JuiceMount.HashChain
open List

variable {α H : Type*} {hash : α → H} {prev : α → Option H}

def Linked (hash : α → H) (prev : α → Option H) (l : List α) : Prop :=
  l.IsChain fun a b => prev b = some (hash a)

lemma Linked.nil : Linked hash prev ([] : List α) := isChain_nil

lemma linked_append {l l' : List α} : Linked hash prev (l++l') ↔
    Linked hash prev l ∧ Linked hash prev l' ∧ ∀ a∈l.getLast?,∀ b∈l'.head?, prev b=some (hash a) :=
  isChain_append

lemma linked_concat {l : List α} {x : α} : Linked hash prev (l++[x]) ↔
    Linked hash prev l ∧ ∀ a∈l.getLast?, prev x=some (hash a) := by
  rw [linked_append]
  constructor
  · rintro ⟨hl,-,h⟩
    exact ⟨hl,fun a ha => h a ha x rfl⟩
  · rintro ⟨hl,h⟩
    refine ⟨hl,isChain_singleton x,fun a ha b hb => ?_⟩
    cases hb
    exact h a ha

lemma Linked.infix {l l' : List α} (h : Linked hash prev l) (hl : l' <:+: l) : Linked hash prev l' :=
  List.IsChain.infix h hl

/-- Backwards from a common element, a list is a tail of the one that starts at the root `z`. -/
theorem Linked.suffix_of_last {z : H} {xs ys : List α} {x : α}
    (hx : Linked hash prev (xs++[x])) (hy : Linked hash prev (ys++[x])) (root : ∀ y∈(ys++[x]).head?, prev y=some z)
    (same : ∀ a∈xs,∀ b∈ys, hash a=hash b → a=b) (fresh : ∀ a∈xs, hash a≠z) : xs <:+ ys := by
  induction xs using List.reverseRecOn generalizing ys x with
  | nil => exact nil_suffix
  | append_singleton xs a ih =>
    obtain ⟨hxs,hxa⟩ := linked_concat.mp hx
    have ha : prev x=some (hash a) := hxa a (by simp)
    rcases eq_nil_or_concat ys with rfl | ⟨ys,b,rfl⟩
    · -- The other list begins at `x`, so `a` would hash to the root.
      have hz : prev x=some z := root x rfl
      exact absurd (Option.some.inj (ha.symm.trans hz)) (fresh a (by simp))
    rw [concat_eq_append] at hy root same ⊢
    obtain ⟨hys,hyb⟩ := linked_concat.mp hy
    have hb : prev x=some (hash b) := hyb b (by simp)
    have hab : a=b := same a (by simp) b (by simp) (Option.some.inj (ha.symm.trans hb))
    subst hab
    have hroot : ∀ y∈(ys++[a]).head?, prev y=some z := by
      intro y hy'
      refine root y ?_
      rw [head?_append_of_ne_nil _ (by simp)]
      exact hy'
    have hsuffix := ih hxs hys hroot (fun c hc d hd => same c (by simp [hc]) d (by simp [hd]))
      (fun c hc => fresh c (by simp [hc]))
    obtain ⟨t,rfl⟩ := hsuffix
    exact ⟨t,by simp⟩

end JuiceMount.HashChain
