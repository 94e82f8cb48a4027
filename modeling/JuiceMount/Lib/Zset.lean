import Mathlib.Tactic

/-! Sorted sets with natural scores: members once each, in the order of their scores and then of
the members themselves. -/
namespace JuiceMount
open List

abbrev Zset (μ : Type*) := List (ℕ × μ)

namespace Zset
variable {μ : Type*} [DecidableEq μ] {lt : μ → μ → Bool} {z : Zset μ} {e : ℕ × μ} {m : μ}

def insert (lt : μ → μ → Bool) (e : ℕ × μ) : Zset μ → Zset μ
  | [] => [e]
  | x::z => if e.1<x.1 || (e.1=x.1 && lt e.2 x.2) then e::x::z else x::insert lt e z

/-- ZREM. -/
def rem (z : Zset μ) (m : μ) : Zset μ := z.filter (fun e => e.2≠m)

/-- ZADD: a member already there gets the new score. -/
def add (lt : μ → μ → Bool) (z : Zset μ) (score : ℕ) (m : μ) : Zset μ := insert lt (score,m) (z.rem m)

/-- ZRANGE BYSCORE with both ends. -/
def range (z : Zset μ) (lo hi : ℕ) : Zset μ := z.filter (fun e => lo≤e.1 && e.1≤hi)

/-- ZRANGE BYSCORE from `lo` to +inf. -/
def above (z : Zset μ) (lo : ℕ) : Zset μ := z.filter (fun e => lo≤e.1)

def Sorted (z : Zset μ) : Prop := z.Pairwise (fun a b => a.1≤b.1)

omit [DecidableEq μ] in
lemma mem_insert {x : ℕ × μ} : x∈insert lt e z ↔ x=e ∨ x∈z := by
  induction z with
  | nil => simp [insert]
  | cons y z ih =>
    unfold insert
    split
    · simp
    · simp only [mem_cons,ih]
      tauto

lemma mem_rem {x : ℕ × μ} : x∈z.rem m ↔ x∈z ∧ x.2≠m := by simp [rem]

lemma mem_add {x : ℕ × μ} {score : ℕ} : x∈z.add lt score m ↔ x=(score,m) ∨ (x∈z ∧ x.2≠m) := by
  rw [add,mem_insert,mem_rem]

omit [DecidableEq μ] in
lemma mem_range {x : ℕ × μ} {lo hi : ℕ} : x∈z.range lo hi ↔ x∈z ∧ lo≤x.1 ∧ x.1≤hi := by
  simp [range]

omit [DecidableEq μ] in
lemma sorted_insert (h : Sorted z) : Sorted (insert lt e z) := by
  induction z with
  | nil => simp [insert,Sorted]
  | cons x z ih =>
    obtain ⟨hx,hz⟩ := pairwise_cons.mp h
    unfold insert
    split
    · rename_i hlt
      have hle : e.1≤x.1 := by
        simp only [Bool.or_eq_true,Bool.and_eq_true,decide_eq_true_eq] at hlt
        omega
      refine pairwise_cons.mpr ⟨fun y hy => ?_,h⟩
      obtain rfl | hy := mem_cons.mp hy
      · exact hle
      · exact hle.trans (hx y hy)
    · rename_i hlt
      have hle : x.1≤e.1 := by
        simp only [Bool.or_eq_true,Bool.and_eq_true,decide_eq_true_eq] at hlt
        omega
      refine pairwise_cons.mpr ⟨fun y hy => ?_,ih hz⟩
      obtain rfl | hy := mem_insert.mp hy
      · exact hle
      · exact hx y hy

lemma sorted_rem (h : Sorted z) : Sorted (z.rem m) := h.sublist filter_sublist

lemma sorted_add {score : ℕ} (h : Sorted z) : Sorted (z.add lt score m) :=
  sorted_insert (sorted_rem h)

omit [DecidableEq μ] in
lemma first_above {lo : ℕ} (h : Sorted z) (he : (z.above lo).head? = some e) : e∈z ∧ lo≤e.1 ∧ ∀ x∈z,lo≤x.1 → e.1≤x.1 := by
  obtain ⟨l,hl⟩ := head?_eq_some_iff.mp he
  have hsorted : (e::l).Pairwise (fun a b => a.1≤b.1) := hl ▸ h.sublist filter_sublist
  have hmem : ∀ x,x∈z ∧ lo≤x.1 ↔ x∈e::l := fun x => by
    rw [← hl]
    simp [above]
  refine ⟨((hmem e).mpr mem_cons_self).1,((hmem e).mpr mem_cons_self).2,fun x hx hlo => ?_⟩
  obtain rfl | hxl := mem_cons.mp ((hmem x).mp ⟨hx,hlo⟩)
  · exact le_rfl
  · exact (pairwise_cons.mp hsorted).1 x hxl

end Zset
end JuiceMount
