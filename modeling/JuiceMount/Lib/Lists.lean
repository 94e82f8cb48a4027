import Mathlib.Tactic

/-! Sums over a list when one element is replaced or goes, the elements of a list after one was replaced or
added, and the consecutive pieces of a list that a loop with a step takes. -/
namespace JuiceMount.Lists
open List

variable {α β : Type*} {l : List α} {k : ℕ} {w : α}

lemma getElem?_set_some {x y : α} {i : ℕ} (h : (l.set k x)[i]? = some y) : (i=k ∧ y=x) ∨ (i≠k ∧ l[i]? = some y) := by
  rw [getElem?_set] at h
  split at h
  · rename_i hik
    split_ifs at h
    cases h
    exact .inl ⟨hik.symm,rfl⟩
  · rename_i hik
    exact .inr ⟨Ne.symm hik,h⟩

lemma forall_mem_set {p : α → Prop} (h : ∀ x∈l,p x) (hw : p w) : ∀ x∈l.set k w,p x :=
  fun x hx => (mem_or_eq_of_mem_set hx).elim (h x) fun heq => heq ▸ hw

lemma getElem?_concat_some {x y : α} {i : ℕ} (h : (l++[x])[i]? = some y) : l[i]? = some y ∨ (i=l.length ∧ y=x) := by
  rw [getElem?_append] at h
  split at h
  · exact .inl h
  rename_i hi
  obtain ⟨hlt,hget⟩ := List.getElem?_eq_some_iff.mp h
  have : i=l.length := by
    rw [length_singleton] at hlt
    omega
  refine .inr ⟨this,?_⟩
  rw [← hget]
  simp

lemma sum_set (g : α → ℕ) (h : l[k]? = some w) (x : α) : ((l.set k x).map g).sum+g w=(l.map g).sum+g x := by
  induction l generalizing k with
  | nil => simp at h
  | cons y l ih =>
    cases k with
    | zero =>
      obtain rfl : y=w := by simpa using h
      simp only [set_cons_zero,map_cons,sum_cons]
      omega
    | succ k =>
      have := ih (k := k) (by simpa using h)
      simp only [set_cons_succ,map_cons,sum_cons]
      omega

lemma sum_eraseIdx (g : α → ℕ) (h : l[k]? = some w) : ((l.eraseIdx k).map g).sum+g w=(l.map g).sum := by
  induction l generalizing k with
  | nil => simp at h
  | cons y l ih =>
    cases k with
    | zero =>
      obtain rfl : y=w := by simpa using h
      simp only [eraseIdx_cons_zero,map_cons,sum_cons]
      omega
    | succ k =>
      have := ih (k := k) (by simpa using h)
      simp only [eraseIdx_cons_succ,map_cons,sum_cons]
      omega

/-- The pieces of at most `size+1` elements; every pass takes one element at least. -/
def chunksFuel (size : ℕ) : ℕ → List α → List (List α)
  | 0,_ => []
  | _+1,[] => []
  | fuel+1,x::xs => (x::xs.take size)::chunksFuel size fuel (xs.drop size)

def chunks (size : ℕ) (l : List α) : List (List α) := chunksFuel (size-1) l.length l

lemma chunksFuel_flatten (size : ℕ) {fuel : ℕ} {l : List α} (h : l.length≤fuel) : (chunksFuel size fuel l).flatten=l := by
  induction fuel generalizing l with
  | zero => simp [length_eq_zero_iff.mp (Nat.le_zero.mp h),chunksFuel]
  | succ fuel ih =>
    cases l with
    | nil => rfl
    | cons x xs =>
      rw [length_cons] at h
      rw [chunksFuel,flatten_cons,ih (by rw [length_drop]; omega),cons_append,take_append_drop]

lemma chunks_flatten (size : ℕ) (l : List α) : (chunks size l).flatten=l := chunksFuel_flatten _ le_rfl

lemma chunksFuel_length {size fuel : ℕ} {l c : List α} (h : c∈chunksFuel size fuel l) : c≠[] ∧ c.length ≤ size+1 := by
  induction fuel generalizing l with
  | zero => cases h
  | succ fuel ih =>
    cases l with
    | nil => cases h
    | cons x xs =>
      obtain rfl | h := mem_cons.mp h
      · refine ⟨cons_ne_nil _ _,?_⟩
        rw [length_cons,length_take]
        omega
      · exact ih h

lemma chunks_length {size : ℕ} {l c : List α} (hsize : 0<size) (h : c∈chunks size l) : c≠[] ∧ c.length ≤ size := by
  obtain ⟨hne,hle⟩ := chunksFuel_length h
  exact ⟨hne,by omega⟩

lemma nodup_flatMap_of_source {β γ : Type*} {l : List α} {f : α → List β} {g : β → γ} {key : α → γ}
    (hl : (l.map key).Nodup) (hf : ∀ x∈l,(f x).Nodup) (hsource : ∀ x∈l,∀ y∈f x,g y=key x) : (l.flatMap f).Nodup := by
  refine nodup_flatMap.mpr ⟨hf,?_⟩
  refine List.Pairwise.imp_of_mem (fun {a b} ha hb hne => ?_) (pairwise_map.mp hl)
  intro y hya hyb
  exact hne ((hsource a ha y hya).symm.trans (hsource b hb y hyb))

end JuiceMount.Lists
