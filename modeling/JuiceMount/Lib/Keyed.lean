import Mathlib.Tactic

/-! Lists whose elements carry their key, as maps: an element replaces the one with its key in
place, and a new one goes to the end. -/
namespace JuiceMount.Keyed
open List

variable {α κ : Type*} [DecidableEq κ] (key : α → κ)

def find (l : List α) (k : κ) : Option α := l.find? fun x => key x=k

def put (l : List α) (x : α) : List α :=
  if l.any (fun y => key y = key x) then l.map (fun y => if key y = key x then x else y) else l++[x]

def drop (l : List α) (k : κ) : List α := l.filter fun x => key x≠k

variable {key} {l : List α} {k : κ} {x y : α}

lemma find_mem (h : find key l k=some x) : x∈l := mem_of_find?_eq_some h

lemma find_key (h : find key l k=some x) : key x=k := by
  simpa using find?_some h

lemma find_eq_none : find key l k=none ↔ ∀ x∈l, key x≠k := by
  simp [find]

omit [DecidableEq κ] in
lemma eq_of_mem (hl : (l.map key).Nodup) (hx : x∈l) (hy : y∈l) (h : key x=key y) : x=y :=
  inj_on_of_nodup_map hl hx hy h

lemma find_of_mem (hl : (l.map key).Nodup) (hx : x∈l) : find key l (key x)=some x := by
  cases h : find key l (key x) with
  | none => exact absurd rfl (find_eq_none.mp h x hx)
  | some y => rw [eq_of_mem hl hx (find_mem h) (find_key h).symm]

lemma mem_put : y∈put key l x ↔ y=x ∨ y∈l ∧ key y≠key x := by
  unfold put
  split
  · rename_i hany
    obtain ⟨z,hz,hkey⟩ : ∃ z∈l, key z=key x := by simpa using hany
    constructor
    · intro h
      obtain ⟨w,hw,hy⟩ := mem_map.mp h
      split at hy
      · exact .inl hy.symm
      · rename_i hne
        subst hy
        exact .inr ⟨hw,hne⟩
    · rintro (rfl | ⟨hy,hne⟩)
      · exact mem_map.mpr ⟨z,hz,if_pos hkey⟩
      · exact mem_map.mpr ⟨y,hy,if_neg hne⟩
  · rename_i hany
    have hnone : ∀ z∈l, key z≠key x := by simpa using hany
    rw [mem_append,mem_singleton]
    constructor
    · rintro (hy | rfl)
      · exact .inr ⟨hy,hnone y hy⟩
      · exact .inl rfl
    · rintro (rfl | ⟨hy,-⟩)
      · exact .inr rfl
      · exact .inl hy

lemma mem_drop : y∈drop key l k ↔ y∈l ∧ key y≠k := by
  simp [drop]

lemma find_put_self (l : List α) (x : α) : find key (put key l x) (key x)=some x := by
  cases h : find key (put key l x) (key x) with
  | none => exact absurd rfl (find_eq_none.mp h x (mem_put.mpr (.inl rfl)))
  | some y =>
    rcases mem_put.mp (find_mem h) with rfl | ⟨-,hne⟩
    · rfl
    · exact absurd (find_key h) hne

lemma find_put_ne (h : k≠key x) : find key (put key l x) k=find key l k := by
  unfold find put
  split
  · have hsame : ((fun y => decide (key y=k)) ∘ fun y => if key y=key x then x else y)=fun y => decide (key y=k) := by
      funext y
      by_cases hy : key y=key x
      · simp [hy]
      · simp [hy]
    rw [find?_map,hsame]
    cases hfind : l.find? fun y => decide (key y=k) with
    | none => rfl
    | some z =>
      have hz : key z=k := by simpa using find?_some hfind
      rw [Option.map_some,if_neg fun hzx => h (hz.symm.trans hzx)]
  · rw [find?_append,find?_cons_of_neg (by simpa using fun hk => h hk.symm),find?_nil,Option.or_none]

lemma find_drop_ne {k' : κ} (h : k≠k') : find key (drop key l k') k=find key l k := by
  unfold find drop
  rw [find?_filter]
  congr
  funext y
  by_cases hy : key y=k
  · simp [hy,h]
  · simp [hy]

lemma nodup_put (hl : (l.map key).Nodup) (x : α) : ((put key l x).map key).Nodup := by
  unfold put
  split
  · have hsame : (l.map fun y => if key y=key x then x else y).map key=l.map key := by
      rw [map_map]
      refine map_congr_left fun y _ => ?_
      rw [Function.comp_apply]
      split
      · rename_i h
        exact h.symm
      · rfl
    rwa [hsame]
  · rename_i hany
    rw [map_append,map_singleton]
    refine nodup_append.mpr ⟨hl,nodup_singleton _,fun a ha b hb => ?_⟩
    obtain ⟨z,hz,rfl⟩ := mem_map.mp ha
    rw [mem_singleton.mp hb]
    have hnone : ∀ z∈l, key z≠key x := by simpa using hany
    exact hnone z hz

lemma nodup_drop (hl : (l.map key).Nodup) (k : κ) : ((drop key l k).map key).Nodup :=
  hl.sublist (filter_sublist.map _)

omit [DecidableEq κ] in
lemma countP_le_of_origin {l' : List α} {p q : α → Bool} (hl' : (l'.map key).Nodup)
    (h : ∀ y∈l', p y=true → ∃ x∈l, q x=true ∧ key x=key y) : l'.countP p≤l.countP q := by
  have hsub : (l'.filter p).map key ⊆ (l.filter q).map key := by
    intro k hk
    obtain ⟨y,hy,rfl⟩ := mem_map.mp hk
    obtain ⟨x,hx,hq,hkey⟩ := h y (mem_filter.mp hy).1 (mem_filter.mp hy).2
    exact mem_map.mpr ⟨x,mem_filter.mpr ⟨hx,hq⟩,hkey⟩
  have hle := (hl'.sublist (filter_sublist.map key)).length_le_of_subset hsub
  rwa [length_map,length_map,← countP_eq_length_filter,← countP_eq_length_filter] at hle

end JuiceMount.Keyed
