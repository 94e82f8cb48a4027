import Mathlib.Tactic

/-! Finite maps with a zero value for missing keys, as association lists. -/
namespace JuiceMount
open List

/-- The newest binding of a key comes first and is the only one `set` keeps. -/
abbrev GoMap (κ ν : Type*) := List (κ × ν)

namespace GoMap
variable {κ ν : Type*} [DecidableEq κ]

def get? : GoMap κ ν → κ → Option ν
  | [],_ => none
  | (k,v)::m,x => if x=k then some v else get? m x

/-- `m[k]` with the zero value of a missing key. -/
def getD (m : GoMap κ ν) (k : κ) (zero : ν) : ν := (m.get? k).getD zero

def erase (m : GoMap κ ν) (k : κ) : GoMap κ ν := m.filter (fun e => e.1≠k)

def set (m : GoMap κ ν) (k : κ) (v : ν) : GoMap κ ν := (k,v)::m.erase k

def keys (m : GoMap κ ν) : List κ := m.map Prod.fst

attribute [local simp] get?

@[simp] lemma get?_nil (k : κ) : get? ([] : GoMap κ ν) k=none := rfl

variable {m : GoMap κ ν} {k : κ} {v : ν}

lemma get?_erase_ne {k x : κ} (h : x≠k) : (m.erase k).get? x=m.get? x := by
  induction m with
  | nil => rfl
  | cons e m ih =>
    obtain ⟨y,v⟩ := e
    by_cases hy : y=k
    · subst y
      simpa [erase,h] using ih
    · have he : erase ((y,v)::m) k=(y,v)::erase m k := by simp [erase,hy]
      rw [he]
      simp only [get?,ih]

@[simp] lemma get?_erase_self (m : GoMap κ ν) (k : κ) : (m.erase k).get? k=none := by
  induction m with
  | nil => rfl
  | cons e m ih =>
    obtain ⟨y,v⟩ := e
    by_cases hy : y=k
    · subst y
      simpa [erase] using ih
    · have he : erase ((y,v)::m) k=(y,v)::erase m k := by simp [erase,hy]
      rw [he]
      simp only [get?,ih,if_neg (Ne.symm hy)]

@[simp] lemma get?_set_self (m : GoMap κ ν) (k : κ) (v : ν) : (m.set k v).get? k=some v := by
  simp [set]

lemma get?_set_ne {k x : κ} (h : x≠k) (v : ν) : (m.set k v).get? x=m.get? x := by
  simp [set,h,get?_erase_ne h]

lemma get?_set (m : GoMap κ ν) (k x : κ) (v : ν) : (m.set k v).get? x=if x=k then some v else m.get? x := by
  by_cases h : x=k
  · subst x; simp
  · simp [h,get?_set_ne h]

lemma of_get?_set {x : κ} {y : ν} (h : (m.set k v).get? x=some y) : x=k ∧ y=v ∨ x≠k ∧ m.get? x=some y := by
  rw [get?_set] at h
  split at h
  · exact .inl ⟨‹_›,(Option.some.inj h).symm⟩
  · exact .inr ⟨‹_›,h⟩

lemma forall_set {p : κ → ν → Prop} (hnew : p k v) (hold : ∀ x y,m.get? x=some y → p x y) :
    ∀ x y,(m.set k v).get? x=some y → p x y := by
  intro x y h
  obtain ⟨rfl,rfl⟩ | ⟨-,h⟩ := of_get?_set h
  · exact hnew
  · exact hold x y h

lemma of_get?_erase {x : κ} (h : (m.erase k).get? x=some v) : x≠k ∧ m.get? x=some v := by
  have hne : x≠k := fun hx => by simp [hx] at h
  exact ⟨hne,get?_erase_ne hne ▸ h⟩

lemma getD_set (m : GoMap κ ν) (k x : κ) (v z : ν) : (m.set k v).getD x z=if x=k then v else m.getD x z := by
  unfold getD
  rw [get?_set]
  split_ifs <;> rfl

lemma get?_map {ν' : Type*} (m : GoMap κ ν) (f : ν → ν') (k : κ) :
    get? (m.map (fun e => (e.1,f e.2))) k=(m.get? k).map f := by
  induction m with
  | nil => rfl
  | cons e m ih =>
    simp only [map_cons,get?,ih]
    split_ifs <;> rfl

lemma mem_of_get? (h : m.get? k=some v) : (k,v)∈m := by
  induction m with
  | nil => cases h
  | cons e m ih =>
    obtain ⟨y,w⟩ := e
    by_cases hk : k=y
    · subst y
      simp only [get?,if_true,Option.some.injEq] at h
      simp [h]
    · simp only [get?,if_neg hk] at h
      exact mem_cons_of_mem _ (ih h)

lemma mem_keys_of_get? (h : m.get? k=some v) : k∈m.keys :=
  mem_map.mpr ⟨_,mem_of_get? h,rfl⟩

lemma not_mem_keys (h : m.get? k=none) : k ∉ m.keys := by
  induction m with
  | nil => simp [keys]
  | cons e m ih =>
    obtain ⟨y,v⟩ := e
    by_cases hk : k=y
    · simp [hk] at h
    · simp only [get?,if_neg hk] at h
      simpa [keys,hk] using ih h

lemma nodup_erase (h : m.keys.Nodup) (k : κ) : (m.erase k).keys.Nodup :=
  h.sublist (filter_sublist.map _)

lemma nodup_set (h : m.keys.Nodup) (k : κ) (v : ν) : (m.set k v).keys.Nodup :=
  nodup_cons.mpr ⟨not_mem_keys (get?_erase_self m k),nodup_erase h k⟩

lemma erase_eq_self (h : m.get? k=none) : m.erase k=m := by
  refine filter_eq_self.mpr fun e he => ?_
  have : e.1≠k := fun hk => not_mem_keys h (hk ▸ mem_map.mpr ⟨e,he,rfl⟩)
  simpa using this

lemma countP_erase (hm : m.keys.Nodup) (h : m.get? k=some v) (p : ν → Bool) :
    (m.erase k).countP (fun e => p e.2)+(if p v then 1 else 0)=m.countP (fun e => p e.2) := by
  induction m with
  | nil => cases h
  | cons e m ih =>
    obtain ⟨y,w⟩ := e
    obtain ⟨hy,hm⟩ := nodup_cons.mp hm
    by_cases hk : k=y
    · subst y
      obtain rfl : w=v := by simpa using h
      have hnone : get? m k=none := by
        cases hg : get? m k with
        | none => rfl
        | some x => exact absurd (mem_keys_of_get? hg) hy
      have herase : erase ((k,w)::m) k=m := by
        rw [← erase_eq_self hnone]
        simp [erase]
      rw [herase,countP_cons]
    · have hg : get? m k=some v := by simpa [hk] using h
      have herase : erase ((y,w)::m) k=(y,w)::erase m k := by simp [erase,Ne.symm hk]
      have := ih hm hg
      rw [herase,countP_cons,countP_cons]
      omega

lemma countP_set_new (h : m.get? k=none) (v : ν) (p : ν → Bool) :
    (m.set k v).countP (fun e => p e.2)=m.countP (fun e => p e.2)+(if p v then 1 else 0) := by
  rw [set,erase_eq_self h,countP_cons]

lemma get?_of_mem (hm : m.keys.Nodup) {e : κ × ν} (h : e∈m) : m.get? e.1=some e.2 := by
  induction m with
  | nil => cases h
  | cons x m ih =>
    obtain ⟨y,w⟩ := x
    obtain ⟨hy,hm⟩ := nodup_cons.mp hm
    obtain rfl | h := mem_cons.mp h
    · simp
    · have hne : e.1≠y := fun he => hy (he ▸ mem_map.mpr ⟨e,h,rfl⟩)
      simp only [get?,if_neg hne,ih hm h]

/-- The order in which a `range` visits a map's entries: any, and the code may rely on none. -/
structure RangeOrder (α : Type*) where
  visit : List α → List α
  perm : ∀ l,(visit l).Perm l

def RangeOrder.asListed (α : Type*) : RangeOrder α := ⟨id,fun _ => .rfl⟩

end GoMap
end JuiceMount
