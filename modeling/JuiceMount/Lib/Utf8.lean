import Mathlib.Tactic

/-! UTF-8 text in byte strings, as `unicode/utf8` reads it, and what a JSON string keeps of it:
bytes that are no rune are replaced. -/
namespace JuiceMount.Utf8
open List

def encode (cs : List Char) : List UInt8 := cs.flatMap String.utf8EncodeChar

def inRange (lo hi : ℕ) (b : UInt8) : Bool := lo≤b.toNat && b.toNat≤hi

/-- The second byte of a rune of three bytes; surrogates and overlong forms are excluded. -/
def second3 (first : ℕ) (b : UInt8) : Bool :=
  if first=224 then inRange 160 191 b else if first=237 then inRange 128 159 b else inRange 128 191 b

def second4 (first : ℕ) (b : UInt8) : Bool :=
  if first=240 then inRange 144 191 b else if first=244 then inRange 128 143 b else inRange 128 191 b

/-- How many bytes the first rune takes, 0 if there is none. -/
def runeSize : List UInt8 → ℕ
  | [] => 0
  | [a] => if a.toNat<128 then 1 else 0
  | a::b::rest =>
    if a.toNat<128 then 1
    else if a.toNat<224 then (if 194≤a.toNat && inRange 128 191 b then 2 else 0)
    else
      match rest with
      | [] => 0
      | c::rest =>
        if a.toNat<240 then (if second3 a.toNat b && inRange 128 191 c then 3 else 0)
        else
          match rest with
          | [] => 0
          | d::_ =>
            if a.toNat≤244 && second4 a.toNat b && inRange 128 191 c && inRange 128 191 d then 4 else 0

def replacement : List UInt8 := [239,191,189]

/-- Runes are kept and other bytes replaced one by one; the fuel bounds the runes. -/
def coerceFrom : ℕ → List UInt8 → List UInt8
  | 0,_ => []
  | _+1,[] => []
  | n+1,b::bs =>
    if runeSize (b::bs)=0 then replacement++coerceFrom n bs
    else (b::bs).take (runeSize (b::bs))++coerceFrom n ((b::bs).drop (runeSize (b::bs)))

/-- What is read back from a JSON string that was written for these bytes. -/
def coerce (b : List UInt8) : List UInt8 := coerceFrom b.length b

/-- A rune at the head is read the same whatever follows it. -/
lemma runeSize_split (b : List UInt8) : runeSize b=0 ∨
    ∃ r rest, b=r++rest ∧ runeSize b=r.length ∧ ∀ rest', runeSize (r++rest')=r.length := by
  fun_cases runeSize b with
  | case2 a ha => exact .inr ⟨[a],[],rfl,rfl,fun rest' => by cases rest' <;> simp [runeSize,ha]⟩
  | case4 a b rest ha => exact .inr ⟨[a],b::rest,rfl,rfl,fun rest' => by cases rest' <;> simp [runeSize,ha]⟩
  | case5 a b rest ha hb hcond => exact .inr ⟨[a,b],rest,rfl,rfl,fun _ => by simp [runeSize,ha,hb,hcond]⟩
  | case8 a b ha hb c rest hc hcond => exact .inr ⟨[a,b,c],rest,rfl,rfl,fun _ => by simp [runeSize,ha,hb,hc,hcond]⟩
  | case11 a b ha hb c hc d rest hcond =>
    exact .inr ⟨[a,b,c,d],rest,rfl,rfl,fun _ => by simp [runeSize,ha,hb,hc,hcond]⟩
  | _ => exact .inl rfl

lemma runeSize_replacement (rest : List UInt8) : runeSize (replacement++rest)=3 := rfl

lemma coerceFrom_rune {r rest : List UInt8} {n : ℕ} (hr : runeSize (r++rest)=r.length) (hpos : r≠[]) :
    coerceFrom (n+1) (r++rest)=r++coerceFrom n rest := by
  obtain ⟨b,bs,hb⟩ := exists_cons_of_ne_nil (append_ne_nil_of_left_ne_nil hpos rest)
  have hlen := length_pos_of_ne_nil hpos
  rw [hb,coerceFrom,← hb,hr,if_neg (by omega),take_left,drop_left]

lemma coerceFrom_coerceFrom {n m : ℕ} (b : List UInt8) (hm : (coerceFrom n b).length ≤ m) :
    coerceFrom m (coerceFrom n b)=coerceFrom n b := by
  induction n generalizing b m with
  | zero => cases m <;> rfl
  | succ n ih =>
    cases b with
    | nil => cases m <;> rfl
    | cons x bs =>
      rw [coerceFrom] at hm ⊢
      split at hm
      · rename_i hzero
        rw [if_pos hzero]
        rw [length_append] at hm
        obtain ⟨k,rfl⟩ : ∃ k, m=k+1 := ⟨m-1,by simp [replacement] at hm; omega⟩
        rw [coerceFrom_rune (runeSize_replacement _) (by simp [replacement]),ih bs (by simp [replacement] at hm; omega)]
      · rename_i hsize
        obtain ⟨r,rest,heq,hlen,hrune⟩ := (runeSize_split (x::bs)).resolve_left hsize
        have hpos : r≠[] := by
          rintro rfl
          exact hsize hlen
        have := length_pos_of_ne_nil hpos
        rw [if_neg hsize]
        rw [hlen,heq,take_left,drop_left] at hm ⊢
        rw [length_append] at hm
        obtain ⟨k,rfl⟩ : ∃ k, m=k+1 := ⟨m-1,by omega⟩
        rw [coerceFrom_rune (hrune _) hpos,ih _ (by omega)]

/-- What was read back once is kept from then on. -/
theorem coerce_coerce (b : List UInt8) : coerce (coerce b)=coerce b := coerceFrom_coerceFrom b le_rfl

end JuiceMount.Utf8
