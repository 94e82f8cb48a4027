import JuiceMount.Lib.Int64
import JuiceMount.RespProxy.Keys

/-! Decimal numbers on the wire: `strconv.FormatUint`, `FormatInt` and `ParseInt` in base 10. -/
namespace JuiceMount.RespProxy
open List

/-- `strconv.FormatUint`. -/
def formatUint (n : ℕ) : Bytes := (Nat.toDigits 10 n).map (fun c => UInt8.ofNat c.toNat)

/-- `strconv.FormatInt` and `Itoa`. -/
def formatInt (n : ℤ) : Bytes := if n<0 then 45::formatUint n.natAbs else formatUint n.toNat

/-- `strconv.ParseInt`: an optional sign and digits, leading zeros allowed, within 64 bits. -/
def parseInt (b : Bytes) : Option ℤ :=
  let neg := b.head? = some 45
  let d := if neg || b.head? = some 43 then b.tail else b
  if d=[] || !d.all isDigit then none
  else if neg then (if decimal d ≤ 2^63 then some (-(decimal d : ℤ)) else none)
  else if decimal d < 2^63 then some (decimal d) else none

lemma splitByte_eq_some {c : UInt8} {b p q : Bytes} : splitByte c b=some (p,q) ↔ b=p++c::q ∧ c ∉ p := by
  induction b generalizing p with
  | nil => simp [splitByte]
  | cons x xs ih =>
    by_cases hx : x=c
    · subst x
      cases p with
      | nil => simp [splitByte]
      | cons y ys =>
        simp only [splitByte,if_true,Option.some.injEq,Prod.mk.injEq,nil_eq,reduceCtorEq,false_and,
          cons_append,List.cons.injEq,mem_cons,not_or,false_iff,not_and]
        rintro ⟨rfl,_⟩ hne
        exact absurd rfl hne
    · simp only [splitByte,if_neg hx,Option.map_eq_some_iff,Prod.exists,Prod.mk.injEq]
      cases p with
      | nil => simp [hx]
      | cons y ys =>
        constructor
        · rintro ⟨u,v,huv,hcons,rfl⟩
          cases hcons
          obtain ⟨rfl,hmem⟩ := ih.mp huv
          exact ⟨rfl,by simp [Ne.symm hx,hmem]⟩
        · rintro ⟨heq,hmem⟩
          cases heq
          simp only [mem_cons,not_or] at hmem
          exact ⟨ys,q,ih.mpr ⟨rfl,hmem.2⟩,rfl,rfl⟩

variable {n : ℕ}

lemma toDigits_range {c : Char} (h : c∈Nat.toDigits 10 n) : 48≤c.toNat ∧ c.toNat≤57 := by
  have hd := Nat.isDigit_of_mem_toDigits (by decide) (by decide) h
  simp only [Char.isDigit,Bool.and_eq_true,decide_eq_true_eq,ge_iff_le] at hd
  exact ⟨hd.1,hd.2⟩

lemma formatUint_ne_nil (n : ℕ) : formatUint n≠[] := by
  simp [formatUint,Nat.toDigits_ne_nil]

lemma mem_formatUint {c : UInt8} (h : c∈formatUint n) : 48≤c ∧ c≤57 := by
  obtain ⟨d,hd,rfl⟩ := mem_map.mp h
  obtain ⟨hlo,hhi⟩ := toDigits_range hd
  constructor <;> rw [UInt8.le_iff_toNat_le,UInt8.toNat_ofNat'] <;> simp <;> omega

lemma all_isDigit_formatUint (n : ℕ) : (formatUint n).all isDigit=true := by
  rw [List.all_eq_true]
  intro c hc
  obtain ⟨hlo,hhi⟩ := mem_formatUint hc
  simp [isDigit,hlo,hhi]

@[simp] theorem decimal_formatUint (n : ℕ) : decimal (formatUint n)=n := by
  have hfold : ∀ (l : List Char) (i : ℕ),(∀ c∈l,48≤c.toNat ∧ c.toNat≤57) →
      (l.map (fun c => UInt8.ofNat c.toNat)).foldl (fun n c => n*10+(c.toNat-48)) i =
        Nat.ofDigitChars 10 l i := by
    intro l
    induction l with
    | nil => simp
    | cons c l ih =>
      intro i hl
      obtain ⟨hlo,hhi⟩ := hl c mem_cons_self
      have hc : (UInt8.ofNat c.toNat).toNat=c.toNat := by
        rw [UInt8.toNat_ofNat']
        omega
      have hz : '0'.toNat=48 := rfl
      rw [map_cons,foldl_cons,Nat.ofDigitChars_cons,
        ih _ (fun d hd => hl d (mem_cons_of_mem _ hd)),hc,hz,Nat.mul_comm i 10]
  unfold decimal formatUint
  rw [hfold _ 0 (fun c hc => toDigits_range hc)]
  exact Nat.ofDigitChars_ten_toDigits

lemma formatUint_injective : Function.Injective formatUint := fun m n h => by
  rw [← decimal_formatUint m,h,decimal_formatUint]

lemma head_formatUint (n : ℕ) : ∃ c l,formatUint n=c::l ∧ 48≤c ∧ c≤57 := by
  obtain ⟨c,l,hcl⟩ := exists_cons_of_ne_nil (formatUint_ne_nil n)
  exact ⟨c,l,hcl,mem_formatUint (hcl ▸ mem_cons_self)⟩

lemma parseInt_formatUint (h : n<2^63) : parseInt (formatUint n)=some (n : ℤ) := by
  obtain ⟨c,l,hcl,hlo,_⟩ := head_formatUint n
  have hminus : c≠45 := by rintro rfl; exact absurd hlo (by decide)
  have hplus : c≠43 := by rintro rfl; exact absurd hlo (by decide)
  have hall := all_isDigit_formatUint n
  have hdec := decimal_formatUint n
  rw [hcl] at hall hdec ⊢
  simpa [parseInt,hminus,hplus,hall,hdec] using h

lemma parseInt_minus (h : n≤2^63) : parseInt (45::formatUint n)=some (-(n : ℤ)) := by
  simpa [parseInt,formatUint_ne_nil,all_isDigit_formatUint] using h

theorem parseInt_formatInt {n : ℤ} (hlo : -2^63≤n) (hhi : n<2^63) : parseInt (formatInt n)=some n := by
  unfold formatInt
  split
  · rename_i hneg
    rw [parseInt_minus (by omega)]
    congr 1
    omega
  · rename_i hpos
    rw [parseInt_formatUint (by omega)]
    congr 1
    omega

theorem parseInt_range {b : Bytes} {n : ℤ} (h : parseInt b=some n) : -2^63≤n ∧ n<2^63 := by
  simp only [parseInt] at h
  repeat' split at h
  all_goals first
    | (cases h; omega)
    | cases h

lemma length_formatUint_le (h : n≤2^63) : (formatUint n).length≤19 := by
  rw [formatUint,length_map,Nat.length_toDigits_le_iff (by decide) (by decide)]
  omega

lemma length_formatInt_le {n : ℤ} (hlo : -2^63≤n) (hhi : n<2^63) : (formatInt n).length≤20 := by
  unfold formatInt
  split
  · have := length_formatUint_le (n := n.natAbs) (by omega)
    simp only [length_cons]
    omega
  · have := length_formatUint_le (n := n.toNat) (by omega)
    omega

lemma not_mem_formatInt (n : ℤ) : (10 : UInt8) ∉ formatInt n := by
  have hdig : ∀ m,(10 : UInt8) ∉ formatUint m := fun m hm => absurd (mem_formatUint hm).1 (by decide)
  unfold formatInt
  split
  · simp [hdig]
  · exact hdig _

end JuiceMount.RespProxy
