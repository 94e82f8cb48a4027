import JuiceMount.RespProxy.LeaseStore

/-! The readers of decimal numbers in the guard and in the lease scripts. Each accepts the texts
that `strconv` writes for the numbers in its range and no others, and the scripts compare two of
them as the numbers compare. -/
namespace JuiceMount.RespProxy
open List

/-- An int64 as `strconv.FormatInt` writes it. -/
def canonicalInt (s : Bytes) : Bool := (parseInt s).any (fun v => formatInt v=s)

/-- The scripts' `decimal`: digits without a leading zero, within 63 bits, compared as text. -/
def luaDecimal (s : Bytes) : Bool :=
  s≠[] && s.all isDigit && (s.length=1 || s.head? ≠ some 48) &&
    (s.length < 19 || (s.length = 19 && !List.lex (ascii "9223372036854775807") s))

/-- The scripts' `greater`. -/
def luaGreater (a b : Bytes) : Bool := a.length > b.length || (a.length=b.length && List.lex b a)

/-- Digits without a leading zero. -/
structure Canonical (b : Bytes) : Prop where
  ne_nil : b≠[]
  digit : b.all isDigit=true
  head : 1<b.length → b.head? ≠ some 48

section Value
variable {a b t : Bytes} {c : UInt8} {n : ℕ}

lemma decimal_append (a b : Bytes) : decimal (a++b)=decimal a*10^b.length+decimal b := by
  induction b using reverseRecOn with
  | nil => simp [decimal]
  | append_singleton b c ih =>
    have hone : ∀ l,decimal (l++[c])=decimal l*10+(c.toNat-48) := fun l => by simp [decimal]
    rw [← append_assoc,hone,hone,ih,length_append,length_singleton,pow_succ]
    ring

lemma decimal_cons (c : UInt8) (t : Bytes) : decimal (c::t)=(c.toNat-48)*10^t.length+decimal t := by
  simpa [decimal] using decimal_append [c] t

lemma isDigit_iff : isDigit c=true ↔ 48≤c.toNat ∧ c.toNat≤57 := by
  simp [isDigit,UInt8.le_iff_toNat_le]

lemma decimal_lt (h : b.all isDigit=true) : decimal b<10^b.length := by
  induction b with
  | nil => simp [decimal]
  | cons c t ih =>
    simp only [all_cons,Bool.and_eq_true,isDigit_iff] at h
    have ht := ih h.2
    have hmul : (c.toNat-48)*10^t.length≤9*10^t.length := Nat.mul_le_mul_right _ (by omega)
    rw [decimal_cons,length_cons,pow_succ]
    omega

lemma lt_iff_decimal_lt (ha : a.all isDigit=true) (hb : b.all isDigit=true)
    (hlen : a.length=b.length) : a<b ↔ decimal a<decimal b := by
  induction a generalizing b with
  | nil =>
    cases b with
    | nil => simp
    | cons d u => simp at hlen
  | cons c t ih =>
    cases b with
    | nil => simp at hlen
    | cons d u =>
      simp only [length_cons,Nat.add_right_cancel_iff] at hlen
      simp only [all_cons,Bool.and_eq_true,isDigit_iff] at ha hb
      have ht := decimal_lt ha.2
      have hu := decimal_lt hb.2
      rw [cons_lt_cons_iff,ih ha.2 hb.2 hlen,decimal_cons,decimal_cons,UInt8.lt_iff_toNat_lt,
        ← UInt8.toNat_inj,← hlen]
      rw [← hlen] at hu
      obtain hlt | heq | hgt := Nat.lt_trichotomy c.toNat d.toNat
      · have := Nat.mul_le_mul_right (10^t.length) (show c.toNat-48+1≤d.toNat-48 by omega)
        rw [Nat.add_one_mul] at this
        omega
      · rw [heq]
        omega
      · have := Nat.mul_le_mul_right (10^t.length) (show d.toNat-48+1≤c.toNat-48 by omega)
        rw [Nat.add_one_mul] at this
        omega

namespace Canonical

lemma pow_le (h : Canonical b) (hlen : 1<b.length) : 10^(b.length-1)≤decimal b := by
  obtain ⟨c,t,rfl⟩ := exists_cons_of_ne_nil h.ne_nil
  have hne : c≠48 := by simpa using h.head hlen
  have hc := isDigit_iff.mp (List.all_eq_true.mp h.digit c mem_cons_self)
  have hc' : c.toNat≠48 := fun he => hne (UInt8.toNat_inj.mp he)
  have hmul := Nat.mul_le_mul_right (10^t.length) (show 1≤c.toNat-48 by omega)
  rw [decimal_cons,length_cons,Nat.add_sub_cancel]
  omega

/-- The scripts' order on decimals is that of the numbers. -/
lemma luaGreater_iff (ha : Canonical a) (hb : Canonical b) : luaGreater a b=true ↔ decimal b<decimal a := by
  have hmono : ∀ {a b},Canonical a → Canonical b → a.length<b.length → decimal a<decimal b := by
    intro a b ha hb hlt
    have hone := length_pos_iff.mpr ha.ne_nil
    calc decimal a<10^a.length := decimal_lt ha.digit
      _ ≤ 10^(b.length-1) := Nat.pow_le_pow_right (by decide) (by omega)
      _ ≤ decimal b := hb.pow_le (by omega)
  simp only [luaGreater,gt_iff_lt,Bool.or_eq_true,Bool.and_eq_true,decide_eq_true_eq,lex_eq_true_iff_lt]
  obtain hlt | heq | hgt := Nat.lt_trichotomy a.length b.length
  · have := hmono ha hb hlt
    omega
  · rw [lt_iff_decimal_lt hb.digit ha.digit heq.symm]
    omega
  · have := hmono hb ha hgt
    omega

lemma decimal_inj (ha : Canonical a) (hb : Canonical b) (h : decimal a=decimal b) : a=b := by
  have hab := mt (ha.luaGreater_iff hb).mp h.not_gt
  have hba := mt (hb.luaGreater_iff ha).mp h.not_lt
  simp only [luaGreater,gt_iff_lt,Bool.or_eq_true,Bool.and_eq_true,decide_eq_true_eq,lex_eq_true_iff_lt,
    not_or,not_and,not_lt] at hab hba
  have hlen : a.length=b.length := Nat.le_antisymm hab.1 hba.1
  exact List.le_antisymm (List.not_lt.mp (hab.2 hlen)) (List.not_lt.mp (hba.2 hlen.symm))

lemma formatUint (n : ℕ) : Canonical (formatUint n) where
  ne_nil := formatUint_ne_nil n
  digit := all_isDigit_formatUint n
  head hlen hhead := by
    obtain ⟨c,t,ht⟩ := exists_cons_of_ne_nil (formatUint_ne_nil n)
    rw [ht] at hlen hhead
    obtain rfl : c=48 := by simpa using hhead
    have hdec : decimal t=n := by
      rw [← decimal_formatUint n,ht,decimal_cons]
      simp
    have hall := all_isDigit_formatUint n
    rw [ht,all_cons,Bool.and_eq_true] at hall
    have hlt := decimal_lt hall.2
    have hle : (RespProxy.formatUint n).length≤t.length := by
      rw [RespProxy.formatUint,length_map,Nat.length_toDigits_le_iff (by decide) (by simpa using hlen)]
      omega
    rw [ht,length_cons] at hle
    omega

lemma eq_formatUint (h : Canonical b) : b=RespProxy.formatUint (decimal b) :=
  h.decimal_inj (formatUint _) (decimal_formatUint _).symm

end Canonical

lemma fits_iff (h : Canonical b) :
    (b.length < 19 || (b.length = 19 && !List.lex (ascii "9223372036854775807") b)) = true ↔ decimal b < 2^63 := by
  have hmax : Canonical (ascii "9223372036854775807") := ⟨by decide,by decide,by decide⟩
  have hlen : (ascii "9223372036854775807").length = 19 := by decide
  have hval : decimal (ascii "9223372036854775807") = 2^63-1 := by decide
  have hgt : luaGreater b (ascii "9223372036854775807") = true ↔ _ := h.luaGreater_iff hmax
  have hover : luaGreater b (ascii "9223372036854775807") = true ↔ ¬decimal b < 2^63 := by
    rw [hgt,hval]
    omega
  rw [← not_iff_not,← hover]
  simp only [luaGreater,hlen]
  generalize List.lex _ b=g
  cases g <;> simp <;> omega

lemma length_formatUint_le_iff {k : ℕ} (hk : 0<k) : (formatUint n).length≤k ↔ n<10^k := by
  rw [formatUint,length_map,Nat.length_toDigits_le_iff (by decide) hk]

theorem digits_eq_some : digits b=some n ↔ n<2^64 ∧ b=formatUint n := by
  unfold digits parseUint
  constructor
  · intro h
    split_ifs at h with h₁ h₂ h₃
    cases h
    simp only [Bool.or_eq_true,Bool.and_eq_true,decide_eq_true_eq,not_or,not_and] at h₁
    exact ⟨h₃,Canonical.eq_formatUint ⟨h₁.1.1,h₂,h₁.2⟩⟩
  · rintro ⟨hn,rfl⟩
    have hc := Canonical.formatUint n
    have hlen : (formatUint n).length≤20 := (length_formatUint_le_iff (by decide)).mpr (by omega)
    rw [if_neg,if_pos hc.digit,decimal_formatUint,if_pos hn]
    simpa [hc.ne_nil,hlen] using hc.head

lemma positive_iff : (49≤c.toNat ∧ (c::t).all isDigit=true) ↔ Canonical (c::t) ∧ 0<decimal (c::t) := by
  have hpos : 0<10^t.length := Nat.pow_pos (by decide)
  constructor
  · rintro ⟨hc,hall⟩
    have hmul := Nat.mul_le_mul_right (10^t.length) (show 1≤c.toNat-48 by omega)
    refine ⟨⟨cons_ne_nil c t,hall,fun _ hhead => ?_⟩,by rw [decimal_cons]; omega⟩
    obtain rfl : c=48 := by simpa using hhead
    exact absurd hc (by decide)
  · rintro ⟨h,hdec⟩
    have hc := isDigit_iff.mp (List.all_eq_true.mp h.digit c mem_cons_self)
    refine ⟨Nat.lt_of_le_of_ne hc.1 fun he => ?_,h.digit⟩
    obtain rfl : c=48 := UInt8.toNat_inj.mp he.symm
    cases t with
    | nil => exact absurd hdec (by decide)
    | cons d t => exact h.head (by simp) rfl

/-- The digits of `RedisInt` after the sign. -/
def magnitude (d : Bytes) (f : ℕ → Option ℤ) : Option ℤ :=
  match d with
  | [] => none
  | c::_ =>
    if c<49 || 57<c then none
    else if !d.all isDigit then none
    else
      match parseUint d with
      | none => none
      | some n => f n

lemma magnitude_eq_some {f : ℕ → Option ℤ} {v : ℤ} :
    magnitude b f=some v ↔ ∃ n,0<n ∧ n<2^64 ∧ b=formatUint n ∧ f n=some v := by
  cases b with
  | nil => simp [magnitude,(formatUint_ne_nil _).symm]
  | cons c t =>
    simp only [magnitude,parseUint,Bool.or_eq_true,decide_eq_true_eq,UInt8.lt_iff_toNat_lt,UInt8.reduceToNat]
    constructor
    · intro h
      split_ifs at h with hc hall hlt
      obtain ⟨hcanon,hpos⟩ := positive_iff.mp ⟨not_lt.mp (not_or.mp hc).1,by simpa using hall⟩
      exact ⟨_,hpos,hlt,hcanon.eq_formatUint,h⟩
    · rintro ⟨n,hpos,hn,hd,hf⟩
      obtain rfl : decimal (c::t)=n := by rw [hd,decimal_formatUint]
      obtain ⟨hc,hall⟩ := positive_iff.mpr ⟨hd ▸ Canonical.formatUint _,hpos⟩
      have hc' := isDigit_iff.mp (List.all_eq_true.mp hall c mem_cons_self)
      rw [if_neg (by omega),hall,if_neg (by decide),if_pos hn]
      exact hf

lemma redisInt_eq : redisInt b=if b.length=0 || b.length > 20 then none else if b=[48] then some 0 else
    if b.head? = some 45 then magnitude b.tail (fun n => if n > 2^63 then none else some (-n))
    else magnitude b (fun n => if n > 2^63-1 then none else some n) := by
  unfold redisInt magnitude
  by_cases hneg : b.head? = some 45
  · simp only [hneg,if_true]
    cases b <;> rfl
  · simp only [hneg,if_false]
    cases b <;> rfl

theorem redisInt_eq_some {v : ℤ} : redisInt b=some v ↔ -2^63≤v ∧ v<2^63 ∧ b=formatInt v := by
  rw [redisInt_eq]
  constructor
  · intro h
    split_ifs at h with hlen hzero hneg
    · cases h
      exact ⟨by decide,by decide,hzero⟩
    · obtain ⟨n,hpos,_,hb,hv⟩ := magnitude_eq_some.mp h
      split_ifs at hv
      cases hv
      obtain ⟨t,rfl⟩ := head?_eq_some_iff.mp hneg
      refine ⟨by omega,by omega,?_⟩
      rw [formatInt,if_pos (by omega)]
      simpa using hb
    · obtain ⟨n,hpos,_,hb,hv⟩ := magnitude_eq_some.mp h
      split_ifs at hv
      cases hv
      refine ⟨by omega,by omega,?_⟩
      rw [formatInt,if_neg (by omega)]
      exact hb
  · rintro ⟨hlo,hhi,rfl⟩
    have hlen := length_formatInt_le hlo hhi
    by_cases hneg : v<0
    · rw [formatInt,if_pos hneg] at hlen ⊢
      rw [if_neg (by simpa using hlen),if_neg (by simp),if_pos head?_cons,tail_cons]
      refine magnitude_eq_some.mpr ⟨_,by omega,by omega,rfl,?_⟩
      rw [if_neg (by omega)]
      congr 1
      omega
    · obtain ⟨n,rfl⟩ := Int.eq_ofNat_of_zero_le (not_lt.mp hneg)
      rw [formatInt,if_neg hneg,Int.toNat_natCast] at hlen ⊢
      rw [if_neg (by simpa [formatUint_ne_nil] using hlen)]
      by_cases hzero : formatUint n=[48]
      · rw [if_pos hzero,← decimal_formatUint n,hzero]
        rfl
      have hsign : (formatUint n).head? ≠ some 45 := fun h => absurd (mem_formatUint (mem_of_head? h)).1 (by decide)
      rw [if_neg hzero,if_neg hsign]
      refine magnitude_eq_some.mpr ⟨n,Nat.pos_of_ne_zero ?_,by omega,rfl,if_neg (by omega)⟩
      rintro rfl
      exact hzero rfl

theorem canonicalInt_iff : canonicalInt b=true ↔ ∃ v : ℤ,-2^63≤v ∧ v<2^63 ∧ b=formatInt v := by
  simp only [canonicalInt,Option.any_eq_true,decide_eq_true_eq]
  constructor
  · rintro ⟨v,hv,rfl⟩
    exact ⟨v,(parseInt_range hv).1,(parseInt_range hv).2,rfl⟩
  · rintro ⟨v,hlo,hhi,rfl⟩
    exact ⟨v,parseInt_formatInt hlo hhi,rfl⟩

lemma luaDecimal_iff_canonical : luaDecimal b=true ↔ Canonical b ∧ decimal b<2^63 := by
  have hcanon : (b≠[] && b.all isDigit && (b.length=1 || b.head? ≠ some 48))=true ↔ Canonical b := by
    simp only [Bool.and_eq_true,Bool.or_eq_true,decide_eq_true_eq]
    constructor
    · rintro ⟨⟨hne,hall⟩,hhead⟩
      exact ⟨hne,hall,fun hlen => hhead.resolve_left (by omega)⟩
    · intro h
      have := length_pos_iff.mpr h.ne_nil
      exact ⟨⟨h.ne_nil,h.digit⟩,or_iff_not_imp_left.mpr fun hlen => h.head (by omega)⟩
  rw [luaDecimal,Bool.and_eq_true,hcanon]
  exact and_congr_right fits_iff

lemma validEpoch_iff_canonical : validEpoch b=true ↔ Canonical b ∧ 0<decimal b ∧ decimal b<2^63 := by
  cases b with
  | nil => exact iff_of_false (by decide) fun h => h.1.ne_nil rfl
  | cons c t =>
    rw [← and_assoc,← positive_iff,validEpoch,Bool.and_eq_true]
    simp only [Bool.and_eq_true,decide_eq_true_eq,UInt8.le_iff_toNat_le]
    constructor
    · rintro ⟨⟨⟨hc,_⟩,hall⟩,hfits⟩
      exact ⟨⟨hc,hall⟩,(fits_iff (positive_iff.mp ⟨hc,hall⟩).1).mp hfits⟩
    · rintro ⟨⟨hc,hall⟩,hlt⟩
      have hc' := isDigit_iff.mp (List.all_eq_true.mp hall c mem_cons_self)
      exact ⟨⟨⟨hc,hc'.2⟩,hall⟩,(fits_iff (positive_iff.mp ⟨hc,hall⟩).1).mpr hlt⟩

lemma persistedLeaseEpoch_eq_some : persistedLeaseEpoch b=some n ↔ 0<n ∧ n<2^63 ∧ b=formatUint n := by
  unfold persistedLeaseEpoch
  constructor
  · intro h
    split at h
    · rename_i v hv
      split_ifs at h with hc
      cases h
      simp only [Bool.and_eq_true,decide_eq_true_eq] at hc
      have := parseInt_range hv
      refine ⟨by omega,by omega,?_⟩
      rw [← hc.2,formatInt,if_neg (by omega)]
    · cases h
  · rintro ⟨hpos,hn,rfl⟩
    simp [parseInt_formatUint hn,formatInt,hpos]

lemma exists_formatUint_iff {p : ℕ → Prop} : (Canonical b ∧ p (decimal b)) ↔ ∃ n,p n ∧ b=formatUint n := by
  constructor
  · exact fun h => ⟨_,h.2,h.1.eq_formatUint⟩
  · rintro ⟨n,hp,rfl⟩
    exact ⟨.formatUint n,by rwa [decimal_formatUint]⟩

end Value

/-- The guard's readers, the scripts' predicates and the lease reader take exactly the canonical
decimals of their ranges, and `greater` orders them as numbers. -/
theorem redis_integers_agree (b : Bytes) : (∀ v,redisInt b=some v ↔ -2^63≤v ∧ v < 2^63 ∧ b = formatInt v) ∧
    canonicalInt b = (redisInt b).isSome ∧ (∀ n,digits b=some n ↔ n < 2^64 ∧ b = formatUint n) ∧
    (validEpoch b=true ↔ ∃ n,(0<n ∧ n < 2^63) ∧ b = formatUint n) ∧ (luaDecimal b=true ↔ ∃ n,n < 2^63 ∧ b = formatUint n) ∧
    (∀ m n,luaGreater (formatUint m) (formatUint n)=true ↔ n < m) ∧
    ∀ n,persistedLeaseEpoch b=some n ↔ validEpoch b=true ∧ b = formatUint n := by
  have hvalid : validEpoch b=true ↔ ∃ n,(0<n ∧ n < 2^63) ∧ b = formatUint n :=
    validEpoch_iff_canonical.trans (exists_formatUint_iff (p := fun n => 0<n ∧ n < 2^63))
  refine ⟨fun _ => redisInt_eq_some,?_,fun _ => digits_eq_some,hvalid,
    luaDecimal_iff_canonical.trans (exists_formatUint_iff (p := (· < 2^63))),fun m n => ?_,fun n => ?_⟩
  · rw [Bool.eq_iff_iff,canonicalInt_iff,Option.isSome_iff_exists]
    exact exists_congr fun _ => redisInt_eq_some.symm
  · rw [(Canonical.formatUint m).luaGreater_iff (.formatUint n),decimal_formatUint,decimal_formatUint]
  · rw [hvalid,persistedLeaseEpoch_eq_some]
    constructor
    · rintro ⟨hpos,hn,rfl⟩
      exact ⟨⟨n,⟨hpos,hn⟩,rfl⟩,rfl⟩
    · rintro ⟨⟨m,hm,hb⟩,rfl⟩
      cases formatUint_injective hb
      exact ⟨hm.1,hm.2,rfl⟩

end JuiceMount.RespProxy
