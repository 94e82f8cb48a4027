import JuiceMount.RespProxy.Resp

/-! The copier, the parser and the encoder agree on where a reply ends, except where a count of
pairs overflows. -/
namespace JuiceMount.RespProxy.Resp
open Descent List

section Lines
variable {size fuel L : ℕ} {s b l r buf rest : Bytes}

/-- The lengths of lines `readLine` accepts, line feed included: no full buffer of the line lies
past the limit. -/
def LineFits (size L : ℕ) : Prop := ∀ k,k*size<L → k*size ≤ 64*2^10

lemma LineFits.mono {L' : ℕ} (h : LineFits size L) (hle : L'≤L) : LineFits size L' :=
  fun k hk => h k (by omega)

lemma lineFits_of_le (h : L≤64*2^10) : LineFits size L := fun _ hk => by omega

lemma readSlice_line (h : readSlice size s=.line b rest) : ∃ l,b=l++[10] ∧ 10 ∉ l ∧ s=b++rest ∧ b.length ≤ size := by
  unfold readSlice at h
  split at h
  · rename_i l q hsplit
    obtain ⟨htake,hmem⟩ := splitByte_eq_some.mp hsplit
    cases h
    have hlen : l.length+1 ≤ size := by
      have := congrArg List.length htake
      simp only [length_take,length_append,length_cons] at this
      omega
    have hpre : s.take (l.length+1)=l++[10] := by
      calc s.take (l.length+1)=(s.take size).take (l.length+1) := by
            rw [take_take,Nat.min_eq_left hlen]
        _ = l++[10] := by
            rw [htake]
            simp [take_append]
    refine ⟨l,rfl,hmem,?_,by simpa using hlen⟩
    rw [← hpre,take_append_drop]
  · split at h <;> cases h

lemma readSlice_full (h : readSlice size s=.full b rest) : s=b++rest ∧ b.length=size ∧ 10 ∉ b := by
  unfold readSlice at h
  split at h
  · cases h
  rename_i hnone
  split_ifs at h
  cases h
  refine ⟨(take_append_drop size s).symm,by simpa using ‹_›,fun hmem => ?_⟩
  obtain ⟨p,q,hp,hpq⟩ := eq_append_cons_of_mem hmem
  rw [splitByte_eq_some.mpr ⟨hp,hpq⟩] at hnone
  cases hnone

lemma readSlice_append (hl : 10 ∉ l) (hlen : l.length+1 ≤ size) : readSlice size (l++10::r)=.line (l++[10]) r := by
  obtain ⟨j,rfl⟩ := Nat.exists_eq_add_of_le hlen
  have htake : (l++10::r).take (l.length+1+j)=l++10::r.take j := by
    simp [take_append,Nat.add_assoc,Nat.add_comm 1 j]
  unfold readSlice
  rw [splitByte_eq_some.mpr ⟨htake,hl⟩]
  simp

lemma readSlice_append_full (hl : 10 ∉ l) (hlen : size≤l.length) :
    readSlice size (l++r)=.full (l.take size) (l.drop size++r) := by
  have hnone : splitByte 10 ((l++r).take size)=none := by
    rw [take_append_of_le_length hlen]
    cases h : splitByte 10 (l.take size) with
    | none => rfl
    | some p =>
      have hmem : (10 : UInt8)∈l.take size := by
        rw [(splitByte_eq_some.mp h).1]
        simp
      exact absurd (mem_of_mem_take hmem) hl
  unfold readSlice
  rw [hnone,take_append_of_le_length hlen,drop_append_of_le_length hlen]
  simp only [length_append]
  rw [if_pos (by omega)]

lemma readSlices_ok {j : ℕ} (hbuf : buf.length=j*size) (h : readSlices size fuel buf s=.ok (b,rest)) :
    ∃ l,b=buf++(l++[10]) ∧ 10 ∉ l ∧ s=l++[10]++rest ∧ LineFits size b.length := by
  induction fuel generalizing buf s j with
  | zero => cases h
  | succ fuel ih =>
    simp only [readSlices] at h
    split_ifs at h with hlimit
    cases hs : readSlice size s with
    | eof => simp [hs] at h
    | line b' rest' =>
      simp only [hs,Except.ok.injEq,Prod.mk.injEq] at h
      obtain ⟨rfl,rfl⟩ := h
      obtain ⟨l,rfl,hmem,hsplit,hlen⟩ := readSlice_line hs
      refine ⟨l,rfl,hmem,hsplit,fun k hk => ?_⟩
      have hle : k≤j := by
        by_contra hj
        have : (j+1)*size≤k*size := Nat.mul_le_mul_right size (by omega)
        rw [length_append,hbuf] at hk
        rw [Nat.add_mul] at this
        omega
      have : k*size≤j*size := Nat.mul_le_mul_right size hle
      omega
    | full b' rest' =>
      simp only [hs] at h
      obtain ⟨hsplit,hlen,hb⟩ := readSlice_full hs
      have hbuf' : (buf++b').length=(j+1)*size := by
        rw [length_append,hbuf,hlen,Nat.add_mul,Nat.one_mul]
      obtain ⟨l,rfl,hmem,hrest,hfits⟩ := ih hbuf' h
      refine ⟨b'++l,by simp,?_,by rw [hsplit,hrest]; simp,hfits⟩
      simpa [hb] using hmem

lemma readSlices_append {j : ℕ} (hsize : 0<size) (hbuf : buf.length=j*size) (hl : 10 ∉ l)
    (hfuel : l.length<fuel) (hfits : LineFits size (buf.length+(l.length+1))) :
    readSlices size fuel buf (l++10::r)=.ok (buf++(l++[10]),r) := by
  induction fuel generalizing buf l j with
  | zero => omega
  | succ fuel ih =>
    have hlimit : ¬buf.length > 64*2^10 := by
      have := hfits j (by omega)
      omega
    simp only [readSlices,if_neg hlimit]
    by_cases hlen : l.length+1 ≤ size
    · rw [readSlice_append hl hlen]
    rw [readSlice_append_full hl (by omega)]
    have hdrop : 10 ∉ l.drop size := fun hmem => hl (mem_of_mem_drop hmem)
    have hbuf' : (buf++l.take size).length=(j+1)*size := by
      rw [length_append,length_take,hbuf,Nat.add_mul]
      omega
    have hfits' : LineFits size ((buf++l.take size).length+((l.drop size).length+1)) := by
      refine hfits.mono ?_
      simp only [length_append,length_take,length_drop]
      omega
    have hnext := ih hbuf' hdrop (by rw [length_drop]; omega) hfits'
    calc readSlices size fuel (buf++l.take size) (l.drop size++10::r)=_ := hnext
      _ = .ok (buf++(l++[10]),r) := by
        rw [append_assoc,← append_assoc (l.take size),take_append_drop]

theorem readLine_ok (h : readLine size s=.ok (l,rest)) :
    s=l++crlf++rest ∧ 10 ∉ l ∧ LineFits (max size 16) (l.length+2) := by
  unfold readLine at h
  split at h
  · cases h
  rename_i line rest' hslices
  split_ifs at h with hcr
  obtain ⟨m,hm,hmem,hsplit,hfits⟩ := readSlices_ok (j := 0) (by simp) hslices
  simp only [nil_append] at hm
  subst hm
  cases h
  simp only [Bool.or_eq_true,decide_eq_true_eq,not_or,not_lt,ne_eq,not_not] at hcr
  obtain ⟨hlen,hget⟩ := hcr
  -- the byte before the line feed is the carriage return
  obtain ⟨x,c,rfl⟩ : ∃ x c,m=x++[c] := by
    rcases eq_nil_or_concat m with rfl | ⟨x,c,rfl⟩
    · simp at hlen
    · exact ⟨x,c,by simp⟩
  have hc : c=13 := by simpa using hget
  subst hc
  refine ⟨by rw [hsplit]; simp [crlf],?_,?_⟩
  · simp only [mem_append,not_or] at hmem
    simpa using hmem.1
  · simpa using hfits

theorem readLine_append (hl : 10 ∉ l) (hfits : LineFits (max size 16) (l.length+2)) :
    readLine size (l++crlf++r)=.ok (l,r) := by
  have hl' : (10 : UInt8) ∉ l++[13] := by simpa using hl
  have hslices : readSlices (max size 16) ((l++crlf++r).length+1) [] (l++crlf++r)=.ok (l++crlf,r) := by
    have hread : readSlices (max size 16) ((l++crlf++r).length+1) [] (l++[13]++10::r) =
        .ok ([]++(l++[13]++[10]),r) :=
      readSlices_append (j := 0) (by omega) (by simp) hl' (by simp [crlf]) (by simpa using hfits)
    simpa [crlf] using hread
  unfold readLine
  rw [hslices]
  simp [crlf]

lemma readLine_cases (size : ℕ) (s : Bytes) : (∃ e,readLine size s=.error e) ∨
    (∃ rest,readLine size s=.ok ([],rest)) ∨ ∃ t arg rest,readLine size s=.ok (t::arg,rest) := by
  rcases readLine size s with e | ⟨_ | ⟨t,arg⟩,rest⟩ <;> simp

end Lines

/-- What a header line announces. `accept` is what the reader wants of a one-line frame, `nested`
what it makes of an aggregate's count. -/
def header (size : ℕ) (accept : UInt8 → Bytes → Bool) (nested : UInt8 → ℤ → Bytes → Announced UInt8)
    (s : Bytes) : Announced UInt8 :=
  match readLine size s with
  | .ok (t::arg,rest) =>
    if t∈lineTypes then (if accept t arg then .leaf rest else .refused)
    else if t∈bulkTypes then
      match parseInt arg with
      | none => .refused
      | some n =>
        if n<0 then .leaf rest
        else if n > maxBulk || rest.length < n.toNat+2 then .refused
        else .leaf (rest.drop (n.toNat+2))
    else if t∈aggregateTypes then
      match parseInt arg with
      | none => .refused
      | some n => if n<0 then .leaf rest else nested t n rest
    else .refused
  | _ => .refused

/-- The frame an attribute annotates belongs to the same logical reply. -/
def annotated (t : UInt8) : ℕ := if t = byte '|' then 1 else 0

/-- The protocol: a map or an attribute of `n` pairs holds `2n` frames. -/
def replyAsk (size : ℕ) : Bytes → Announced UInt8 :=
  header size (fun _ _ => true)
    (fun t n rest => .nest ((if isPairs t then n*2 else n).toNat+annotated t) rest)

/-- What `copyFrame` takes a header to announce. -/
def copyAsk (size : ℕ) : Bytes → Announced UInt8 :=
  header size (fun _ _ => true)
    (fun t n rest => .nest ((if isPairs t then int64 (n*2) else n).toNat+annotated t) rest)

/-- What `readValue` takes a header to announce. -/
def readAsk (size : ℕ) : Bytes → Announced UInt8 :=
  header size (fun t arg => t ≠ byte ':' || (parseInt arg).isSome)
    (fun t n rest =>
      if isPairs t && n ≥ 2^62 then .overflow
      else if (if isPairs t then n*2 else n) > maxReplyElems then .refused
      else .nest ((if isPairs t then n*2 else n).toNat+annotated t) rest)

section Header
variable {size : ℕ} {accept accept' : UInt8 → Bytes → Bool}
variable {nested nested' : UInt8 → ℤ → Bytes → Announced UInt8} {s m : Bytes} {k : ℕ}

/-- The readers announce the same, but for what they want of a one-line frame and make of a count. -/
lemma header_cases (size : ℕ) (s : Bytes) : (∃ t arg rest,rest <:+ s ∧ ∀ accept nested,
      header size accept nested s=if accept t arg then .leaf rest else .refused) ∨
    (∃ a,(a=.refused ∨ ∃ m,m <:+ s ∧ a=.leaf m) ∧ ∀ accept nested,header size accept nested s=a) ∨
    ∃ t arg n rest,rest <:+ s ∧ parseInt arg=some n ∧ 0≤n ∧
      ∀ accept nested,header size accept nested s=nested t n rest := by
  unfold header
  obtain ⟨e,hline⟩ | ⟨rest,hline⟩ | ⟨t,arg,rest,hline⟩ := readLine_cases size s <;> simp only [hline]
  · exact .inr (.inl ⟨_,.inl rfl,fun _ _ => rfl⟩)
  · exact .inr (.inl ⟨_,.inl rfl,fun _ _ => rfl⟩)
  have hrest : rest <:+ s := ⟨_,(readLine_ok hline).1.symm⟩
  by_cases hl : t∈lineTypes
  · exact .inl ⟨t,arg,rest,hrest,fun _ _ => by simp only [if_pos hl]⟩
  by_cases hb : t∈bulkTypes
  · refine .inr (.inl ?_)
    simp only [if_neg hl,if_pos hb]
    cases parseInt arg with
    | none => exact ⟨_,.inl rfl,fun _ _ => rfl⟩
    | some n =>
      refine ⟨_,?_,fun _ _ => rfl⟩
      dsimp only
      split_ifs
      · exact .inr ⟨rest,hrest,rfl⟩
      · exact .inl rfl
      · exact .inr ⟨_,(drop_suffix _ _).trans hrest,rfl⟩
  by_cases hagg : t∈aggregateTypes
  · simp only [if_neg hl,if_neg hb,if_pos hagg]
    cases hn : parseInt arg with
    | none => exact .inr (.inl ⟨_,.inl rfl,fun _ _ => rfl⟩)
    | some n =>
      by_cases hneg : n<0
      · exact .inr (.inl ⟨_,.inr ⟨rest,hrest,rfl⟩,fun _ _ => if_pos hneg⟩)
      · exact .inr (.inr ⟨t,arg,n,rest,hrest,hn,not_lt.mp hneg,fun _ _ => if_neg hneg⟩)
  · exact .inr (.inl ⟨_,.inl rfl,fun _ _ => by simp only [if_neg hl,if_neg hb,if_neg hagg]⟩)

lemma header_leaf (hacc : ∀ t arg,accept t arg=true → accept' t arg=true)
    (hnest : ∀ t n rest m,nested t n rest≠.leaf m) (h : header size accept nested s=.leaf m) :
    header size accept' nested' s=.leaf m ∧ m <:+ s := by
  obtain ⟨t,arg,rest,hrest,hall⟩ | ⟨a,ha,hall⟩ | ⟨t,arg,n,rest,_,_,_,hall⟩ := header_cases size s
  · rw [hall] at h ⊢
    split_ifs at h with ht
    cases h
    exact ⟨if_pos (hacc t arg ht),hrest⟩
  · rw [hall] at h ⊢
    subst h
    obtain hno | ⟨m',hm,heq⟩ := ha
    · cases hno
    · cases heq
      exact ⟨rfl,hm⟩
  · exact absurd ((hall _ _).symm.trans h) (hnest t n rest m)

lemma header_nest (h : header size accept nested s=.nest k m) :
    ∃ t arg n rest,rest <:+ s ∧ parseInt arg=some n ∧ 0≤n ∧ nested t n rest=.nest k m ∧
      ∀ accept' nested',header size accept' nested' s=nested' t n rest := by
  obtain ⟨t,arg,rest,_,hall⟩ | ⟨a,ha,hall⟩ | ⟨t,arg,n,rest,hrest,hn,hpos,hall⟩ := header_cases size s
  · rw [hall] at h
    split at h <;> cases h
  · obtain rfl := (hall _ _).symm.trans h
    obtain hno | ⟨_,_,hno⟩ := ha <;> cases hno
  · exact ⟨t,arg,n,rest,hrest,hn,hpos,(hall _ _).symm.trans h,hall⟩

end Header

lemma int64_double {n : ℤ} (h : 0≤n) (hn : n<2^63) : (n<2^62 → int64 (n*2)=n*2) ∧ (2^62≤n → int64 (n*2)<0) := by
  simp only [int64_eq,overflows]
  omega

lemma doubled_of_not_over {t : UInt8} {n : ℤ} (h : 0≤n) (hn : n<2^63) (hover : ¬(isPairs t && n ≥ 2^62)=true) :
    (if isPairs t then int64 (n*2) else n)=(if isPairs t then n*2 else n) := by
  by_cases hp : isPairs t=true
  · simp only [hp,if_true]
    exact (int64_double h hn).1 (by simpa [hp] using hover)
  · simp [hp]

/-- A count as the code holds it: what the frame announced, or negative after the doubling. -/
lemma doubled_count (t : UInt8) {k : ℕ} (hk : (k : ℤ)<2^63) : (if isPairs t then int64 (k*2) else k : ℤ)<0 ∨
      (if isPairs t then int64 (k*2) else k : ℤ)=(if isPairs t then k*2 else k : ℕ) := by
  obtain ⟨hsmall,hbig⟩ := int64_double (Int.natCast_nonneg k) hk
  by_cases hp : isPairs t=true
  · simp only [hp,if_true]
    by_cases h : (k : ℤ)<2^62
    · exact .inr (by rw [hsmall h]; push_cast; rfl)
    · exact .inl (hbig (not_lt.mp h))
  · exact .inr (by simp [hp])

lemma doubled_count_of_le (t : UInt8) {k : ℕ} (hk : ((if isPairs t then k*2 else k : ℕ) : ℤ) ≤ maxReplyElems) :
    (if isPairs t then int64 (k*2) else k : ℤ)=(if isPairs t then k*2 else k : ℕ) := by
  unfold maxReplyElems at hk
  by_cases hp : isPairs t=true
  · simp only [hp,if_true] at hk ⊢
    rw [int64_of_range (by omega) (by push_cast at hk; omega)]
    push_cast
    rfl
  · simp [hp]

theorem copyFrame_follows (size : ℕ) : Follows (copyAsk size) (copyFrame size) where
  stack _ := rfl
  answers room s := by
    simp only [copyAsk,header,copyFrame]
    obtain ⟨e,hline⟩ | ⟨rest,hline⟩ | ⟨t,arg,rest,hline⟩ := readLine_cases size s <;> simp only [hline]
    · exact ⟨e,rfl⟩
    · exact ⟨_,rfl⟩
    by_cases hl : t∈lineTypes
    · simp [hl,Descent.Answers]
    by_cases hb : t∈bulkTypes
    · simp only [if_neg hl,if_pos hb]
      cases parseInt arg with
      | none => exact ⟨_,rfl⟩
      | some n =>
        dsimp only
        split_ifs <;> simp_all [Descent.Answers]
    by_cases hagg : t∈aggregateTypes
    · simp only [if_neg hl,if_neg hb,if_pos hagg]
      cases parseInt arg with
      | none => exact ⟨_,rfl⟩
      | some n =>
        by_cases hneg : n<0
        · simp [hneg,Descent.Answers]
        simp only [if_neg hneg]
        by_cases hattr : t=byte '|'
        · simp only [annotated,hattr,if_true]
          exact same_times_succ (copyFrame size room) _ rest
            (fun fs f => (f.1,_++(fs.map Prod.snd).flatten++f.2))
        · simp only [annotated,hattr,if_false,Nat.add_zero]
          exact Outcome.same_map (times (copyFrame size room) _ rest)
            (fun fs => (_,_++(fs.map Prod.snd).flatten))
    · simp [hl,hb,hagg,Descent.Answers]

lemma not_mem_stringTypes {t : UInt8} (h : t ∉ lineTypes) : t ∉ stringTypes ∧ t≠byte '_' ∧ t≠byte ':' := by
  simp only [lineTypes,stringTypes,mem_cons,not_mem_nil,or_false,not_or] at h ⊢
  tauto

theorem readValue_follows (size : ℕ) : Follows (readAsk size) (readValue size) where
  stack _ := rfl
  answers room s := by
    simp only [readAsk,header,readValue]
    obtain ⟨e,hline⟩ | ⟨rest,hline⟩ | ⟨t,arg,rest,hline⟩ := readLine_cases size s <;> simp only [hline]
    · exact ⟨e,rfl⟩
    · exact ⟨_,rfl⟩
    by_cases hl : t∈lineTypes
    · simp only [if_pos hl]
      by_cases hcolon : t=byte ':'
      · subst hcolon
        have hs : byte ':' ∉ stringTypes := by decide
        have hnull : byte ':'≠byte '_' := by decide
        obtain hn | ⟨n,hn⟩ := Option.eq_none_or_eq_some (parseInt arg) <;>
          simp [hn,hs,hnull,Descent.Answers]
      · have hstr : t∈stringTypes ∨ t=byte '_' := by
          simp only [lineTypes,stringTypes,mem_cons,not_mem_nil,or_false] at hl ⊢
          tauto
        by_cases hs : t∈stringTypes
        · simp [hs,hcolon,Descent.Answers]
        · simp only [if_neg hs,if_pos (hstr.resolve_left hs)]
          simp [hcolon,Descent.Answers]
    obtain ⟨hs,hnull,hcolon⟩ := not_mem_stringTypes hl
    by_cases hb : t∈bulkTypes
    · simp only [if_neg hl,if_neg hs,if_neg hnull,if_neg hcolon,if_pos hb]
      cases parseInt arg with
      | none => exact ⟨_,rfl⟩
      | some n =>
        dsimp only
        split_ifs <;> simp_all [Descent.Answers]
    by_cases hagg : t∈aggregateTypes
    · simp only [if_neg hl,if_neg hs,if_neg hnull,if_neg hcolon,if_neg hb,if_pos hagg]
      cases hn : parseInt arg with
      | none => exact ⟨_,rfl⟩
      | some n =>
        by_cases hneg : n<0
        · simp [hneg,Descent.Answers]
        have hrange := (parseInt_range hn).2
        simp only [if_neg hneg]
        by_cases hover : (isPairs t && n ≥ 2^62)=true
        · -- the doubled count is negative: it passes the bound and is allocated
          have hp : isPairs t=true := by simp_all
          have hlt := (int64_double (not_lt.mp hneg) hrange).2 (by simpa [hp] using hover)
          have hbound : ¬int64 (n*2) > maxReplyElems := by
            unfold maxReplyElems
            omega
          simp only [if_pos hover,if_pos hp,if_neg hbound,if_pos hlt]
          rfl
        · have hcount := doubled_of_not_over (not_lt.mp hneg) hrange hover
          have hpos : ¬(if isPairs t then n*2 else n)<0 := by split_ifs <;> omega
          simp only [if_neg hover,hcount]
          generalize (if isPairs t=true then n*2 else n)=count at hpos ⊢
          by_cases hbound : count > maxReplyElems
          · simp [hbound,Descent.Answers]
          simp only [if_neg hbound,if_neg hpos]
          by_cases hattr : t=byte '|'
          · simp only [annotated,hattr,if_true]
            simpa [Descent.Answers] using same_times_succ (readValue size room) _ rest (fun _ v => v)
          · simp only [annotated,hattr,if_false,Nat.add_zero]
            exact Outcome.same_map _ (Value.ofElems t)
    · simp [hl,hb,hagg,hs,hnull,hcolon,Descent.Answers]

/-- How `readValue` comes to a value from a header line; `read` parses the nested frames. -/
inductive Parses (read : Bytes → Outcome RespErr Value UInt8) (t : UInt8) (arg rest : Bytes) :
    Value → Bytes → Prop
  | string (ht : t∈stringTypes) : Parses read t arg rest (.ofStr t arg) rest
  | null (ht : t = byte '_') : Parses read t arg rest (.ofNull t) rest
  | int {n} (ht : t = byte ':') (hn : parseInt arg=some n) : Parses read t arg rest (.ofInt n) rest
  | absent {n} (ht : t∈bulkTypes ∨ t∈aggregateTypes) (hn : parseInt arg=some n) (hneg : n<0) :
      Parses read t arg rest (.ofNull t) rest
  | bulk {n : ℕ} (ht : t∈bulkTypes) (hn : parseInt arg = some (n : ℤ)) (hmax : (n : ℤ) ≤ maxBulk)
      (hlen : n+2≤rest.length) : Parses read t arg rest (.ofStr t (rest.take n)) (rest.drop (n+2))
  | elems {n : ℕ} {vs r} (ht : t∈aggregateTypes) (hattr : t ≠ byte '|')
      (hn : parseInt arg = some (n : ℤ)) (hmax : ((if isPairs t then n*2 else n : ℕ) : ℤ) ≤ maxReplyElems)
      (hvs : times read (if isPairs t then n*2 else n) rest = .ok vs r) :
      Parses read t arg rest (.ofElems t vs) r
  | annotated {n : ℕ} {vs m v r} (ht : t = byte '|') (hn : parseInt arg = some (n : ℤ))
      (hmax : ((n*2 : ℕ) : ℤ) ≤ maxReplyElems) (hvs : times read (n*2) rest = .ok vs m)
      (hv : read m = .ok v r) : Parses read t arg rest v r

section Parse
variable {size room : ℕ} {s r : Bytes} {v : Value} {t : UInt8}

lemma parses_of_readValue (h : readValue size (room+1) s=.ok v r) :
    ∃ t arg rest,readLine size s=.ok (t::arg,rest) ∧ Parses (readValue size room) t arg rest v r := by
  simp only [readValue] at h
  obtain ⟨e,hline⟩ | ⟨rest,hline⟩ | ⟨t,arg,rest,hline⟩ := readLine_cases size s <;> simp only [hline] at h
  · cases h
  · cases h
  refine ⟨t,arg,rest,hline,?_⟩
  split at h
  · rename_i ht
    cases h
    exact .string ht
  split at h
  · rename_i ht
    cases h
    exact .null ht
  split at h
  · rename_i ht
    split at h
    · cases h
    · rename_i n hn
      cases h
      exact .int ht hn
  split at h
  · rename_i ht
    split at h
    · cases h
    rename_i n hn
    split at h
    · rename_i hneg
      cases h
      exact .absent (.inl ht) hn hneg
    rename_i hneg
    split_ifs at h with hmax _ hlen
    cases h
    exact .bulk ht (by rw [hn]; congr 1; omega) (by omega) (by omega)
  split at h
  case isFalse => cases h
  rename_i ht
  split at h
  · cases h
  rename_i n hn
  split at h
  · rename_i hneg
    cases h
    exact .absent (.inr ht) hn hneg
  rename_i hneg
  obtain ⟨k,rfl⟩ := Int.eq_ofNat_of_zero_le (not_lt.mp hneg)
  obtain hover | hcount := doubled_count t (parseInt_range hn).2
  · have hbound : ¬(if isPairs t=true then int64 (k*2) else k) > maxReplyElems := by
      unfold maxReplyElems
      omega
    rw [if_neg hbound,if_pos hover] at h
    cases h
  rw [hcount] at h
  by_cases hmax : ((if isPairs t=true then k*2 else k : ℕ) : ℤ) > maxReplyElems
  · rw [if_pos hmax] at h
    cases h
  rw [if_neg hmax,if_neg (by omega),Int.toNat_natCast] at h
  obtain ⟨vs,m,hvs,hend⟩ := Outcome.andThen_eq_ok.mp h
  split at hend
  · rename_i hattr
    have hp : isPairs t=true := by simp [isPairs,hattr]
    simp only [hp,if_true] at hvs hmax
    exact .annotated hattr hn (not_lt.mp hmax) hvs hend
  · rename_i hattr
    cases hend
    exact .elems ht hattr hn (not_lt.mp hmax) hvs

lemma bulkTypes_other : ∀ t∈bulkTypes,t ∉ stringTypes ∧ t≠byte '_' ∧ t≠byte ':' := by
  have hall : bulkTypes.all (fun t => t ∉ stringTypes ∧ t≠byte '_' ∧ t≠byte ':')=true := by decide
  exact fun t ht => of_decide_eq_true (List.all_eq_true.mp hall t ht)

lemma aggregateTypes_other : ∀ t∈aggregateTypes,t ∉ stringTypes ∧ t≠byte '_' ∧ t≠byte ':' ∧ t ∉ bulkTypes := by
  have hall : aggregateTypes.all (fun t => t ∉ stringTypes ∧ t≠byte '_' ∧ t≠byte ':' ∧ t ∉ bulkTypes)=true := by decide
  exact fun t ht => of_decide_eq_true (List.all_eq_true.mp hall t ht)

lemma readValue_of_parses {arg rest : Bytes} (hline : readLine size s=.ok (t::arg,rest))
    (h : Parses (readValue size room) t arg rest v r) : readValue size (room+1) s=.ok v r := by
  simp only [readValue,hline]
  cases h with
  | string ht => simp [ht]
  | null ht =>
    subst ht
    rfl
  | int ht hn =>
    subst ht
    rw [if_neg (by decide),if_neg (by decide),if_pos rfl,hn]
  | absent ht hn hneg =>
    obtain ht | ht := ht
    · obtain ⟨hs,hnull,hcolon⟩ := bulkTypes_other t ht
      simp [hs,hnull,hcolon,ht,hn,hneg]
    · obtain ⟨hs,hnull,hcolon,hb⟩ := aggregateTypes_other t ht
      simp [hs,hnull,hcolon,hb,ht,hn,hneg]
  | bulk ht hn hmax hlen =>
    obtain ⟨hs,hnull,hcolon⟩ := bulkTypes_other t ht
    have hne : rest≠[] := by
      rintro rfl
      simp at hlen
    simp only [if_neg hs,if_neg hnull,if_neg hcolon,if_pos ht,hn,Int.toNat_natCast]
    rw [if_neg (by omega),if_neg (not_lt.mpr hmax),if_neg hne,if_neg (by omega)]
  | @elems n vs _ ht hattr hn hmax hvs =>
    obtain ⟨hs,hnull,hcolon,hb⟩ := aggregateTypes_other t ht
    have hcount := doubled_count_of_le t hmax
    simp only [if_neg hs,if_neg hnull,if_neg hcolon,if_neg hb,if_pos ht,hn,hcount]
    rw [if_neg (by omega),if_neg (not_lt.mpr hmax),if_neg (by omega),Int.toNat_natCast,hvs]
    simp [hattr]
  | @annotated n vs m _ _ ht hn hmax hvs hv =>
    subst ht
    have hcount := doubled_count_of_le (byte '|') (k := n) hmax
    have hp : isPairs (byte '|')=true := by decide
    rw [if_neg (by decide),if_neg (by decide),if_neg (by decide),if_neg (by decide),if_pos (by decide),hn]
    dsimp only
    rw [hcount]
    simp only [hp,if_true]
    rw [if_neg (by omega),if_neg (not_lt.mpr hmax),if_neg (by omega),Int.toNat_natCast,hvs]
    exact hv

lemma Parses.mono {read read' : Bytes → Outcome RespErr Value UInt8} {arg rest : Bytes}
    (hr : ∀ s v r,read s=.ok v r → read' s=.ok v r) (h : Parses read t arg rest v r) : Parses read' t arg rest v r := by
  cases h with
  | string ht => exact .string ht
  | null ht => exact .null ht
  | int ht hn => exact .int ht hn
  | absent ht hn hneg => exact .absent ht hn hneg
  | bulk ht hn hmax hlen => exact .bulk ht hn hmax hlen
  | elems ht hattr hn hmax hvs => exact .elems ht hattr hn hmax (times_mono hr hvs)
  | annotated ht hn hmax hvs hv => exact .annotated ht hn hmax (times_mono hr hvs) (hr _ _ _ hv)

lemma readValue_mono (h : readValue size room s=.ok v r) : readValue size (room+1) s=.ok v r := by
  induction room generalizing s v r with
  | zero => cases h
  | succ room ih =>
    obtain ⟨t,arg,rest,hline,hp⟩ := parses_of_readValue h
    exact readValue_of_parses hline (hp.mono (fun _ _ _ hx => ih hx))

lemma readLine_header {a : Bytes} (rest : Bytes) (ht : t≠10) (ha : 10 ∉ a)
    (hlen : a.length≤20) : readLine size (t::a++crlf++rest)=.ok (t::a,rest) := by
  refine readLine_append ?_ (lineFits_of_le ?_)
  · simp [Ne.symm ht,ha]
  · simp only [length_cons]
    omega

lemma readLine_count {n : ℕ} (rest : Bytes) (ht : t≠10) (hn : (n : ℤ)<2^63) :
    readLine size (t::formatUint n++crlf++rest)=.ok (t::formatUint n,rest) := by
  have hdigits : formatInt n=formatUint n := by simp [formatInt]
  rw [← hdigits]
  exact readLine_header rest ht (not_mem_formatInt _) (length_formatInt_le (by omega) hn)

lemma times_encodeValues {vs : List Value} {n : ℕ} {read : Bytes → Outcome RespErr Value UInt8}
    (hread : ∀ s v r,read s=.ok v r → ∃ b,encodeValue v=.ok b ∧ ∀ rest,read (b++rest)=.ok v rest)
    (h : times read n s=.ok vs r) : ∃ b,encodeValues vs=.ok b ∧ ∀ rest,times read n (b++rest)=.ok vs rest := by
  induction n generalizing s vs with
  | zero =>
    cases h
    exact ⟨[],rfl,fun _ => rfl⟩
  | succ n ih =>
    obtain ⟨v,m,vs',hv,hvs,rfl⟩ := of_times_succ h
    obtain ⟨b,hb,hreadb⟩ := hread s v m hv
    obtain ⟨bs,hbs,hreadbs⟩ := ih hvs
    refine ⟨b++bs,by simp [encodeValues,hb,hbs],fun rest => ?_⟩
    rw [append_assoc]
    simp [times,hreadb,hreadbs]

lemma types_ne_feed : ∀ t∈lineTypes++bulkTypes++aggregateTypes,t≠10 := by
  have hall : (lineTypes++bulkTypes++aggregateTypes).all (fun t => t≠10)=true := by decide
  exact fun t ht => of_decide_eq_true (List.all_eq_true.mp hall t ht)

theorem readValue_encodeValue (h : readValue size room s=.ok v r) :
    ∃ b,encodeValue v=.ok b ∧ ∀ rest,readValue size room (b++rest)=.ok v rest := by
  induction room generalizing s v r with
  | zero => cases h
  | succ room ih =>
    obtain ⟨t,arg,rest,hline,hp⟩ := parses_of_readValue h
    obtain ⟨_,hfeed,hfits⟩ := readLine_ok hline
    cases hp with
    | string ht =>
      refine ⟨t::arg++crlf,by simp [Value.ofStr,encodeValue,ht],fun rest' => ?_⟩
      exact readValue_of_parses (readLine_append hfeed hfits) (.string ht)
    | null ht =>
      subst ht
      refine ⟨byte '_'::crlf,by simp [Value.ofNull,encodeValue],fun rest' => ?_⟩
      exact readValue_of_parses (readLine_header (a := []) rest' (by decide) (by simp) (by simp)) (.null rfl)
    | @int n ht hn =>
      subst ht
      obtain ⟨hlo,hhi⟩ := parseInt_range hn
      refine ⟨byte ':'::formatInt n++crlf,?_,fun rest' => ?_⟩
      · simp only [Value.ofInt,encodeValue,if_neg Bool.false_ne_true]
        rfl
      · exact readValue_of_parses
          (readLine_header rest' (by decide) (not_mem_formatInt n) (length_formatInt_le hlo hhi))
          (.int rfl (parseInt_formatInt hlo hhi))
    | absent ht hn hneg =>
      have hnull : t≠byte '_' := ht.elim (fun h => (bulkTypes_other t h).2.1)
        (fun h => (aggregateTypes_other t h).2.1)
      have hne : t≠10 := types_ne_feed t (by simpa using .inr ht)
      refine ⟨t::formatInt (-1)++crlf,by simp [Value.ofNull,encodeValue,hnull],fun rest' => ?_⟩
      exact readValue_of_parses
        (readLine_header rest' hne (not_mem_formatInt _) (length_formatInt_le (by decide) (by decide)))
        (.absent ht (parseInt_formatInt (by decide) (by decide)) (by decide))
    | @bulk n ht hn hmax hlen =>
      obtain ⟨hs,_,hcolon⟩ := bulkTypes_other t ht
      have hstr : (rest.take n).length=n := by
        rw [length_take]
        omega
      have hn63 : (n : ℤ)<2^63 := (parseInt_range hn).2
      have hne : t≠10 := types_ne_feed t (by simp [ht])
      refine ⟨t::formatUint n++crlf++(rest.take n++crlf),?_,fun rest' => ?_⟩
      · simp [Value.ofStr,encodeValue,hs,hcolon,ht,hstr]
      · have hread : readLine size (t::formatUint n++crlf++(rest.take n++crlf)++rest') =
            .ok (t::formatUint n,rest.take n++crlf++rest') := by
          rw [append_assoc (t::formatUint n++crlf)]
          exact readLine_count _ hne hn63
        have hp : Parses (readValue size room) t (formatUint n) (rest.take n++crlf++rest') _ _ :=
          .bulk ht (parseInt_formatUint (by omega)) hmax (by simp [hstr,crlf])
        have htake : (rest.take n++crlf++rest').take n=rest.take n := by
          rw [append_assoc,take_left' hstr]
        have hdrop : (rest.take n++crlf++rest').drop (n+2)=rest' :=
          drop_left' (by simp [hstr,crlf])
        rw [htake,hdrop] at hp
        exact readValue_of_parses hread hp
    | @elems n vs _ ht hattr hn hmax hvs =>
      obtain ⟨hs,_,hcolon,hb⟩ := aggregateTypes_other t ht
      obtain ⟨b,hbs,hreads⟩ := times_encodeValues (fun _ _ _ hx => ih hx) hvs
      have hn63 : (n : ℤ)<2^63 := (parseInt_range hn).2
      have hne : t≠10 := types_ne_feed t (by simp [ht])
      have hpairs : isPairs t=decide (t=byte '%') := by simp [isPairs,hattr]
      have hcount : (if t=byte '%' then vs.length/2 else vs.length)=n := by
        have hlen := length_of_times hvs
        rw [hpairs] at hlen
        by_cases hp : t=byte '%' <;> simp [hp] at hlen ⊢ <;> omega
      refine ⟨t::formatUint n++crlf++b,?_,fun rest' => ?_⟩
      · simp [Value.ofElems,encodeValue,hs,hcolon,hb,ht,hattr,hcount,hbs]
      · have hread : readLine size (t::formatUint n++crlf++b++rest')=.ok (t::formatUint n,b++rest') := by
          rw [append_assoc (t::formatUint n++crlf)]
          exact readLine_count _ hne hn63
        exact readValue_of_parses hread
          (.elems ht hattr (parseInt_formatUint (by omega)) hmax (hreads rest'))
    | @annotated n vs m _ _ ht hn hmax hvs hv =>
      obtain ⟨b,hb,hread⟩ := ih hv
      exact ⟨b,hb,fun rest' => readValue_mono (hread rest')⟩

end Parse

section Copy
variable {size room : ℕ} {s r : Bytes} {f : FrameInfo × Bytes}

theorem copyFrame_written (h : copyFrame size room s=.ok f r) : s=f.2++r := by
  induction room generalizing s f r with
  | zero => cases h
  | succ room ih =>
    simp only [copyFrame] at h
    obtain ⟨e,hline⟩ | ⟨rest,hline⟩ | ⟨t,arg,rest,hline⟩ := readLine_cases size s <;> simp only [hline] at h
    · cases h
    · cases h
    obtain ⟨hs,_,_⟩ := readLine_ok hline
    split at h
    · cases h
      exact hs
    split at h
    · cases hn : parseInt arg with
      | none => simp [hn] at h
      | some n =>
        simp only [hn] at h
        split at h
        · cases h
          exact hs
        split_ifs at h
        cases h
        rw [append_assoc,take_append_drop]
        exact hs
    split at h
    case isFalse => cases h
    cases hn : parseInt arg with
    | none => simp [hn] at h
    | some n =>
      simp only [hn] at h
      split at h
      · cases h
        exact hs
      obtain ⟨fs,m,hfs,hend⟩ := Outcome.andThen_eq_ok.mp h
      have hrest := times_written (w := Prod.snd) (fun _ _ _ hx => ih hx) hfs
      split at hend
      · obtain ⟨g,q,hg,hok⟩ := Outcome.andThen_eq_ok.mp hend
        cases hok
        have hm := ih hg
        rw [hs,hrest,hm]
        simp
      · cases hend
        rw [hs,hrest]
        simp

end Copy

section Asks
variable {size k n : ℕ} {s m r : Bytes}

lemma replyAsk_suffix (h : Frames (replyAsk size) n s r) : r <:+ s := by
  refine h.suffix (fun s m hs => ?_) fun _ _ _ hs => ?_
  · have hleaf : replyAsk size s=.leaf m ∧ m <:+ s := header_leaf (fun _ _ _ => rfl) (by simp) hs
    exact hleaf.2
  · obtain ⟨t,arg,n,rest,hrest,_,_,heq,_⟩ := header_nest hs
    cases heq
    exact hrest

/-- The parser takes less than the protocol allows, but nothing in another way. -/
lemma readAsk_leaf (h : readAsk size s=.leaf m) : copyAsk size s=.leaf m ∧ replyAsk size s=.leaf m := by
  have hnest : ∀ (t : UInt8) (n : ℤ) (rest m : Bytes),
      (if isPairs t && n ≥ 2^62 then Announced.overflow
        else if (if isPairs t then n*2 else n) > maxReplyElems then .refused
        else .nest ((if isPairs t then n*2 else n).toNat+annotated t) rest)≠.leaf m := by
    intro t n rest m
    split
    · simp
    · generalize (if isPairs t=true then n*2 else n)=c
      split <;> simp
  exact ⟨(header_leaf (fun _ _ _ => rfl) hnest h).1,(header_leaf (fun _ _ _ => rfl) hnest h).1⟩

lemma readAsk_nest (h : readAsk size s=.nest k m) : copyAsk size s=.nest k m ∧ replyAsk size s=.nest k m := by
  obtain ⟨t,arg,n,rest,_,hn,hpos,hread,hall⟩ := header_nest h
  have hover : ¬(isPairs t && n ≥ 2^62)=true := fun hc => by
    rw [if_pos hc] at hread
    cases hread
  rw [if_neg hover] at hread
  have hsame := doubled_of_not_over hpos (parseInt_range hn).2 hover
  have hk : Announced.nest ((if isPairs t then n*2 else n).toNat+annotated t) rest=.nest k m := by
    generalize (if isPairs t=true then n*2 else n)=c at hread
    split_ifs at hread
    · exact hread
  constructor
  · rw [copyAsk,hall,hsame]
    exact hk
  · rw [replyAsk,hall]
    exact hk

lemma copyAsk_leaf (h : copyAsk size s=.leaf m) : replyAsk size s=.leaf m :=
  (header_leaf (fun _ _ _ => rfl) (by simp) h).1

/-- A doubled count that wrapped is taken for an empty aggregate. -/
lemma copyAsk_nest (h : copyAsk size s=.nest k m) : ∃ j,replyAsk size s=.nest j m ∧ k≤j := by
  obtain ⟨t,arg,n,rest,_,hn,hpos,hcopy,hall⟩ := header_nest h
  cases hcopy
  refine ⟨_,hall _ _,?_⟩
  obtain ⟨hsmall,hbig⟩ := int64_double hpos (parseInt_range hn).2
  by_cases hp : isPairs t=true
  · simp only [hp,if_true]
    by_cases hlt : n<2^62
    · rw [hsmall hlt]
    · have := hbig (not_lt.mp hlt)
      omega
  · simp [hp]

end Asks

/-- The copier and the parser read the same logical reply from a stream and stop where it ends at
the latest, the parsed value survives being written, and neither takes the process down. -/
structure Agree (size copyRoom readRoom : ℕ) (s : Bytes) : Prop where
  written : ∀ f r,copyFrame size copyRoom s = .ok f r → s = f.2++r
  same : ∀ f r v r',copyFrame size copyRoom s = .ok f r → readValue size readRoom s = .ok v r' → r=r'
  encoded : ∀ v r,readValue size readRoom s = .ok v r →
    ∃ b,encodeValue v = .ok b ∧ readValue size readRoom b = .ok v []
  copied : ∀ f r r',copyFrame size copyRoom s = .ok f r → Frames (replyAsk size) 1 s r' → r' <:+ r
  parsed : ∀ v r,readValue size readRoom s = .ok v r → Frames (replyAsk size) 1 s r
  copyReturns : (copyFrame size copyRoom s).isCrash=false
  readReturns : (readValue size readRoom s).isCrash=false

/-- On every stream, buffer size and stack, the codec keeps its contract exactly when neither
reader comes to a nesting its stack has no room for, and the parser to no map or attribute header
of 2^62 pairs or more. -/
theorem codec_agrees_iff (size copyRoom readRoom : ℕ) (s : Bytes) : Agree size copyRoom readRoom s ↔
      ¬Fault (copyAsk size) copyRoom s ∧ ¬Fault (readAsk size) readRoom s := by
  have hcopy : _ ↔ Fault (copyAsk size) copyRoom s := (copyFrame_follows size).crash_iff
  have hread : _ ↔ Fault (readAsk size) readRoom s := (readValue_follows size).crash_iff
  constructor
  · intro h
    rw [← hcopy,← hread]
    simp [h.copyReturns,h.readReturns]
  · rintro ⟨hc,hr⟩
    rw [← hcopy] at hc
    rw [← hread] at hr
    have hparsed : ∀ v r,readValue size readRoom s = .ok v r → Frames (readAsk size) 1 s r :=
      fun v r h => (readValue_follows size).frames h
    have hcopied : ∀ f r,copyFrame size copyRoom s = .ok f r → Frames (copyAsk size) 1 s r :=
      fun f r h => (copyFrame_follows size).frames h
    refine ⟨fun f r h => copyFrame_written h,?_,?_,?_,?_,by simpa using hc,by simpa using hr⟩
    · intro f r v r' hf hv
      have hsame := (hparsed v r' hv).mono (fun _ _ hs => (readAsk_leaf hs).1)
        (fun _ _ _ hs => (readAsk_nest hs).1)
      exact (hcopied f r hf).unique hsame
    · intro v r hv
      obtain ⟨b,hb,hback⟩ := readValue_encodeValue hv
      exact ⟨b,hb,by simpa using hback []⟩
    · intro f r r' hf hreply
      obtain ⟨i,hi⟩ := (hcopied f r hf).short (fun _ _ hs => copyAsk_leaf hs)
        (fun _ _ _ hs => copyAsk_nest hs) le_rfl hreply
      exact replyAsk_suffix hi
    · intro v r hv
      exact (hparsed v r hv).mono (fun _ _ hs => (readAsk_leaf hs).2) (fun _ _ _ hs => (readAsk_nest hs).2)

/-- A map header of 2^62 pairs. -/
def overflowingMap : Bytes := ascii "%4611686018427387904\r\n"

/-- The parser panics on it, while the copier takes it for a whole reply. -/
theorem overflowing_map_panics : readValue 4096 64 overflowingMap = .crash .badAllocation ∧
      (copyFrame 4096 64 overflowingMap = .ok (⟨byte '%',false⟩,overflowingMap) []) ∧ ¬Agree 4096 64 64 overflowingMap := by
  have hread : readValue 4096 64 overflowingMap = .crash .badAllocation := by rfl
  refine ⟨hread,by decide +kernel,fun h => ?_⟩
  have := h.readReturns
  rw [hread] at this
  cases this

end JuiceMount.RespProxy.Resp
