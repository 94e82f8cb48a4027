import JuiceMount.RespProxy.RespCodec

/-! Client commands. A command is an array of bulk strings or one inline line, read under limits;
the proxy sends it on as an array. -/
namespace JuiceMount.RespProxy.Resp
open Descent List

structure Limits where
  maxArgs : ℤ
  maxBulk : ℤ
  maxTotal : ℤ
  range : maxArgs < 2^63 ∧ 0 ≤ maxTotal ∧ maxBulk+maxTotal < 2^63

def preAuthLimits : Limits := ⟨10,2^14,2^14,by decide⟩

def authLimits : Limits := ⟨2^20,2^24,2^26,by decide⟩

/-- The words of an inline line; `word` is the one that has begun. -/
def splitInline (word : Bytes) : Bytes → List Bytes
  | [] => if word=[] then [] else [word]
  | c::line =>
    if c=32 || c=9 then (if word=[] then [] else [word])++splitInline [] line
    else splitInline (word++[c]) line

/-- Chunks of 64 KiB are read until `l` bytes and the CRLF have arrived. -/
def readBulk (l : ℕ) (s : Bytes) : Outcome RespErr Bytes UInt8 :=
  if s.length < l+2 then .err (if s.length%2^16=0 then .eof else .unexpectedEOF)
  else if (s.drop l).take 2 ≠ crlf then .err .protocol
  else .ok (s.take l) (s.drop (l+2))

/-- The loop over the arguments, `total` bytes into the command. -/
def readArgs (size : ℕ) (lim : Limits) : ℕ → ℤ → Bytes → Outcome RespErr (List Bytes) UInt8
  | 0,_,s => .ok [] s
  | n+1,total,s =>
    match readLine size s with
    | .error e => .err e
    | .ok ([],_) => .err .protocol
    | .ok (t::arg,rest) =>
      match parseInt arg with
      | none => .err .protocol
      | some l =>
        if t ≠ byte '$' || l<0 || l > lim.maxBulk || int64 (total+l) > lim.maxTotal then .err .protocol
        else
          (readBulk l.toNat rest).andThen fun b m =>
            (readArgs size lim n (int64 (total+l)) m).andThen fun args => .ok (b::args)

def readCommandLimits (size : ℕ) (lim : Limits) (s : Bytes) : Outcome RespErr (List Bytes) UInt8 :=
  match readLine size s with
  | .error e => .err e
  | .ok ([],rest) => .ok [] rest
  | .ok (t::arg,rest) =>
    if t ≠ byte '*' then
      let args := splitInline [] (t::arg)
      if arg.length+1 > lim.maxTotal || args.length > lim.maxArgs then .err .protocol else .ok args rest
    else
      match parseInt arg with
      | none => .err .protocol
      | some n =>
        if n≤0 then .ok [] rest
        else if n > lim.maxArgs then .err .protocol
        else readArgs size lim n.toNat 0 rest

def readCommand (size : ℕ) : Bytes → Outcome RespErr (List Bytes) UInt8 := readCommandLimits size authLimits

def writeBulk (a : Bytes) : Bytes := byte '$'::formatUint a.length++crlf++(a++crlf)

def writeCommand (args : List Bytes) : Bytes :=
  byte '*'::formatUint args.length++crlf++(args.map writeBulk).flatten

/-- A command within the limits. -/
structure Limits.Command (lim : Limits) where
  args : List Bytes
  nonempty : args≠[]
  count : args.length ≤ lim.maxArgs
  bulk : ∀ a∈args,a.length ≤ lim.maxBulk
  total : (args.map length).sum ≤ lim.maxTotal

/-- A read of the client's stream that gave a command. -/
structure Accepted (size : ℕ) (lim : Limits) where
  stream : Bytes
  args : List Bytes
  rest : Bytes
  read : readCommandLimits size lim stream = .ok args rest

variable {size : ℕ} {lim : Limits} {s r b : Bytes} {args : List Bytes}

lemma splitInline_sum (word line : Bytes) : ((splitInline word line).map length).sum≤word.length+line.length := by
  induction line generalizing word with
  | nil => by_cases h : word=[] <;> simp [splitInline,h]
  | cons c line ih =>
    have hnext := ih []
    have hmore := ih (word++[c])
    simp only [length_nil,length_append,length_cons] at hnext hmore ⊢
    unfold splitInline
    split_ifs <;> simp <;> omega

lemma readBulk_length {l : ℕ} (h : readBulk l s=.ok b r) : b.length=l := by
  unfold readBulk at h
  split_ifs at h
  cases h
  rw [length_take]
  omega

lemma readArgs_bounded {n : ℕ} {total : ℤ} (hpos : 0≤total) (htotal : total≤lim.maxTotal)
    (h : readArgs size lim n total s=.ok args r) : args.length=n ∧ total+(args.map length).sum≤lim.maxTotal := by
  induction n generalizing total s args with
  | zero =>
    cases h
    simp [htotal]
  | succ n ih =>
    unfold readArgs at h
    split at h
    · cases h
    · cases h
    rename_i arg rest _
    cases hl : parseInt arg with
    | none => simp [hl] at h
    | some l =>
      simp only [hl] at h
      split_ifs at h with hbad
      obtain ⟨b,m,hb,h⟩ := Outcome.andThen_eq_ok.mp h
      obtain ⟨args,r,hargs,h⟩ := Outcome.andThen_eq_ok.mp h
      cases h
      simp only [Bool.or_eq_true,decide_eq_true_eq,not_or,not_lt] at hbad
      -- the announced length is at most `maxBulk`, so the running total does not wrap
      have hmax := lim.range.2.2
      have hsum : int64 (total+l)=total+l := int64_of_range (by omega) (by omega)
      rw [hsum] at hargs hbad
      obtain ⟨hlen,hrest⟩ := ih (by omega) (by omega) hargs
      have := readBulk_length hb
      rw [length_cons,hlen,map_cons,sum_cons]
      omega

/-- No client makes the proxy take a command over the limits, as an array or inline. -/
theorem accepted_within_limits (a : Accepted size lim) :
    a.args = [] ∨ a.args.length ≤ lim.maxArgs ∧ (a.args.map length).sum ≤ lim.maxTotal := by
  have h := a.read
  unfold readCommandLimits at h
  split at h
  · cases h
  · exact .inl (Outcome.ok.inj h).1.symm
  rename_i t arg rest _
  have hinline := splitInline_sum [] (t::arg)
  simp only [length_nil,length_cons] at hinline
  dsimp only at h
  split at h
  · split_ifs at h with hbad
    simp only [Bool.or_eq_true,decide_eq_true_eq,not_or,not_lt] at hbad
    rw [← (Outcome.ok.inj h).1]
    exact .inr ⟨hbad.2,by omega⟩
  · cases hn : parseInt arg with
    | none => simp [hn] at h
    | some n =>
      simp only [hn] at h
      split_ifs at h
      · exact .inl (Outcome.ok.inj h).1.symm
      obtain ⟨hlen,hsum⟩ := readArgs_bounded le_rfl lim.range.2.1 h
      exact .inr ⟨by omega,by omega⟩

lemma readArgs_written {total : ℕ} (rest : Bytes) (hbulk : ∀ a∈args,a.length≤lim.maxBulk)
    (htotal : total+(args.map length).sum≤lim.maxTotal) :
    readArgs size lim args.length total ((args.map writeBulk).flatten++rest)=.ok args rest := by
  induction args generalizing total with
  | nil => rfl
  | cons a args ih =>
    obtain ⟨ha,hargs⟩ := forall_mem_cons.mp hbulk
    simp only [map_cons,sum_cons,Nat.cast_add] at htotal
    have hmax := lim.range.2.2
    have hsum : int64 (total+a.length)=(total+a.length : ℕ) := int64_of_range (by omega) (by omega)
    let tail := (args.map writeBulk).flatten++rest
    have hline : readLine size (byte '$'::formatUint a.length++crlf++(a++crlf++tail))=.ok (_,a++crlf++tail) :=
      readLine_count _ (by decide) (by omega)
    have hbytes : readBulk a.length (a++crlf++tail)=.ok a tail := by simp [readBulk,crlf,drop_append]
    have hall : ((a::args).map writeBulk).flatten++rest=byte '$'::formatUint a.length++crlf++(a++crlf++tail) := by
      simp [writeBulk,tail]
    rw [hall,length_cons,readArgs,hline]
    simp only [parseInt_formatUint (n := a.length) (by omega),hsum]
    rw [if_neg (by simp; omega),Int.toNat_natCast,hbytes,Outcome.andThen_ok,ih hargs (by omega),Outcome.andThen_ok]

lemma readCommandLimits_written (c : lim.Command) (rest : Bytes) :
    readCommandLimits size lim (writeCommand c.args++rest)=.ok c.args rest := by
  have hcount := c.count
  have hmax := lim.range.1
  have hpos := length_pos_iff.mpr c.nonempty
  have hline : readLine size (byte '*'::formatUint c.args.length++crlf++((c.args.map writeBulk).flatten++rest))=.ok (_,_) :=
    readLine_count _ (by decide) (by omega)
  rw [writeCommand,append_assoc,readCommandLimits,hline]
  simp only [parseInt_formatUint (n := c.args.length) (by omega)]
  rw [if_neg (by simp),if_neg (by omega),if_neg (by omega)]
  exact readArgs_written rest c.bulk (by simpa using c.total)

/-- What the proxy sends on splits again into the commands it decided on, whatever bytes their arguments
have: no argument ends its command early or smuggles in another one. -/
theorem commands_read_back (size : ℕ) (lim : Limits) (cs : List lim.Command) (rest : Bytes) :
    times (readCommandLimits size lim) cs.length ((cs.map fun c => writeCommand c.args).flatten ++ rest) =
      .ok (cs.map Limits.Command.args) rest := by
  induction cs with
  | nil => rfl
  | cons c cs ih => simp [times,readCommandLimits_written,ih]

end JuiceMount.RespProxy.Resp
