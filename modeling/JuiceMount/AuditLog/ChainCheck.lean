import Mathlib.Data.List.Sort
import Mathlib.Data.List.TakeWhile
import JuiceMount.Lib.GoMap
import JuiceMount.Lib.HashChain
import JuiceMount.Lib.Lines
import JuiceMount.RespProxy.Keys

/-! The audit log on disk and its readers. The log is a chain of JSON lines over segment files:
every line names the hash of the line before it. `verifyAnchors` reads the whole directory,
`follow` only what stands behind an anchor the Manager recorded outside of it. -/
namespace JuiceMount.AuditLog
open List Option
open RespProxy (Bytes ascii isDigit parseUint)

/-- Hexadecimal digests, as the `prev` fields hold them. -/
abbrev Hash := List Char

def zeroHash : Hash := List.replicate 64 '0'

inductive RecordType
  | intent | outcome | refused | modified | gap | opened | retention
  | other (name : Bytes)
  deriving DecidableEq, Repr

/-- One line of the log. `body` holds the fields neither the writer nor the checks read. -/
structure Record where
  seq : ℕ
  ts : ℤ
  type : RecordType
  dropped : ℕ := 0
  startSeq : ℕ := 0
  startPrev : Hash := []
  prev : Hash := []
  body : Bytes := []
  deriving DecidableEq, Repr

/-- The JSON package and SHA-256, as the log uses them. -/
structure Codec where
  marshal : Record → Bytes
  unmarshal : Bytes → Option Record
  digest : Bytes → Hash
  /-- The record encodes to more than `MaxRecordBytes`. -/
  oversize : Record → Bool
  /-- What `stubOf` keeps of the other fields. -/
  clip : Bytes → Bytes

def newline : UInt8 := 10

/-- `scanLines` collects a line in pieces of 2^20 bytes until it holds more than 16 of them. -/
def lineLimit : ℕ := 17*2^20

/-- The complete lines from an offset on, up to one that is too long, and whether all were read. -/
def scanLines (data : Bytes) (start : ℕ) : List (ℕ × Bytes) × Bool :=
  let ls := Lines.scan newline start [] (data.drop start)
  (ls.takeWhile fun l => l.2.length<lineLimit,
    ls.all (fun l => l.2.length<lineLimit) && (Lines.torn newline [] (data.drop start)).length<lineLimit)

/-- A file of the audit directory. -/
structure Entry where
  name : Bytes
  regular : Bool
  data : Bytes
  deriving DecidableEq, Repr

structure Segment where
  first : ℕ
  base : Bytes
  data : Bytes
  deriving DecidableEq, Repr

/-- The number in a segment's name, audit-<first seq>.jsonl. -/
def segFirst (name : Bytes) : Option ℕ :=
  let rest := (name.drop 6).take (name.length-12)
  if (ascii "audit-").isPrefixOf name && (ascii ".jsonl").isSuffixOf name && rest ≠ [] && rest.all isDigit
  then parseUint rest else none

def Entry.toSegment (e : Entry) : Option Segment :=
  if e.regular then (segFirst e.name).map fun n => ⟨n,e.name,e.data⟩ else none

def segments (dir : List Entry) : List Segment :=
  (dir.filterMap Entry.toSegment).insertionSort fun a b => a.first≤b.first

/-- A point of the chain recorded outside the directory: the line with sequence number `seq`
hashes to `hash` and occupies [`offset`, `stop`) of `segment`. -/
structure Anchor where
  seq : ℕ := 0
  hash : Hash := []
  segment : Bytes := []
  offset : ℕ := 0
  stop : ℕ := 0
  ts : ℤ := 0
  deriving DecidableEq, Repr

structure Retention where
  seq : ℕ
  ts : ℤ
  startSeq : ℕ
  startPrev : Hash
  deriving DecidableEq, Repr

/-- What a check found wrong first, with the values its text prints. -/
inductive Problem
  | notRecord (segment : Bytes) (line : ℕ)
  | chainBroken (segment : Bytes) (line seq : ℕ) (prev expected : Hash)
  | order (segment : Bytes) (line seq after : ℕ)
  | rewritten (segment : Bytes) (line seq : ℕ) (hash anchor : Hash)
  | unnamedStart (seq : ℕ)
  | endsBefore (last seq : ℕ) (ts : ℤ)
  | missingAnchors (count : ℕ)
  | anchorGone (segment : Bytes) (offset seq : ℕ) (ts : ℤ)
  deriving DecidableEq, Repr

structure Report where
  ok : Bool := false
  records : ℕ := 0
  segments : ℕ := 0
  lastSeq : ℕ := 0
  head : Hash := []
  startSeq : ℕ := 0
  anchors : ℕ := 0
  retentions : List Retention := []
  problem : Option Problem := none
  badSeq : ℕ := 0
  deriving DecidableEq, Repr

/-- `Report.Retentions` holds the newest 64. -/
def maxRetentions : ℕ := 64

structure ChainCheck where
  report : Report
  prev : Hash
  lastSeq : ℕ := 0
  started : Bool := false
  startPrev : Hash := []
  retainedOK : Bool := false
  head : Anchor := {}
  bySeq : GoMap ℕ Hash := []
  anchorsHit : ℕ := 0

namespace ChainCheck

def stop (c : ChainCheck) (p : Problem) (badSeq : ℕ) : ChainCheck :=
  { c with report := { c.report with problem := some p, badSeq := badSeq } }

def begin (c : ChainCheck) (r : Record) : ChainCheck :=
  if c.started then c
  else { c with started := true, prev := r.prev, startPrev := r.prev, report := { c.report with startSeq := r.seq } }

def noteRetention (c : ChainCheck) (r : Record) : ChainCheck :=
  if r.type=.retention then
    { c with
      retainedOK := c.retainedOK || (r.startSeq=c.report.startSeq && r.startPrev=c.startPrev)
      report := { c.report with
        retentions := (if c.report.retentions.length=maxRetentions then c.report.retentions.tail
          else c.report.retentions)++[⟨r.seq,r.ts,r.startSeq,r.startPrev⟩] } }
  else c

def accept (codec : Codec) (c : ChainCheck) (seg : Bytes) (off : ℕ) (line : Bytes) (r : Record) : ChainCheck :=
  { c.noteRetention r with
    anchorsHit := c.anchorsHit+(if (c.bySeq.get? r.seq).isSome then 1 else 0)
    prev := codec.digest line
    lastSeq := r.seq
    head := { seq := r.seq, hash := codec.digest line, segment := seg, offset := off, stop := off+line.length+1 }
    report := { (c.noteRetention r).report with records := c.report.records+1 } }

def line (codec : Codec) (c : ChainCheck) (seg : Bytes) (n off : ℕ) (line : Bytes) :
    Except ChainCheck ChainCheck :=
  match codec.unmarshal line with
  | none => .error (c.stop (.notRecord seg n) c.report.badSeq)
  | some r =>
    let c := c.begin r
    if r.prev≠c.prev then .error (c.stop (.chainBroken seg n r.seq r.prev c.prev) r.seq)
    else if c.lastSeq≠0 ∧ r.seq≤c.lastSeq then .error (c.stop (.order seg n r.seq c.lastSeq) r.seq)
    else
      match c.bySeq.get? r.seq with
      | some want =>
        if want ≠ codec.digest line then .error (c.stop (.rewritten seg n r.seq (codec.digest line) want) r.seq)
        else .ok (c.accept codec seg off line r)
      | none => .ok (c.accept codec seg off line r)

end ChainCheck

/-- How reading lines ended. -/
inductive Walk
  | on (c : ChainCheck) (head : Anchor)
  | stopped (c : ChainCheck)
  | unreadable (c : ChainCheck)

/-- Check lines one after the other. `head` is the newest line not past `maxSeq` (0: no limit). -/
def walkLines (codec : Codec) (maxSeq : ℕ) (seg : Bytes) :
    ℕ → ChainCheck → Anchor → List (ℕ × Bytes) → Walk
  | _,c,head,[] => .on c head
  | n,c,head,(off,line)::rest =>
    match c.line codec seg (n+1) off line with
    | .error c => .stopped c
    | .ok c =>
      walkLines codec maxSeq seg (n+1) c (if maxSeq=0 ∨ c.head.seq ≤ maxSeq then c.head else head) rest

def walkSegment (codec : Codec) (maxSeq : ℕ) (c : ChainCheck) (head : Anchor) (start : ℕ) (seg : Segment) : Walk :=
  match walkLines codec maxSeq seg.base 0 c head (scanLines seg.data start).1 with
  | .on c head => if (scanLines seg.data start).2 then .on c head else .unreadable c
  | .stopped c => .stopped c
  | .unreadable c => .unreadable c

/-- Check segments in order, the first one from `start` on. -/
def walkSegments (codec : Codec) (maxSeq : ℕ) : ChainCheck → Anchor → ℕ → List Segment → Walk
  | c,head,_,[] => .on c head
  | c,head,start,seg::rest =>
    match walkSegment codec maxSeq c head start seg with
    | .on c head => walkSegments codec maxSeq c head 0 rest
    | .stopped c => .stopped c
    | .unreadable c => .unreadable c

/-- What a check returns: the report, a head, and whether reading failed. -/
structure Checked where
  report : Report
  head : Anchor
  failed : Bool

def anchorMap (anchors : List Anchor) : GoMap ℕ Hash :=
  anchors.foldl (fun m a => m.set a.seq a.hash) []

def ChainCheck.conclude (c : ChainCheck) (anchors : List Anchor) : Report :=
  let counted := fun as : List Anchor => (as.filter fun a => c.report.startSeq≤a.seq).length
  if c.started ∧ c.startPrev≠zeroHash ∧ c.retainedOK=false then
    { c.report with problem := some (.unnamedStart c.report.startSeq), badSeq := c.report.startSeq }
  else
    match anchors.find? fun a => c.lastSeq<a.seq with
    | some a =>
      { c.report with
        anchors := counted (anchors.takeWhile fun a => a.seq≤c.lastSeq)
        problem := some (.endsBefore c.lastSeq a.seq a.ts), badSeq := a.seq }
    | none =>
      if counted anchors≠c.anchorsHit then
        { c.report with
          anchors := counted anchors
          problem := some (.missingAnchors (counted anchors-c.anchorsHit)) }
      else
        { c.report with
          anchors := counted anchors, ok := true, lastSeq := c.lastSeq
          head := if c.report.records > 0 then c.prev else c.report.head }

def ChainCheck.fresh (segs : List Segment) (anchors : List Anchor) : ChainCheck :=
  { report := { segments := segs.length }, prev := zeroHash, bySeq := anchorMap anchors }

def verifySegments (codec : Codec) (segs : List Segment) (anchors : List Anchor) : Checked :=
  match walkSegments codec 0 (.fresh segs anchors) {} 0 segs with
  | .on c _ => ⟨c.conclude anchors,c.head,false⟩
  | .stopped c => ⟨c.report,c.head,false⟩
  | .unreadable c => ⟨c.report,c.head,true⟩

/-- Check the whole chain and every anchor at or after its start. -/
def verifyAnchors (codec : Codec) (dir : List Entry) (anchors : List Anchor) : Checked :=
  verifySegments codec (segments dir) anchors

def fromSegment (base : Bytes) : List Segment → Option (List Segment)
  | [] => none
  | seg::rest =>
    match fromSegment base rest with
    | some found => some found
    | none => if seg.base=base then some (seg::rest) else none

/-- `Follow` reads its own anchor's bytes back: the whole range, a newline at its end, the hash. -/
def anchorInPlace (codec : Codec) (seg : Segment) (a : Anchor) : Bool :=
  let buf := (seg.data.drop a.offset).take (a.stop-a.offset)
  a.stop ≤ seg.data.length && buf.getLast? = some newline && codec.digest buf.dropLast=a.hash

def maxLine : ℕ := 16*2^20

def ChainCheck.resume (segs : List Segment) (a : Anchor) : ChainCheck :=
  { report := { segments := segs.length }, prev := a.hash, lastSeq := a.seq, started := true, head := a }

def follow (codec : Codec) (dir : List Entry) (a : Anchor) (maxSeq : ℕ) : Checked :=
  match fromSegment a.segment (segments dir) with
  | none =>
    let v := verifyAnchors codec dir [a]
    { v with head := if maxSeq≠0 ∧ maxSeq<v.head.seq then a else v.head }
  | some [] => ⟨{},a,true⟩
  | some (seg::rest) =>
    let report : Report := { segments := (segments dir).length }
    if a.stop≤a.offset ∨ maxLine+1 < a.stop-a.offset then ⟨report,a,true⟩
    else if anchorInPlace codec seg a then
      match walkSegments codec maxSeq (.resume (segments dir) a) a a.stop (seg::rest) with
      | .on c head => ⟨{ c.report with ok := true, lastSeq := c.lastSeq, head := c.prev },head,false⟩
      | .stopped c => ⟨c.report,a,false⟩
      | .unreadable c => ⟨c.report,a,true⟩
    else
      ⟨{ report with problem := some (.anchorGone a.segment a.offset a.seq a.ts), badSeq := a.seq },a,false⟩

/-! ### What an accepted line says -/

def seqOf (codec : Codec) (l : Bytes) : ℕ := ((codec.unmarshal l).map Record.seq).getD 0

def prevOf (codec : Codec) (l : Bytes) : Option Hash := (codec.unmarshal l).map Record.prev

/-- The lines are chained by their hashes. -/
abbrev Chained (codec : Codec) (ls : List Bytes) : Prop := HashChain.Linked codec.digest (prevOf codec) ls

/-- Numbers that the check accepts one after the other: it does not compare with 0. -/
def After (a b : ℕ) : Prop := a=0 ∨ a<b

lemma After.trans {a b c : ℕ} (hab : After a b) (hbc : After b c) : After a c := by
  unfold After at *
  omega

instance : IsTrans ℕ After := ⟨fun _ _ _ => After.trans⟩

namespace ChainCheck
variable {codec : Codec} {c c' : ChainCheck} {seg l : Bytes} {n off : ℕ} {r : Record}

@[simp] lemma begin_lastSeq : (c.begin r).lastSeq=c.lastSeq := by
  unfold begin
  split <;> rfl

@[simp] lemma begin_bySeq : (c.begin r).bySeq=c.bySeq := by
  unfold begin
  split <;> rfl

@[simp] lemma begin_anchorsHit : (c.begin r).anchorsHit=c.anchorsHit := by
  unfold begin
  split <;> rfl

@[simp] lemma begin_started : (c.begin r).started=true := by
  unfold begin
  split
  · assumption
  · rfl

lemma begin_of_started (h : c.started=true) : c.begin r=c := if_pos h

@[simp] lemma noteRetention_started : (c.noteRetention r).started=c.started := by
  unfold noteRetention
  split <;> rfl

@[simp] lemma noteRetention_startPrev : (c.noteRetention r).startPrev=c.startPrev := by
  unfold noteRetention
  split <;> rfl

@[simp] lemma noteRetention_bySeq : (c.noteRetention r).bySeq=c.bySeq := by
  unfold noteRetention
  split <;> rfl

@[simp] lemma noteRetention_startSeq : (c.noteRetention r).report.startSeq=c.report.startSeq := by
  unfold noteRetention
  split <;> rfl

@[simp] lemma noteRetention_problem : (c.noteRetention r).report.problem=c.report.problem := by
  unfold noteRetention
  split <;> rfl

/-- A line is accepted when it parses, names the hash before it, has a later number and matches
the anchor of that number. -/
theorem line_eq_ok : c.line codec seg n off l=.ok c' ↔
    ∃ r, codec.unmarshal l=some r ∧ r.prev=(c.begin r).prev ∧ After c.lastSeq r.seq ∧
      (∀ want, c.bySeq.get? r.seq=some want → want=codec.digest l) ∧ c'=(c.begin r).accept codec seg off l r := by
  unfold line
  cases hl : codec.unmarshal l with
  | none => simp
  | some r =>
    simp only [begin_lastSeq,begin_bySeq,Option.some.injEq,exists_eq_left',After]
    by_cases hp : r.prev=(c.begin r).prev
    · by_cases hs : c.lastSeq≠0 ∧ r.seq≤c.lastSeq
      · rw [if_neg (not_not.mpr hp),if_pos hs]
        simp only [reduceCtorEq,false_iff]
        rintro ⟨-,h,-⟩
        omega
      rw [if_neg (not_not.mpr hp),if_neg hs]
      have hs' : c.lastSeq=0 ∨ c.lastSeq<r.seq := by omega
      cases hw : c.bySeq.get? r.seq with
      | none => simp [hp,hs',eq_comm]
      | some want =>
        by_cases hd : want=codec.digest l
        · simp [hd,hp,hs',eq_comm]
        · simp [hd]
    · simp [hp]

@[simp] lemma begin_ok : (c.begin r).report.ok=c.report.ok := by
  unfold begin
  split <;> rfl

@[simp] lemma accept_ok : (c.accept codec seg off l r).report.ok=c.report.ok := by
  unfold accept noteRetention
  split <;> rfl

theorem line_ok : ∀ d, (c.line codec seg n off l=.ok d ∨ c.line codec seg n off l=.error d) →
    d.report.ok=c.report.ok := by
  intro d hd
  unfold line at hd
  cases hl : codec.unmarshal l with
  | none =>
    rw [hl] at hd
    obtain h | h := hd <;> cases h
    rfl
  | some r =>
    rw [hl] at hd
    dsimp only at hd
    repeat' split at hd
    all_goals
      obtain h | h := hd <;> cases h
      first
        | exact begin_ok
        | exact accept_ok.trans begin_ok

end ChainCheck

/-- The check read these lines and accepted each of them. -/
inductive Walked (codec : Codec) (c : ChainCheck) : List Bytes → ChainCheck → Prop
  | nil : Walked codec c [] c
  | snoc {ls c' c'' seg n off l} (before : Walked codec c ls c')
      (line : c'.line codec seg n off l = .ok c'') : Walked codec c (ls++[l]) c''

lemma Walked.trans {codec : Codec} {c c' c'' : ChainCheck} {ls ls' : List Bytes}
    (h : Walked codec c ls c') (h' : Walked codec c' ls' c'') : Walked codec c (ls++ls') c'' := by
  induction h' with
  | nil => simpa using h
  | snoc _ hl ih =>
    rw [← append_assoc]
    exact ih.snoc hl

def AnchorOf (codec : Codec) (ls : List Bytes) (a : Anchor) : Prop :=
  ∃ l∈ls, a.seq = seqOf codec l ∧ a.hash = codec.digest l

lemma AnchorOf.mono {codec : Codec} {ls ls' : List Bytes} {a : Anchor} (h : AnchorOf codec ls a)
    (hls : ls ⊆ ls') : AnchorOf codec ls' a := by
  obtain ⟨l,hl,hseq,hhash⟩ := h
  exact ⟨l,hls hl,hseq,hhash⟩

section
variable {codec : Codec} {c c' : ChainCheck}

lemma ChainCheck.head_of_line {seg l : Bytes} {n off : ℕ} (h : c.line codec seg n off l=.ok c') :
    c'.head.seq=seqOf codec l ∧ c'.head.hash=codec.digest l := by
  obtain ⟨r,hr,-,-,-,rfl⟩ := ChainCheck.line_eq_ok.mp h
  simp [ChainCheck.accept,seqOf,hr]

lemma walkLines_on {maxSeq : ℕ} {seg : Bytes} {n : ℕ} {head head' : Anchor} {ls : List (ℕ × Bytes)}
    (h : walkLines codec maxSeq seg n c head ls=.on c' head') :
    Walked codec c (ls.map Prod.snd) c' ∧ (head'=head ∨ AnchorOf codec (ls.map Prod.snd) head') := by
  induction ls generalizing n c head with
  | nil =>
    cases h
    exact ⟨.nil,.inl rfl⟩
  | cons x ls ih =>
    obtain ⟨off,l⟩ := x
    rw [walkLines] at h
    cases hc : c.line codec seg (n+1) off l with
    | error d =>
      rw [hc] at h
      cases h
    | ok d =>
      rw [hc] at h
      obtain ⟨hw,hh⟩ := ih h
      refine ⟨(Walked.nil.snoc hc).trans hw,?_⟩
      obtain ⟨hseq,hhash⟩ := ChainCheck.head_of_line hc
      rcases hh with rfl | hh
      · split
        · exact .inr ⟨l,by simp,hseq,hhash⟩
        · exact .inl rfl
      · exact .inr (hh.mono (by simp))

def Walk.check : Walk → ChainCheck
  | .on c _ => c
  | .stopped c => c
  | .unreadable c => c

lemma walkLines_ok (maxSeq : ℕ) (seg : Bytes) (n : ℕ) (head : Anchor) (ls : List (ℕ × Bytes)) :
    (walkLines codec maxSeq seg n c head ls).check.report.ok=c.report.ok := by
  induction ls generalizing n c head with
  | nil => rfl
  | cons x ls ih =>
    obtain ⟨off,l⟩ := x
    rw [walkLines]
    cases hc : c.line codec seg (n+1) off l with
    | error d => exact ChainCheck.line_ok d (.inr hc)
    | ok d => exact (ih _ _).trans (ChainCheck.line_ok d (.inl hc))

lemma walkSegment_ok (maxSeq : ℕ) (head : Anchor) (start : ℕ) (seg : Segment) :
    (walkSegment codec maxSeq c head start seg).check.report.ok=c.report.ok := by
  unfold walkSegment
  have h : (walkLines codec maxSeq seg.base 0 c head (scanLines seg.data start).1).check.report.ok=_ :=
    walkLines_ok maxSeq seg.base 0 head _
  cases hl : walkLines codec maxSeq seg.base 0 c head (scanLines seg.data start).1 with
  | on d mid =>
    rw [hl] at h
    dsimp only
    split <;> exact h
  | stopped d | unreadable d =>
    rw [hl] at h
    exact h

theorem walkSegments_ok (maxSeq : ℕ) (head : Anchor) (start : ℕ) (segs : List Segment) :
    (walkSegments codec maxSeq c head start segs).check.report.ok=c.report.ok := by
  induction segs generalizing c head start with
  | nil => rfl
  | cons seg segs ih =>
    rw [walkSegments]
    have h : (walkSegment codec maxSeq c head start seg).check.report.ok=_ := walkSegment_ok maxSeq head start seg
    cases hs : walkSegment codec maxSeq c head start seg with
    | on d mid =>
      rw [hs] at h
      exact (ih _ _).trans h
    | stopped d | unreadable d =>
      rw [hs] at h
      exact h

lemma scanLines_whole {data : Bytes} {start : ℕ} (h : (scanLines data start).2=true) :
    (scanLines data start).1.map Prod.snd=Lines.lines newline (data.drop start) := by
  simp only [scanLines,Bool.and_eq_true] at h ⊢
  have hall := List.all_eq_true.mp h.1
  rw [takeWhile_eq_self_iff.mpr hall,Lines.scan_map_snd start 0]
  rfl

/-- The complete lines of segments, the first one read from `start` on. -/
def linesFrom (start : ℕ) : List Segment → List Bytes
  | [] => []
  | seg::rest => Lines.lines newline (seg.data.drop start)++linesFrom 0 rest

lemma walkSegments_on {maxSeq start : ℕ} {head head' : Anchor} {segs : List Segment}
    (h : walkSegments codec maxSeq c head start segs=.on c' head') :
    Walked codec c (linesFrom start segs) c' ∧ (head'=head ∨ AnchorOf codec (linesFrom start segs) head') := by
  induction segs generalizing c head start with
  | nil =>
    cases h
    exact ⟨.nil,.inl rfl⟩
  | cons seg segs ih =>
    rw [walkSegments] at h
    cases hs : walkSegment codec maxSeq c head start seg with
    | stopped d | unreadable d =>
      rw [hs] at h
      cases h
    | on d mid =>
      rw [hs] at h
      obtain ⟨hrest,hhead⟩ := ih h
      unfold walkSegment at hs
      cases hl : walkLines codec maxSeq seg.base 0 c head (scanLines seg.data start).1 with
      | stopped e | unreadable e =>
        rw [hl] at hs
        cases hs
      | on e mid' =>
        rw [hl] at hs
        dsimp only at hs
        split at hs
        case isFalse => cases hs
        case isTrue hwhole =>
          cases hs
          obtain ⟨hfirst,hmid⟩ := walkLines_on hl
          rw [scanLines_whole hwhole] at hfirst hmid
          refine ⟨hfirst.trans hrest,?_⟩
          rcases hhead with rfl | hhead
          · rcases hmid with rfl | hmid
            · exact .inl rfl
            · exact .inr (hmid.mono (by simp [linesFrom]))
          · exact .inr (hhead.mono (by simp [linesFrom]))

end

/-! ### What a check that read every line knows -/
namespace Walked
variable {codec : Codec} {c c' : ChainCheck} {ls : List Bytes}

lemma started (h : Walked codec c ls c') : c'.started=(c.started || !ls.isEmpty) := by
  induction h with
  | nil => simp
  | snoc _ hl _ =>
    obtain ⟨r,-,-,-,-,rfl⟩ := ChainCheck.line_eq_ok.mp hl
    simp [ChainCheck.accept]

lemma prev_eq (h : Walked codec c ls c') : c'.prev=(ls.getLast?.map codec.digest).getD c.prev := by
  cases h with
  | nil => rfl
  | snoc _ hl =>
    obtain ⟨r,-,-,-,-,rfl⟩ := ChainCheck.line_eq_ok.mp hl
    simp [ChainCheck.accept]

lemma lastSeq_eq (h : Walked codec c ls c') : c'.lastSeq=(ls.getLast?.map (seqOf codec)).getD c.lastSeq := by
  cases h with
  | nil => rfl
  | snoc _ hl =>
    obtain ⟨r,hr,-,-,-,rfl⟩ := ChainCheck.line_eq_ok.mp hl
    simp [ChainCheck.accept,seqOf,hr]

lemma chained (h : Walked codec c ls c') : Chained codec ls := by
  induction h with
  | nil => exact HashChain.Linked.nil
  | snoc hw hl ih =>
    refine HashChain.linked_concat.mpr ⟨ih,fun a ha => ?_⟩
    obtain ⟨r,hr,hprev,-,-,-⟩ := ChainCheck.line_eq_ok.mp hl
    have hstarted : _ := hw.started
    have hlast := hw.prev_eq
    rw [mem_def] at ha
    rw [ha] at hlast
    rw [ChainCheck.begin_of_started] at hprev
    · simp [prevOf,hr,hprev,hlast]
    · rw [hstarted]
      cases hls : (_ : List Bytes).isEmpty
      · simp
      · rw [List.isEmpty_iff.mp hls] at ha
        cases ha

theorem head_prev (h : Walked codec c ls c') (hc : c.started=true) : ∀ l∈ls.head?, prevOf codec l=some c.prev := by
  induction h with
  | nil => simp
  | @snoc ls c' c'' seg n off l hw hl ih =>
    cases hls : ls with
    | cons x xs =>
      rw [hls] at ih
      simpa using ih
    | nil =>
      subst hls
      obtain ⟨r,hr,hprev,-,-,-⟩ := ChainCheck.line_eq_ok.mp hl
      have hstarted : c'.started=true := by rw [hw.started,hc]; rfl
      have hlast := hw.prev_eq
      rw [ChainCheck.begin_of_started hstarted,hlast] at hprev
      simp [prevOf,hr,hprev]

lemma increasing (h : Walked codec c ls c') : (c.lastSeq::ls.map (seqOf codec)).IsChain After := by
  induction h with
  | nil => exact isChain_singleton _
  | @snoc ls c' c'' seg n off l hw hl ih =>
    obtain ⟨r,hr,-,hseq,-⟩ := ChainCheck.line_eq_ok.mp hl
    rw [map_append,← cons_append,isChain_append]
    refine ⟨ih,isChain_singleton _,fun a ha b hb => ?_⟩
    have hlast := hw.lastSeq_eq
    have hb' : b=r.seq := by simpa [seqOf,hr] using hb.symm
    have ha' : a=c'.lastSeq := by
      rw [hlast]
      rcases eq_nil_or_concat ls with rfl | ⟨xs,x,rfl⟩
      · simpa using ha.symm
      · rw [concat_eq_append,map_append,← cons_append,mem_def,map_singleton,
          getLast?_concat] at ha
        simpa using ha.symm
    rw [ha',hb']
    exact hseq

lemma bySeq_eq (h : Walked codec c ls c') : c'.bySeq=c.bySeq := by
  induction h with
  | nil => rfl
  | snoc _ hl ih =>
    obtain ⟨r,-,-,-,-,rfl⟩ := ChainCheck.line_eq_ok.mp hl
    simpa [ChainCheck.accept] using ih

theorem anchored (h : Walked codec c ls c') {l : Bytes} (hl : l∈ls) {want : Hash}
    (hwant : c.bySeq.get? (seqOf codec l)=some want) : codec.digest l=want := by
  induction h with
  | nil => cases hl
  | snoc hw hline ih =>
    rcases mem_append.mp hl with hl | hl
    · exact ih hl
    · rw [mem_singleton.mp hl] at hwant ⊢
      obtain ⟨r,hr,-,-,hanchor,-⟩ := ChainCheck.line_eq_ok.mp hline
      rw [hw.bySeq_eq] at hanchor
      simp only [seqOf,hr,map_some,getD_some] at hwant
      exact (hanchor want hwant).symm

lemma anchorsHit_eq (h : Walked codec c ls c') :
    c'.anchorsHit=c.anchorsHit+ls.countP fun l => (c.bySeq.get? (seqOf codec l)).isSome := by
  induction h with
  | nil => simp
  | snoc hw hl ih =>
    obtain ⟨r,hr,-,-,-,rfl⟩ := ChainCheck.line_eq_ok.mp hl
    simp only [ChainCheck.accept,ChainCheck.begin_anchorsHit,ChainCheck.begin_bySeq,ih,countP_append,
      countP_singleton,hw.bySeq_eq,seqOf,hr,map_some,getD_some]
    omega

theorem start_eq (h : Walked codec c ls c') (hc : c.started=false) :
    ∀ l∈ls.head?, c'.report.startSeq=seqOf codec l ∧ some c'.startPrev=prevOf codec l := by
  induction h with
  | nil => simp
  | @snoc ls c' c'' seg n off l hw hl ih =>
    obtain ⟨r,hr,-,-,-,rfl⟩ := ChainCheck.line_eq_ok.mp hl
    have hstarted := hw.started
    cases hls : ls with
    | nil =>
      rw [hls,hc] at hstarted
      have hb : c'.started=false := by simpa using hstarted
      simp [ChainCheck.accept,ChainCheck.begin,hb,seqOf,prevOf,hr]
    | cons x xs =>
      rw [hls,hc] at hstarted
      have hb : c'.started=true := by simpa using hstarted
      rw [hls] at ih
      simpa [ChainCheck.accept,ChainCheck.begin_of_started hb] using ih

end Walked

theorem verifySegments_ok {codec : Codec} {segs : List Segment} {anchors : List Anchor}
    (h : (verifySegments codec segs anchors).report.ok=true) :
    ∃ c head, walkSegments codec 0 (.fresh segs anchors) {} 0 segs=.on c head ∧
      (c.conclude anchors).ok=true ∧ (verifySegments codec segs anchors).report=c.conclude anchors := by
  have hok : (walkSegments codec 0 (.fresh segs anchors) {} 0 segs).check.report.ok=_ :=
    walkSegments_ok 0 {} 0 segs
  unfold verifySegments at h ⊢
  cases hw : walkSegments codec 0 (.fresh segs anchors) {} 0 segs with
  | on c head =>
    rw [hw] at h
    exact ⟨c,head,rfl,h,rfl⟩
  | stopped c | unreadable c =>
    rw [hw] at h hok
    exact absurd (h.symm.trans hok) (by simp [ChainCheck.fresh])

/-- The last checks passed: the start is the first record ever or was named, no anchor lies behind
the end, and as many lines met an anchor as there are anchors from the start on. -/
theorem ChainCheck.conclude_ok {c : ChainCheck} {anchors : List Anchor} (hc : c.report.ok=false) :
    (c.conclude anchors).ok=true ↔ (c.started=true → c.startPrev≠zeroHash → c.retainedOK=true) ∧
      (∀ a∈anchors, a.seq≤c.lastSeq) ∧ (anchors.filter fun a => c.report.startSeq≤a.seq).length=c.anchorsHit := by
  unfold conclude
  by_cases hstart : c.started ∧ c.startPrev≠zeroHash ∧ c.retainedOK=false
  · rw [if_pos hstart]
    simp only [hc,Bool.false_eq_true,false_iff]
    rintro ⟨h,-⟩
    rw [h hstart.1 hstart.2.1] at hstart
    cases hstart.2.2
  · rw [if_neg hstart]
    have hnamed : c.started=true → c.startPrev≠zeroHash → c.retainedOK=true := by
      intro h1 h2
      by_contra h3
      exact hstart ⟨h1,h2,by simpa using h3⟩
    cases hfind : anchors.find? fun a => c.lastSeq<a.seq with
    | some a =>
      have ha := find?_some hfind
      have hmem := mem_of_find?_eq_some hfind
      simp only [hc,Bool.false_eq_true,false_iff]
      rintro ⟨-,h,-⟩
      have := h a hmem
      simp at ha
      omega
    | none =>
      have hle : ∀ a∈anchors, a.seq≤c.lastSeq := by simpa using hfind
      dsimp only
      split
      · rename_i hne
        simp [hc,hne]
      · rename_i heq
        simp only [true_iff]
        exact ⟨hnamed,hle,not_not.mp heq⟩

lemma ChainCheck.conclude_startSeq (c : ChainCheck) (anchors : List Anchor) :
    (c.conclude anchors).startSeq=c.report.startSeq := by
  unfold conclude
  split
  · rfl
  · split
    · rfl
    · simp only [apply_ite Report.startSeq,ite_self]

end JuiceMount.AuditLog
