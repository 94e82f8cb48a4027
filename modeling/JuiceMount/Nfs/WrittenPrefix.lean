import JuiceMount.Nfs.SpoolStream

/-! What a spool entry knows of the bytes that were written: the contiguous prefix, the extents above
it, and the holes that are counted when the entry is finalized. -/
namespace JuiceMount.Nfs
open FileImage List

/-- Sorted, disjoint and not adjacent, none of them empty, all above the prefix. -/
structure Separated (cend : ℕ) (exts : List SpoolExtent) : Prop where
  apart : exts.Pairwise (fun x y => x.stop<y.start)
  above : ∀ x∈exts,cend<x.start ∧ x.start<x.stop

def Covers (exts : List SpoolExtent) (i : ℕ) : Prop := ∃ x∈exts,x.start ≤ i ∧ i<x.stop

section Extents
variable {cend off stop size i : ℕ} {x : SpoolExtent} {exts : List SpoolExtent}

@[simp] lemma covers_nil : ¬Covers [] i := by simp [Covers]

@[simp] lemma covers_cons : Covers (x::exts) i ↔ (x.start ≤ i ∧ i<x.stop) ∨ Covers exts i := by
  simp [Covers]

lemma covers_perm {exts' : List SpoolExtent} (h : exts.Perm exts') : Covers exts i ↔ Covers exts' i := by
  simp only [Covers,h.mem_iff]

lemma separated_nil : Separated cend [] := ⟨List.Pairwise.nil,nofun⟩

lemma Separated.mono {cend' : ℕ} (h : Separated cend exts) (hle : cend'≤cend) : Separated cend' exts :=
  ⟨h.apart,fun x hx => ⟨hle.trans_lt (h.above x hx).1,(h.above x hx).2⟩⟩

lemma Separated.tail (h : Separated cend (x::exts)) : Separated x.stop exts :=
  ⟨(pairwise_cons.mp h.apart).2,fun y hy =>
    ⟨(pairwise_cons.mp h.apart).1 y hy,(h.above y (mem_cons_of_mem x hy)).2⟩⟩

lemma coalesce_spec (cend : ℕ) (x : SpoolExtent) (exts : List SpoolExtent) (hx : cend<x.start ∧ x.start<x.stop)
    (hsorted : exts.Pairwise (fun y z => y.start≤z.start)) (hexts : ∀ y∈exts,x.start≤y.start ∧ y.start<y.stop) :
    Separated cend (coalesce x exts) ∧ (∀ y∈coalesce x exts,x.start≤y.start) ∧
      ∀ i,Covers (coalesce x exts) i ↔ (x.start ≤ i ∧ i<x.stop) ∨ Covers exts i := by
  induction exts generalizing cend x with
  | nil =>
    refine ⟨⟨by simp [coalesce],?_⟩,?_,fun i => by simp [coalesce]⟩ <;> simp [coalesce,hx]
  | cons y exts ih =>
    obtain ⟨hy,hrest⟩ := pairwise_cons.mp hsorted
    have hxy := hexts y mem_cons_self
    simp only [coalesce]
    split
    · rename_i hle
      obtain ⟨hsep,hstart,hcov⟩ := ih cend {x with stop := max x.stop y.stop} ⟨hx.1,by simp; omega⟩ hrest
        fun z hz => hexts z (mem_cons_of_mem y hz)
      refine ⟨hsep,hstart,fun i => ?_⟩
      have hmerge : (x.start ≤ i ∧ i < max x.stop y.stop) ↔
          (x.start ≤ i ∧ i<x.stop) ∨ (y.start ≤ i ∧ i<y.stop) := by omega
      rw [hcov i,covers_cons,hmerge,or_assoc]
    · rename_i hgt
      obtain ⟨hsep,hstart,hcov⟩ := ih x.stop y ⟨by omega,hxy.2⟩ hrest
        fun z hz => ⟨hy z hz,(hexts z (mem_cons_of_mem y hz)).2⟩
      refine ⟨⟨pairwise_cons.mpr ⟨fun z hz => (hsep.above z hz).1,hsep.apart⟩,?_⟩,?_,fun i => ?_⟩
      · intro z hz
        obtain rfl | hz := mem_cons.mp hz
        · exact hx
        · have := hsep.above z hz
          omega
      · intro z hz
        obtain rfl | hz := mem_cons.mp hz
        · exact le_rfl
        · have := hstart z hz
          omega
      · rw [covers_cons,covers_cons,hcov i]

lemma insertExtent_spec (h : Separated cend exts) (hoff : cend<off) (hstop : off<stop) :
    Separated cend (insertExtent exts off stop) ∧
      ∀ i,Covers (insertExtent exts off stop) i ↔ (off ≤ i ∧ i<stop) ∨ Covers exts i := by
  unfold insertExtent
  set r := fun x y : SpoolExtent => x.start≤y.start with hr
  have hperm : (List.insertionSort r (exts++[⟨off,stop⟩])).Perm (⟨off,stop⟩::exts) :=
    (perm_insertionSort r _).trans perm_append_comm
  have hsorted : (List.insertionSort r (exts++[⟨off,stop⟩])).Pairwise r := by
    have : Std.Total r := ⟨fun x y => le_total x.start y.start⟩
    have : IsTrans SpoolExtent r := ⟨fun x y z => Nat.le_trans⟩
    exact pairwise_insertionSort r _
  have hall : ∀ y∈List.insertionSort r (exts++[⟨off,stop⟩]),cend<y.start ∧ y.start<y.stop := by
    intro y hy
    obtain rfl | hy := mem_cons.mp (hperm.subset hy)
    · exact ⟨hoff,hstop⟩
    · exact h.above y hy
  cases hlist : List.insertionSort r (exts++[⟨off,stop⟩]) with
  | nil =>
    rw [hlist] at hperm
    exact absurd hperm.length_eq (by simp)
  | cons x rest =>
    rw [hlist] at hperm hsorted hall
    obtain ⟨hx,hrest⟩ := pairwise_cons.mp hsorted
    obtain ⟨hsep,_,hcov⟩ := coalesce_spec cend x rest (hall x mem_cons_self) hrest
      fun y hy => ⟨hx y hy,(hall y (mem_cons_of_mem x hy)).2⟩
    refine ⟨hsep,fun i => ?_⟩
    rw [hcov i,← covers_cons,covers_perm hperm,covers_cons]

/-- Every absorbed extent touches the prefix it is absorbed into. -/
lemma absorb_spec (exts : List SpoolExtent) (h : Separated cend exts) (cend' : ℕ) (hle : cend≤cend') :
    Separated (absorb cend' exts).1 (absorb cend' exts).2 ∧ cend'≤(absorb cend' exts).1 ∧
      ∀ i,(i<(absorb cend' exts).1 ∨ Covers (absorb cend' exts).2 i) ↔ i<cend' ∨ Covers exts i := by
  induction exts generalizing cend cend' with
  | nil => exact ⟨separated_nil,le_rfl,fun i => Iff.rfl⟩
  | cons x exts ih =>
    have hx := h.above x mem_cons_self
    simp only [absorb]
    split
    · rename_i htouch
      obtain ⟨hsep,hge,hcov⟩ := ih h.tail (max cend' x.stop) (le_max_right _ _)
      refine ⟨hsep,(le_max_left _ _).trans hge,fun i => ?_⟩
      have hmerge : i < max cend' x.stop ↔ i<cend' ∨ (x.start ≤ i ∧ i<x.stop) := by omega
      rw [hcov i,covers_cons,hmerge,or_assoc]
    · rename_i hgap
      refine ⟨⟨h.apart,fun y hy => ⟨?_,(h.above y hy).2⟩⟩,le_rfl,fun i => Iff.rfl⟩
      obtain rfl | hy := mem_cons.mp hy
      · omega
      · have := (h.tail.above y hy).1
        omega

lemma advanceContig_spec (h : Separated cend exts) (hstop : off<stop) :
    Separated (advanceContig cend exts off stop).1 (advanceContig cend exts off stop).2 ∧
      ∀ i,(i<(advanceContig cend exts off stop).1 ∨ Covers (advanceContig cend exts off stop).2 i) ↔
        (off ≤ i ∧ i<stop) ∨ i<cend ∨ Covers exts i := by
  unfold advanceContig
  split
  · rename_i hin
    refine ⟨h,fun i => ?_⟩
    have hsub : off ≤ i ∧ i<stop → i<cend := by omega
    tauto
  split
  · rename_i hout htouch
    obtain ⟨hsep,_,hcov⟩ := absorb_spec exts h stop (by omega)
    refine ⟨hsep,fun i => ?_⟩
    have hmerge : i<stop ↔ (off ≤ i ∧ i<stop) ∨ i<cend := by omega
    rw [hcov i]
    tauto
  · rename_i hout hgap
    obtain ⟨hsep,hcov⟩ := insertExtent_spec h (not_le.mp hgap) hstop
    refine ⟨hsep,fun i => ?_⟩
    rw [hcov i]
    tauto

lemma clipExtents_spec (h : Separated cend exts) (size : ℕ) : Separated (min cend size) (clipExtents exts size) ∧
      ∀ i,(i < min cend size ∨ Covers (clipExtents exts size) i) ↔ i<size ∧ (i<cend ∨ Covers exts i) := by
  have hmem : ∀ y,y∈clipExtents exts size ↔ ∃ x∈exts,x.start<size ∧ y = {x with stop := min x.stop size} := by
    intro y
    simp only [clipExtents,mem_map,mem_filter,decide_eq_true_eq]
    constructor
    · rintro ⟨x,⟨hx,hlt⟩,rfl⟩
      exact ⟨x,hx,hlt,rfl⟩
    · rintro ⟨x,hx,hlt,rfl⟩
      exact ⟨x,⟨hx,hlt⟩,rfl⟩
  refine ⟨⟨?_,fun y hy => ?_⟩,fun i => ?_⟩
  · unfold clipExtents
    rw [pairwise_map]
    refine (h.apart.sublist filter_sublist).imp fun {x y} hxy => ?_
    simp only
    omega
  · obtain ⟨x,hx,hlt,rfl⟩ := (hmem y).mp hy
    have := h.above x hx
    simp only
    omega
  · have hcov : Covers (clipExtents exts size) i ↔ i<size ∧ Covers exts i := by
      constructor
      · rintro ⟨y,hy,hi⟩
        obtain ⟨x,hx,hlt,rfl⟩ := (hmem y).mp hy
        simp only at hi
        exact ⟨by omega,x,hx,by omega⟩
      · rintro ⟨hi,x,hx,hxi⟩
        exact ⟨_,(hmem _).mpr ⟨x,hx,by omega,rfl⟩,by simp only; omega⟩
    rw [hcov,lt_min_iff]
    tauto

end Extents

/-- How many bytes of [contiguousEnd,writtenEnd) were never written. -/
def zeroTailHoleBytes (writtenEnd contiguousEnd : ℕ) (exts : List SpoolExtent) : ℕ :=
  if writtenEnd≤contiguousEnd then 0
  else
    (exts.foldl (fun holes x =>
      let lo := max x.start contiguousEnd
      let hi := min x.stop writtenEnd
      if lo<hi then holes-((hi : ℤ)-lo) else holes) ((writtenEnd : ℤ)-contiguousEnd)).toNat

structure ZeroTailDetail where
  size : ℕ
  contiguous : ℕ
  holes : ℕ
  extents : ℕ
  deriving DecidableEq, Repr

/-- The zero-tail detection of `finalizeLocked`; `detect` is JM_ZERO_TAIL_DETECT. -/
def zeroTailSuspect (detect isAppleDouble : Bool) (e : SpoolEntry) : Option ZeroTailDetail :=
  if detect && !isAppleDouble then
    let holes := zeroTailHoleBytes e.writtenEnd e.contiguousEnd e.writtenExtents
    if 0<holes then some ⟨e.writtenEnd,e.contiguousEnd,holes,e.writtenExtents.length⟩ else none
  else none

section Holes
variable {cend size : ℕ} {exts : List SpoolExtent}

lemma foldl_holes (h : Separated cend exts) (hin : ∀ x∈exts,x.stop ≤ size) (n : ℤ) :
    exts.foldl (fun holes x =>
      let lo := max x.start cend
      let hi := min x.stop size
      if lo<hi then holes-((hi : ℤ)-lo) else holes) n=n-(exts.map (fun x => (x.stop : ℤ)-x.start)).sum := by
  induction exts generalizing n with
  | nil => simp
  | cons x exts ih =>
    have hx := h.above x mem_cons_self
    have hs := hin x mem_cons_self
    rw [foldl_cons,ih (h.tail.mono (by omega)) fun y hy => hin y (mem_cons_of_mem x hy)]
    rw [max_eq_left (by omega),min_eq_left hs,if_pos hx.2]
    simp only [map_cons,sum_cons]
    ring

lemma card_holes (exts : List SpoolExtent) (h : Separated cend exts) (hin : ∀ x∈exts,x.stop ≤ size)
    (hle : cend ≤ size) {w : ℕ → Bool} (hw : ∀ i,w i=true ↔ i<cend ∨ Covers exts i) :
    (((Finset.range size).filter (fun i => w i=false)).card : ℤ) =
      (size : ℤ)-cend-(exts.map (fun x => (x.stop : ℤ)-x.start)).sum := by
  induction exts generalizing cend w with
  | nil =>
    have hset : (Finset.range size).filter (fun i => w i=false)=Finset.Ico cend size := by
      ext i
      have := hw i
      simp only [covers_nil,or_false] at this
      rw [Finset.mem_filter,Finset.mem_range,Finset.mem_Ico,← Bool.not_eq_true,this]
      omega
    rw [hset,Nat.card_Ico,Nat.cast_sub hle]
    simp
  | cons x exts ih =>
    have hx := h.above x mem_cons_self
    have hs := hin x mem_cons_self
    -- the gap before the extent, and the holes behind it
    set w' : ℕ → Bool := fun i => w i || decide (i<x.stop) with hwdef
    have hw' : ∀ i,w' i=true ↔ i<x.stop ∨ Covers exts i := by
      intro i
      have := hw i
      rw [covers_cons] at this
      have hprefix : i<cend → i<x.stop := by omega
      simp only [hwdef,Bool.or_eq_true,decide_eq_true_eq,this]
      tauto
    have hrest := ih h.tail (fun y hy => hin y (mem_cons_of_mem x hy)) hs hw'
    have hset : (Finset.range size).filter (fun i => w i=false) =
        Finset.Ico cend x.start ∪ (Finset.range size).filter (fun i => w' i=false) := by
      ext i
      have hwi := hw i
      have hgap : i<x.start → ¬Covers exts i := by
        rintro hi ⟨y,hy,hyi⟩
        have := (h.tail.above y hy).1
        omega
      rw [covers_cons] at hwi
      rw [Finset.mem_union,Finset.mem_filter,Finset.mem_filter,Finset.mem_range,Finset.mem_Ico,← Bool.not_eq_true,
        ← Bool.not_eq_true,hwi,hw' i]
      by_cases hc : Covers exts i
      · have : ¬i<x.start := fun hi => hgap hi hc
        simp only [hc,or_true,not_true_eq_false,and_false,or_false,false_iff]
        omega
      · simp only [hc,or_false]
        omega
    have hdisj : Disjoint (Finset.Ico cend x.start) ((Finset.range size).filter (fun i => w' i=false)) := by
      refine Finset.disjoint_left.mpr fun i hi hi' => ?_
      have hno := (Finset.mem_filter.mp hi').2
      rw [(hw' i).mpr (.inl (by rw [Finset.mem_Ico] at hi; omega))] at hno
      cases hno
    rw [hset,Finset.card_union_of_disjoint hdisj,Nat.cast_add,hrest,Nat.card_Ico,Nat.cast_sub hx.1.le]
    simp only [map_cons,sum_cons]
    ring

lemma zeroTailHoleBytes_eq (h : Separated cend exts) (hin : ∀ x∈exts,x.stop ≤ size) (hle : cend ≤ size)
    {w : ℕ → Bool} (hw : ∀ i,w i=true ↔ i<cend ∨ Covers exts i) :
    zeroTailHoleBytes size cend exts=((Finset.range size).filter (fun i => w i=false)).card := by
  have hcard := card_holes exts h hin hle hw
  unfold zeroTailHoleBytes
  split
  · rename_i hge
    cases exts with
    | nil =>
      simp only [map_nil,sum_nil] at hcard
      omega
    | cons x exts =>
      have := h.above x mem_cons_self
      have := hin x mem_cons_self
      omega
  · rw [foldl_holes h hin,← hcard]
    exact (Int.toNat_natCast _).symm ▸ rfl

end Holes

/-- An entry and the bytes that writes have put below its end. -/
structure WrittenState where
  entry : SpoolEntry := {}
  written : ℕ → Bool := fun _ => false

/-- `fail` is the number of bytes that reached the file before the write failed, or 0 where no
capacity was left. -/
inductive WrittenOp
  | writeAt (p : Image) (off : ℤ) (fail : Option ℕ)
  | truncate (size : ℤ) (ok : Bool)

namespace WrittenState

/-- `WriteAt`: pwrite refuses a negative offset, and a write below the punched boundary goes to the
destination. -/
def writeAt (s : WrittenState) (p : Image) (off : ℤ) (fail : Option ℕ) : WrittenState :=
  let landed := WriteCall.landed ⟨p,off.toNat,false⟩ fail
  if s.entry.closed || p.size=0 then s
  else if off<s.entry.punchedEnd && 0<s.entry.punchedEnd then { s with entry := { s.entry with hashValid := false } }
  else if off<0 || landed.size=0 then s
  else
    { entry := s.entry.wrote landed off.toNat
      written := fun i => s.written i || (off ≤ i && i < off+landed.size) }

/-- `Truncate`; the resize of the file may fail, and growth may find no capacity. -/
def truncate (s : WrittenState) (size : ℤ) (ok : Bool) : WrittenState :=
  if size<0 || s.entry.closed || !ok then s
  else { entry := s.entry.truncate size.toNat, written := fun i => s.written i && i < size.toNat }

def step (s : WrittenState) : WrittenOp → WrittenState
  | .writeAt p off fail => s.writeAt p off fail
  | .truncate size ok => s.truncate size ok

end WrittenState

/-- The entry knows exactly which bytes were written. -/
structure WrittenInv (s : WrittenState) : Prop where
  whole : s.entry.punchedEnd=0
  extents : Separated s.entry.contiguousEnd s.entry.writtenExtents
  exact : ∀ i,s.written i=true ↔ i<s.entry.contiguousEnd ∨ Covers s.entry.writtenExtents i
  below : ∀ i,s.written i=true → i<s.entry.writtenEnd

namespace WrittenInv
variable {s : WrittenState}

lemma start : WrittenInv {} := ⟨rfl,separated_nil,fun i => by simp,fun i hi => by cases hi⟩

lemma writeAt (h : WrittenInv s) (p : Image) (off : ℤ) (fail : Option ℕ) : WrittenInv (s.writeAt p off fail) := by
  simp only [WrittenState.writeAt]
  set landed := WriteCall.landed ⟨p,off.toNat,false⟩ fail with hl
  split
  · exact h
  split
  · exact ⟨h.whole,h.extents,h.exact,h.below⟩
  split
  · exact h
  rename_i hlanded
  simp only [Bool.or_eq_true,decide_eq_true_eq,not_or,not_lt] at hlanded
  obtain ⟨hoff,hsize⟩ := hlanded
  obtain ⟨hsep,hcov⟩ := advanceContig_spec h.extents (show off.toNat<off.toNat+landed.size by omega)
  have hrange : ∀ i : ℕ,((off ≤ i && i<off+landed.size : Bool)=true) ↔ off.toNat ≤ i ∧ i<off.toNat+landed.size := by
    intro i
    simp only [Bool.and_eq_true,decide_eq_true_eq]
    omega
  refine ⟨h.whole,hsep,fun i => ?_,fun i hi => ?_⟩
  · rw [Bool.or_eq_true,hrange i,h.exact i]
    refine Iff.trans ?_ (hcov i).symm
    tauto
  · rw [Bool.or_eq_true,hrange i] at hi
    simp only [SpoolEntry.wrote]
    obtain hi | hi := hi
    · exact (h.below i hi).trans_le (le_max_left _ _)
    · exact lt_of_lt_of_le hi.2 (le_max_right _ _)

lemma truncate (h : WrittenInv s) (size : ℤ) (ok : Bool) : WrittenInv (s.truncate size ok) := by
  unfold WrittenState.truncate SpoolEntry.truncate
  split
  · exact h
  split
  · rename_i hsame
    refine ⟨h.whole,h.extents,fun i => ?_,fun i hi => ?_⟩
    · rw [Bool.and_eq_true,decide_eq_true_eq,hsame,← h.exact i]
      exact ⟨And.left,fun hi => ⟨hi,h.below i hi⟩⟩
    · exact h.below i (Bool.and_eq_true_iff.mp hi).1
  · obtain ⟨hsep,hcov⟩ := clipExtents_spec h.extents size.toNat
    refine ⟨h.whole,hsep,fun i => ?_,fun i hi => ?_⟩
    · rw [Bool.and_eq_true,decide_eq_true_eq,h.exact i]
      exact Iff.trans and_comm (hcov i).symm
    · simpa using (Bool.and_eq_true_iff.mp hi).2

lemma foldl (h : WrittenInv s) (ops : List WrittenOp) : WrittenInv (ops.foldl WrittenState.step s) := by
  induction ops generalizing s with
  | nil => exact h
  | cons op ops ih =>
    cases op with
    | writeAt p off fail => exact ih (h.writeAt p off fail)
    | truncate size ok => exact ih (h.truncate size ok)

lemma contiguousEnd_le (h : WrittenInv s) : s.entry.contiguousEnd ≤ s.entry.writtenEnd := by
  by_contra hlt
  have := h.below _ ((h.exact s.entry.writtenEnd).mpr (.inl (not_le.mp hlt)))
  omega

lemma stop_le (h : WrittenInv s) {x : SpoolExtent} (hx : x∈s.entry.writtenExtents) : x.stop ≤ s.entry.writtenEnd := by
  have hne := h.extents.above x hx
  have := h.below (x.stop-1) ((h.exact _).mpr (.inr ⟨x,hx,by omega,by omega⟩))
  omega

lemma prefix_iff (h : WrittenInv s) (n : ℕ) : (∀ i<n,s.written i=true) ↔ n ≤ s.entry.contiguousEnd := by
  constructor
  · intro hall
    by_contra hlt
    obtain hin | ⟨x,hx,hxi⟩ := (h.exact _).mp (hall s.entry.contiguousEnd (not_le.mp hlt))
    · omega
    · have := (h.extents.above x hx).1
      omega
  · exact fun hle i hi => (h.exact i).mpr (.inl (by omega))

end WrittenInv

lemma lt_of_planReadAt_spool {e : SpoolEntry} {writerActive isAppleDouble : Bool} {off : ℕ}
    (h : planReadAt e writerActive isAppleDouble off=.spool) : off<readEnd e isAppleDouble := by
  by_contra hlt
  unfold planReadAt at h
  by_cases hpunched : off<e.punchedEnd
  · rw [if_pos hpunched] at h
    cases h
  · rw [if_neg hpunched,if_neg hlt] at h
    split at h <;> cases h

/-- After any writes and truncates: the prefix is the longest one that was written; the extents are
sorted, apart from one another and from the prefix, and cover what was written above it; the holes
reported at finalize are the bytes below the end that were not written; and a read of a file other
than a sidecar is planned from the spool only for a written byte. -/
theorem written_bytes_exact (ops : List WrittenOp) :
    let s := ops.foldl WrittenState.step {}
    (∀ n,(∀ i < n,s.written i = true) ↔ n ≤ s.entry.contiguousEnd) ∧
    (s.entry.writtenExtents.Pairwise (fun x y => x.stop < y.start) ∧
      (∀ x ∈ s.entry.writtenExtents,s.entry.contiguousEnd < x.start ∧ x.start < x.stop) ∧
      ∀ i,s.entry.contiguousEnd ≤ i →
        (s.written i = true ↔ ∃ x ∈ s.entry.writtenExtents,x.start ≤ i ∧ i < x.stop)) ∧
    (zeroTailHoleBytes s.entry.writtenEnd s.entry.contiguousEnd s.entry.writtenExtents =
        ((Finset.range s.entry.writtenEnd).filter (fun i => s.written i = false)).card ∧
      ∀ detect isAppleDouble d,zeroTailSuspect detect isAppleDouble s.entry = some d →
        d.holes = ((Finset.range s.entry.writtenEnd).filter (fun i => s.written i = false)).card) ∧
    (∀ writerActive off,planReadAt s.entry writerActive false off = .spool → s.written off = true) ∧
    ∀ writerActive off,planReadAt s.entry writerActive true off = .spool → off < s.entry.writtenEnd := by
  intro s
  have h : WrittenInv s := WrittenInv.start.foldl ops
  have hholes := zeroTailHoleBytes_eq h.extents (fun x hx => h.stop_le hx) h.contiguousEnd_le h.exact
  refine ⟨h.prefix_iff,⟨h.extents.apart,h.extents.above,fun i hi => ?_⟩,⟨hholes,fun detect side d hd => ?_⟩,
    fun active off hplan => ?_,fun active off hplan => ?_⟩
  · rw [h.exact i]
    exact ⟨fun hi' => hi'.resolve_left (by omega),.inr⟩
  · simp only [zeroTailSuspect] at hd
    split at hd
    · split at hd
      · cases hd
        exact hholes
      · cases hd
    · cases hd
  · exact (h.exact off).mpr (.inl (lt_of_planReadAt_spool hplan))
  · exact lt_of_planReadAt_spool hplan

/-- A sidecar is served like a plain file: its holes are planned from the spool too. -/
theorem sidecar_hole_planned :
    let s := [WrittenOp.writeAt (.fill 4 1) 4 none].foldl WrittenState.step {}
    planReadAt s.entry true true 0 = .spool ∧ s.written 0 = false ∧ s.entry.closed = false := by
  decide +kernel

end JuiceMount.Nfs
