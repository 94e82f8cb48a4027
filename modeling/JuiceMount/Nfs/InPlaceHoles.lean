import JuiceMount.Lib.GoMap
import JuiceMount.Lib.SlashPath
import JuiceMount.Nfs.WrittenPrefix

/-! The hole tracker of the in-place write path: per path the contiguous prefix and the extents above it, one
counter of the paths with a hole, and the bound it sets to reads. -/
namespace JuiceMount.Nfs
open List GoMap

/-- `inPlaceHole`. `valid` is history: the bytes a noted write has covered, or that a reported file size took
in when the record was seeded, and that no resize has cut off since. -/
structure InPlaceHole where
  contiguousEnd : ℕ
  writtenEnd : ℕ
  extents : List SpoolExtent := []
  lastWrite : ℤ := 0
  fromTruncate : Bool := false
  valid : ℕ → Bool

namespace InPlaceHole

def isHole (h : InPlaceHole) : Bool := h.contiguousEnd<h.writtenEnd

/-- The record a note works on: a new one starts at the file size the writer saw, and one without a hole
follows a larger size. -/
def seed (found : Option InPlaceHole) (base : ℕ) (fromTruncate : Bool) : InPlaceHole :=
  match found with
  | none => { contiguousEnd := base, writtenEnd := base, fromTruncate, valid := fun i => i < base }
  | some h =>
    if !h.isHole && h.contiguousEnd<base then
      { h with contiguousEnd := base, writtenEnd := base, valid := fun i => i < base }
    else h

/-- A write or a resize is the record's newest sign of life; the preallocation mark goes with the hole. -/
def touch (h : InPlaceHole) (now : ℤ) : InPlaceHole :=
  { h with lastWrite := now, fromTruncate := h.isHole && h.fromTruncate }

def write (h : InPlaceHole) (off stop : ℕ) : InPlaceHole :=
  let prefixed := advanceContig h.contiguousEnd h.extents off stop
  { h with
    contiguousEnd := prefixed.1, extents := prefixed.2, writtenEnd := max h.writtenEnd stop
    valid := fun i => (off ≤ i && i<stop) || h.valid i }

/-- `clampExtents` is the cut `clipExtents` of the spool path. -/
def truncate (h : InPlaceHole) (size : ℕ) : InPlaceHole :=
  if h.writtenEnd<size then { h with fromTruncate := true, writtenEnd := size }
  else
    { h with
      writtenEnd := size, contiguousEnd := min h.contiguousEnd size, extents := clipExtents h.extents size
      valid := fun i => i<size && h.valid i }

/-- The prefix and the extents are exactly the valid bytes, all below `writtenEnd`. -/
structure Sound (h : InPlaceHole) : Prop where
  extents : Separated h.contiguousEnd h.extents
  exact : ∀ i, (i<h.contiguousEnd ∨ Covers h.extents i) ↔ h.valid i
  bounded : ∀ i, h.valid i → i<h.writtenEnd

namespace Sound
variable {h : InPlaceHole}

lemma fresh (base : ℕ) (h : InPlaceHole) (hc : h.contiguousEnd=base) (hw : h.writtenEnd=base)
    (he : h.extents=[]) (hv : h.valid=fun i => decide (i<base)) : h.Sound where
  extents := by rw [he]; exact separated_nil
  exact i := by simp [hc,he,hv,Covers]
  bounded i hi := by simpa [hv,hw] using hi

lemma extents_nil (hs : h.Sound) (hole : h.isHole=false) : h.extents=[] := by
  have hle : h.writtenEnd≤h.contiguousEnd := by simpa [isHole] using hole
  refine eq_nil_iff_forall_not_mem.mpr fun x hx => ?_
  have hab := hs.extents.above x hx
  have := hs.bounded x.start ((hs.exact _).mp (Or.inr ⟨x,hx,le_rfl,hab.2⟩))
  omega

lemma seed {found : Option InPlaceHole} (hs : ∀ h, found=some h → h.Sound) (base : ℕ) (ft : Bool) :
    (InPlaceHole.seed found base ft).Sound := by
  unfold InPlaceHole.seed
  cases found with
  | none => exact fresh base _ rfl rfl rfl rfl
  | some h =>
    have hs := hs h rfl
    dsimp only
    split
    · rename_i hseed
      simp only [Bool.and_eq_true,Bool.not_eq_true'] at hseed
      exact fresh base _ rfl rfl (hs.extents_nil hseed.1) rfl
    · exact hs

lemma touch (hs : h.Sound) (now : ℤ) : (h.touch now).Sound := ⟨hs.extents,hs.exact,hs.bounded⟩

lemma write (hs : h.Sound) {off stop : ℕ} (hlt : off<stop) : (h.write off stop).Sound := by
  obtain ⟨hsep,hcov⟩ := advanceContig_spec hs.extents hlt
  refine ⟨hsep,fun i => ?_,fun i hi => ?_⟩
  · simp only [InPlaceHole.write,Bool.or_eq_true,Bool.and_eq_true,decide_eq_true_eq,← hs.exact i]
    exact hcov i
  · simp only [InPlaceHole.write,Bool.or_eq_true,Bool.and_eq_true,decide_eq_true_eq] at hi ⊢
    rcases hi with hi | hi
    · omega
    · have := hs.bounded i hi
      omega

lemma truncate (hs : h.Sound) (size : ℕ) : (h.truncate size).Sound := by
  unfold InPlaceHole.truncate
  split
  · exact ⟨hs.extents,hs.exact,fun i hi => (hs.bounded i hi).trans ‹_›⟩
  obtain ⟨hsep,hcov⟩ := clipExtents_spec hs.extents size
  refine ⟨hsep,fun i => ?_,fun i hi => ?_⟩
  · simp only [Bool.and_eq_true,decide_eq_true_eq,← hs.exact i]
    exact hcov i
  · simp only [Bool.and_eq_true,decide_eq_true_eq] at hi
    exact hi.1

end Sound
end InPlaceHole

structure InPlaceTracker where
  m : GoMap (List Char) InPlaceHole := []
  holes : ℤ := 0

/-- `path.Base` begins with a dot and an underscore. -/
def isAppleDoubleNFSPath (path : List Char) : Bool :=
  ((SlashPath.splitSlash path).filter (fun c => c≠[])).getLast?.any (fun c => ['.', '_'].isPrefixOf c)

inductive HoleNote
  | write (path : List Char) (base off stop : ℕ) (now : ℤ)
  | truncate (path : List Char) (base size : ℕ) (now : ℤ)
  | forget (path : List Char)
  | evictStale (ttl now : ℤ)
  deriving DecidableEq, Repr

namespace InPlaceTracker

/-- The record goes back into the map; the counter follows what changed about its hole. -/
def put (t : InPlaceTracker) (path : List Char) (wasHole : Bool) (h : InPlaceHole) : InPlaceTracker where
  m := t.m.set path h
  holes :=
    if !wasHole && h.isHole then t.holes+1
    else if wasHole && !h.isHole then t.holes-1
    else t.holes

def noteWrite (t : InPlaceTracker) (path : List Char) (base off stop : ℕ) (now : ℤ) : InPlaceTracker :=
  if stop≤off then t
  else
    let h := InPlaceHole.seed (t.m.get? path) base false
    t.put path h.isHole ((h.write off stop).touch now)

def noteTruncate (t : InPlaceTracker) (path : List Char) (base size : ℕ) (now : ℤ) : InPlaceTracker :=
  if (t.m.get? path).isNone && size≤base then t
  else
    let h := InPlaceHole.seed (t.m.get? path) base true
    t.put path h.isHole ((h.truncate size).touch now)

def forget (t : InPlaceTracker) (path : List Char) : InPlaceTracker :=
  match t.m.get? path with
  | none => t
  | some h => ⟨t.m.erase path,if h.isHole then t.holes-1 else t.holes⟩

def evictStale (t : InPlaceTracker) (ttl now : ℤ) : InPlaceTracker where
  m := t.m.filter (fun e => !(e.2.lastWrite < now-ttl))
  holes := t.holes-((t.m.filter (fun e => e.2.lastWrite < now-ttl)).countP (fun e => e.2.isHole) : ℕ)

def note (t : InPlaceTracker) : HoleNote → InPlaceTracker
  | .write path base off stop now => t.noteWrite path base off stop now
  | .truncate path base size now => t.noteTruncate path base size now
  | .forget path => t.forget path
  | .evictStale ttl now => t.evictStale ttl now

/-- `routing`: the record and whether its writer is active, looked up only while some path has a hole.
`window` is `pin.SpoolIncompleteStallWindow`. -/
def routing (t : InPlaceTracker) (window now : ℤ) (path : List Char) : Option (ℕ × ℕ × Bool) :=
  if t.holes=0 then none
  else (t.m.get? path).map (fun h => (h.contiguousEnd,h.writtenEnd,now-h.lastWrite<window))

/-- How many of the `n` bytes at `off` may be served, and whether the read is held. -/
def inPlaceReadBound (t : InPlaceTracker) (window now : ℤ) (path : List Char) (off n : ℕ) : ℕ × Bool :=
  match t.routing window now path with
  | none => (n,false)
  | some (cend,wend,active) =>
    let double := isAppleDoubleNFSPath path
    match planReadAt { contiguousEnd := cend, writtenEnd := wend } active double off with
    | .hold => (0,true)
    | .spool => if !double && active && cend<wend && cend-off<n then (cend-off,false) else (n,false)
    | .dest | .eof => (n,false)

/-- Every record is sound, and the counter is the number of records with a hole. -/
structure Balanced (t : InPlaceTracker) : Prop where
  nodup : t.m.keys.Nodup
  sound : ∀ path h, t.m.get? path=some h → h.Sound
  count : t.holes = (t.m.countP (fun e => e.2.isHole) : ℕ)

namespace Balanced
variable {t : InPlaceTracker}

lemma empty : Balanced {} := ⟨nodup_nil,fun _ _ h => (by cases h),rfl⟩

lemma seed_isHole (path : List Char) (base : ℕ) (ft : Bool) :
    (InPlaceHole.seed (t.m.get? path) base ft).isHole=(t.m.get? path).any InPlaceHole.isHole := by
  unfold InPlaceHole.seed
  cases t.m.get? path with
  | none => simp [InPlaceHole.isHole]
  | some h =>
    dsimp only
    split
    · rename_i hseed
      simp_all [InPlaceHole.isHole]
    · rfl

variable {path : List Char} {h : InPlaceHole}

lemma put (hb : Balanced t) (hs : h.Sound) {wasHole : Bool}
    (hwas : wasHole=(t.m.get? path).any InPlaceHole.isHole) : Balanced (t.put path wasHole h) := by
  refine ⟨nodup_set hb.nodup _ _,forall_set hs hb.sound,?_⟩
  have herase : (t.m.erase path).countP (fun e => e.2.isHole)+(if wasHole then 1 else 0) =
      t.m.countP (fun e => e.2.isHole) := by
    cases hget : t.m.get? path with
    | none => simp [hwas,hget,erase_eq_self hget]
    | some x =>
      rw [hwas,hget]
      exact countP_erase hb.nodup hget InPlaceHole.isHole
  have hcount := hb.count
  simp only [InPlaceTracker.put,GoMap.set,countP_cons]
  cases wasHole <;> cases h.isHole <;> simp_all
  omega

lemma note (hb : Balanced t) (op : HoleNote) : Balanced (t.note op) := by
  cases op with
  | write path base off stop now =>
    simp only [InPlaceTracker.note,noteWrite]
    split
    · exact hb
    · exact hb.put (((InPlaceHole.Sound.seed (hb.sound path) base _).write (by omega)).touch now)
        (seed_isHole path base _)
  | truncate path base size now =>
    simp only [InPlaceTracker.note,noteTruncate]
    split
    · exact hb
    · exact hb.put (((InPlaceHole.Sound.seed (hb.sound path) base _).truncate size).touch now)
        (seed_isHole path base _)
  | forget path =>
    simp only [InPlaceTracker.note,InPlaceTracker.forget]
    split
    · exact hb
    rename_i h hget
    refine ⟨nodup_erase hb.nodup _,fun p x hx => hb.sound p x (of_get?_erase hx).2,?_⟩
    have herase := countP_erase hb.nodup hget InPlaceHole.isHole
    have hcount := hb.count
    cases hh : h.isHole <;> simp_all
    omega
  | evictStale ttl now =>
    have hsub : (t.evictStale ttl now).m.Sublist t.m := filter_sublist
    have hnodup := hb.nodup.sublist (hsub.map Prod.fst)
    refine ⟨hnodup,fun p x hx => ?_,?_⟩
    · exact hb.sound p x (get?_of_mem hb.nodup (hsub.subset (mem_of_get? hx)))
    · have hsplit := countP_eq_countP_filter_add t.m (fun e => e.2.isHole)
        (fun e => decide (e.2.lastWrite<now-ttl))
      simp only [InPlaceTracker.note,evictStale,hb.count,hsplit]
      omega

lemma run (hb : Balanced t) (ops : List HoleNote) : Balanced (ops.foldl InPlaceTracker.note t) := by
  induction ops generalizing t with
  | nil => exact hb
  | cons op ops ih => exact ih (hb.note op)

lemma valid_of_no_holes (hb : Balanced t) (hzero : t.holes=0)
    (hget : t.m.get? path=some h) {i : ℕ} (hi : i<h.writtenEnd) : h.valid i := by
  have hcount : t.m.countP (fun e => e.2.isHole)=0 := by
    have := hb.count
    omega
  have hno := countP_eq_zero.mp hcount _ (mem_of_get? hget)
  have hle : h.writtenEnd≤h.contiguousEnd := by simpa [InPlaceHole.isHole] using hno
  exact ((hb.sound path h hget).exact i).mp (Or.inl (by omega))

lemma served (hb : Balanced t) (hget : t.m.get? path=some h)
    {window now : ℤ} (hactive : now-h.lastWrite<window) (hdouble : isAppleDoubleNFSPath path=false)
    {off n i : ℕ} (hlo : off ≤ i) (hhi : i<off+(t.inPlaceReadBound window now path off n).1)
    (hi : i<h.writtenEnd) : h.valid i := by
  by_cases hzero : t.holes=0
  · exact hb.valid_of_no_holes hzero hget hi
  have hroute : t.routing window now path=some (h.contiguousEnd,h.writtenEnd,true) := by
    simp [routing,hzero,hget,hactive]
  refine ((hb.sound path h hget).exact i).mp (Or.inl ?_)
  simp only [inPlaceReadBound,hroute,hdouble,planReadAt,readEnd] at hhi
  -- before the prefix the read is cut there, inside a hole it is held, above both there is nothing to cut
  by_cases hcend : off<h.contiguousEnd
  · by_cases hcut : h.contiguousEnd<h.writtenEnd ∧ h.contiguousEnd-off<n <;> simp_all <;> omega
  · by_cases hwend : off<h.writtenEnd <;> simp_all <;> omega

end Balanced

/-- After any notes: the counter is the number of records with a hole, the extents are sorted, disjoint and
above the prefix, and while the writer is active a read is held or returns, below `writtenEnd`, only bytes
that a noted write or a reported file size vouches for since they were last cut off. -/
theorem holes_balanced_sound (ops : List HoleNote) :
    let t := ops.foldl note {}
    t.holes = (t.m.countP (fun e => decide (e.2.contiguousEnd < e.2.writtenEnd)) : ℕ) ∧
    ∀ path h, t.m.get? path = some h → Separated h.contiguousEnd h.extents ∧
      ∀ window now, now-h.lastWrite < window → isAppleDoubleNFSPath path = false →
        ∀ off n i, off ≤ i → i < off+(t.inPlaceReadBound window now path off n).1 → i < h.writtenEnd →
          h.valid i := by
  have hb := Balanced.empty.run ops
  refine ⟨hb.count,fun path h hget => ⟨(hb.sound path h hget).extents,?_⟩⟩
  intro window now hactive hdouble off n i hlo hhi hi
  exact hb.served hget hactive hdouble hlo hhi hi

/-- A ten byte file written at 20: its old bytes are served though no noted write covered them. And a sidecar
of nothing but a write at 20 is served from its first byte. -/
theorem served_without_write :
    (([HoleNote.write ['f'] 10 20 30 0].foldl note {}).inPlaceReadBound 90 1 ['f'] 0 30 = (10,false)) ∧
    (([HoleNote.write ['.', '_', 'f'] 0 20 30 0].foldl note {}).inPlaceReadBound 90 1 ['.', '_', 'f'] 0 30 = (30,false)) ∧
    ∀ h, ([HoleNote.write ['f'] 10 20 30 0].foldl note {}).m.get? ['f'] = some h → h.writtenEnd = 30 := by
  refine ⟨by decide +kernel,by decide +kernel,?_⟩
  rintro h ⟨⟩
  rfl

end InPlaceTracker
end JuiceMount.Nfs
