import JuiceMount.Lib.Lists
import JuiceMount.Lib.Transition
import JuiceMount.Nfs.WrittenPrefix

/-! Admission of spool bytes against the free space of the volume: the sampled ceiling, the
reservations of writes and truncates, and the release of drained files, with the spool as the only
consumer of the volume and files that occupy what was written. A statfs and the store of its ceiling,
the read of the limit and the reservation, the reservation and the write, the removal of a file and
its release are steps of their own; what the clock says is an argument. -/
namespace JuiceMount.Nfs
open JuiceMount.Lists Transition List Option

def spoolFreeFloorBytes : ℤ := 20*2^30

def spoolHardFreeFloorBytes : ℤ := 10*2^30

def spoolLowDiskWorkingSetBytes : ℤ := 512*2^20

def spoolCacheFlapMarginBytes : ℤ := 2*2^30

def spoolCacheVerdictMaxAge : ℤ := 5*60*10^9

def autoSpoolCapacityBudget : ℕ := 2^50

def failOpenMaxBytes : ℕ := 8*2^30

/-- In place of a ceiling of 0, which would read as unlimited. -/
def minClampedCeiling : ℕ := 1

structure CacheReclaimInputs where
  writebackOn : Bool := false
  haveVerdict : Bool := false
  verdictAge : ℤ := 0
  blockCacheBytes : ℤ := 0
  cacheDirBytes : ℤ := 0
  pinnedBytes : ℤ := 0
  cacheBudgetBytes : ℤ := 0

def reclaimableCacheBytes (inp : CacheReclaimInputs) : ℤ :=
  if inp.writebackOn then 0
  else if !inp.haveVerdict || inp.verdictAge<0 || spoolCacheVerdictMaxAge < inp.verdictAge then 0
  else
    let cache :=
      if inp.blockCacheBytes≤0 then inp.cacheDirBytes
      else if 0 < inp.cacheDirBytes && inp.cacheDirBytes < inp.blockCacheBytes then inp.cacheDirBytes
      else inp.blockCacheBytes
    if cache≤0 then 0
    else
      let cache := if 0 < inp.cacheBudgetBytes && inp.cacheBudgetBytes<cache then inp.cacheBudgetBytes else cache
      let pinned := if inp.pinnedBytes<0 then 0 else inp.pinnedBytes
      let reclaimable := cache-pinned-spoolCacheFlapMarginBytes
      if reclaimable<0 then 0 else reclaimable

def spoolHeadroomBytes (avail : ℤ) (inp : CacheReclaimInputs) : ℤ :=
  if avail ≤ spoolHardFreeFloorBytes then 0
  else
    let headroom := avail+reclaimableCacheBytes inp-spoolFreeFloorBytes
    let headroom := if headroom<0 then 0 else headroom
    let emergency := avail-spoolHardFreeFloorBytes
    let emergency := if spoolLowDiskWorkingSetBytes<emergency then spoolLowDiskWorkingSetBytes else emergency
    if headroom<emergency then emergency else headroom

lemma spoolHeadroomBytes_nonneg (avail : ℤ) (inp : CacheReclaimInputs) : 0 ≤ spoolHeadroomBytes avail inp := by
  unfold spoolHeadroomBytes
  simp only [spoolLowDiskWorkingSetBytes]
  split
  · exact le_rfl
  · split_ifs <;> omega

/-- A drained file is removed and its capacity released, in either order. -/
inductive FilePhase
  | writing | ready | unlinked | released | gone
  deriving DecidableEq, Repr

/-- A spool file with what was written of it: a prefix and the extents above. -/
structure SparseFile where
  writtenEnd : ℕ := 0
  contig : ℕ := 0
  extents : List SpoolExtent := []
  phase : FilePhase := .writing

namespace SparseFile

def written (f : SparseFile) : ℕ := f.contig+(f.extents.map (fun x => x.stop-x.start)).sum

def onDisk (f : SparseFile) : ℕ :=
  match f.phase with
  | .writing | .ready | .released => f.written
  | .unlinked | .gone => 0

def counted (f : SparseFile) : ℕ :=
  match f.phase with
  | .writing | .ready | .unlinked => f.writtenEnd
  | .released | .gone => 0

def wrote (f : SparseFile) (off stop : ℕ) : SparseFile :=
  let prefixed := advanceContig f.contig f.extents off stop
  { f with writtenEnd := max f.writtenEnd stop, contig := prefixed.1, extents := prefixed.2 }

def resize (f : SparseFile) (size : ℕ) : SparseFile :=
  { f with writtenEnd := size, contig := min f.contig size, extents := clipExtents f.extents size }

end SparseFile

/-- A `WriteAt` of `count` bytes with its reservation. -/
structure ReservedWrite where
  file : ℕ
  off : ℕ
  count : ℕ
  reserved : ℕ

/-- `volume` is the free space while the spool is empty, `sample` a statfs whose ceiling is not yet
stored, and `limits` are the effective capacities that reservations have read and not yet used.
A capacity of 0 is unlimited, and the ceiling is `none` after a statfs that failed. -/
structure FloorState where
  volume : ℕ
  capacity : ℕ
  files : List SparseFile := []
  used : ℕ := 0
  capCeiling : Option ℕ := none
  sample : Option (Option ℤ × CacheReclaimInputs) := none
  limits : List ℕ := []
  writes : List ReservedWrite := []

namespace FloorState

def onDisk (s : FloorState) : ℕ := (s.files.map SparseFile.onDisk).sum

def free (s : FloorState) : ℤ := s.volume-s.onDisk

def releaseCapacity (s : FloorState) (delta : ℕ) : FloorState := { s with used := s.used-delta }

def setFile (s : FloorState) (i : ℕ) (f : SparseFile) : FloorState := { s with files := s.files.set i f }

def refreshCeiling (s : FloorState) (avail : Option ℤ) (inp : CacheReclaimInputs) : FloorState :=
  match avail with
  | none => { s with capCeiling := none }
  | some a =>
    if a<0 then { s with capCeiling := none }
    else { s with capCeiling := some (max (s.used+spoolHeadroomBytes a inp).toNat minClampedCeiling) }

/-- `stale`: the sample is older than `staleCeilingMax`, and admission is frozen. -/
def cachedCeiling (s : FloorState) (stale : Bool) : Option ℕ :=
  if stale then some (max s.used minClampedCeiling) else s.capCeiling

def effectiveCapacity (s : FloorState) (stale : Bool) : ℕ :=
  if s.capacity=0 then s.capacity
  else
    match s.cachedCeiling stale with
    | none => if s.capacity=autoSpoolCapacityBudget then failOpenMaxBytes else s.capacity
    | some ceiling => if s.capacity<ceiling then s.capacity else ceiling

/-- The compare-and-swap of `tryReserveCapacity`, with a limit read before. -/
def tryReserveCapacity (s : FloorState) (k delta : ℕ) : Option FloorState :=
  (s.limits[k]?).bind fun ec =>
    if 0<ec && ec < s.used+delta then none
    else some { s with used := s.used+delta, limits := s.limits.eraseIdx k }

def writeAt (s : FloorState) (i off count k : ℕ) : Option FloorState :=
  (s.files[i]?).bind fun f =>
    if f.phase≠.writing || count=0 then none
    else
      let reserved := off+count-f.writtenEnd
      if reserved=0 then some { s with writes := s.writes++[{ file := i, off, count, reserved }] }
      else
        (s.tryReserveCapacity k reserved).map fun s =>
          { s with writes := s.writes++[{ file := i, off, count, reserved }] }

/-- The write itself: `n` bytes reach the file. -/
def land (s : FloorState) (j n : ℕ) : Option FloorState :=
  (s.writes[j]?).bind fun w =>
    (s.files[w.file]?).bind fun f =>
      if w.count<n then none
      else
        let s := { s with writes := s.writes.eraseIdx j }
        if f.phase≠.writing || n=0 then some (s.releaseCapacity w.reserved)
        else
          let stop := w.off+n
          let refund := if f.writtenEnd<stop then w.reserved-(stop-f.writtenEnd) else w.reserved
          some ((s.releaseCapacity refund).setFile w.file (f.wrote w.off stop))

def truncate (s : FloorState) (i size k : ℕ) (ok : Bool) : Option FloorState :=
  (s.files[i]?).bind fun f =>
    if f.phase≠.writing then none
    else if size=f.writtenEnd then some s
    else if f.writtenEnd<size then
      (s.tryReserveCapacity k (size-f.writtenEnd)).map fun s =>
        if ok then s.setFile i (f.resize size) else s.releaseCapacity (size-f.writtenEnd)
    else some (if ok then (s.setFile i (f.resize size)).releaseCapacity (f.writtenEnd-size) else s)

def close (s : FloorState) (i : ℕ) : Option FloorState :=
  (s.files[i]?).bind fun f => if f.phase=.writing then some (s.setFile i { f with phase := .ready }) else none

def unlink (s : FloorState) (i : ℕ) : Option FloorState :=
  (s.files[i]?).bind fun f =>
    match f.phase with
    | .ready => some (s.setFile i { f with phase := .unlinked })
    | .released => some (s.setFile i { f with phase := .gone })
    | _ => none

def releaseDrained (s : FloorState) (i : ℕ) : Option FloorState :=
  (s.files[i]?).bind fun f =>
    match f.phase with
    | .unlinked => some ((s.setFile i { f with phase := .gone }).releaseCapacity f.writtenEnd)
    | .ready => some ((s.setFile i { f with phase := .released }).releaseCapacity f.writtenEnd)
    | _ => none

end FloorState

inductive FloorAction
  | statfs (inp : CacheReclaimInputs) (ok : Bool)
  | storeCeiling
  | readLimit (stale : Bool)
  | openWrite
  | writeAt (i off count k : ℕ)
  | land (j n : ℕ)
  | truncate (i size k : ℕ) (ok : Bool)
  | close (i : ℕ)
  | unlink (i : ℕ)
  | releaseDrained (i : ℕ)

def floorStep (s : FloorState) : FloorAction → Option FloorState
  | .statfs inp ok =>
    if s.sample.isSome then none else some { s with sample := some (if ok then some s.free else none,inp) }
  | .storeCeiling => s.sample.map fun x => { s.refreshCeiling x.1 x.2 with sample := none }
  | .readLimit stale => some { s with limits := s.limits++[s.effectiveCapacity stale] }
  | .openWrite => some { s with files := s.files++[{}] }
  | .writeAt i off count k => s.writeAt i off count k
  | .land j n => s.land j n
  | .truncate i size k ok => s.truncate i size k ok
  | .close i => s.close i
  | .unlink i => s.unlink i
  | .releaseDrained i => s.releaseDrained i

/-- The steps under which the counter bounds what can come to the disk: a ceiling is stored when the
counted bytes that the sample did not see on the disk are no more than the headroom leaves above the
hard floor, limits are read with a capacity and a ceiling, a file is not cut while a write of it is
reserved, and a drained file is removed before it is released. -/
def settled (s : FloorState) : FloorAction → Bool
  | .storeCeiling =>
    match s.sample with
    | some (some a,inp) => decide (a ≤ spoolHardFreeFloorBytes) ||
        decide (s.used-(s.volume-a) ≤ a-spoolHardFreeFloorBytes-spoolHeadroomBytes a inp)
    | _ => true
  | .readLimit stale => s.capacity≠0 && (stale || s.capCeiling.isSome)
  | .truncate i size _ _ => (s.files[i]?).all (fun f => decide (f.writtenEnd ≤ size) || s.writes.all (fun w => w.file≠i))
  | .releaseDrained i => (s.files[i]?).all (fun f => f.phase=.unlinked)
  | _ => true

/-- The ranges of a file are apart and below its written end. -/
structure SparseFile.Fits (f : SparseFile) : Prop where
  apart : Separated f.contig f.extents
  below : ∀ i,i<f.contig ∨ Covers f.extents i → i<f.writtenEnd

namespace SparseFile.Fits
variable {f : SparseFile}

lemma wrote (h : f.Fits) {off stop : ℕ} (hlt : off<stop) : (f.wrote off stop).Fits := by
  obtain ⟨hsep,hcov⟩ := advanceContig_spec h.apart hlt
  refine ⟨hsep,fun i hi => ?_⟩
  show i < max f.writtenEnd stop
  obtain ⟨_,hi⟩ | hi := (hcov i).mp hi
  · exact hi.trans_le (le_max_right _ _)
  · exact (h.below i hi).trans_le (le_max_left _ _)

lemma resize (h : f.Fits) (size : ℕ) : (f.resize size).Fits := by
  obtain ⟨hsep,hcov⟩ := clipExtents_spec h.apart size
  exact ⟨hsep,fun i hi => ((hcov i).mp hi).1⟩

lemma phase (h : f.Fits) (phase : FilePhase) : ({f with phase} : SparseFile).Fits := ⟨h.apart,h.below⟩

end SparseFile.Fits

def FloorState.bound (s : FloorState) : ℤ := max (s.volume-spoolHardFreeFloorBytes) 1

/-- The counter is what the files and the reservations have, and neither it nor a limit that admits
more goes over the bound. -/
structure FloorInv (s : FloorState) : Prop where
  fits : ∀ f∈s.files,f.Fits
  kept : ∀ f∈s.files,f.phase≠.released
  writes : ∀ w∈s.writes,∃ f,s.files[w.file]? = some f ∧ (f.phase=.writing → w.off+w.count ≤ f.writtenEnd+w.reserved)
  used : s.used = (s.files.map SparseFile.counted).sum+(s.writes.map (·.reserved)).sum
  bounded : s.used ≤ s.bound
  ceiling : ∀ c,s.capCeiling=some c → 0<c ∧ c ≤ s.bound
  limits : ∀ ec∈s.limits,0<ec ∧ ec ≤ s.bound

namespace FloorInv
variable {s t : FloorState} {i k : ℕ} {f g : SparseFile}

lemma start (volume capacity : ℕ) : FloorInv {volume, capacity} := by
  refine ⟨nofun,nofun,nofun,rfl,?_,nofun,nofun⟩
  simp [FloorState.bound]

lemma one_le_bound (s : FloorState) : 1 ≤ s.bound := le_max_right _ _

lemma refreshCeiling (h : FloorInv s) {avail : Option ℤ} {inp : CacheReclaimInputs}
    (hok : ∀ a,avail=some a → a ≤ spoolHardFreeFloorBytes ∨
      s.used-(s.volume-a)≤a-spoolHardFreeFloorBytes-spoolHeadroomBytes a inp) :
    FloorInv {s.refreshCeiling avail inp with sample := none} := by
  unfold FloorState.refreshCeiling
  cases avail with
  | none => exact {h with ceiling := nofun}
  | some a =>
    simp only
    split
    · exact {h with ceiling := nofun}
    refine {h with ceiling := fun c hc => ?_}
    cases hc
    have hone := one_le_bound s
    have hused := h.bounded
    have hhead := spoolHeadroomBytes_nonneg a inp
    have hsum : (s.used : ℤ)+spoolHeadroomBytes a inp ≤ s.bound := by
      obtain hlow | hcov := hok a rfl
      · rw [spoolHeadroomBytes,if_pos hlow]
        omega
      · have : (s.volume : ℤ)-spoolHardFreeFloorBytes ≤ s.bound := le_max_left _ _
        omega
    simp only [minClampedCeiling]
    show 0 < max _ 1 ∧ ((max _ 1 : ℕ) : ℤ) ≤ s.bound
    omega

lemma effectiveCapacity (h : FloorInv s) {stale : Bool} (hok : settled s (.readLimit stale)=true) :
    0<s.effectiveCapacity stale ∧ s.effectiveCapacity stale ≤ s.bound := by
  simp only [settled,Bool.and_eq_true,decide_eq_true_eq,Bool.or_eq_true] at hok
  obtain ⟨hcap,hsample⟩ := hok
  have hceiling : ∃ c,s.cachedCeiling stale=some c ∧ 0<c ∧ c ≤ s.bound := by
    unfold FloorState.cachedCeiling
    cases stale with
    | true =>
      refine ⟨_,rfl,?_⟩
      have hone := one_le_bound s
      have hused := h.bounded
      simp only [minClampedCeiling]
      omega
    | false =>
      obtain ⟨c,hc⟩ := isSome_iff_exists.mp (hsample.resolve_left nofun)
      exact ⟨c,hc,h.ceiling c hc⟩
  obtain ⟨c,hc,hpos,hle⟩ := hceiling
  simp only [FloorState.effectiveCapacity,if_neg hcap,hc]
  split <;> omega

lemma admitted (h : FloorInv s) {delta : ℕ} (hres : s.tryReserveCapacity k delta=some t) :
    t = {s with used := s.used+delta, limits := s.limits.eraseIdx k} ∧ (s.used+delta : ℕ) ≤ s.bound := by
  obtain ⟨ec,hec,hres⟩ := bind_eq_some_iff.mp hres
  obtain ⟨hpos,hle⟩ := h.limits ec (mem_of_getElem? hec)
  split_ifs at hres
  · rename_i hgo
    simp only [Bool.and_eq_true,decide_eq_true_eq,not_and,not_lt] at hgo
    have := hgo hpos
    exact ⟨(Option.some.inj hres).symm,by omega⟩

lemma limits_erase (h : FloorInv s) (k : ℕ) : ∀ ec∈s.limits.eraseIdx k,0<ec ∧ ec ≤ s.bound :=
  fun ec hec => h.limits ec (mem_of_mem_eraseIdx hec)

lemma counted_set (hf : s.files[i]? = some f) (g : SparseFile) :
    ((s.files.set i g).map SparseFile.counted).sum+f.counted=(s.files.map SparseFile.counted).sum+g.counted :=
  sum_set _ hf g

lemma setFile (h : FloorInv s) (hf : s.files[i]? = some f) (hfits : g.Fits) (hphase : g.phase≠.released) (n : ℕ)
    (hgrow : g.phase=.writing → f.phase=.writing ∧ (f.writtenEnd≤g.writtenEnd ∨ s.writes.all (fun w => w.file≠i)))
    (hn : n+f.counted=s.used+g.counted) (hbound : n ≤ s.bound) :
    FloorInv {s with files := s.files.set i g, used := n} := by
  have hsum := counted_set hf g
  have hused := h.used
  refine {h with
    fits := forall_mem_set h.fits hfits, kept := forall_mem_set h.kept hphase
    writes := fun w hw => ?_, used := ?_, bounded := hbound}
  · obtain ⟨x,hx,hfit⟩ := h.writes w hw
    by_cases hwi : w.file=i
    · rw [hwi] at hx
      cases hf.symm.trans hx
      refine ⟨g,?_,fun hgw => ?_⟩
      · rw [hwi,getElem?_set_self (List.getElem?_eq_some_iff.mp hf).1]
      · obtain ⟨hfw,hle | hnone⟩ := hgrow hgw
        · have := hfit hfw
          omega
        · have := List.all_eq_true.mp hnone w hw
          simp [hwi] at this
    · exact ⟨x,(getElem?_set_ne (Ne.symm hwi)).trans hx,hfit⟩
  · show n=((s.files.set i g).map SparseFile.counted).sum+(s.writes.map (·.reserved)).sum
    omega

lemma writeAt (h : FloorInv s) {off count : ℕ} (hstep : s.writeAt i off count k=some t) : FloorInv t := by
  obtain ⟨f,hf,hstep⟩ := bind_eq_some_iff.mp hstep
  have hwrites : ∀ w∈s.writes++[(⟨i,off,count,off+count-f.writtenEnd⟩ : ReservedWrite)],∃ x,
      s.files[w.file]? = some x ∧ (x.phase=.writing → w.off+w.count≤x.writtenEnd+w.reserved) := by
    refine forall_mem_append.mpr ⟨h.writes,forall_mem_singleton.mpr ⟨f,hf,fun _ => ?_⟩⟩
    simp only
    omega
  have hsum : ((s.writes++[(⟨i,off,count,off+count-f.writtenEnd⟩ : ReservedWrite)]).map (fun w => w.reserved)).sum =
      (s.writes.map (·.reserved)).sum+(off+count-f.writtenEnd) := by
    simp
  have hused := h.used
  split_ifs at hstep
  simp only at hstep
  split at hstep
  · rename_i hzero
    cases hstep
    refine {h with writes := hwrites, used := ?_}
    rw [hsum]
    simp only
    omega
  · obtain ⟨u,hu,rfl⟩ := map_eq_some_iff.mp hstep
    obtain ⟨rfl,hbound⟩ := h.admitted hu
    refine {h with writes := hwrites, used := ?_, bounded := hbound, limits := h.limits_erase k}
    rw [hsum]
    simp only
    omega

lemma land (h : FloorInv s) {j n : ℕ} (hstep : s.land j n=some t) : FloorInv t := by
  obtain ⟨w,hw,hstep⟩ := bind_eq_some_iff.mp hstep
  obtain ⟨f,hf,hstep⟩ := bind_eq_some_iff.mp hstep
  split at hstep
  · cases hstep
  rename_i hcount
  have hsum := sum_eraseIdx (fun w : ReservedWrite => w.reserved) hw
  have hused := h.used
  have hmem : ∀ x∈s.writes.eraseIdx j,x∈s.writes := fun x hx => mem_of_mem_eraseIdx hx
  have hbounded := h.bounded
  have hdrop : FloorInv {s with writes := s.writes.eraseIdx j, used := s.used-w.reserved} := by
    refine {h with writes := fun x hx => h.writes x (hmem x hx), used := ?_, bounded := ?_}
    · show s.used-w.reserved=(s.files.map SparseFile.counted).sum+((s.writes.eraseIdx j).map (·.reserved)).sum
      omega
    · show ((s.used-w.reserved : ℕ) : ℤ) ≤ s.bound
      omega
  split at hstep
  · cases hstep
    exact hdrop
  rename_i hgo
  simp only [Bool.or_eq_true,decide_eq_true_eq,not_or,not_not] at hgo
  obtain ⟨hphase,hn⟩ := hgo
  cases hstep
  obtain ⟨x,hx,hfit⟩ := h.writes w (mem_of_getElem? hw)
  cases hf.symm.trans hx
  have hfit := hfit hphase
  have hcounted : f.counted=f.writtenEnd := by simp [SparseFile.counted,hphase]
  have hcounted' : (f.wrote w.off (w.off+n)).counted=max f.writtenEnd (w.off+n) := by
    simp [SparseFile.counted,SparseFile.wrote,hphase]
  refine hdrop.setFile hf ((h.fits f (mem_of_getElem? hf)).wrote (by omega)) (by simp [SparseFile.wrote,hphase]) _
    (fun _ => ⟨hphase,.inl (le_max_left _ _)⟩) ?_ ?_
  · rw [hcounted,hcounted']
    simp only [FloorState.releaseCapacity]
    split <;> omega
  · show ((s.used-_ : ℕ) : ℤ) ≤ s.bound
    omega

lemma truncate (h : FloorInv s) {size : ℕ} {ok : Bool} (hok : settled s (.truncate i size k ok)=true)
    (hstep : s.truncate i size k ok=some t) : FloorInv t := by
  obtain ⟨f,hf,hstep⟩ := bind_eq_some_iff.mp hstep
  simp only [settled,hf,all_some,Bool.or_eq_true,decide_eq_true_eq] at hok
  have hfits := (h.fits f (mem_of_getElem? hf)).resize size
  have hbounded := h.bounded
  split at hstep
  · cases hstep
  rename_i hphase
  have hphase : f.phase=.writing := by simpa using hphase
  have hcounted : f.counted=f.writtenEnd := by simp [SparseFile.counted,hphase]
  have hcounted' : (f.resize size).counted=size := by simp [SparseFile.counted,SparseFile.resize,hphase]
  have hkept : (f.resize size).phase≠.released := by simp [SparseFile.resize,hphase]
  split at hstep
  · cases hstep
    exact h
  split at hstep
  · obtain ⟨u,hu,hstep⟩ := map_eq_some_iff.mp hstep
    obtain ⟨rfl,hbound⟩ := h.admitted hu
    have hreserved : FloorInv {s with limits := s.limits.eraseIdx k} := {h with limits := h.limits_erase k}
    subst hstep
    split
    · exact hreserved.setFile hf hfits hkept _ (fun _ => ⟨hphase,hok⟩) (by simp only; omega) hbound
    · have hsame : s.used+(size-f.writtenEnd)-(size-f.writtenEnd)=s.used := by omega
      simp only [FloorState.releaseCapacity,hsame]
      exact hreserved
  · cases hstep
    split
    · refine h.setFile hf hfits hkept (s.used-(f.writtenEnd-size)) (fun _ => ⟨hphase,hok⟩) ?_ ?_
      · have hused := h.used
        have hsum := counted_set hf {f with phase := .gone}
        have hgone : ({f with phase := .gone} : SparseFile).counted=0 := rfl
        omega
      · omega
    · exact h

lemma close (h : FloorInv s) (hstep : s.close i=some t) : FloorInv t := by
  obtain ⟨f,hf,hstep⟩ := bind_eq_some_iff.mp hstep
  split_ifs at hstep with hphase
  cases hstep
  refine h.setFile hf ((h.fits f (mem_of_getElem? hf)).phase .ready) nofun s.used nofun ?_ h.bounded
  simp [SparseFile.counted,hphase]

lemma unlink (h : FloorInv s) (hstep : s.unlink i=some t) : FloorInv t := by
  obtain ⟨f,hf,hstep⟩ := bind_eq_some_iff.mp hstep
  split at hstep
  · rename_i hphase
    cases hstep
    refine h.setFile hf ((h.fits f (mem_of_getElem? hf)).phase .unlinked) nofun s.used nofun ?_ h.bounded
    simp [SparseFile.counted,hphase]
  · rename_i hphase
    exact absurd hphase (h.kept f (mem_of_getElem? hf))
  · cases hstep

lemma releaseDrained (h : FloorInv s) (hok : settled s (.releaseDrained i)=true)
    (hstep : s.releaseDrained i=some t) : FloorInv t := by
  obtain ⟨f,hf,hstep⟩ := bind_eq_some_iff.mp hstep
  have hphase : f.phase=.unlinked := by simpa [settled,hf] using hok
  simp only [hphase] at hstep
  cases hstep
  have hbounded := h.bounded
  have hcounted : f.counted=f.writtenEnd := by simp [SparseFile.counted,hphase]
  have hgone : ({f with phase := .gone} : SparseFile).counted=0 := rfl
  refine h.setFile hf ((h.fits f (mem_of_getElem? hf)).phase .gone) nofun (s.used-f.writtenEnd) nofun ?_ (by omega)
  have hused := h.used
  have hsum := counted_set hf {f with phase := .gone}
  omega

lemma step {a : FloorAction} (h : FloorInv s) (hok : settled s a=true) (hstep : floorStep s a=some t) : FloorInv t := by
  cases a with
  | statfs inp ok =>
    simp only [floorStep] at hstep
    split at hstep
    · cases hstep
    · cases hstep
      exact {h with}
  | storeCeiling =>
    obtain ⟨x,hx,rfl⟩ := map_eq_some_iff.mp hstep
    refine h.refreshCeiling fun a ha => ?_
    obtain ⟨avail,inp⟩ := x
    obtain rfl : avail=some a := ha
    simpa [settled,hx] using hok
  | readLimit stale =>
    cases hstep
    exact {h with
      limits := forall_mem_append.mpr ⟨h.limits,forall_mem_singleton.mpr (h.effectiveCapacity hok)⟩}
  | openWrite =>
    cases hstep
    have hnew : SparseFile.counted {} = 0 := rfl
    refine {h with
      fits := forall_mem_append.mpr ⟨h.fits,forall_mem_singleton.mpr ⟨separated_nil,by simp⟩⟩
      kept := forall_mem_append.mpr ⟨h.kept,forall_mem_singleton.mpr nofun⟩
      writes := fun w hw => ?_, used := ?_}
    · obtain ⟨x,hx,hfit⟩ := h.writes w hw
      exact ⟨x,(getElem?_append_left (List.getElem?_eq_some_iff.mp hx).1).trans hx,hfit⟩
    · rw [map_append,sum_append,map_singleton,sum_singleton,hnew]
      exact h.used
  | writeAt i off count k => exact h.writeAt hstep
  | land j n => exact h.land hstep
  | truncate i size k ok => exact h.truncate hok hstep
  | close i => exact h.close hstep
  | unlink i => exact h.unlink hstep
  | releaseDrained i => exact h.releaseDrained hok hstep

end FloorInv

/-- A sample, and a first write of `n` bytes with the limit of that sample. -/
def firstWrite (ok : Bool) (n : ℕ) : List FloorAction :=
  [.statfs {} ok,.storeCeiling,.openWrite,.readLimit false,.writeAt 0 0 n 0,.land 0 n]

end JuiceMount.Nfs
