import JuiceMount.Lib.Transition
import JuiceMount.Nfs.WrittenPrefix

/-! The hash a save is marked ready with: the streaming hash of `WriteAt` while it is valid, a hash of the
spool file otherwise. -/
namespace JuiceMount.Nfs
open FileImage Transition

/-- A new entry and the bytes its hasher was given, in that order. -/
structure HashedState where
  state : WrittenState := {}
  fed : List UInt8 := []

namespace HashedState

/-- The hasher takes what a write put into the file, while the flag is still set after the write. -/
def feed (s : HashedState) : WrittenOp → List UInt8
  | .writeAt p off fail =>
    let e := s.state.entry
    if e.closed || p.size=0 || (off<e.punchedEnd && 0<e.punchedEnd) || off<0 then s.fed
    else if (s.state.writeAt p off fail).entry.hashValid then
      s.fed++(WriteCall.landed ⟨p,off.toNat,false⟩ fail).bytes
    else s.fed
  | .truncate _ _ => s.fed

def step (s : HashedState) (op : WrittenOp) : Option HashedState :=
  some ⟨s.state.step op,s.feed op⟩

variable {Hash : Type*} (sha : List UInt8 → Hash)

/-- What `finalizeLocked` gives to `MarkReady`; `hashSpoolFile` may fail to read the file. -/
def recorded (s : HashedState) (reread : Bool) : Option Hash :=
  if s.state.entry.hashValid then some (sha s.fed)
  else if reread then some (sha s.state.entry.file.bytes)
  else none

/-- The check of `drainOne` on the bytes it copied from the spool file. -/
def mismatch [DecidableEq Hash] (row : Option Hash) (copied : List UInt8) : Bool :=
  row.any (fun h => h ≠ sha copied)

/-- The write starts inside the file or at its end, nothing of it lands, or the streaming hash is given up
already. -/
def gapless (s : HashedState) : WrittenOp → Bool
  | .writeAt p off fail =>
    !s.state.entry.hashValid || off ≤ s.state.entry.writtenEnd ||
      (WriteCall.landed ⟨p,off.toNat,false⟩ fail).size=0
  | .truncate _ _ => true

/-- The entry is open, its file ends at `writtenEnd`, and a valid hasher was given the file. -/
structure Fed (s : HashedState) : Prop where
  whole : s.state.entry.punchedEnd=0
  size : s.state.entry.file.size=s.state.entry.writtenEnd
  fed : s.state.entry.hashValid → s.fed=s.state.entry.file.bytes

namespace Fed
variable {s : HashedState}

lemma writeAt (h : Fed s) {p : Image} {off : ℤ} {fail : Option ℕ} (hok : s.gapless (.writeAt p off fail)) :
    Fed ⟨s.state.writeAt p off fail,s.feed (.writeAt p off fail)⟩ := by
  have hpunched : ¬ (0 : ℤ)<s.state.entry.punchedEnd := by
    rw [h.whole]
    omega
  simp only [feed,WrittenState.writeAt,gapless] at hok ⊢
  set landed := WriteCall.landed ⟨p,off.toNat,false⟩ fail
  by_cases hskip : s.state.entry.closed || p.size=0
  · simp only [hskip,Bool.true_or,if_true]
    exact h
  by_cases hneg : off<0
  · simp only [hskip,h.whole,hneg]
    simpa using h
  by_cases hnone : landed.size=0
  · -- nothing reached the file, so nothing is given to the hasher
    have hbytes : landed.bytes=[] := by simp [Image.bytes,hnone]
    simpa [hskip,h.whole,hneg,hnone,hbytes] using h
  suffices hw : Fed ⟨⟨s.state.entry.wrote landed off.toNat,fun i => s.state.written i || (off ≤ i && i<off+landed.size)⟩,
      if (s.state.entry.wrote landed off.toNat).hashValid then s.fed++landed.bytes else s.fed⟩ by
    simpa [hskip,h.whole,hneg,hnone] using hw
  refine ⟨h.whole,?_,fun hvalid => ?_⟩
  · simp only [SpoolEntry.wrote,Image.writeAt_size,h.size]
  · -- a valid hash after the write means it started at the end of the file
    rw [if_pos hvalid]
    simp only [SpoolEntry.wrote,Bool.and_eq_true,Bool.not_eq_true',decide_eq_false_iff_not] at hvalid ⊢
    simp only [hvalid.1,hnone,Bool.not_true,Bool.false_or,Bool.or_false,decide_eq_true_eq,decide_false] at hok
    have hend : off.toNat=s.state.entry.file.size := by
      rw [h.size]
      omega
    rw [hend,Image.bytes_writeAt_end,h.fed hvalid.1]

lemma truncate (h : Fed s) (size : ℤ) (ok : Bool) : Fed ⟨s.state.truncate size ok,s.fed⟩ := by
  unfold WrittenState.truncate SpoolEntry.truncate
  split
  · exact h
  split
  · exact ⟨h.whole,h.size,h.fed⟩
  · exact ⟨h.whole,rfl,nofun⟩

lemma step (h : Fed s) {op : WrittenOp} (hok : s.gapless op) {t : HashedState} (hstep : s.step op=some t) : Fed t := by
  cases hstep
  cases op with
  | writeAt p off fail => exact h.writeAt hok
  | truncate size ok => exact h.truncate size ok

end Fed

/-- After writes that leave no gap, and truncates, the recorded hash is the hash of the file up to
`writtenEnd`, and an intact file passes the drain's check. -/
theorem recorded_hash_is_file_hash [DecidableEq Hash] {ops : List WrittenOp} {s : HashedState}
    (hrun : run HashedState.step {} ops = some s)
    (hok : AllSteps HashedState.step (fun s op => s.gapless op = true) {} ops) (reread : Bool) :
    (∀ h, s.recorded sha reread = some h → h = sha ((List.range s.state.entry.writtenEnd).map s.state.entry.file.byte)) ∧
    mismatch sha (s.recorded sha reread) s.state.entry.file.bytes = false := by
  have hfed : Fed s := by
    refine run_invariant_of_allSteps (I := Fed) (fun _ _ _ h hg hs => h.step hg hs) ?_ hok hrun
    exact ⟨rfl,rfl,fun _ => rfl⟩
  have hrec : ∀ h, s.recorded sha reread=some h → h = sha s.state.entry.file.bytes := by
    intro h hh
    unfold recorded at hh
    split at hh
    · rw [← hfed.fed ‹_›]
      exact (Option.some.inj hh).symm
    · split_ifs at hh
      exact (Option.some.inj hh).symm
  refine ⟨fun h hh => ?_,?_⟩
  · rw [hrec h hh,Image.bytes,hfed.size]
  · cases hval : s.recorded sha reread with
    | none => rfl
    | some h => simp [mismatch,hrec h hval]

/-- Two bytes, a rewrite of the first, then a resize. -/
theorem recorded_hash_sample :
    let ops : List WrittenOp := [.writeAt (.fill 2 7) 0 none,.writeAt (.fill 1 9) 0 none,.truncate 1 true]
    ∃ s, run HashedState.step {} ops = some s ∧ mismatch id (s.recorded id true) s.state.entry.file.bytes = false := by
  intro ops
  have hok : AllSteps HashedState.step (fun s op => s.gapless op=true) {} ops :=
    allSteps_of_check (by decide +kernel)
  exact ⟨_,rfl,(recorded_hash_is_file_hash id (by rfl) hok true).2⟩

/-- One byte at 0 and one at 3: the hasher gets two bytes, the file has four. -/
theorem gap_never_hashed :
    (run HashedState.step {} [.writeAt (.fill 1 7) 0 none,.writeAt (.fill 1 9) 3 none]).any (fun s =>
      s.state.entry.hashValid && s.fed = [7,9] && s.state.entry.writtenEnd = 4 &&
        s.state.entry.file.bytes = [7,0,0,9] &&
        mismatch id (s.recorded id true) s.state.entry.file.bytes) = true := by
  decide +kernel

end HashedState
end JuiceMount.Nfs
