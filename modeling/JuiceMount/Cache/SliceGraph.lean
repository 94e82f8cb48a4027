import JuiceMount.RespProxy.Keys

/-! The visible slice graph of a chunk: the records of its list, each laid over those before it. What
covers an offset in the result is the last record that covers it. -/
namespace JuiceMount.Cache
open RespProxy List

def chunkSize : ℕ := 64*2^20

structure Extent where
  pos : ℕ
  sliceID : ℕ
  size : ℕ
  off : ℕ
  len : ℕ
  deriving DecidableEq

namespace Extent

def stop (e : Extent) : ℕ := e.pos+e.len

/-- The part of `old` before `next`. -/
def left (next old : Extent) : Extent := { old with len := next.pos-old.pos }

/-- The part of `old` after `next`; its offset is a sum of 32-bit numbers. -/
def right (next old : Extent) : Extent :=
  { old with pos := next.stop, off := (old.off+(next.stop-old.pos)) % 2^32, len := old.stop-next.stop }

/-- What `next` leaves of `old`. -/
def cut (next old : Extent) : List Extent :=
  if old.stop≤next.pos ∨ next.stop≤old.pos then [old]
  else
    (if old.pos<next.pos then [left next old] else [])++(if next.stop<old.stop then [right next old] else [])

def Covers (e : Extent) (x : ℕ) : Prop := e.pos≤x ∧ x<e.stop

instance (e : Extent) (x : ℕ) : Decidable (e.Covers x) := inferInstanceAs (Decidable (_ ∧ _))

end Extent

/-- sort.Slice by position; the positions are distinct. -/
def overlay (visible : List Extent) (next : Extent) : List Extent :=
  (visible.flatMap next.cut++[next]).insertionSort (fun a b => a.pos≤b.pos)

def resolveStep (visible : List Extent) (next : Extent) : Option (List Extent) :=
  if next.len=0 then some visible
  else if chunkSize<next.stop then none
  else if next.sliceID≠0 ∧ next.size < next.off+next.len then none
  else some (overlay visible next)

def resolve (raw : List Extent) : Option (List Extent) := raw.foldlM resolveStep []

/-- A record of the list of a chunk has 24 bytes. -/
def decodeRecord (data : Bytes) : Option Extent :=
  if data.length≠24 then none
  else
    some {
      pos := bigEndian (data.take 4)
      sliceID := bigEndian ((data.drop 4).take 8)
      size := bigEndian ((data.drop 12).take 4)
      off := bigEndian ((data.drop 16).take 4)
      len := bigEndian ((data.drop 20).take 4) }

def decodeRecords (items : List Bytes) : Option (List Extent) := items.mapM decodeRecord

def decodeSliceRecords (items : List Bytes) : Option (List Extent) := (decodeRecords items).bind resolve

def LastCovering (raw : List Extent) (x : ℕ) (r : Extent) : Prop :=
  ∃ before after,raw = before++r::after ∧ r.Covers x ∧ ∀ s∈after,¬s.Covers x

/-- Where the byte at an offset is: in no slice, or in a slice of this size at this place. -/
inductive Source where
  | hole
  | slice (id size off : ℕ)
  deriving DecidableEq

def Extent.source (e : Extent) (x : ℕ) : Source :=
  if e.sliceID=0 then .hole else .slice e.sliceID e.size (e.off+(x-e.pos))

def Extent.Inside (e : Extent) : Prop := e.sliceID≠0 → e.off+e.len≤e.size ∧ e.size < 2^32

section Resolve
variable {e next old : Extent} {raw visible : List Extent} {x : ℕ}

lemma Extent.Inside.left (h : old.Inside) (hcut : next.pos<old.stop) : (Extent.left next old).Inside := by
  intro hid
  obtain ⟨hsize,hlt⟩ := h hid
  simp only [Extent.left,Extent.stop] at hcut ⊢
  omega

lemma Extent.right_off (h : old.Inside) (hcut : next.stop<old.stop) (hid : old.sliceID≠0) :
    (Extent.right next old).off=old.off+(next.stop-old.pos) := by
  obtain ⟨hsize,hlt⟩ := h hid
  simp only [Extent.right]
  simp only [Extent.stop] at hcut ⊢
  exact Nat.mod_eq_of_lt (by omega)

lemma Extent.Inside.right (h : old.Inside) (hcut : next.stop<old.stop) (hpos : old.pos<next.stop) :
    (Extent.right next old).Inside := by
  intro hid
  obtain ⟨hsize,hlt⟩ := h hid
  rw [Extent.right_off h hcut hid]
  simp only [Extent.right]
  simp only [Extent.stop] at hcut hpos ⊢
  omega

lemma Extent.mem_cut (he : e∈Extent.cut next old) : (e=old ∧ (old.stop≤next.pos ∨ next.stop≤old.pos)) ∨
    (e=Extent.left next old ∧ old.pos<next.pos ∧ next.pos<old.stop) ∨
    (e=Extent.right next old ∧ next.stop<old.stop ∧ old.pos<next.stop) := by
  unfold Extent.cut at he
  split at he
  · rename_i hapart
    exact .inl ⟨mem_singleton.mp he,hapart⟩
  rename_i hapart
  obtain he | he := mem_append.mp he
  · split at he
    · exact .inr (.inl ⟨mem_singleton.mp he,‹_›,by omega⟩)
    · cases he
  · split at he
    · exact .inr (.inr ⟨mem_singleton.mp he,‹_›,by omega⟩)
    · cases he

lemma Extent.cut_shows (h : old.Inside) (he : e∈Extent.cut next old) :
    e.Inside ∧ ∀ x,e.Covers x → old.Covers x ∧ ¬next.Covers x ∧ e.source x=old.source x := by
  obtain ⟨rfl,hapart⟩ | ⟨rfl,hleft,hcut⟩ | ⟨rfl,hright,hpos⟩ := Extent.mem_cut he
  · refine ⟨h,fun x hx => ⟨hx,?_,rfl⟩⟩
    unfold Extent.Covers at *
    omega
  · refine ⟨h.left hcut,fun x hx => ?_⟩
    simp only [Extent.Covers,Extent.left,Extent.stop] at hx hcut ⊢
    exact ⟨by omega,by omega,rfl⟩
  · refine ⟨h.right hright hpos,fun x hx => ?_⟩
    have hx' : next.stop≤x ∧ x<old.stop := by
      simp only [Extent.Covers,Extent.right,Extent.stop] at hx hright ⊢
      omega
    refine ⟨⟨by omega,hx'.2⟩,fun hn => absurd hn.2 (by omega),?_⟩
    unfold Extent.source
    by_cases hid : old.sliceID=0
    · simp only [Extent.right,hid,if_true]
    · have hoff := Extent.right_off h hright hid
      simp only [Extent.right] at hoff
      simp only [Extent.right,if_neg hid,hoff]
      congr 1
      omega

lemma lastCovering_append {r q : Extent} :
    LastCovering (raw++[r]) x q ↔ (r.Covers x ∧ q=r) ∨ (¬r.Covers x ∧ LastCovering raw x q) := by
  constructor
  · rintro ⟨before,after,hsplit,hq,hafter⟩
    obtain rfl | ⟨after',z,rfl⟩ := eq_nil_or_concat' after
    · obtain ⟨rfl,hr⟩ := append_inj' hsplit rfl
      obtain rfl : r=q := by simpa using hr
      exact .inl ⟨hq,rfl⟩
    · have hsplit' : raw++[r]=(before++q::after')++[z] := by simpa using hsplit
      obtain ⟨rfl,hr⟩ := append_inj' hsplit' rfl
      obtain rfl : r=z := by simpa using hr
      exact .inr ⟨hafter r (by simp),before,after',rfl,hq,fun s hs => hafter s (by simp [hs])⟩
  · rintro (⟨hr,rfl⟩ | ⟨hr,before,after,rfl,hq,hafter⟩)
    · exact ⟨raw,[],rfl,hr,nofun⟩
    · refine ⟨before,after++[r],by simp,hq,fun s hs => ?_⟩
      obtain hs | hs := mem_append.mp hs
      · exact hafter s hs
      · exact mem_singleton.mp hs ▸ hr

/-- Every extent of the result shows, where it covers an offset, the last record that covers it. -/
theorem resolve_shows (hraw : ∀ r∈raw,r.size<2^32) (h : resolve raw=some visible) :
    ∀ e∈visible,e.Inside ∧ ∀ x,e.Covers x → ∃ r,LastCovering raw x r ∧ e.source x=r.source x := by
  induction raw using List.reverseRecOn generalizing visible with
  | nil =>
    cases h
    exact nofun
  | append_singleton raw next ih =>
    rw [resolve,foldlM_append] at h
    obtain ⟨earlier,hearlier,h⟩ := Option.bind_eq_some_iff.mp h
    have hold := ih (fun r hr => hraw r (mem_append_left _ hr)) hearlier
    simp only [foldlM_cons,foldlM_nil,bind_pure,resolveStep] at h
    intro e he
    split_ifs at h with hlen hend hinside
    · cases h
      obtain ⟨hin,hshow⟩ := hold e he
      refine ⟨hin,fun x hx => ?_⟩
      obtain ⟨r,hr,hsource⟩ := hshow x hx
      refine ⟨r,lastCovering_append.mpr (.inr ⟨fun hn => ?_,hr⟩),hsource⟩
      simp only [Extent.Covers,Extent.stop] at hn
      omega
    · cases h
      unfold overlay at he
      rw [mem_insertionSort] at he
      obtain he | he := mem_append.mp he
      · obtain ⟨old,hmem,hcut⟩ := mem_flatMap.mp he
        obtain ⟨hin,hshow⟩ := hold old hmem
        obtain ⟨hin',hpiece⟩ := Extent.cut_shows hin hcut
        refine ⟨hin',fun x hx => ?_⟩
        obtain ⟨hcovers,hnext,hsource⟩ := hpiece x hx
        obtain ⟨r,hr,hsource'⟩ := hshow x hcovers
        exact ⟨r,lastCovering_append.mpr (.inr ⟨hnext,hr⟩),hsource.trans hsource'⟩
      · obtain rfl := mem_singleton.mp he
        refine ⟨fun hid => ⟨by omega,hraw e (by simp)⟩,fun x hx => ⟨e,lastCovering_append.mpr (.inl ⟨hx,rfl⟩),rfl⟩⟩

lemma bigEndian_lt (b : Bytes) : bigEndian b<256^b.length := by
  unfold bigEndian
  suffices H : ∀ n,b.foldl (fun n c => n*256+c.toNat) n<(n+1)*256^b.length by simpa using H 0
  induction b with
  | nil => simp
  | cons c b ih =>
    intro n
    have hc : c.toNat<256 := c.toNat_lt
    refine (ih (n*256+c.toNat)).trans_le ?_
    rw [length_cons,pow_succ,mul_comm (256^b.length),← mul_assoc]
    exact Nat.mul_le_mul_right _ (by omega)

lemma decodeRecord_size {data : Bytes} (h : decodeRecord data=some e) : e.size<2^32 := by
  unfold decodeRecord at h
  split_ifs at h
  cases h
  refine (bigEndian_lt _).trans_le ?_
  exact (Nat.pow_le_pow_right (by decide) (length_take_le _ _)).trans (by decide)

lemma decodeRecords_size {items : List Bytes} (h : decodeRecords items=some raw) : ∀ r∈raw,r.size<2^32 := by
  unfold decodeRecords at h
  induction items generalizing raw with
  | nil =>
    cases h
    exact nofun
  | cons item items ih =>
    rw [mapM_cons] at h
    obtain ⟨e,he,h⟩ := Option.bind_eq_some_iff.mp h
    obtain ⟨rest,hrest,h⟩ := Option.bind_eq_some_iff.mp h
    cases h
    intro r hr
    obtain rfl | hr := mem_cons.mp hr
    · exact decodeRecord_size he
    · exact ih hrest r hr

end Resolve

end JuiceMount.Cache
