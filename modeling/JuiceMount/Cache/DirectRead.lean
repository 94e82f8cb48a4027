import JuiceMount.Cache.SliceGraph
import JuiceMount.Lib.Int64

/-! Direct reads from the block files of the SSD cache. A read finds the slice that shows each offset, reads
the touched segments of its block with their checksums, and gives the caller all of the range or nothing. -/
namespace JuiceMount.Cache
open RespProxy List Option

/-- The loop of sort.Search between `i` and `j`; every pass makes the interval smaller. -/
def searchLoop (f : ℕ → Bool) : ℕ → ℕ → ℕ → ℕ
  | 0,i,_ => i
  | fuel+1,i,j =>
    if i<j then
      let h := (i+j)/2
      if f h then searchLoop f fuel i h else searchLoop f fuel (h+1) j
    else i

def search (n : ℕ) (f : ℕ → Bool) : ℕ := searchLoop f n 0 n

def sliceAt (slices : List Extent) (offset : ℤ) : Option Extent :=
  match slices[search slices.length fun i => slices[i]?.any fun e => offset < e.pos+e.len]? with
  | none => none
  | some e => if offset<e.pos then none else some e

def crcBit (c : UInt32) : UInt32 := if c &&& 1=1 then (c >>> 1) ^^^ 0x82F63B78 else c >>> 1

def crcByte (c : UInt32) (b : UInt8) : UInt32 := crcBit^[8] (c ^^^ b.toUInt32)

/-- crc32.Checksum with the Castagnoli table. -/
def crc32c (data : Bytes) : UInt32 := data.foldl crcByte 0xFFFFFFFF ^^^ 0xFFFFFFFF

def checksumBlock : ℕ := 32*2^10

/-- A reader of one inode: the list of every chunk, where the lookup gives one, and the files of the cache
directory in its two layouts that can be opened. No chunk has a negative index. -/
structure Reader where
  configured : Bool
  blockSize : ℕ
  blockSize_pos : 0<blockSize
  items : ℤ → Option (List Bytes)
  items_neg : ∀ i<0,∀ l,items i=some l → l=[]
  files : Bool → ℕ → ℕ → ℕ → Option Bytes

def checksumLen (blockLen : ℕ) : ℕ := ((blockLen-1)/checksumBlock+1)*4

/-- ReadAt fills the buffer or fails. -/
def readAt (file : Bytes) (off n : ℕ) : Option Bytes := if off+n≤file.length then some ((file.drop off).take n) else none

def segment (data : Bytes) (k : ℕ) : Bytes := (data.drop (k*checksumBlock)).take checksumBlock

def checksumAt (checksums : Bytes) (k : ℕ) : ℕ := bigEndian ((checksums.drop (k*4)).take 4)

def alignedEnd (blockLen stop : ℕ) : ℕ :=
  min (if stop % checksumBlock≠0 then (stop/checksumBlock+1)*checksumBlock else stop) blockLen

def readVerifiedBlockFD (file : Bytes) (blockLen offset n : ℕ) : Option Bytes :=
  if file.length ≠ blockLen+checksumLen blockLen then none
  else
    let first := offset/checksumBlock
    (readAt file (first*checksumBlock) (alignedEnd blockLen (offset+n)-first*checksumBlock)).bind fun data =>
      let count := (data.length-1)/checksumBlock+1
      (readAt file (blockLen+first*4) (count*4)).bind fun checksums =>
        if (List.range count).all (fun k => (crc32c (segment data k)).toNat = checksumAt checksums k) then
          some ((data.drop (offset-first*checksumBlock)).take n)
        else none

namespace Reader

def getSlices (r : Reader) (chunkIndex : ℤ) : Option (List Extent) := (r.items chunkIndex).bind decodeSliceRecords

def blockLength (r : Reader) (s : Extent) (blockIndex : ℕ) : Option ℕ :=
  if s.size=0 then none
  else if s.size ≤ blockIndex*r.blockSize then none
  else some (min r.blockSize (s.size-blockIndex*r.blockSize))

def openBlock (r : Reader) (sliceID blockIndex blockLen : ℕ) : Option Bytes :=
  (r.files false sliceID blockIndex blockLen).orElse fun _ => r.files true sliceID blockIndex blockLen

def readVerifiedBlock (r : Reader) (sliceID blockIndex blockLen offset n : ℕ) : Option Bytes :=
  if blockLen=0 || blockLen < offset+n then none
  else (r.openBlock sliceID blockIndex blockLen).bind fun file => readVerifiedBlockFD file blockLen offset n

/-- The part of one block that the slice at an offset of the chunk has for the read. -/
def readSlice (r : Reader) (s : Extent) (offsetInChunk rest : ℕ) : Option Bytes :=
  if s.sliceID=0 then none
  else
    let offsetInSlice := s.off+(offsetInChunk-s.pos)
    let blockIndex := offsetInSlice/r.blockSize
    let offsetInBlock := offsetInSlice % r.blockSize
    (r.blockLength s blockIndex).bind fun blockLen =>
      if blockLen≤offsetInBlock then none
      else
        let want := min (min (min rest (s.stop-offsetInChunk)) (blockLen-offsetInBlock)) (chunkSize-offsetInChunk)
        if want=0 then none else r.readVerifiedBlock s.sliceID blockIndex blockLen offsetInBlock want

/-- One pass of the loop: what it reads at `fileOffset+read`. -/
def readPiece (r : Reader) (fileOffset : ℤ) (read rest : ℕ) : Option Bytes :=
  let absolute := int64 (fileOffset+read)
  (r.getSlices (absolute.tdiv chunkSize)).bind fun slices =>
    (sliceAt slices (absolute.tmod chunkSize)).bind fun s => r.readSlice s (absolute.tmod chunkSize).toNat rest

/-- Every pass reads something, so that as many passes as there are bytes are enough. -/
def readLoop (r : Reader) (fileOffset : ℤ) (total : ℕ) : ℕ → Bytes → Option Bytes
  | 0,verified => if total≤verified.length then some verified else none
  | fuel+1,verified =>
    if total≤verified.length then some verified
    else
      (r.readPiece fileOffset verified.length (total-verified.length)).bind fun piece =>
        r.readLoop fileOffset total fuel (verified++piece)

/-- The buffer of the caller afterwards, and the number of bytes if the read did not fail. `unchanged` says
that the generation of the inode is the one the read began with. -/
def readBlock (r : Reader) (fileOffset : Int64) (buf : Bytes) (unchanged : Bool) : Bytes × Option ℕ :=
  if !r.configured || fileOffset<0 || buf=[] then (buf,none)
  else
    match r.readLoop fileOffset.toInt buf.length buf.length [] with
    | none => (buf,none)
    | some verified => if unchanged then (verified,some buf.length) else (buf,none)

end Reader

section Verified
variable {file data : Bytes} {blockLen offset n i : ℕ}

/-- The checksum of one segment of a block file of the right size is the one in its trailer. -/
def SegmentVerified (file : Bytes) (blockLen k : ℕ) : Prop :=
  file.length = blockLen+checksumLen blockLen ∧
  (crc32c (segment (file.take blockLen) k)).toNat = checksumAt (file.drop blockLen) k

lemma checksumBlock_eq : checksumBlock=32768 := rfl

lemma alignedEnd_spec (hrange : offset+n≤blockLen) :
    offset+n≤alignedEnd blockLen (offset+n) ∧ alignedEnd blockLen (offset+n)≤blockLen ∧
    (alignedEnd blockLen (offset+n)=blockLen ∨ alignedEnd blockLen (offset+n) % checksumBlock=0) := by
  unfold alignedEnd
  rw [checksumBlock_eq]
  split_ifs <;> omega

lemma segment_of_touched {first stop k : ℕ} (hstop : stop≤blockLen) (haligned : stop=blockLen ∨ stop % checksumBlock=0)
    (hk : (first+k)*checksumBlock<stop) : segment ((file.drop (first*checksumBlock)).take (stop-first*checksumBlock)) k =
      segment (file.take blockLen) (first+k) := by
  unfold segment
  rw [drop_take,drop_take,drop_drop,take_take,take_take,← Nat.add_mul]
  congr 1
  rw [checksumBlock_eq] at *
  omega

lemma checksumAt_of_touched {first count k : ℕ} (hk : k<count) :
    checksumAt ((file.drop (blockLen+first*4)).take (count*4)) k=checksumAt (file.drop blockLen) (first+k) := by
  unfold checksumAt
  rw [drop_take,take_take,drop_drop,drop_drop]
  congr 2
  · omega
  · congr 1
    omega

lemma readVerifiedBlockFD_eq_some {bytes : Bytes} (hn : 0<n) (hrange : offset+n≤blockLen)
    (h : readVerifiedBlockFD file blockLen offset n=some bytes) :
    bytes.length=n ∧ ∀ i<n,bytes[i]? = file[offset+i]? ∧ SegmentVerified file blockLen ((offset+i)/checksumBlock) := by
  unfold readVerifiedBlockFD at h
  split_ifs at h with hsize
  rw [ne_eq,not_not] at hsize
  obtain ⟨hlast,hstop,haligned⟩ := alignedEnd_spec hrange
  generalize alignedEnd blockLen (offset+n)=stop at h hlast hstop haligned
  have hfirst : offset/checksumBlock*checksumBlock≤offset := Nat.div_mul_le_self _ _
  generalize hdef : offset/checksumBlock=first at h hfirst
  obtain ⟨data,hdata,h⟩ := bind_eq_some_iff.mp h
  obtain ⟨checksums,hchecksums,h⟩ := bind_eq_some_iff.mp h
  unfold readAt at hdata hchecksums
  split_ifs at hdata hchecksums with hin htrailer
  simp only [Option.some.injEq] at hdata hchecksums
  split_ifs at h with hall
  cases h
  have hlen : data.length=stop-first*checksumBlock := by
    rw [← hdata,length_take,length_drop]
    omega
  refine ⟨?_,fun i hi => ⟨?_,hsize,?_⟩⟩
  · rw [length_take,length_drop,hlen]
    omega
  · rw [getElem?_take_of_lt hi,getElem?_drop,← hdata,getElem?_take_of_lt (by omega),getElem?_drop]
    congr 1
    omega
  · obtain ⟨k,hk⟩ : ∃ k,(offset+i)/checksumBlock=first+k := by
      refine ⟨(offset+i)/checksumBlock-first,?_⟩
      rw [← hdef,checksumBlock_eq]
      omega
    have hbelow : (first+k)*checksumBlock<stop := by
      rw [← hk]
      exact (Nat.div_mul_le_self _ _).trans_lt (by omega)
    have hcount : k<(data.length-1)/checksumBlock+1 := by
      rw [hlen]
      rw [checksumBlock_eq] at *
      omega
    have hmatch := List.all_eq_true.mp hall k (mem_range.mpr hcount)
    rw [decide_eq_true_eq,← hchecksums,checksumAt_of_touched hcount,← hdata,segment_of_touched hstop haligned hbelow] at hmatch
    rw [hk]
    exact hmatch

end Verified

section Lookup
variable {f : ℕ → Bool} {slices raw : List Extent} {e e' : Extent} {x : ℕ}

lemma searchLoop_spec (fuel : ℕ) {i j : ℕ} (hij : i≤j) (hfuel : j ≤ i+fuel) :
    searchLoop f fuel i j=j ∨ f (searchLoop f fuel i j)=true := by
  induction fuel generalizing i j with
  | zero => exact .inl (le_antisymm hij hfuel)
  | succ fuel ih =>
    simp only [searchLoop]
    split_ifs with hlt hf
    · obtain h | h := ih (i := i) (j := (i+j)/2) (by omega) (by omega)
      · exact .inr (h.symm ▸ hf)
      · exact .inr h
    · exact ih (by omega) (by omega)
    · exact .inl (by omega)

lemma sliceAt_eq_some {offset : ℤ} (h : sliceAt slices offset=some e) :
    e∈slices ∧ (e.pos : ℤ)≤offset ∧ offset<e.pos+e.len := by
  unfold sliceAt at h
  split at h
  · cases h
  rename_i d hd
  split_ifs at h with hpos
  cases h
  refine ⟨mem_of_getElem? hd,by omega,?_⟩
  obtain hend | hfound := searchLoop_spec slices.length (Nat.zero_le slices.length) (by omega)
      (f := fun i => slices[i]?.any fun e => offset<e.pos+e.len)
  · rw [search,hend,getElem?_eq_none le_rfl] at hd
    cases hd
  · rw [search] at hd
    rw [hd,any_some,decide_eq_true_eq] at hfound
    exact hfound

lemma lastCovering_unique (h : LastCovering raw x e) (h' : LastCovering raw x e') : e=e' := by
  induction raw using List.reverseRecOn with
  | nil =>
    obtain ⟨before,after,hsplit,-⟩ := h
    simp at hsplit
  | append_singleton raw r ih =>
    obtain ⟨hr,rfl⟩ | ⟨hr,h⟩ := lastCovering_append.mp h
    · obtain ⟨-,rfl⟩ | ⟨hn,-⟩ := lastCovering_append.mp h'
      · rfl
      · exact absurd hr hn
    · obtain ⟨hn,-⟩ | ⟨-,h'⟩ := lastCovering_append.mp h'
      · exact absurd hn hr
      · exact ih h h'

end Lookup

namespace Reader
variable {r : Reader} {s e : Extent} {o : ℕ} {bytes : Bytes}

/-- The length of the block of a slice with this size that holds the offset. -/
def blockLenAt (r : Reader) (size o : ℕ) : ℕ := min r.blockSize (size-o/r.blockSize*r.blockSize)

/-- The block with the offset of the slice can be opened, has the right size, and the segment with the offset
matches its checksum. -/
def Verified (r : Reader) (id size o : ℕ) (file : Bytes) : Prop :=
  r.openBlock id (o/r.blockSize) (r.blockLenAt size o)=some file ∧ o % r.blockSize < r.blockLenAt size o ∧
  SegmentVerified file (r.blockLenAt size o) (o % r.blockSize/checksumBlock)

lemma div_mod_add {b o i : ℕ} (hb : 0<b) (h : o % b+i<b) : (o+i)/b=o/b ∧ (o+i) % b=o % b+i := by
  have hsplit : o+i=o % b+i+b*(o/b) := by
    have := Nat.mod_add_div o b
    omega
  rw [hsplit]
  refine ⟨?_,?_⟩
  · rw [Nat.add_mul_div_left _ _ hb,Nat.div_eq_of_lt h,Nat.zero_add]
  · rw [Nat.add_mul_mod_self_left,Nat.mod_eq_of_lt h]

lemma readSlice_eq_some {x rest : ℕ} (h : r.readSlice s x rest=some bytes) :
    s.sliceID≠0 ∧ 0<bytes.length ∧ bytes.length≤rest ∧ x+bytes.length ≤ s.stop ∧ x+bytes.length≤chunkSize ∧
    ∀ i<bytes.length,∃ file,r.Verified s.sliceID s.size (s.off+(x-s.pos)+i) file ∧
      bytes[i]? = file[(s.off+(x-s.pos)+i) % r.blockSize]? := by
  unfold readSlice at h
  split_ifs at h with hid
  generalize s.off+(x-s.pos)=o at h ⊢
  obtain ⟨blockLen,hlen,h⟩ := bind_eq_some_iff.mp h
  have hblock : blockLen=min r.blockSize (s.size-o/r.blockSize*r.blockSize) := by
    unfold blockLength at hlen
    split_ifs at hlen
    exact (Option.some.inj hlen).symm
  split_ifs at h with hin
  generalize hw : min (min (min rest (s.stop-x)) (blockLen-o % r.blockSize)) (chunkSize-x)=want at h
  dsimp only at h
  split_ifs at h with hwant
  unfold readVerifiedBlock at h
  split_ifs at h with hrange
  simp only [Bool.or_eq_true,decide_eq_true_eq,not_or,not_lt] at hrange
  obtain ⟨file,hopen,h⟩ := bind_eq_some_iff.mp h
  obtain ⟨hlength,hbytes⟩ := readVerifiedBlockFD_eq_some (Nat.pos_of_ne_zero hwant) hrange.2 h
  rw [hlength]
  refine ⟨hid,Nat.pos_of_ne_zero hwant,by omega,by omega,by omega,fun i hi => ⟨file,?_,?_⟩⟩
  · -- the range stays in its block
    obtain ⟨hdiv,hmod⟩ := div_mod_add r.blockSize_pos (o := o) (i := i) (by omega)
    refine ⟨?_,?_,?_⟩
    all_goals
      simp only [blockLenAt,hdiv,hmod,← hblock]
    · exact hopen
    · omega
    · exact (hbytes i hi).2
  · rw [(div_mod_add r.blockSize_pos (o := o) (i := i) (by omega)).2]
    exact (hbytes i hi).1

def Shows (r : Reader) (o : ℕ) (e : Extent) : Prop :=
  ∃ items raw,r.items ((o/chunkSize : ℕ) : ℤ)=some items ∧ decodeRecords items=some raw ∧
    LastCovering raw (o % chunkSize) e

def sliceOffset (e : Extent) (o : ℕ) : ℕ := e.off+(o % chunkSize-e.pos)

lemma source_eq_iff {x : ℕ} (hid : s.sliceID≠0) :
    s.source x=e.source x ↔ s.sliceID=e.sliceID ∧ s.size=e.size ∧ s.off+(x-s.pos)=e.off+(x-e.pos) := by
  unfold Extent.source
  rw [if_neg hid]
  split_ifs with heid
  · simp [heid,hid]
  · rw [Source.slice.injEq]

lemma int64_neg_of_max : int64 (2^63) = -2^63 := by decide

lemma readPiece_eq_some {fileOffset : ℤ} {read rest : ℕ} (h0 : 0≤fileOffset) (hmax : fileOffset+read≤2^63)
    (h : r.readPiece fileOffset read rest=some bytes) :
    0<bytes.length ∧ bytes.length≤rest ∧ fileOffset+(read+bytes.length : ℕ)≤2^63 ∧
    ∀ i<bytes.length,∃ e file,r.Shows (fileOffset.toNat+(read+i)) e ∧ e.sliceID≠0 ∧
      r.Verified e.sliceID e.size (sliceOffset e (fileOffset.toNat+(read+i))) file ∧
      bytes[i]? = file[sliceOffset e (fileOffset.toNat+(read+i)) % r.blockSize]? := by
  unfold readPiece at h
  extract_lets absolute at h
  obtain ⟨slices,hslices,h⟩ := bind_eq_some_iff.mp h
  obtain ⟨s,hs,h⟩ := bind_eq_some_iff.mp h
  obtain ⟨items,hitems,hslices⟩ := bind_eq_some_iff.mp hslices
  obtain ⟨raw,hraw,hresolve⟩ := bind_eq_some_iff.mp hslices
  obtain ⟨hmem,hpos,hstop⟩ := sliceAt_eq_some hs
  have hlt : fileOffset+read<2^63 := by
    refine lt_of_le_of_ne hmax fun heq => ?_
    have habsolute : absolute = -2^63 := by rw [← int64_neg_of_max,← heq]
    rw [habsolute] at hitems
    obtain rfl := r.items_neg _ (by decide) items hitems
    cases hraw
    cases hresolve
    cases hmem
  have habsolute : absolute=((fileOffset.toNat+read : ℕ) : ℤ) := by
    rw [show absolute=int64 (fileOffset+read) from rfl,int64_of_range (by omega) hlt]
    omega
  clear_value absolute
  subst habsolute
  generalize hodef : fileOffset.toNat+read=o at *
  rw [Int.tdiv_eq_ediv_of_nonneg (by omega),← Int.natCast_ediv] at hitems
  rw [Int.tmod_eq_emod_of_nonneg (by omega),← Int.natCast_emod] at hpos hstop h
  rw [Int.toNat_natCast] at h
  generalize hx : o % chunkSize=x at *
  obtain ⟨hid,hnonempty,hrest,hin,hchunk,hbytes⟩ := readSlice_eq_some h
  refine ⟨hnonempty,hrest,?_,fun i hi => ?_⟩
  · have hsize : chunkSize=67108864 := rfl
    rw [hsize] at hx hchunk
    omega
  · obtain ⟨hdiv,hmod⟩ := div_mod_add (o := o) (i := i) (by decide) (hx ▸ (by omega : x+i<chunkSize))
    have hcovers : s.Covers (x+i) := ⟨by omega,by omega⟩
    obtain ⟨e,hlast,hsource⟩ := (resolve_shows (decodeRecords_size hraw) hresolve s hmem).2 _ hcovers
    obtain ⟨heid,hesize,heoff⟩ := (source_eq_iff hid).mp hsource
    obtain ⟨file,hverified,hbyte⟩ := hbytes i hi
    have hoff : s.off+(x-s.pos)+i=sliceOffset e (fileOffset.toNat+(read+i)) := by
      rw [sliceOffset,← Nat.add_assoc,hodef,hmod,hx,← heoff]
      omega
    rw [hoff,heid,hesize] at hverified
    rw [hoff] at hbyte
    refine ⟨e,file,⟨items,raw,?_,hraw,?_⟩,heid ▸ hid,hverified,hbyte⟩
    · rw [← Nat.add_assoc,hodef,hdiv]
      exact hitems
    · rw [← Nat.add_assoc,hodef,hmod,hx]
      exact hlast

lemma readLoop_eq_some {fileOffset : ℤ} {total fuel : ℕ} {verified : Bytes} (h0 : 0≤fileOffset)
    (hmax : fileOffset+verified.length≤2^63) (hle : verified.length≤total)
    (hverified : ∀ i<verified.length,∃ e file,r.Shows (fileOffset.toNat+i) e ∧ e.sliceID≠0 ∧
      r.Verified e.sliceID e.size (sliceOffset e (fileOffset.toNat+i)) file ∧
      verified[i]? = file[sliceOffset e (fileOffset.toNat+i) % r.blockSize]?)
    (h : r.readLoop fileOffset total fuel verified=some bytes) :
    bytes.length=total ∧ ∀ i<total,∃ e file,r.Shows (fileOffset.toNat+i) e ∧ e.sliceID≠0 ∧
      r.Verified e.sliceID e.size (sliceOffset e (fileOffset.toNat+i)) file ∧
      bytes[i]? = file[sliceOffset e (fileOffset.toNat+i) % r.blockSize]? := by
  induction fuel generalizing verified with
  | zero =>
    simp only [readLoop] at h
    split_ifs at h with hdone
    cases h
    exact ⟨le_antisymm hle hdone,fun i hi => hverified i (hi.trans_le hdone)⟩
  | succ fuel ih =>
    simp only [readLoop] at h
    split_ifs at h with hdone
    · cases h
      exact ⟨le_antisymm hle hdone,fun i hi => hverified i (hi.trans_le hdone)⟩
    obtain ⟨piece,hpiece,h⟩ := bind_eq_some_iff.mp h
    obtain ⟨-,hrest,hmax',hbytes⟩ := readPiece_eq_some h0 hmax hpiece
    refine ih (by rw [length_append]; exact hmax') (by rw [length_append]; omega) (fun i hi => ?_) h
    rw [length_append] at hi
    by_cases hold : i<verified.length
    · rw [getElem?_append_left hold]
      exact hverified i hold
    · rw [getElem?_append_right (by omega)]
      have hnew := hbytes (i-verified.length) (by omega)
      rwa [Nat.add_sub_cancel' (by omega)] at hnew

/-- CRC32C reveals corruption, and the blocks of a slice never change: a segment of a cached block that
matches its checksum has the bytes of the slice. -/
def Faithful (r : Reader) (slice : ℕ → ℕ → UInt8) : Prop :=
  ∀ hashed id blockIndex blockLen file,r.files hashed id blockIndex blockLen=some file →
    ∀ j<blockLen,SegmentVerified file blockLen (j/checksumBlock) → file[j]? = some (slice id (blockIndex*r.blockSize+j))

def Gap (r : Reader) (o : ℕ) : Prop :=
  ∃ items raw,r.items ((o/chunkSize : ℕ) : ℤ)=some items ∧ decodeRecords items=some raw ∧
    ∀ e∈raw,¬e.Covers (o % chunkSize)

def Hole (r : Reader) (o : ℕ) : Prop := ∃ e,r.Shows o e ∧ e.sliceID=0

/-- The block of the last record that covers the offset is missing, has the wrong size, or does not match its
checksum at the segment of the offset. -/
def Unverifiable (r : Reader) (o : ℕ) : Prop :=
  ∃ e,r.Shows o e ∧ e.sliceID≠0 ∧ ∀ file,¬r.Verified e.sliceID e.size (sliceOffset e o) file

lemma Shows.unique {e' : Extent} (h : r.Shows o e) (h' : r.Shows o e') : e=e' := by
  obtain ⟨items,raw,hitems,hraw,hlast⟩ := h
  obtain ⟨items',raw',hitems',hraw',hlast'⟩ := h'
  rw [hitems] at hitems'
  cases hitems'
  rw [hraw] at hraw'
  cases hraw'
  exact lastCovering_unique hlast hlast'

lemma Shows.not_gap (h : r.Shows o e) : ¬r.Gap o := by
  rintro ⟨items',raw',hitems',hraw',hgap⟩
  obtain ⟨items,raw,hitems,hraw,before,after,hsplit,hcovers,-⟩ := h
  rw [hitems] at hitems'
  cases hitems'
  rw [hraw] at hraw'
  cases hraw'
  exact hgap e (by simp [hsplit]) hcovers

lemma readBlock_cases (r : Reader) (fileOffset : Int64) (buf : Bytes) (unchanged : Bool) :
    r.readBlock fileOffset buf unchanged=(buf,none) ∨
    ∃ verified,r.readBlock fileOffset buf unchanged=(verified,some buf.length) ∧ 0≤fileOffset.toInt ∧
      r.readLoop fileOffset.toInt buf.length buf.length []=some verified := by
  unfold readBlock
  split
  · exact .inl rfl
  rename_i hcheck
  simp only [Bool.or_eq_true,decide_eq_true_eq,not_or,Int64.lt_iff_toInt_lt,not_lt] at hcheck
  split
  · exact .inl rfl
  · rename_i verified hverified
    split
    · exact .inr ⟨verified,rfl,hcheck.1.2,hverified⟩
    · exact .inl rfl

lemma readBlock_eq_some {fileOffset : Int64} {buf : Bytes} {unchanged : Bool} {n : ℕ}
    (h : r.readBlock fileOffset buf unchanged=(bytes,some n)) :
    n=buf.length ∧ bytes.length=n ∧ ∀ i<n,∃ e file,r.Shows (fileOffset.toInt.toNat+i) e ∧ e.sliceID≠0 ∧
      r.Verified e.sliceID e.size (sliceOffset e (fileOffset.toInt.toNat+i)) file ∧
      bytes[i]? = file[sliceOffset e (fileOffset.toInt.toNat+i) % r.blockSize]? := by
  obtain hfail | ⟨verified,hok,h0,hloop⟩ := r.readBlock_cases fileOffset buf unchanged
  · rw [hfail] at h
    cases h
  rw [hok] at h
  cases h
  have hmax := fileOffset.toInt_lt
  obtain ⟨hlen,hbytes⟩ := readLoop_eq_some h0 (by simpa using hmax.le) (Nat.zero_le _)
    (fun i hi => absurd hi (by simp)) hloop
  exact ⟨rfl,hlen,hbytes⟩

lemma Verified.byte {slice : ℕ → ℕ → UInt8} (hcache : r.Faithful slice) {id size : ℕ} {file : Bytes}
    (h : r.Verified id size o file) : file[o % r.blockSize]? = some (slice id o) := by
  obtain ⟨hopen,hin,hsegment⟩ := h
  have hfile : ∃ hashed,r.files hashed id (o/r.blockSize) (r.blockLenAt size o)=some file := by
    unfold openBlock at hopen
    cases hplain : r.files false id (o/r.blockSize) (r.blockLenAt size o) with
    | none =>
      rw [hplain] at hopen
      exact ⟨true,hopen⟩
    | some plain =>
      rw [hplain] at hopen
      cases hopen
      exact ⟨false,hplain⟩
  obtain ⟨hashed,hfile⟩ := hfile
  rw [hcache hashed id _ _ file hfile _ hin hsegment,Nat.div_add_mod' o r.blockSize]

end Reader

/-- A read that succeeds fills the buffer, and every byte is that of the last record that covers its offset,
from a block whose segment matched its checksum. A read of which a byte lies in a gap, in a hole or in an
unverifiable block fails, and a read that fails leaves the buffer as it was. -/
theorem direct_read_returns_file_bytes (r : Reader) (slice : ℕ → ℕ → UInt8) (hcache : r.Faithful slice)
    (fileOffset : Int64) (buf : Bytes) (unchanged : Bool) :
    (∀ bytes n,r.readBlock fileOffset buf unchanged = (bytes,some n) → n = buf.length ∧ bytes.length = n ∧
      ∀ i < n,∃ e file,r.Shows (fileOffset.toInt.toNat+i) e ∧ e.sliceID ≠ 0 ∧
        r.Verified e.sliceID e.size (Reader.sliceOffset e (fileOffset.toInt.toNat+i)) file ∧
        bytes[i]? = some (slice e.sliceID (Reader.sliceOffset e (fileOffset.toInt.toNat+i)))) ∧
    ((∃ i < buf.length,r.Gap (fileOffset.toInt.toNat+i) ∨ r.Hole (fileOffset.toInt.toNat+i) ∨
      r.Unverifiable (fileOffset.toInt.toNat+i)) → r.readBlock fileOffset buf unchanged = (buf,none)) ∧
    ∀ bytes,r.readBlock fileOffset buf unchanged = (bytes,none) → bytes = buf := by
  refine ⟨fun bytes n h => ?_,fun ⟨i,hi,hbad⟩ => ?_,fun bytes h => ?_⟩
  · obtain ⟨hn,hlen,hbytes⟩ := Reader.readBlock_eq_some h
    refine ⟨hn,hlen,fun i hi => ?_⟩
    obtain ⟨e,file,hshows,hid,hverified,hbyte⟩ := hbytes i hi
    exact ⟨e,file,hshows,hid,hverified,hbyte.trans (hverified.byte hcache)⟩
  · obtain hfail | ⟨verified,hok,-,-⟩ := r.readBlock_cases fileOffset buf unchanged
    · exact hfail
    obtain ⟨-,-,hbytes⟩ := Reader.readBlock_eq_some hok
    obtain ⟨e,file,hshows,hid,hverified,-⟩ := hbytes i hi
    obtain hgap | ⟨e',hshows',hid'⟩ | ⟨e',hshows',-,hnone⟩ := hbad
    · exact absurd hgap hshows.not_gap
    · exact absurd (hshows.unique hshows' ▸ hid') hid
    · exact absurd (hshows.unique hshows' ▸ hverified) (hnone file)
  · obtain hfail | ⟨verified,hok,-⟩ := r.readBlock_cases fileOffset buf unchanged
    · rw [hfail] at h
      exact (Prod.ext_iff.mp h).1.symm
    · rw [hok] at h
      cases h

/-- A record with the five numbers, of which none has more than one digit. -/
def smallRecord (pos sliceID size off len : UInt8) : Bytes :=
  [0,0,0,pos,0,0,0,0,0,0,0,sliceID,0,0,0,size,0,0,0,off,0,0,0,len]

/-- Two slices of four bytes: the middle of the first chunk was written again. One block is in each layout. -/
def smallReader : Reader where
  configured := true
  blockSize := 4
  blockSize_pos := by decide
  items i := if i=0 then some [smallRecord 0 1 4 0 4,smallRecord 1 2 4 2 2] else none
  items_neg i hi l hl := by simp [hi.ne] at hl
  files hashed id blockIndex blockLen :=
    if blockIndex=0 ∧ blockLen=4 then
      if !hashed ∧ id=1 then some [1,2,3,4,0x29,0x30,0x8C,0xF4]
      else if hashed ∧ id=2 then some [5,6,7,8,0xCF,0x05,0xB7,0x11]
      else none
    else none

def smallSlice (id o : ℕ) : UInt8 := if id=1 then [1,2,3,4].getD o 0 else [5,6,7,8].getD o 0

lemma smallReader_faithful : smallReader.Faithful smallSlice := by
  intro hashed id blockIndex blockLen file hfile j hj _
  simp only [smallReader] at hfile
  split_ifs at hfile with hblock hplain hhashed
  · cases hfile
    obtain ⟨rfl,rfl⟩ := hblock
    obtain ⟨-,rfl⟩ := hplain
    interval_cases j <;> rfl
  · cases hfile
    obtain ⟨rfl,rfl⟩ := hblock
    obtain ⟨-,rfl⟩ := hhashed
    interval_cases j <;> rfl

theorem direct_read_overwritten_middle : smallReader.readBlock 0 [0,0,0,0] true = ([1,7,8,4],some 4) ∧
    ∀ i < 4,∃ e file,smallReader.Shows i e ∧ e.sliceID ≠ 0 ∧
      smallReader.Verified e.sliceID e.size (Reader.sliceOffset e i) file ∧
      [1,7,8,4][i]? = some (smallSlice e.sliceID (Reader.sliceOffset e i)) := by
  have hread : smallReader.readBlock 0 [0,0,0,0] true = ([1,7,8,4],some 4) := by decide +kernel
  refine ⟨hread,?_⟩
  obtain ⟨-,-,hbytes⟩ := (direct_read_returns_file_bytes smallReader smallSlice smallReader_faithful 0 [0,0,0,0] true).1 _ _ hread
  simpa using hbytes

end JuiceMount.Cache
