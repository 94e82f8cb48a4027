import Mathlib.Tactic

/-! Byte images of files. An image is a size and a byte at every offset, zero outside the size, so
that holes and the gap before a write past the end read as zeros; payloads are images too. -/
namespace JuiceMount.FileImage
open List

@[ext] structure Image where
  size : ℕ
  byte : ℕ → UInt8
  outside : ∀ i,size ≤ i → byte i=0

namespace Image

def empty : Image := ⟨0,fun _ => 0,fun _ _ => rfl⟩

/-- `n` copies of one byte. -/
def fill (n : ℕ) (b : UInt8) : Image where
  size := n
  byte i := if i<n then b else 0
  outside i hi := if_neg (by omega)

/-- pwrite of `p` at `off`. -/
def writeAt (f p : Image) (off : ℕ) : Image where
  size := max f.size (off+p.size)
  byte i := if off ≤ i ∧ i < off+p.size then p.byte (i-off) else f.byte i
  outside i hi := by
    rw [if_neg (by omega)]
    exact f.outside i (by omega)

def truncate (f : Image) (n : ℕ) : Image where
  size := n
  byte i := if i<n then f.byte i else 0
  outside i hi := if_neg (by omega)

def punch (f : Image) (a b : ℕ) : Image where
  size := f.size
  byte i := if a ≤ i ∧ i<b then 0 else f.byte i
  outside i hi := by
    split
    · rfl
    · exact f.outside i hi

/-- The `n` bytes from `off` on. -/
def slice (f : Image) (off n : ℕ) : Image where
  size := n
  byte i := if i<n then f.byte (off+i) else 0
  outside i hi := if_neg (by omega)

def take (f : Image) (n : ℕ) : Image where
  size := min n f.size
  byte i := if i<n then f.byte i else 0
  outside i hi := by
    split
    · exact f.outside i (by omega)
    · rfl

def drop (f : Image) (n : ℕ) : Image where
  size := f.size-n
  byte i := f.byte (n+i)
  outside i hi := f.outside (n+i) (by omega)

def bytes (f : Image) : List UInt8 := (List.range f.size).map f.byte

variable {f g p : Image} {off n i : ℕ}

@[simp] lemma writeAt_size : (f.writeAt p off).size=max f.size (off+p.size) := rfl

@[simp] lemma truncate_size : (f.truncate n).size=n := rfl

@[simp] lemma slice_size : (f.slice off n).size=n := rfl

lemma slice_byte (hi : i<(f.slice off n).size) : (f.slice off n).byte i=f.byte (off+i) := if_pos hi

lemma writeAt_inside (hi : i<p.size) : (f.writeAt p off).byte (off+i)=p.byte i := by
  simp [writeAt,hi]

lemma writeAt_outside (hi : i<off ∨ off+p.size ≤ i) : (f.writeAt p off).byte i=f.byte i :=
  if_neg (by omega)

lemma writeAt_agree (h : f.byte i=g.byte i) : (f.writeAt p off).byte i=(g.writeAt p off).byte i := by
  simp only [writeAt,h]

lemma truncate_agree (h : f.byte i=g.byte i) : (f.truncate n).byte i=(g.truncate n).byte i := by
  simp only [truncate,h]

lemma truncate_byte (hi : i<n) : (f.truncate n).byte i=f.byte i := if_pos hi

lemma punch_byte {a b : ℕ} (hi : b ≤ i) : (f.punch a b).byte i=f.byte i := if_neg (by omega)

lemma eq_of_agree (hsize : f.size=g.size) (h : ∀ i<f.size,f.byte i=g.byte i) : f=g := by
  ext i
  · exact hsize
  · by_cases hi : i<f.size
    · rw [h i hi]
    · rw [f.outside i (by omega),g.outside i (by omega)]

lemma bytes_writeAt_end (f p : Image) : (f.writeAt p f.size).bytes=f.bytes++p.bytes := by
  have hsize : (f.writeAt p f.size).size=f.size+p.size := by simp
  rw [bytes,hsize,range_add,map_append,map_map]
  congr 1
  · refine map_congr_left fun i hi => writeAt_outside (.inl (mem_range.mp hi))
  · refine map_congr_left fun i hi => writeAt_inside (mem_range.mp hi)

lemma writeAt_nil (hp : p.size=0) (hoff : off≤f.size) : f.writeAt p off=f := by
  refine eq_of_agree ?_ fun i _ => writeAt_outside (by omega)
  simp only [writeAt_size]
  omega

end Image

end JuiceMount.FileImage
