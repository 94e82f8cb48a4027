import JuiceMount.Lib.GoMap

/-! Signed 64-bit arithmetic, and maps of 64-bit counters. -/
namespace JuiceMount

/-- The value a signed 64-bit variable has after a computation whose exact result is `x`. -/
def int64 (x : ℤ) : ℤ := Int.bmod x (2^64)

/-- How often the exact value left the signed 64-bit range upwards. -/
def overflows (x : ℤ) : ℤ := (x+2^63)/2^64

lemma int64_eq (x : ℤ) : int64 x=x-2^64*overflows x := by
  unfold int64 overflows
  rw [Int.bmod_def]
  omega

lemma int64_of_range {x : ℤ} (hlo : -2^63≤x) (hhi : x<2^63) : int64 x=x := by
  rw [int64_eq]
  unfold overflows
  omega

namespace GoMap
variable {κ : Type*} [DecidableEq κ]

/-- `m[k] += n` on a map of 64-bit counters. -/
def tally (m : GoMap κ ℤ) (k : κ) (n : ℤ) : GoMap κ ℤ := m.set k (int64 (m.getD k 0+n))

end GoMap
end JuiceMount
