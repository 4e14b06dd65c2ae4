import Mathlib.Algebra.Order.Group.Abs
import Mathlib.Algebra.Order.Group.Int

/-! Signed 64-bit arithmetic: checked, or as it wraps. -/
namespace Candypool.Lib

/-- The value of a signed operation, if it fits 64 bits. -/
def int64? (x : ℤ) : Option ℤ := if -2^63 ≤ x ∧ x < 2^63 then some x else none

def wrap64 (x : ℤ) : ℤ := (BitVec.ofInt 64 x).toInt

/-- The smallest number is its own absolute value. -/
def abs64 (n : ℤ) : ℤ := if n ≥ 0 then n else wrap64 (-n)

theorem int64?_eq {x : ℤ} (hlow : -2^63 ≤ x) (hhigh : x < 2^63) : int64? x = some x :=
  if_pos ⟨hlow, hhigh⟩

theorem wrap64_eq {x : ℤ} (hlow : -2^63 ≤ x) (hhigh : x < 2^63) : wrap64 x = x := by
  rw [wrap64, BitVec.toInt_ofInt]
  exact Int.bmod_eq_of_le (by omega) (by omega)

theorem abs64_eq {n : ℤ} (hlow : -2^63 < n) (hhigh : n < 2^63) : abs64 n = |n| := by
  rw [abs64]
  split_ifs with hn
  · exact (abs_of_nonneg hn).symm
  · rw [abs_of_nonpos (by omega), wrap64_eq (by omega) (by omega)]

end Candypool.Lib
