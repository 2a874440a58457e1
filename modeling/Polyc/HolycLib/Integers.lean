import Mathlib.Data.Int.Init
import Mathlib.Tactic.NormNum

/-!
# Integers of the library

What an `I64` and an `I32` keep of a number.
-/

namespace Polyc

/-- What is kept of a value in an `I64`. -/
def toI64 (x : Int) : Int := x.bmod (2 ^ 64)

/-- A number in the range of an `I64` is kept. -/
theorem toI64_of_bounds {x : Int} (hl : -2 ^ 63 ≤ x) (hh : x < 2 ^ 63) :
  toI64 x = x
  := by
  rw [toI64]
  apply Int.bmod_eq_of_le
  · norm_num at hl ⊢
    omega
  · norm_num at hh ⊢
    omega

/-- What is kept of a value in an `I32`. -/
def toI32 (x : Int) : Int := x.bmod (2 ^ 32)

/-- What fits an `I32` is kept. -/
theorem toI32_of_lt {x : Int} (hlo : -2 ^ 31 ≤ x) (hhi : x < 2 ^ 31) :
  toI32 x = x
  := by
  apply Int.bmod_eq_of_le <;> norm_num at hlo hhi ⊢ <;> omega

end Polyc
