import Mathlib.Algebra.Order.Ring.Int

namespace Common

def INT_MAX : Int := 2^31 - 1

-- The result of an operation on ints. Overflow is undefined, so there is none.
def checked (value : Int) : Option Int := if -2^31 ≤ value ∧ value < 2^31 then some value else none

-- A size_t stored into an int.
def toInt (size : Nat) : Int := Int.bmod size (2^32)

theorem checked_fits {value : Int} (low : -2^31 ≤ value) (high : value < 2^31) : checked value = some value := if_pos ⟨low,high⟩

theorem toInt_fits {size : Nat} (fits : size < 2^31) : toInt size = size := by
  unfold toInt
  rw [Int.bmod_def]
  split <;> omega

end Common
