import Mathlib.Data.Nat.Bits
import Mathlib.Data.Nat.Bitwise
import Mathlib.Tactic.Ring

namespace Varint

-- Little-endian base-128 groups. Every byte but the last carries the
-- continuation bit; the payload of a byte is its low seven bits.
def encode (n : Nat) : List UInt8 :=
  if n > 127 then UInt8.ofNat (128 ||| (n &&& 127)) :: encode (n >>> 7) else [UInt8.ofNat (n &&& 127)]
termination_by n
decreasing_by simp only [Nat.shiftRight_eq_div_pow]; omega

theorem payload (n : Nat) : n &&& 127 = n % 128 := Nat.and_two_pow_sub_one_eq_mod n 7

theorem flagged (n : Nat) : 128 ||| (n &&& 127) = 128 + n % 128 := by
  have low : n % 128 < 2^7 := Nat.mod_lt _ (by decide)
  have joined := Nat.two_pow_add_eq_or_of_lt low 1
  rw [payload]
  exact joined.symm

-- The continuation bit of a byte, read off its value.
theorem flag_bit (b : Nat) (byte : b < 256) : b &&& 128 = if 128 ≤ b then 128 else 0 := by
  have high : b.testBit 7 = decide (128 ≤ b) := by
    rw [Nat.testBit_eq_decide_div_mod_eq]
    congr 1
    exact propext (by omega)
  rw [show (128 : Nat) = 2^7 from rfl,Nat.and_two_pow,high]
  split <;> simp_all

theorem encode_more (more : n > 127) :
    encode n = UInt8.ofNat (128 + n % 128) :: encode (n / 128) := by
  rw [encode,if_pos more,flagged,Nat.shiftRight_eq_div_pow]

theorem encode_last (last : ¬ n > 127) : encode n = [UInt8.ofNat n] := by
  rw [encode,if_neg last,payload,Nat.mod_eq_of_lt (by omega)]

-- What a byte-at-a-time reader tests and accumulates.
theorem more_flag (n : Nat) : (UInt8.ofNat (128 + n % 128)).toNat &&& 128 ≠ 0 := by
  have small : 128 + n % 128 < 256 := by omega
  rw [UInt8.toNat_ofNat',Nat.mod_eq_of_lt small,flag_bit _ small,if_pos (by omega)]
  decide

theorem more_payload (n : Nat) : (UInt8.ofNat (128 + n % 128)).toNat &&& 127 = n % 128 := by
  rw [UInt8.toNat_ofNat',payload]; omega

theorem last_flag (last : ¬ n > 127) : (UInt8.ofNat n).toNat &&& 128 = 0 := by
  have small : n < 256 := by omega
  rw [UInt8.toNat_ofNat',Nat.mod_eq_of_lt small,flag_bit _ small,if_neg (by omega)]

theorem last_payload (last : ¬ n > 127) : (UInt8.ofNat n).toNat &&& 127 = n := by
  rw [UInt8.toNat_ofNat',payload]; omega

-- Adding one group above an accumulator that has not reached it yet.
theorem group_or (fits : res < 2^shift) (n : Nat) : res ||| (n <<< shift) = res + n * 2^shift := by
  rw [Nat.or_comm,Nat.shiftLeft_eq,Nat.mul_comm,← Nat.two_pow_add_eq_or_of_lt fits]
  omega

theorem encode_ne_nil (n : Nat) : encode n ≠ [] := by
  rw [encode]; split <;> simp

end Varint
