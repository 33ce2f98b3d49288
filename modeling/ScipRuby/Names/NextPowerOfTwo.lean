import Mathlib.Data.Nat.Bitwise
import Mathlib.Data.Nat.Size

namespace Names

def nextPowerOfTwo (v : UInt32) : UInt32 :=
  if v = 0 then 1
  else
    let v := v - 1
    let v := v ||| (v >>> 1)
    let v := v ||| (v >>> 2)
    let v := v ||| (v >>> 4)
    let v := v ||| (v >>> 8)
    let v := v ||| (v >>> 16)
    v + 1

section Smear
variable {w x s : Nat}

-- A bit of x is set when one of the s bits of w from there upwards is.
def Smeared (s w x : Nat) : Prop := ∀ i, x.testBit i = true ↔ ∃ j < s, w.testBit (i + j) = true

theorem smeared_one (w : Nat) : Smeared 1 w w := by
  intro i
  constructor
  · intro bit
    exact ⟨0,by decide,bit⟩
  · rintro ⟨j,below,bit⟩
    obtain rfl : j = 0 := by omega
    exact bit

theorem Smeared.double (smeared : Smeared s w x) : Smeared (s + s) w (x ||| (x >>> s)) := by
  intro i
  rw [Nat.testBit_or,Nat.testBit_shiftRight,Bool.or_eq_true,smeared,smeared]
  constructor
  · rintro (⟨j,below,bit⟩ | ⟨j,below,bit⟩)
    · exact ⟨j,by omega,bit⟩
    · exact ⟨s + j,by omega,by rwa [show i + (s + j) = s + i + j by omega]⟩
  · rintro ⟨j,below,bit⟩
    by_cases low : j < s
    · exact .inl ⟨j,low,bit⟩
    · exact .inr ⟨j - s,by omega,by rwa [show s + i + (j - s) = i + j by omega]⟩

-- With every bit below the highest set, x is one less than a power of two.
theorem Smeared.full (smeared : Smeared s w x) (small : w < 2 ^ s) : x = 2 ^ w.size - 1 := by
  apply Nat.eq_of_testBit_eq
  intro i
  rw [Nat.testBit_two_pow_sub_one,Bool.eq_iff_iff,smeared,decide_eq_true_iff]
  constructor
  · rintro ⟨j,_,bit⟩
    by_contra above
    have : w < 2 ^ (i + j) := lt_of_lt_of_le (Nat.lt_size_self w) (Nat.pow_le_pow_right (by decide) (by omega))
    rw [Nat.testBit_lt_two_pow this] at bit
    cases bit
  · intro below
    obtain ⟨n,above,bit⟩ := Nat.exists_ge_and_testBit_of_ge_two_pow (Nat.lt_size.mp below)
    have inside : n < s := by
      by_contra outside
      have : w < 2 ^ n := lt_of_lt_of_le small (Nat.pow_le_pow_right (by decide) (by omega))
      rw [Nat.testBit_lt_two_pow this] at bit
      cases bit
    exact ⟨n - i,by omega,by rwa [show i + (n - i) = n by omega]⟩

end Smear

theorem nextPowerOfTwo_eq {v : UInt32} (nonzero : v ≠ 0) :
    (nextPowerOfTwo v).toNat = 2 ^ (v.toNat - 1).size % 2 ^ 32 := by
  have positive : 0 < v.toNat := Nat.pos_of_ne_zero fun zero => nonzero (UInt32.toNat_inj.mp zero)
  have small := v.toNat_lt
  have smeared := (((((smeared_one (v.toNat - 1)).double).double).double).double).double
  have full := smeared.full (by omega : v.toNat - 1 < 2 ^ 32)
  have lowered : (v - 1).toNat = v.toNat - 1 := by
    rw [UInt32.toNat_sub_of_le]
    · rfl
    · rw [UInt32.le_iff_toNat_le]
      exact positive
  have power : 2 ^ (v.toNat - 1).size - 1 + 1 = 2 ^ (v.toNat - 1).size := Nat.sub_add_cancel (Nat.two_pow_pos _)
  rw [nextPowerOfTwo,if_neg nonzero]
  simp only [UInt32.toNat_add,UInt32.toNat_or,UInt32.toNat_shiftRight,lowered]
  refine (congrArg (fun n => (n + 1) % 2 ^ 32) full).trans ?_
  rw [power]

-- Rounding up to 2^32 wraps to zero.
theorem nextPowerOfTwo_spec (v : UInt32) :
    ∃ k, (nextPowerOfTwo v).toNat = 2 ^ k % 2 ^ 32 ∧ k ≤ 32 ∧ v.toNat ≤ 2 ^ k ∧ (k = 0 ∨ 2 ^ k < 2 * v.toNat) := by
  by_cases zero : v = 0
  · subst zero
    exact ⟨0,by decide,by decide,by decide,.inl rfl⟩
  · have positive : 0 < v.toNat := Nat.pos_of_ne_zero fun same => zero (UInt32.toNat_inj.mp same)
    have small := v.toNat_lt
    have above := Nat.lt_size_self (v.toNat - 1)
    refine ⟨(v.toNat - 1).size,nextPowerOfTwo_eq zero,Nat.size_le.mpr (by omega),by omega,?_⟩
    rcases Nat.eq_zero_or_pos (v.toNat - 1).size with none | some
    · exact .inl none
    · right
      have lower : 2 ^ ((v.toNat - 1).size - 1) ≤ v.toNat - 1 := Nat.lt_size.mp (by omega)
      have : 2 ^ (v.toNat - 1).size = 2 * 2 ^ ((v.toNat - 1).size - 1) := by
        rw [←Nat.pow_succ']
        congr 1
        omega
      omega

end Names
