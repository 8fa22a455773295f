import Mathlib.Data.Nat.Bitwise

/-!
# Masks of low bits

`x & mask` and `x & ~mask` for 64-bit words: the two parts add up to the word, and for a
mask of the `k` low bits they are the remainder and the multiple of `2 ^ k`.
-/

namespace Zus.Lib

/-- The parts of a word inside and outside of a mask add up to the word. -/
theorem toNat_and_add_toNat_and_not (x m : UInt64) :
    (x &&& m).toNat + (x &&& ~~~m).toNat = x.toNat := by
  have hdisj : x.toBitVec &&& m.toBitVec &&& (x.toBitVec &&& ~~~m.toBitVec) = 0#64 := by
    ext i hi
    simp only [BitVec.getElem_and, BitVec.getElem_not, BitVec.getElem_zero]
    cases x.toBitVec[i] <;> cases m.toBitVec[i] <;> rfl
  have hor : x.toBitVec &&& m.toBitVec ||| x.toBitVec &&& ~~~m.toBitVec = x.toBitVec := by
    ext i hi
    simp only [BitVec.getElem_or, BitVec.getElem_and, BitVec.getElem_not]
    cases x.toBitVec[i] <;> cases m.toBitVec[i] <;> rfl
  have hsum := BitVec.toNat_add_of_and_eq_zero hdisj
  rw [BitVec.add_eq_or_of_and_eq_zero _ _ hdisj, hor] at hsum
  exact hsum.symm

section LowBits

variable {m : UInt64} {k : ℕ} (hm : m.toNat = 2 ^ k - 1) (x : UInt64)

include hm

/-- The part inside a mask of low bits is the remainder. -/
theorem toNat_and_low : (x &&& m).toNat = x.toNat % 2 ^ k := by
  rw [UInt64.toNat_and, hm, Nat.and_two_pow_sub_one_eq_mod]

/-- The part outside of it is the multiple below. -/
theorem toNat_and_not_low : (x &&& ~~~m).toNat = x.toNat - x.toNat % 2 ^ k := by
  have hsum := toNat_and_add_toNat_and_not x m
  rw [toNat_and_low hm] at hsum
  exact Nat.eq_sub_of_add_eq' hsum

/-- A word without bits outside of the mask is below `2 ^ k`. -/
theorem toNat_lt_of_and_not_eq_zero {x : UInt64} (hx : x &&& ~~~m = 0) : x.toNat < 2 ^ k := by
  have hsub := toNat_and_not_low hm x
  rw [hx] at hsub
  have hzero : (0 : UInt64).toNat = 0 := rfl
  have hlt := Nat.mod_lt x.toNat (Nat.two_pow_pos k)
  omega

/-- A word without bits inside the mask is a multiple of `2 ^ k`. -/
theorem and_low_eq_zero_iff : x &&& m = 0 ↔ x.toNat % 2 ^ k = 0 := by
  rw [← toNat_and_low hm x]
  exact UInt64.toNat_inj.symm

end LowBits

end Zus.Lib
