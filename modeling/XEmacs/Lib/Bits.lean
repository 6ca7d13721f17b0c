import Mathlib.Data.Nat.Bitwise
import Mathlib.Tactic.Common

/-! Bit fields of natural numbers: a number packed from fields by shifts and disjunctions,
and the masks and shifts that take the fields out again, as arithmetic. -/

namespace XEmacs.Lib.Bits

variable {i x y : ℕ}

theorem or_eq_add (hx : 2 ^ i ∣ x) (hy : y < 2 ^ i) : x ||| y = x + y := by
  obtain ⟨a, rfl⟩ := hx
  exact (Nat.two_pow_add_eq_or_of_lt hy a).symm

theorem shiftLeft_or (hy : y < 2 ^ i) : x <<< i ||| y = x * 2 ^ i + y := by
  rw [Nat.shiftLeft_eq]
  exact or_eq_add (Nat.dvd_mul_left _ _) hy

theorem mask_and (n x : ℕ) : (2 ^ n - 1) &&& x = x % 2 ^ n := by
  rw [Nat.and_comm, Nat.and_two_pow_sub_one_eq_mod]

theorem and_mask_shiftLeft (x n i : ℕ) : x &&& (2 ^ n - 1) <<< i = x / 2 ^ i % 2 ^ n * 2 ^ i := by
  rw [← Nat.shiftLeft_eq, ← Nat.and_two_pow_sub_one_eq_mod, ← Nat.shiftRight_eq_div_pow]
  refine Nat.eq_of_testBit_eq fun j => ?_
  simp only [Nat.testBit_and, Nat.testBit_shiftLeft, Nat.testBit_shiftRight]
  by_cases hj : j ≥ i
  · simp [hj]
  · simp [hj]

theorem shiftRight_and_mask (x i n : ℕ) : x >>> i &&& (2 ^ n - 1) = x / 2 ^ i % 2 ^ n := by
  rw [Nat.and_two_pow_sub_one_eq_mod, Nat.shiftRight_eq_div_pow]

end XEmacs.Lib.Bits
