import Mathlib.Algebra.Order.Ring.Int
import Mathlib.Tactic.Linarith
import Mathlib.Tactic.Ring

/-! Signed machine words. A word operation whose exact result the word holds computes that
result; a word cut down to fewer bits keeps its value modulo the smaller power of two. -/

namespace XEmacs.Lib.Words

variable {w v : ℕ} {x y : BitVec w} {a b : ℤ}

/-- The integers that a signed word of `w` bits holds. -/
def Fits (w : ℕ) (a : ℤ) : Prop := -2 ^ (w - 1) ≤ a ∧ a < 2 ^ (w - 1)

instance : Decidable (Fits w a) := inferInstanceAs (Decidable (_ ∧ _))

theorem fits_toInt (x : BitVec w) : Fits w x.toInt := ⟨x.le_toInt, x.toInt_lt⟩

theorem two_pow_eq (hw : 0 < w) : (2 : ℤ) ^ w = 2 * 2 ^ (w - 1) := by
  obtain ⟨n, rfl⟩ := Nat.exists_eq_succ_of_ne_zero hw.ne'
  rw [Nat.succ_sub_one, Int.pow_succ, Int.mul_comm]

theorem two_pow_pos (n : ℕ) : (0 : ℤ) < 2 ^ n := Int.pow_pos (by decide)

theorem Fits.mono (h : Fits w a) (hwv : w ≤ v) : Fits v a := by
  have hpow : (2 : ℤ) ^ (w - 1) ≤ 2 ^ (v - 1) := by
    exact_mod_cast Nat.pow_le_pow_right (by decide : 0 < 2) (by omega)
  exact ⟨by have := h.1; omega, by have := h.2; omega⟩

theorem bmod_of_fits (hw : 0 < w) (h : Fits w a) : a.bmod (2 ^ w) = a := by
  apply Int.bmod_eq_of_le_mul_two
  · have := h.1
    have := two_pow_eq hw
    push_cast
    omega
  · have := h.2
    have := two_pow_eq hw
    push_cast
    omega

theorem toInt_neg (hw : 0 < w) (hx : x.toInt = a) (h : Fits w (-a)) : (-x).toInt = -a := by
  rw [BitVec.toInt_neg, hx, bmod_of_fits hw h]

theorem toInt_add (hw : 0 < w) (hx : x.toInt = a) (hy : y.toInt = b) (h : Fits w (a + b)) :
    (x + y).toInt = a + b := by
  rw [BitVec.toInt_add, hx, hy, bmod_of_fits hw h]

theorem toInt_sub (hw : 0 < w) (hx : x.toInt = a) (hy : y.toInt = b) (h : Fits w (a - b)) :
    (x - y).toInt = a - b := by
  rw [BitVec.toInt_sub, hx, hy, bmod_of_fits hw h]

theorem toInt_mul (hw : 0 < w) (hx : x.toInt = a) (hy : y.toInt = b) (h : Fits w (a * b)) :
    (x * y).toInt = a * b := by
  rw [BitVec.toInt_mul, hx, hy, bmod_of_fits hw h]

theorem toInt_sdiv (hw : 0 < w) (hx : x.toInt = a) (hy : y.toInt = b) (h : Fits w (a.tdiv b)) :
    (x.sdiv y).toInt = a.tdiv b := by
  rw [BitVec.toInt_sdiv, hx, hy, bmod_of_fits hw h]

theorem toInt_sub_mul {z : BitVec w} {c : ℤ} (hw : 0 < w) (hx : x.toInt = a) (hy : y.toInt = b)
    (hz : z.toInt = c) (h : Fits w (a - b * c)) : (x - y * z).toInt = a - b * c := by
  rw [BitVec.toInt_sub, BitVec.toInt_mul, hx, hy, hz, Int.sub_bmod_bmod, bmod_of_fits hw h]

theorem toInt_srem (hx : x.toInt = a) (hy : y.toInt = b) : (x.srem y).toInt = a.tmod b := by
  rw [BitVec.toInt_srem, hx, hy]

theorem ofInt_eq_ofInt_iff : BitVec.ofInt w a = BitVec.ofInt w b ↔ (2 : ℤ) ^ w ∣ a - b := by
  rw [← BitVec.toNat_inj, BitVec.toNat_ofInt, BitVec.toNat_ofInt, Int.dvd_iff_emod_eq_zero,
    ← Int.emod_eq_emod_iff_emod_sub_eq_zero]
  have ha := Int.emod_nonneg a (two_pow_pos w).ne'
  have hb := Int.emod_nonneg b (two_pow_pos w).ne'
  push_cast
  constructor
  · intro h
    omega
  · intro h
    rw [h]

theorem ofInt_eq_of_fits (hw : 0 < w) (h : Fits w a) : (BitVec.ofInt w a).toInt = a := by
  rw [BitVec.toInt_ofInt, bmod_of_fits hw h]

theorem setWidth_eq_ofInt_toNat (x : BitVec w) : x.setWidth v = BitVec.ofInt v (x.toNat : ℤ) := by
  rw [BitVec.ofInt_natCast]
  exact BitVec.eq_of_toNat_eq (by simp)

theorem toInt_sub_toNat_dvd (x : BitVec w) : (2 : ℤ) ^ w ∣ x.toInt - x.toNat := by
  rw [BitVec.toInt_eq_toNat_cond]
  split
  · simp
  · exact ⟨-1, by push_cast; omega⟩

theorem setWidth_eq_ofInt (hvw : v ≤ w) (x : BitVec w) : x.setWidth v = BitVec.ofInt v x.toInt := by
  rw [setWidth_eq_ofInt_toNat, ofInt_eq_ofInt_iff]
  rw [← Int.dvd_neg, Int.neg_sub]
  exact (pow_dvd_pow 2 hvw).trans (toInt_sub_toNat_dvd x)

theorem toNat_of_nonneg (h : 0 ≤ x.toInt) : (x.toNat : ℤ) = x.toInt := by
  rw [BitVec.toInt_eq_toNat_cond] at h ⊢
  have hlt : (x.toNat : ℤ) < 2 ^ w := by exact_mod_cast x.isLt
  split
  · rfl
  · rw [if_neg ‹_›] at h
    push_cast at h
    omega

theorem toNat_of_neg (h : x.toInt < 0) : (x.toNat : ℤ) = x.toInt + 2 ^ w := by
  rw [BitVec.toInt_eq_toNat_cond] at h ⊢
  split
  · rw [if_pos ‹_›] at h
    omega
  · push_cast
    omega

end XEmacs.Lib.Words
