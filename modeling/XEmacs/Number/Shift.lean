import XEmacs.Number.LispNumber
import Mathlib.Data.Rat.Floor

/-! Shifts of Lisp integers, and when they are multiplications by a power of two. -/

namespace XEmacs.Number

open Lib.Words (Fits)

variable {v : ℕ}

def natnump : LispNumber v → Bool
  | .fixnum val => 0 ≤ val.toInt
  | .bignum data => 0 ≤ data
  | .ratio _ => false

def checkFixnumCoerceChar : LispObject v → Except (LispError v) (BitVec v)
  | .number (.fixnum val) => .ok val
  | .character ch => .ok ((BitVec.ofNat (v + 1) ch).setWidth v)
  | obj => .error (.wrongTypeArgument .integerOrCharP obj)

def concheckFixnum : LispObject v → Except (LispError v) (BitVec v)
  | .number (.fixnum val) => .ok val
  | obj => .error (.wrongTypeArgument .fixnump obj)

def fash (value count : LispObject v) : Except (LispError v) (LispNumber v) := do
  let value ← checkFixnumCoerceChar value
  let count ← concheckFixnum count
  -- An `EMACS_UINT`: the shift to the right below brings in zeros.
  let uvalue : EmacsInt v := xrealfixnum value
  if natnump (.fixnum count) then
    return makeFixnum (uvalue <<< (xrealfixnum count).toInt.toNat)
  else
    return makeFixnum (uvalue >>> (-(xrealfixnum count).toInt).toNat)

def bignumLshift (data : ℤ) (bits : ℕ) : ℤ := data * 2 ^ bits

/-- `mpz_fdiv_q_2exp`. -/
def bignumRshift (data : ℤ) (bits : ℕ) : ℤ := data.fdiv (2 ^ bits)

def ulongMax (v : ℕ) : ℤ := 2 ^ (v + 1) - 1

def bignumFitsUlongP (v : ℕ) (data : ℤ) : Bool := 0 ≤ data ∧ data ≤ ulongMax v

/-- The error of a count that is no `unsigned long`. A `long long` is as long as an `EMACS_INT`
here. -/
def shiftCountError (count : ℤ) : LispError v :=
  .argsOutOfRange3 (.bignum count)
    (.bignum (-(BitVec.ofInt (v + 1) (ulongMax v)).toInt)) (.bignum (ulongMax v))

def integerObjectP : LispObject v → Bool
  | .number n => n.integerp
  | _ => false

def flsh (value count : LispObject v) : Except (LispError v) (LispNumber v) :=
  if !integerCharOrMarkerP value then .error (.wrongTypeArgument .integerCharOrMarkerP value)
  else if !integerObjectP count then .error (.wrongTypeArgument .integerp count)
  else match promoteArgs value count with
    | .fixnums value count =>
      if (xrealfixnum count).toInt ≤ 0 then
        .ok (makeFixnum ((xrealfixnum value).sshiftRight (-(xrealfixnum count).toInt).toNat))
      else
        .ok (LispNumber.canonicalizeNumber
          (.bignum (bignumLshift (xrealfixnum value).toInt (xrealfixnum count).toInt.toNat)))
    | .bignums value count =>
      if count ≤ 0 then
        if !bignumFitsUlongP v (-count) then .error (shiftCountError count)
        else .ok (LispNumber.canonicalizeNumber (.bignum (bignumRshift value (-count).toNat)))
      else if !bignumFitsUlongP v count then .error (shiftCountError count)
      else .ok (LispNumber.canonicalizeNumber (.bignum (bignumLshift value count.toNat)))
    -- Not reached: both arguments are integers.
    | .ratios _ _ => .error (.wrongTypeArgument .integerp count)

def shifted (value : ℚ) (count : ℤ) : ℤ := ⌊value * 2 ^ count⌋

section Exact

variable {n count : ℤ}

theorem shifted_of_nonneg (h : 0 ≤ count) : shifted n count = n * 2 ^ count.toNat := by
  obtain ⟨k, rfl⟩ := Int.eq_ofNat_of_zero_le h
  rw [shifted, zpow_natCast, Int.toNat_natCast, Int.floor_eq_iff]
  push_cast
  exact ⟨le_rfl, lt_add_one _⟩

theorem shifted_of_nonpos (h : count ≤ 0) : shifted n count = n / 2 ^ (-count).toNat := by
  obtain ⟨k, hk⟩ := Int.eq_ofNat_of_zero_le (neg_nonneg.mpr h)
  obtain rfl : count = -(k : ℤ) := by rw [← neg_neg count, hk]
  rw [shifted, neg_neg, Int.toNat_natCast, zpow_neg, zpow_natCast, ← div_eq_mul_inv]
  exact_mod_cast Rat.floor_intCast_div_natCast n (2 ^ k)

end Exact

section Ash

variable {value count : BitVec v}

theorem fash_fixnum (value count : BitVec v) :
    fash (.number (.fixnum value)) (.number (.fixnum count)) =
      .ok (if 0 ≤ count.toInt then makeFixnum (xrealfixnum value <<< count.toInt.toNat)
        else makeFixnum (xrealfixnum value >>> (-count.toInt).toNat)) := by
  change (if natnump (.fixnum count) = true then
      Except.ok (makeFixnum (xrealfixnum value <<< (xrealfixnum count).toInt.toNat))
    else Except.ok (makeFixnum (xrealfixnum value >>> (-(xrealfixnum count).toInt).toNat))) = _
  rw [xrealfixnum_toInt, natnump]
  by_cases h : 0 ≤ count.toInt
  · rw [if_pos (decide_eq_true h), if_pos h]
  · rw [if_neg (by rwa [decide_eq_true_iff]), if_neg h]

theorem makeFixnum_shiftLeft (value : BitVec v) (bits : ℕ) :
    makeFixnum (xrealfixnum value <<< bits) =
      .fixnum (BitVec.ofInt v (value.toInt * 2 ^ bits)) := by
  have hdvd : (2 : ℤ) ^ v ∣ 2 ^ (v + 1) := pow_dvd_pow 2 (Nat.le_succ v)
  have hunsigned := hdvd.trans (Lib.Words.toInt_sub_toNat_dvd (xrealfixnum value))
  have hcut : (2 : ℤ) ^ v ∣ (xrealfixnum value <<< bits).toNat -
      (xrealfixnum value).toNat * 2 ^ bits := by
    rw [BitVec.toNat_shiftLeft, Nat.shiftLeft_eq]
    push_cast
    exact hdvd.trans (Int.dvd_emod_sub_self)
  rw [makeFixnum, Lib.Words.setWidth_eq_ofInt_toNat, LispNumber.fixnum.injEq,
    Lib.Words.ofInt_eq_ofInt_iff]
  rw [xrealfixnum_toInt] at hunsigned
  have := dvd_sub hcut (hunsigned.mul_right (2 ^ bits))
  rwa [sub_mul, sub_sub_sub_cancel_right] at this

theorem makeFixnum_shiftRight (value : BitVec v) (bits : ℕ) :
    makeFixnum (xrealfixnum value >>> bits) =
      .fixnum (BitVec.ofInt v ((xrealfixnum value).toNat / 2 ^ bits)) := by
  rw [makeFixnum, Lib.Words.setWidth_eq_ofInt_toNat, BitVec.toNat_ushiftRight,
    Nat.shiftRight_eq_div_pow]
  push_cast
  rfl

theorem makeFixnum_shiftRight_iff {bits : ℕ} (hbits : bits ≤ v) :
    makeFixnum (xrealfixnum value >>> bits) =
        .fixnum (BitVec.ofInt v (value.toInt / 2 ^ bits)) ↔
      0 ≤ value.toInt ∨ bits ≤ 1 := by
  rw [makeFixnum_shiftRight, LispNumber.fixnum.injEq]
  by_cases hvalue : 0 ≤ value.toInt
  · rw [Lib.Words.toNat_of_nonneg (by rwa [xrealfixnum_toInt]), xrealfixnum_toInt]
    exact iff_of_true rfl (.inl hvalue)
  · have hpow : (2 : ℤ) ^ (v + 1) = 2 ^ (v + 1 - bits) * 2 ^ bits := by
      rw [← pow_add, Nat.sub_add_cancel (by omega)]
    rw [Lib.Words.toNat_of_neg (by rw [xrealfixnum_toInt]; omega), xrealfixnum_toInt, hpow,
      Int.add_mul_ediv_right _ _ (by positivity), Lib.Words.ofInt_eq_ofInt_iff,
      add_sub_cancel_left]
    have hle : (2 : ℤ) ^ v ∣ 2 ^ (v + 1 - bits) ↔ v ≤ v + 1 - bits := by
      exact_mod_cast Nat.pow_dvd_pow_iff_le_right (by decide : 1 < 2)
    rw [hle]
    omega

theorem fash_eq_iff (hcount : |count.toInt| < v + 1) :
    fash (.number (.fixnum value)) (.number (.fixnum count)) =
        .ok (.fixnum (BitVec.ofInt v (shifted value.toInt count.toInt))) ↔
      0 ≤ value.toInt ∨ -1 ≤ count.toInt := by
  rw [fash_fixnum, Except.ok.injEq]
  by_cases h : 0 ≤ count.toInt
  · rw [if_pos h, makeFixnum_shiftLeft, shifted_of_nonneg h]
    exact iff_of_true rfl (.inr (by omega))
  · rw [abs_of_neg (by omega)] at hcount
    rw [if_neg h, shifted_of_nonpos (by omega), makeFixnum_shiftRight_iff (by omega)]
    exact or_congr_right (by omega)

end Ash

section Lsh

variable {count : BitVec v}

theorem bignumFitsUlongP_iff {data : ℤ} :
    bignumFitsUlongP v data = true ↔ 0 ≤ data ∧ data ≤ ulongMax v :=
  decide_eq_true_iff

theorem Fits.shiftRight {n : ℤ} (h : Fits v n) (hn : 0 ≤ n) (bits : ℕ) :
    Fits v (n / 2 ^ bits) := by
  have hle : n / 2 ^ bits ≤ n := Int.ediv_le_self _ hn
  have hnonneg : 0 ≤ n / 2 ^ bits := Int.ediv_nonneg hn (Lib.Words.two_pow_pos bits).le
  have := Lib.Words.two_pow_pos (v - 1)
  exact ⟨by omega, by have := h.2; omega⟩

theorem flsh_fixnum {value : BitVec v} (hvalue : 0 ≤ value.toInt) :
    flsh (.number (.fixnum value)) (.number (.fixnum count)) =
      .ok (.canonicalizeBignum (shifted value.toInt count.toInt)) := by
  simp only [flsh, integerCharOrMarkerP, integerObjectP, LispNumber.integerp, Bool.not_true,
    Bool.false_eq_true, if_false, promoteArgs, LispObject.toNumber, promoteNumbers,
    xrealfixnum_toInt]
  by_cases h : count.toInt ≤ 0
  · have hshift : ((xrealfixnum value).sshiftRight (-count.toInt).toNat).toInt =
        value.toInt / 2 ^ (-count.toInt).toNat := by
      rw [BitVec.toInt_sshiftRight, xrealfixnum_toInt, Int.shiftRight_eq_div_pow]
      push_cast
      rfl
    have hfits := Fits.shiftRight (fits_value value) hvalue (-count.toInt).toNat
    rw [if_pos h, shifted_of_nonpos h, makeFixnum_eq, hshift,
      LispNumber.canonicalizeBignum_of_fits hfits]
  · rw [if_neg h, shifted_of_nonneg (by omega)]
    rfl

theorem flsh_bignum (data : ℤ) (hcount : |count.toInt| < v + 1) :
    flsh (.number (.bignum data)) (.number (.fixnum count)) =
      .ok (.canonicalizeBignum (shifted data count.toInt)) := by
  have hlt : (v + 1 : ℤ) < 2 ^ (v + 1) := by exact_mod_cast Nat.lt_two_pow_self
  have hlong : |count.toInt| ≤ ulongMax v := by
    rw [ulongMax]
    omega
  simp only [flsh, integerCharOrMarkerP, integerObjectP, LispNumber.integerp, Bool.not_true,
    Bool.false_eq_true, if_false, promoteArgs, LispObject.toNumber, promoteNumbers,
    xrealfixnum_toInt]
  by_cases h : count.toInt ≤ 0
  · rw [abs_of_nonpos h] at hlong
    rw [if_pos h, bignumFitsUlongP_iff.mpr ⟨by omega, hlong⟩, if_neg (by decide),
      shifted_of_nonpos h, bignumRshift,
      Int.fdiv_eq_ediv_of_nonneg _ (Lib.Words.two_pow_pos _).le]
    rfl
  · rw [abs_of_pos (by omega)] at hlong
    rw [if_neg h, bignumFitsUlongP_iff.mpr ⟨by omega, hlong⟩, if_neg (by decide),
      shifted_of_nonneg (by omega)]
    rfl

end Lsh

/-- `lsh` shifts every nonnegative integer exactly; `ash` shifts a fixnum unless it moves a negative
one to the right by more than one bit. -/
theorem fash_and_flsh_shifted (hbits : 0 < v) :
    (∀ value count : BitVec v, |count.toInt| < v + 1 →
      (fash (.number (.fixnum value)) (.number (.fixnum count)) =
          .ok (.fixnum (BitVec.ofInt v (shifted value.toInt count.toInt))) ↔
        0 ≤ value.toInt ∨ -1 ≤ count.toInt)) ∧
    ∀ (value : LispNumber v) (count : BitVec v), value.integerp → 0 ≤ value.value →
      |count.toInt| < v + 1 →
      ∃ result, flsh (.number value) (.number (.fixnum count)) = .ok result ∧
        result.Canonical ∧ result.value = shifted value.value count.toInt := by
  refine ⟨fun value count hcount => fash_eq_iff hcount, fun value count hinteger hvalue hcount => ?_⟩
  refine ⟨.canonicalizeBignum (shifted value.value count.toInt), ?_,
    LispNumber.canonicalizeBignum_canonical _, LispNumber.canonicalizeBignum_value hbits _⟩
  cases value with
  | fixnum val =>
    rw [LispNumber.value] at hvalue
    exact flsh_fixnum (by exact_mod_cast hvalue)
  | bignum data => exact flsh_bignum data hcount
  | ratio data => exact absurd hinteger Bool.false_ne_true

theorem fash_and_flsh_shifted_sixtyThree :
    fash (.number (.fixnum (63 : BitVec 63))) (.number (.fixnum (-2 : BitVec 63))) =
        .ok (.fixnum (BitVec.ofInt 63 (shifted (BitVec.toInt (63 : BitVec 63)) (-2)))) ∧
      ∃ result, flsh (v := 63) (.number (.bignum (2 ^ 70))) (.number (.fixnum (-2))) =
        .ok result ∧ result.Canonical ∧ result.value = shifted (LispNumber.value (v := 63)
          (.bignum (2 ^ 70))) (-2) := by
  have h := fash_and_flsh_shifted (v := 63) (by decide)
  exact ⟨(h.1 63 (-2) (by decide)).mpr (by decide),
    h.2 (.bignum (2 ^ 70)) (-2) rfl (by rw [LispNumber.value]; norm_num) (by decide)⟩

/-- A shift of a negative fixnum by two bits, to the right. -/
theorem fash_ne_shifted : ¬∀ value count : BitVec 63, |count.toInt| < 63 + 1 →
    fash (.number (.fixnum value)) (.number (.fixnum count)) =
      .ok (.fixnum (BitVec.ofInt 63 (shifted value.toInt count.toInt))) := by
  intro h
  exact absurd (h (-8) (-2) (by decide)) (by decide +kernel)

end XEmacs.Number
