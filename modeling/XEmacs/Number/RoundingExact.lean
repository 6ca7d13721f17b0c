import XEmacs.Number.RoundingLaws

/-! The rounding functions on every pair of numbers: the law of division, canonical results, and
the one pair of fixnums whose quotient is no fixnum. -/

namespace XEmacs.Number

open Lib (Rounding SameSide)
open Lib.Words (Fits)

variable {v : ℕ} {m : Rounding}

/-- What a rounding function is to return. -/
def DivisionLaw (m : Rounding) (number divisor : LispNumber v)
    (result : Except (LispError v) (Values v)) : Prop :=
  ∃ quotient remainder : LispNumber v, result = .ok (quotient, remainder) ∧
    quotient.Canonical ∧ remainder.Canonical ∧
    ∃ q : ℤ, quotient.value = q ∧ m.Law number.value divisor.value q remainder.value

theorem DivisionLaw.unique {number divisor number' divisor' : LispNumber v}
    {result result' : Except (LispError v) (Values v)}
    (h : DivisionLaw m number divisor result) (h' : DivisionLaw m number' divisor' result')
    (hnumber : number.value = number'.value) (hdivisor : divisor.value = divisor'.value) :
    result = result' := by
  obtain ⟨quotient, remainder, rfl, hquotient, hremainder, q, hq, hlaw⟩ := h
  obtain ⟨quotient', remainder', rfl, hquotient', hremainder', q', hq', hlaw'⟩ := h'
  rw [← hnumber, ← hdivisor] at hlaw'
  obtain ⟨rfl, hr⟩ := hlaw.unique hlaw'
  rw [hquotient.eq_of_value hquotient' (hq.trans hq'.symm), hremainder.eq_of_value hremainder' hr]

section Fixnums

variable {n d : BitVec v} {q r : ℤ}

theorem Law.fits_quotient_iff (hbits : 1 < v) (h : m.Law n.toInt d.toInt q r) :
    Fits v q ↔ ¬(n.toInt = -2 ^ (v - 1) ∧ d.toInt = -1) := by
  have hn := fits_value n
  have hne := h.ne_zero
  have hdivision := h.division
  have hsmaller := h.smaller
  rw [Int.cast_id] at hdivision
  have htwo : (2 : ℤ) ≤ 2 ^ (v - 1) := by
    exact_mod_cast Nat.pow_le_pow_right (by decide : 0 < 2) (by omega : 1 ≤ v - 1)
  unfold Fits at hn ⊢
  generalize (2 : ℤ) ^ (v - 1) = bound at *
  by_cases hone : |d.toInt| = 1
  · have hr : r = 0 := Int.abs_lt_one_iff.mp (hone ▸ hsmaller)
    subst hr
    obtain hd | hd := (abs_eq zero_le_one).mp hone
    · rw [hd] at hdivision ⊢
      omega
    · rw [hd] at hdivision ⊢
      omega
  · have hpos : 0 < |d.toInt| := abs_pos.mpr hne
    have hproduct : |q| * |d.toInt| < |n.toInt| + |d.toInt| := by
      rw [← abs_mul, show q * d.toInt = n.toInt - r by omega]
      have := abs_sub n.toInt r
      omega
    have hquotient : (|q| - 1) * 2 < |n.toInt| := by
      by_contra hle
      have hnonneg : 0 ≤ |q| - 1 := by
        have := abs_nonneg n.toInt
        omega
      have := mul_le_mul_of_nonneg_left (by omega : 2 ≤ |d.toInt|) hnonneg
      nlinarith
    have hbound : |n.toInt| ≤ bound := abs_le.mpr ⟨hn.1, hn.2.le⟩
    have hd : d.toInt ≠ -1 := by
      rintro hd
      exact hone (by rw [hd]; decide)
    have hq : |q| < bound := by omega
    rw [abs_lt] at hq
    omega

theorem fixnums_divisionLaw_iff (hbits : 1 < v) (hd : d.toInt ≠ 0) :
    DivisionLaw m (.fixnum n) (.fixnum d) ((conversion m).fixnums n d) ↔
      ¬(n.toInt = -2 ^ (v - 1) ∧ d.toInt = -1) := by
  obtain ⟨q, r, hlaw, hresult⟩ := fixnums_computes hbits hd m (n := n)
  have hr := makeFixnum_value_of_fits (by omega) (Law.fits_remainder hlaw)
  rw [← Law.fits_quotient_iff hbits hlaw, hresult]
  constructor
  · rintro ⟨quotient, remainder, hvalues, -, -, q', hq', hlaw'⟩
    obtain ⟨rfl, rfl⟩ := Prod.mk.inj (Except.ok.inj hvalues)
    rw [hr] at hlaw'
    obtain ⟨rfl, -⟩ := hlaw.ratCast.unique hlaw'
    rw [makeFixnum_eq, LispNumber.value] at hq'
    rw [← show (BitVec.ofInt v q.toInt).toInt = q.toInt by exact_mod_cast hq']
    exact Lib.Words.fits_toInt _
  · intro hfits
    refine ⟨_, _, rfl, trivial, trivial, q.toInt, makeFixnum_value_of_fits (by omega) hfits, ?_⟩
    rw [hr]
    exact hlaw.ratCast

end Fixnums

section Bignums

variable {n d q r : ℤ}

theorem quotient_law (hd : d ≠ 0) :
    Rounding.floor.Law n d (bignumFloor n d) (n - bignumFloor n d * d) ∧
      Rounding.ceiling.Law n d (bignumCeil n d) (n - bignumCeil n d * d) ∧
      Rounding.truncate.Law n d (bignumDiv n d) (n - bignumDiv n d * d) := by
  refine ⟨Rounding.floor_fdiv hd, ?_, Rounding.truncate_tdiv hd⟩
  have h := (Rounding.floor_fdiv (n := -n) hd).ceiling_neg
  rwa [bignumCeil, show n - -(-n).fdiv d * d = -(-n - (-n).fdiv d * d) by ring]

theorem qzero_value : (qzero : LispNumber v).value = 0 := by
  rw [qzero, LispNumber.value, show (0 : BitVec v).toInt = 0 from BitVec.toInt_zero,
    Int.cast_zero]

theorem bignumDivisibleP_iff : bignumDivisibleP n d = true ↔ d ∣ n := decide_eq_true_iff

theorem bignumTestbit_zero_iff : 1 = bignumTestbit n 0 ↔ ¬Even n := by
  rw [bignumTestbit, pow_zero, Int.ediv_one, Int.not_even_iff, eq_comm]

theorem divisionLaw_of_law (hbits : 0 < v) (h : m.Law n d q r) :
    DivisionLaw (v := v) m (.bignum n) (.bignum d) (.ok
      (.canonicalizeNumber (.bignum q),
        if bignumDivisibleP n d then qzero else .canonicalizeNumber (.bignum r))) := by
  refine ⟨_, _, rfl, LispNumber.canonicalizeBignum_canonical q, ?_, q,
    LispNumber.canonicalizeBignum_value hbits q, ?_⟩
  · split
    · trivial
    · exact LispNumber.canonicalizeBignum_canonical r
  · by_cases hdvd : d ∣ n
    · rw [if_pos (bignumDivisibleP_iff.mpr hdvd), qzero_value]
      obtain rfl := h.remainder_eq_zero_iff.mpr hdvd
      exact_mod_cast h.ratCast
    · rw [if_neg (mt bignumDivisibleP_iff.mp hdvd), LispNumber.canonicalizeNumber,
        LispNumber.canonicalizeBignum_value hbits]
      exact h.ratCast

theorem twoBignum_divisionLaw (hbits : 0 < v) {operator : String} {quotient : ℤ → ℤ → ℤ}
    (hd : d ≠ 0) (h : m.Law n d (quotient n d) (n - quotient n d * d)) :
    DivisionLaw (v := v) m (.bignum n) (.bignum d)
      (twoBignum operator quotient n d) := by
  have hlaw := divisionLaw_of_law hbits h
  rw [twoBignum, if_neg hd]
  by_cases hdvd : bignumDivisibleP n d
  · rwa [if_pos hdvd] at hlaw ⊢
  · rwa [if_neg hdvd] at hlaw ⊢

theorem roundTwoBignum1_law (hd : d ≠ 0) : ∃ q r : ℤ, Rounding.round.Law n d q r ∧
    roundTwoBignum1 (v := v) n d =
      (q, if bignumDivisibleP n d then qzero else .bignum r) := by
  by_cases hdvd : bignumDivisibleP n d
  · obtain ⟨k, hk⟩ : d ∣ n := of_decide_eq_true hdvd
    have hdiv : bignumDiv n d = k := by rw [bignumDiv, hk, Int.mul_tdiv_cancel_left k hd]
    refine ⟨k, 0, ⟨by rw [hk, Int.cast_id]; ring, by simpa using hd, by simp, ?_⟩, ?_⟩
    · intro h
      rw [mul_zero, abs_zero, eq_comm, abs_eq_zero] at h
      exact absurd h hd
    · rw [roundTwoBignum1, if_pos hdvd, if_pos hdvd, hdiv]
  · have hround := Rounding.Law.round_of_floor (Rounding.floor_fdiv (n := d.tdiv 2 + n) hd)
    refine ⟨_, _, hround, ?_⟩
    rw [roundTwoBignum1, if_neg hdvd, if_neg hdvd]
    dsimp only [bignumDiv, bignumFloor]
    simp only [bignumTestbit_zero_iff]
    split <;> rfl

theorem roundTwoBignum_divisionLaw (hbits : 0 < v) (hd : d ≠ 0) :
    DivisionLaw (v := v) .round (.bignum n) (.bignum d) (roundTwoBignum n d) := by
  obtain ⟨q, r, hlaw, hround⟩ := roundTwoBignum1_law (v := v) hd (n := n)
  have h := divisionLaw_of_law hbits hlaw
  rw [roundTwoBignum, if_neg hd, hround]
  dsimp only
  by_cases hdvd : bignumDivisibleP n d
  · rwa [if_pos hdvd] at h ⊢
  · rwa [if_neg hdvd] at h ⊢

theorem bignums_divisionLaw (hbits : 0 < v) (hd : d ≠ 0) (m : Rounding) :
    DivisionLaw (v := v) m (.bignum n) (.bignum d) ((conversion m).bignums n d) := by
  obtain ⟨hfloor, hceiling, htruncate⟩ := quotient_law (n := n) hd
  cases m with
  | floor => exact twoBignum_divisionLaw hbits hd hfloor
  | ceiling => exact twoBignum_divisionLaw hbits hd hceiling
  | truncate => exact twoBignum_divisionLaw hbits hd htruncate
  | round => exact roundTwoBignum_divisionLaw hbits hd

end Bignums

section Ratios

variable {n d : ℚ} {q r : ℤ}

theorem law_of_num_den (hd : d ≠ 0) (h : m.Law (n / d).num (n / d).den q r) :
    m.Law n d q (n - q * d) := by
  have hden : ((n / d).den : ℚ) ≠ 0 := by exact_mod_cast (n / d).den_ne_zero
  have hscale := h.ratCast.mul_right (div_ne_zero hd hden)
  have hnumber : ((n / d).num : ℚ) * (d / (n / d).den) = n := by
    rw [mul_div_assoc', mul_comm, mul_div_assoc, Rat.num_div_den, mul_div_cancel₀ n hd]
  have hdivisor : (((n / d).den : ℤ) : ℚ) * (d / (n / d).den) = d := by
    push_cast
    exact mul_div_cancel₀ d hden
  rw [hnumber, hdivisor] at hscale
  have hremainder : n - q * d = r * (d / (n / d).den) := by linear_combination hscale.division
  rwa [hremainder]

theorem ratio_divisionLaw (hbits : 0 < v) (hd : d ≠ 0)
    (h : m.Law (n / d).num (n / d).den q r) :
    DivisionLaw (v := v) m (.ratio n) (.ratio d) (.ok
      (.canonicalizeNumber (.bignum q),
        if bignumDivisibleP (n / d).num (n / d).den then qzero
        else .canonicalizeNumber (.ratio (n - q * d)))) := by
  have hlaw := law_of_num_den hd h
  refine ⟨_, _, rfl, LispNumber.canonicalizeBignum_canonical q, ?_, q,
    LispNumber.canonicalizeBignum_value hbits q, ?_⟩
  · split
    · trivial
    · exact LispNumber.canonicalizeNumber_canonical _
  · by_cases hdvd : bignumDivisibleP (n / d).num (n / d).den
    · obtain rfl := h.remainder_eq_zero_iff.mpr (bignumDivisibleP_iff.mp hdvd)
      rw [if_pos hdvd, qzero_value]
      have hzero : n - q * d = 0 := by
        have hx : n / d = q := by
          rw [← Rat.num_div_den (n / d), div_eq_iff (by exact_mod_cast (n / d).den_ne_zero)]
          have := h.division
          rw [Int.cast_id, add_zero] at this
          exact_mod_cast this
        rw [← hx, div_mul_cancel₀ n hd, sub_self]
      rwa [hzero] at hlaw
    · rw [if_neg hdvd, LispNumber.canonicalizeNumber_value hbits]
      exact hlaw

theorem twoRatio_divisionLaw (hbits : 0 < v) {operator : String} {quotient : ℤ → ℤ → ℤ}
    (hd : d ≠ 0) (h : m.Law (n / d).num (n / d).den (quotient (n / d).num (n / d).den)
      ((n / d).num - quotient (n / d).num (n / d).den * (n / d).den)) :
    DivisionLaw (v := v) m (.ratio n) (.ratio d) (twoRatio operator quotient n d) := by
  have hlaw := ratio_divisionLaw hbits hd h
  rw [twoRatio, if_neg hd]
  dsimp only
  by_cases hdvd : bignumDivisibleP (n / d).num (n / d).den
  · rwa [if_pos hdvd] at hlaw ⊢
  · rwa [if_neg hdvd] at hlaw ⊢

theorem roundTwoRatio_divisionLaw (hbits : 0 < v) (hd : d ≠ 0) :
    DivisionLaw (v := v) .round (.ratio n) (.ratio d) (roundTwoRatio n d) := by
  have hden : ((n / d).den : ℤ) ≠ 0 := by exact_mod_cast (n / d).den_ne_zero
  obtain ⟨q, r, hround, hresult⟩ :=
    roundTwoBignum1_law (v := v) hden (n := (n / d).num)
  have hlaw := ratio_divisionLaw hbits hd hround
  rw [roundTwoRatio, if_neg hd]
  dsimp only
  rw [hresult]
  dsimp only
  by_cases hdvd : bignumDivisibleP (n / d).num (n / d).den
  · rwa [if_pos hdvd] at hlaw ⊢
  · have hne : (LispNumber.bignum r : LispNumber v) ≠ qzero := by simp [qzero]
    rw [if_neg hdvd] at hlaw
    rwa [if_neg hdvd, if_neg hne]

theorem ratios_divisionLaw (hbits : 0 < v) (hd : d ≠ 0) (m : Rounding) :
    DivisionLaw (v := v) m (.ratio n) (.ratio d) ((conversion m).ratios n d) := by
  have hden : ((n / d).den : ℤ) ≠ 0 := by exact_mod_cast (n / d).den_ne_zero
  obtain ⟨hfloor, hceiling, htruncate⟩ := quotient_law (n := (n / d).num) hden
  cases m with
  | floor => exact twoRatio_divisionLaw hbits hd hfloor
  | ceiling => exact twoRatio_divisionLaw hbits hd hceiling
  | truncate => exact twoRatio_divisionLaw hbits hd htruncate
  | round => exact roundTwoRatio_divisionLaw hbits hd

end Ratios

def roundingFunction : Rounding → LispObject v → LispObject v →
    Except (LispError v) (Values v)
  | .floor => ffloor
  | .ceiling => fceiling
  | .truncate => ftruncate
  | .round => fround

theorem roundingFunction_eq (m : Rounding) (number divisor : LispObject v) :
    roundingFunction m number divisor = roundingConvert (conversion m) number divisor := by
  cases m <;> rfl

theorem toInt_neg_one (hbits : 0 < v) : (-1 : BitVec v).toInt = -1 := by
  change (-BitVec.ofNat v 1).toInt = -1
  rw [BitVec.neg_one_eq_allOnes, BitVec.toInt_allOnes, if_pos hbits]

section Functions

variable {number divisor : LispNumber v}

theorem DivisionLaw.congr {number' divisor' : LispNumber v}
    {result : Except (LispError v) (Values v)} (h : DivisionLaw m number' divisor' result)
    (hnumber : number.value = number'.value) (hdivisor : divisor.value = divisor'.value) :
    DivisionLaw m number divisor result := by
  rwa [DivisionLaw, hnumber, hdivisor]

theorem roundingFunction_divisionLaw_iff (hbits : 1 < v) (hd : divisor.value ≠ 0) :
    DivisionLaw m number divisor (roundingFunction m (.number number) (.number divisor)) ↔
      ¬(number = .fixnum (BitVec.intMin v) ∧ divisor = .fixnum (-1)) := by
  have hof := promoteNumbers_of number divisor
  rw [roundingFunction_eq, roundingConvert]
  simp only [promoteArgs, LispObject.toNumber]
  cases hpromoted : promoteNumbers number divisor with
  | fixnums n d =>
    rw [hpromoted] at hof
    obtain ⟨rfl, rfl⟩ := hof
    have hne : d.toInt ≠ 0 := fun h => hd (by rw [LispNumber.value, h, Int.cast_zero])
    rw [LispNumber.fixnum.injEq, LispNumber.fixnum.injEq, ← BitVec.toInt_inj,
      ← BitVec.toInt_inj (y := -1), BitVec.toInt_intMin_of_pos (by omega), toInt_neg_one (by omega)]
    exact fixnums_divisionLaw_iff hbits hne
  | bignums n d =>
    rw [hpromoted] at hof
    rw [hof.2] at hd
    refine iff_of_true ((bignums_divisionLaw (by omega) (by exact_mod_cast hd) m).congr hof.1 hof.2)
      ?_
    rintro ⟨rfl, rfl⟩
    simp [promoteNumbers] at hpromoted
  | ratios n d =>
    rw [hpromoted] at hof
    rw [hof.2] at hd
    refine iff_of_true ((ratios_divisionLaw (by omega) hd m).congr hof.1 hof.2) ?_
    rintro ⟨rfl, rfl⟩
    simp [promoteNumbers] at hpromoted

theorem coerceToBignum_value (hinteger : number.integerp) :
    number.coerceToBignum.value = number.value := by
  cases number with
  | fixnum val => rw [LispNumber.coerceToBignum, LispNumber.value, xrealfixnum_toInt]; rfl
  | bignum data => rfl
  | ratio data => exact absurd hinteger Bool.false_ne_true

theorem coerceToBignum_ne_fixnum {val : BitVec v} :
    number.coerceToBignum ≠ .fixnum val := by
  cases number <;> simp [LispNumber.coerceToBignum]

end Functions

/-- Integers obey the law of division, and the path that finds the quotient makes no difference to
it, except for the least fixnum divided by minus one. -/
theorem integer_division_iff (hbits : 1 < v) (m : Rounding)
    (number divisor : LispNumber v) (hnumber : number.integerp) (hdivisor : divisor.integerp)
    (hne : divisor.value ≠ 0) :
    (DivisionLaw m number divisor (roundingFunction m (.number number) (.number divisor)) ∧
      roundingFunction m (.number number) (.number divisor) =
        roundingFunction m (.number number.coerceToBignum) (.number divisor.coerceToBignum)) ↔
      ¬(number = .fixnum (BitVec.intMin v) ∧ divisor = .fixnum (-1)) := by
  rw [← roundingFunction_divisionLaw_iff hbits hne, and_iff_left_iff_imp]
  intro hlaw
  have hnumber' := coerceToBignum_value hnumber
  have hdivisor' := coerceToBignum_value hdivisor
  have hlaw' : DivisionLaw m number.coerceToBignum divisor.coerceToBignum _ :=
    (roundingFunction_divisionLaw_iff hbits (hdivisor' ▸ hne)).mpr
      fun h => coerceToBignum_ne_fixnum h.1
  exact hlaw.unique hlaw' hnumber'.symm hdivisor'.symm

theorem integer_division_iff_seven :
    (DivisionLaw .round (.fixnum (-7 : BitVec 63)) (.bignum 2) (roundingFunction .round
        (.number (.fixnum (-7 : BitVec 63))) (.number (.bignum 2))) ∧
      roundingFunction .round (.number (.fixnum (-7 : BitVec 63))) (.number (.bignum 2)) =
        roundingFunction .round (.number (LispNumber.fixnum (-7 : BitVec 63)).coerceToBignum)
          (.number (LispNumber.bignum 2).coerceToBignum)) ↔
      ¬((.fixnum (-7 : BitVec 63) : LispNumber 63) = .fixnum (BitVec.intMin 63) ∧
        (.bignum 2 : LispNumber 63) = .fixnum (-1)) :=
  integer_division_iff (by decide) .round _ _ rfl rfl (by rw [LispNumber.value]; norm_num)

/-- The least fixnum is returned as its own quotient by minus one. -/
theorem floor_least_fixnum :
    ffloor (.number (.fixnum (BitVec.intMin 63))) (.number (.fixnum (-1 : BitVec 63))) =
        .ok (.fixnum (BitVec.intMin 63), .fixnum 0) ∧
      ¬DivisionLaw .floor (.fixnum (BitVec.intMin 63)) (.fixnum (-1 : BitVec 63))
        (ffloor (.number (.fixnum (BitVec.intMin 63))) (.number (.fixnum (-1 : BitVec 63)))) := by
  refine ⟨by decide +kernel, fun h => ?_⟩
  exact (roundingFunction_divisionLaw_iff (by decide) (by decide)).mp h ⟨rfl, rfl⟩

end XEmacs.Number
