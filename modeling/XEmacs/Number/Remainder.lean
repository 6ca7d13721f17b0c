import XEmacs.Number.RoundingExact

/-! `/`, `%` and `mod`. Each type of number has its own branch; the branches of `mod` for bignums
and ratios keep the sign that the number library gives a remainder. -/

namespace XEmacs.Number

open Lib (Rounding SameSide)
open Lib.Words (Fits)

variable {v : ℕ}

section Functions

/-- A turn of the loop of `Fquo`. -/
def quoStep (accum divisor : LispObject v) : Except (LispError v) (LispObject v) :=
  match promoteArgs accum divisor with
  | .fixnums accum divisor =>
    if (xrealfixnum divisor).toInt = 0 then .error .arithError
    else .ok (.number (makeInteger ((xrealfixnum accum).sdiv (xrealfixnum divisor))))
  | .bignums accum divisor =>
    if divisor = 0 then .error .arithError
    else .ok (.number (.bignum (bignumDiv accum divisor)))
  | .ratios accum divisor =>
    if divisor = 0 then .error .arithError
    else .ok (.number (.ratio (accum / divisor)))

def quoLoop (accum : LispObject v) :
    List (LispObject v) → Except (LispError v) (LispObject v)
  | [] => .ok accum
  | divisor :: divisors => do quoLoop (← quoStep accum divisor) divisors

def fquo (first : LispObject v) (args : List (LispObject v)) :
    Except (LispError v) (LispNumber v) := do
  let accum ← if args = [] then quoLoop (.number (.fixnum 1)) [first] else quoLoop first args
  return accum.toNumber.canonicalizeNumber

def remTwoFixnum (number1 number2 : EmacsInt v) :
    Except (LispError v) (LispNumber v) :=
  if number2.toInt = 0 then .error .arithError
  else
    let sign : EmacsInt v := if number1.toInt < 0 then -1 else 1
    let val1 := if number1.toInt < 0 then -number1 else number1
    let val2 := if number2.toInt < 0 then -number2 else number2
    -- The remainder is that of unsigned words.
    .ok (makeFixnum (val1.umod val2 * sign))

/-- `mpz_mod`: the remainder is never negative. -/
def bignumMod (number divisor : ℤ) : ℤ := number % divisor

def frem (number1 number2 : LispObject v) : Except (LispError v) (LispNumber v) :=
  if !integerCharOrMarkerP number1 then .error (.wrongTypeArgument .integerCharOrMarkerP number1)
  else if !integerCharOrMarkerP number2 then
    .error (.wrongTypeArgument .integerCharOrMarkerP number2)
  else match promoteArgs number1 number2 with
    | .fixnums number1 number2 => remTwoFixnum (xrealfixnum number1) (xrealfixnum number2)
    | .bignums number1 number2 =>
      if number2 = 0 then .error .arithError
      else if 0 ≤ number1 then
        .ok (LispNumber.canonicalizeNumber (.bignum (bignumMod number1 number2)))
      else .ok (LispNumber.canonicalizeNumber (.bignum (-bignumMod (-number1) number2)))
    -- Not reached: both arguments are integers.
    | .ratios _ _ => .error (.wrongTypeArgument .integerCharOrMarkerP number1)

def modTwoFixnum (x y : EmacsInt v) : Except (LispError v) (LispNumber v) :=
  if y.toInt = 0 then .error .arithError
  else
    let ival := x.srem y
    -- A remainder of the wrong sign is put right.
    .ok (makeFixnum (if if y.toInt < 0 then 0 < ival.toInt else ival.toInt < 0 then ival + y else ival))

def fmod (x y : LispObject v) : Except (LispError v) (LispNumber v) :=
  match promoteArgs x y with
  | .fixnums x y => modTwoFixnum (xrealfixnum x) (xrealfixnum y)
  | .bignums x y =>
    if y = 0 then .error .arithError
    else .ok (LispNumber.canonicalizeNumber (.bignum (bignumMod x y)))
  | .ratios x y =>
    if y = 0 then .error .arithError
    else
      let quotient := bignumDiv (x / y).num (x / y).den
      .ok (LispNumber.canonicalizeNumber (.ratio (x - quotient * y)))

end Functions

def promotedType (x y : LispNumber v) : NumberType :=
  match promoteNumbers x y with
  | .fixnums _ _ => .fixnumT
  | .bignums _ _ => .bignumT
  | .ratios _ _ => .ratioT

/-- What `mod` is to return: `x` less a multiple of `y`, between zero and `y`. -/
def ModLaw (x y r : ℚ) : Prop :=
  (∃ k : ℤ, r = x - y * k) ∧ (0 < y → 0 ≤ r ∧ r < y) ∧ (y < 0 → y < r ∧ r ≤ 0)

def ModCondition (x y : ℚ) : NumberType → Prop
  | .fixnumT => True
  | .bignumT => 0 < y ∨ ∃ k : ℤ, x = k * y
  | .ratioT => 0 ≤ x * y ∨ ∃ k : ℤ, x = k * y

def ModBranch (x y r : ℚ) : NumberType → Prop
  | .fixnumT => ∃ k : ℤ, Rounding.floor.Law x y k r
  | .bignumT => (∃ k : ℤ, x = k * y + r) ∧ 0 ≤ r ∧ r < |y|
  | .ratioT => ∃ k : ℤ, Rounding.truncate.Law x y k r

section Laws

variable {x y r r' : ℚ}

theorem modLaw_iff_floor (hy : y ≠ 0) : ModLaw x y r ↔ ∃ k : ℤ, Rounding.floor.Law x y k r := by
  constructor
  · rintro ⟨⟨k, hk⟩, hpos, hneg⟩
    refine ⟨k, by rw [hk]; ring, ?_, ?_⟩
    · obtain hy | hy := lt_or_gt_of_ne hy
      · rw [abs_of_nonpos (hneg hy).2, abs_of_neg hy]
        linarith [(hneg hy).1]
      · rw [abs_of_nonneg (hpos hy).1, abs_of_pos hy]
        exact (hpos hy).2
    · obtain hy | hy := lt_or_gt_of_ne hy
      · exact .inr ⟨(hneg hy).2, hy.le⟩
      · exact .inl ⟨(hpos hy).1, hy.le⟩
  · rintro ⟨k, hlaw⟩
    have hsmaller := hlaw.smaller
    have hside : SameSide r y := hlaw.side
    refine ⟨⟨k, by rw [eq_sub_iff_add_eq, mul_comm, add_comm, ← hlaw.division]⟩, fun hy => ?_,
      fun hy => ?_⟩
    · have hr : 0 ≤ r := hside.elim And.left fun h => absurd hy (not_lt.mpr h.2)
      rw [abs_of_nonneg hr, abs_of_pos hy] at hsmaller
      exact ⟨hr, hsmaller⟩
    · have hr : r ≤ 0 := hside.elim (fun h => absurd hy (not_lt.mpr h.2)) And.left
      rw [abs_of_nonpos hr, abs_of_neg hy] at hsmaller
      exact ⟨neg_lt_neg_iff.mp hsmaller, hr⟩

theorem ModLaw.unique (hy : y ≠ 0) (h : ModLaw x y r) (h' : ModLaw x y r') : r = r' := by
  obtain ⟨k, hk⟩ := (modLaw_iff_floor hy).mp h
  obtain ⟨k', hk'⟩ := (modLaw_iff_floor hy).mp h'
  exact (hk.unique hk').2

theorem modLaw_zero {k : ℤ} (h : x = k * y) : ModLaw x y 0 :=
  ⟨⟨k, by rw [h]; ring⟩, fun hy => ⟨le_rfl, hy⟩, fun hy => ⟨hy, le_rfl⟩⟩

theorem modLaw_iff_of_nonneg {k : ℤ} (hdivision : x = k * y + r) (hr : 0 ≤ r) (hlt : r < |y|) :
    ModLaw x y r ↔ 0 < y ∨ ∃ k : ℤ, x = k * y := by
  have hmultiple := Rounding.remainder_eq_zero_iff_mul hdivision (by rwa [abs_of_nonneg hr])
  constructor
  · intro h
    obtain hy | hy := lt_or_ge 0 y
    · exact .inl hy
    · have hne : y ≠ 0 := fun hzero => absurd hlt (by simp [hzero, hr])
      exact .inr (hmultiple.mp (le_antisymm (h.2.2 (lt_of_le_of_ne hy hne)).2 hr))
  · rintro (hy | hexact)
    · rw [abs_of_pos hy] at hlt
      exact ⟨⟨k, by rw [hdivision]; ring⟩, fun _ => ⟨hr, hlt⟩, fun h => absurd h hy.not_gt⟩
    · obtain rfl := hmultiple.mpr hexact
      obtain ⟨k, hk⟩ := hexact
      exact modLaw_zero hk

theorem modLaw_iff_of_truncate {k : ℤ} (h : Rounding.truncate.Law x y k r) :
    ModLaw x y r ↔ 0 ≤ x * y ∨ ∃ k : ℤ, x = k * y := by
  have hmultiple := Rounding.remainder_eq_zero_iff_mul h.division h.smaller
  have hside : SameSide r x := h.side
  constructor
  · intro hlaw
    by_cases hr : r = 0
    · exact .inr (hmultiple.mp hr)
    · left
      obtain hy | hy := lt_or_gt_of_ne h.ne_zero
      · have hneg := lt_of_le_of_ne (hlaw.2.2 hy).2 hr
        obtain hx | hx := hside
        · exact absurd hneg hx.1.not_gt
        · exact mul_nonneg_of_nonpos_of_nonpos hx.2 hy.le
      · have hpos := lt_of_le_of_ne (hlaw.2.1 hy).1 (Ne.symm hr)
        obtain hx | hx := hside
        · exact mul_nonneg hx.2 hy.le
        · exact absurd hpos hx.1.not_gt
  · rintro (hsign | hexact)
    · by_cases hx : x = 0
      · obtain rfl := hmultiple.mpr ⟨0, by simp [hx]⟩
        exact modLaw_zero (k := 0) (by simp [hx])
      · refine (modLaw_iff_floor h.ne_zero).mpr ⟨k, h.division, h.smaller, ?_⟩
        obtain hr | hr := hside
        · exact .inl ⟨hr.1, nonneg_of_mul_nonneg_right hsign (lt_of_le_of_ne hr.2 (Ne.symm hx))⟩
        · exact .inr ⟨hr.1, nonpos_of_mul_nonneg_right hsign (lt_of_le_of_ne hr.2 hx)⟩
    · obtain rfl := hmultiple.mpr hexact
      obtain ⟨k, hk⟩ := hexact
      exact modLaw_zero hk

theorem ModBranch.modLaw_iff {t : NumberType} (hy : y ≠ 0) (h : ModBranch x y r t) :
    ModLaw x y r ↔ ModCondition x y t := by
  cases t with
  | fixnumT => exact iff_of_true ((modLaw_iff_floor hy).mpr h) trivial
  | bignumT =>
    obtain ⟨⟨k, hk⟩, hr, hlt⟩ := h
    exact modLaw_iff_of_nonneg hk hr hlt
  | ratioT =>
    obtain ⟨k, hk⟩ := h
    exact modLaw_iff_of_truncate hk

end Laws

section Mod

variable {x y : LispNumber v}

theorem modTwoFixnum_branch {a b : BitVec v} (hb : b.toInt ≠ 0) :
    ∃ r : EmacsInt v, modTwoFixnum (xrealfixnum a) (xrealfixnum b) = .ok (makeFixnum r) ∧
      ∃ k : ℤ, Rounding.floor.Law a.toInt b.toInt k r.toInt := by
  have hmod := Lib.Words.toInt_srem (xrealfixnum_toInt a) (xrealfixnum_toInt b)
  have htruncated : a.toInt.tmod b.toInt = a.toInt - a.toInt.tdiv b.toInt * b.toInt := by
    rw [Int.tmod_def, mul_comm]
  have hlaw := Rounding.truncate_tdiv (n := a.toInt) hb
  have hsmaller := hlaw.smaller
  rw [← htruncated] at hsmaller hlaw
  refine ⟨_, by rw [modTwoFixnum, if_neg (by rwa [xrealfixnum_toInt])], ?_⟩
  rw [hmod, xrealfixnum_toInt]
  by_cases hsign : if b.toInt < 0 then 0 < a.toInt.tmod b.toInt else a.toInt.tmod b.toInt < 0
  · rw [if_pos hsign]
    have hfixed : Rounding.floor.Law a.toInt b.toInt (a.toInt.tdiv b.toInt - 1)
        (a.toInt.tmod b.toInt + b.toInt) := by
      refine ⟨by rw [htruncated, Int.cast_id]; ring, ?_, ?_⟩
      · split at hsign
        · rename_i hneg
          rw [abs_of_pos hsign, abs_of_neg hneg] at hsmaller
          rw [abs_of_neg (by omega), abs_of_neg hneg]
          omega
        · rw [abs_of_neg hsign, abs_of_nonneg (by omega)] at hsmaller
          rw [abs_of_nonneg (by omega), abs_of_nonneg (by omega)]
          omega
      · split at hsign
        · rename_i hneg
          rw [abs_of_pos hsign, abs_of_neg hneg] at hsmaller
          exact .inr ⟨by omega, by omega⟩
        · rw [abs_of_neg hsign, abs_of_nonneg (by omega)] at hsmaller
          exact .inl ⟨by omega, by omega⟩
    have hword := Lib.Words.toInt_add (Nat.succ_pos v) hmod (xrealfixnum_toInt b)
      ((Law.fits_remainder hfixed).mono (Nat.le_succ v))
    exact ⟨_, by rw [hword]; exact hfixed⟩
  · rw [if_neg hsign, hmod]
    refine ⟨a.toInt.tdiv b.toInt, by rw [htruncated, Int.cast_id]; ring, hsmaller, ?_⟩
    split at hsign
    · exact .inr ⟨not_lt.mp hsign, by omega⟩
    · exact .inl ⟨not_lt.mp hsign, by omega⟩

theorem fmod_branch (hbits : 0 < v) (hy : y.value ≠ 0) :
    ∃ r, fmod (.number x) (.number y) = .ok r ∧ r.Canonical ∧
      ModBranch x.value y.value r.value (promotedType x y) := by
  have hof := promoteNumbers_of x y
  rw [fmod, promotedType]
  simp only [promoteArgs, LispObject.toNumber]
  cases hpromoted : promoteNumbers x y with
  | fixnums a b =>
    rw [hpromoted] at hof
    obtain ⟨rfl, rfl⟩ := hof
    have hne : b.toInt ≠ 0 := fun h => hy (by rw [LispNumber.value, h, Int.cast_zero])
    obtain ⟨r, hr, k, hk⟩ := modTwoFixnum_branch hne
    refine ⟨_, hr, trivial, k, ?_⟩
    rw [makeFixnum_value_of_fits hbits (Law.fits_remainder hk)]
    exact hk.ratCast
  | bignums a b =>
    rw [hpromoted] at hof
    rw [hof.2] at hy
    have hb : b ≠ 0 := by exact_mod_cast hy
    refine ⟨_, if_neg hb, LispNumber.canonicalizeNumber_canonical _, ?_⟩
    rw [LispNumber.canonicalizeNumber_value hbits, hof.1, hof.2, LispNumber.value, bignumMod]
    refine ⟨⟨a / b, ?_⟩, ?_, ?_⟩
    · have := Int.ediv_mul_add_emod a b
      exact_mod_cast this.symm
    · exact_mod_cast Int.emod_nonneg a hb
    · exact_mod_cast Int.emod_lt_abs a hb
  | ratios a b =>
    rw [hpromoted] at hof
    rw [hof.2] at hy
    have hden : ((a / b).den : ℤ) ≠ 0 := by exact_mod_cast (a / b).den_ne_zero
    refine ⟨_, if_neg hy, LispNumber.canonicalizeNumber_canonical _,
      bignumDiv (a / b).num (a / b).den, ?_⟩
    · rw [LispNumber.canonicalizeNumber_value hbits, hof.1, hof.2]
      exact law_of_num_den hy (Rounding.truncate_tdiv hden)

end Mod

end XEmacs.Number
