import XEmacs.Lib.RoundedDivision
import XEmacs.Number.LispNumber

/-! `floor`, `ceiling`, `truncate` and `round` of two arguments: for each type of number the
function of that type, which finds the quotient its own way. -/

namespace XEmacs.Number

open Lib (Rounding)
open Lib.Words (Fits)

variable {v : ℕ}

/-- The quotient and the remainder. -/
abbrev Values (v : ℕ) := LispNumber v × LispNumber v

def qzero : LispNumber v := .fixnum 0

section Fixnums

/-- `i3` of `ceiling_two_fixnum`. -/
def ceilingQuotient (i1 i2 : EmacsInt v) : EmacsInt v :=
  if i2.toInt < 0 then
    if i1.toInt ≤ 0 then
      -- The quotient is positive: one is added for the ceiling.
      if 0 ≠ (-i1).srem (-i2) then (-i1).sdiv (-i2) + 1 else (-i1).sdiv (-i2)
    else -(i1.sdiv (-i2))
  else if i1.toInt < 0 then -((-i1).sdiv i2)
  else if 0 ≠ i1.srem i2 then i1.sdiv i2 + 1
  else i1.sdiv i2

/-- `i3` of `floor_two_fixnum`, and `floored` of `round_two_fixnum`. -/
def floorQuotient (i1 i2 : EmacsInt v) : EmacsInt v :=
  if i2.toInt < 0 then
    if i1.toInt ≤ 0 then (-i1).sdiv (-i2) else -1 - (i1 - 1).sdiv (-i2)
  else if i1.toInt < 0 then -1 - (-1 - i1).sdiv i2
  else i1.sdiv i2

/-- `i0` of `truncate_two_fixnum`. -/
def truncateQuotient (i1 i2 : EmacsInt v) : EmacsInt v :=
  if i2.toInt < 0 then
    if i1.toInt ≤ 0 then (-i1).sdiv (-i2) else -(i1.sdiv (-i2))
  else if i1.toInt < 0 then -((-i1).sdiv i2)
  else i1.sdiv i2

/-- The frame of `ceiling_two_fixnum`, `floor_two_fixnum` and `truncate_two_fixnum`. -/
def twoFixnum (operator : String) (quotient : EmacsInt v → EmacsInt v → EmacsInt v)
    (number divisor : BitVec v) : Except (LispError v) (Values v) :=
  let i1 := xrealfixnum number
  let i2 := xrealfixnum divisor
  if i2.toInt = 0 then .error (.arithError2 operator (.fixnum number) (.fixnum divisor))
  else
    let i3 := quotient i1 i2
    .ok (makeFixnum i3, makeFixnum (i1 - i3 * i2))

def ceilingTwoFixnum : BitVec v → BitVec v → Except (LispError v) (Values v) :=
  twoFixnum "ceiling" ceilingQuotient

def floorTwoFixnum : BitVec v → BitVec v → Except (LispError v) (Values v) :=
  twoFixnum "floor" floorQuotient

def truncateTwoFixnum : BitVec v → BitVec v → Except (LispError v) (Values v) :=
  twoFixnum "truncate" truncateQuotient

def halfDivisor (i2 : EmacsInt v) : EmacsInt v :=
  if i2.toInt < 0 then -((-i2).sdiv 2) else i2.sdiv 2

def roundTwoFixnum (number divisor : BitVec v) : Except (LispError v) (Values v) :=
  let i1 := xrealfixnum number
  let i2 := xrealfixnum divisor
  if i2.toInt = 0 then .error (.arithError2 "round" (.fixnum number) (.fixnum divisor))
  else
    let hi2 := halfDivisor i2
    let flooring := hi2 + i1
    let floored := floorQuotient flooring i2
    let flsecond := flooring - floored * i2
    if 0 = flsecond ∧ i2 = hi2 + hi2 ∧ 0 ≠ floored.srem 2 then
      .ok (makeFixnum (floored - 1), makeFixnum hi2)
    else .ok (makeFixnum floored, makeFixnum (flsecond - hi2))

end Fixnums

section Bignums

def bignumFloor (number divisor : ℤ) : ℤ := number.fdiv divisor

/-- `mpz_cdiv_q`. -/
def bignumCeil (number divisor : ℤ) : ℤ := -(-number).fdiv divisor

def bignumDiv (number divisor : ℤ) : ℤ := number.tdiv divisor

def bignumDivisibleP (number divisor : ℤ) : Bool := divisor ∣ number

/-- A bit of the two's complement. -/
def bignumTestbit (data : ℤ) (bit : ℕ) : ℤ := data / 2 ^ bit % 2

/-- The frame of `ceiling_two_bignum`, `floor_two_bignum` and `truncate_two_bignum`. -/
def twoBignum (operator : String) (quotient : ℤ → ℤ → ℤ) (number divisor : ℤ) :
    Except (LispError v) (Values v) :=
  if divisor = 0 then .error (.arithError2 operator (.bignum number) (.bignum divisor))
  else
    let scratch := quotient number divisor
    let res0 := LispNumber.canonicalizeNumber (.bignum scratch)
    if bignumDivisibleP number divisor then .ok (res0, qzero)
    else .ok (res0, LispNumber.canonicalizeNumber (.bignum (number - scratch * divisor)))

def ceilingTwoBignum : ℤ → ℤ → Except (LispError v) (Values v) :=
  twoBignum "ceiling" bignumCeil

def floorTwoBignum : ℤ → ℤ → Except (LispError v) (Values v) :=
  twoBignum "floor" bignumFloor

def truncateTwoBignum : ℤ → ℤ → Except (LispError v) (Values v) :=
  twoBignum "truncate" bignumDiv

/-- The quotient's bignum, and the remainder's object. -/
def roundTwoBignum1 (number divisor : ℤ) : ℤ × LispNumber v :=
  if bignumDivisibleP number divisor then (bignumDiv number divisor, qzero)
  else
    let hi2 := bignumDiv divisor 2
    let flooring := hi2 + number
    let floored := bignumFloor flooring divisor
    let flsecond := flooring - floored * divisor
    if flsecond = 0 ∧ divisor = 2 * hi2 ∧ 1 = bignumTestbit floored 0 then
      (floored - 1, .bignum hi2)
    else (floored, .bignum (flsecond - hi2))

def roundTwoBignum (number divisor : ℤ) : Except (LispError v) (Values v) :=
  if divisor = 0 then .error (.arithError2 "round" (.bignum number) (.bignum divisor))
  else
    let (res0, res1) := roundTwoBignum1 number divisor
    .ok (LispNumber.canonicalizeNumber (.bignum res0), res1.canonicalizeNumber)

end Bignums

section Ratios

/-- The frame of `ceiling_two_ratio`, `floor_two_ratio` and `truncate_two_ratio`. -/
def twoRatio (operator : String) (quotient : ℤ → ℤ → ℤ) (number divisor : ℚ) :
    Except (LispError v) (Values v) :=
  if divisor = 0 then .error (.arithError2 operator (.ratio number) (.ratio divisor))
  else
    let scratch := number / divisor
    let scratchBignum := quotient scratch.num scratch.den
    let res0 := LispNumber.canonicalizeNumber (.bignum scratchBignum)
    if bignumDivisibleP scratch.num scratch.den then .ok (res0, qzero)
    else .ok (res0, LispNumber.canonicalizeNumber (.ratio (number - scratchBignum * divisor)))

def ceilingTwoRatio : ℚ → ℚ → Except (LispError v) (Values v) :=
  twoRatio "ceiling" bignumCeil

def floorTwoRatio : ℚ → ℚ → Except (LispError v) (Values v) :=
  twoRatio "floor" bignumFloor

def truncateTwoRatio : ℚ → ℚ → Except (LispError v) (Values v) :=
  twoRatio "truncate" bignumDiv

def roundTwoRatio (number divisor : ℚ) : Except (LispError v) (Values v) :=
  if divisor = 0 then .error (.arithError2 "round" (.ratio number) (.ratio divisor))
  else
    let scratch := number / divisor
    let (res0, res1) := roundTwoBignum1 scratch.num scratch.den
    let res1 := if res1 = qzero then res1
      else LispNumber.canonicalizeNumber (.ratio (number - res0 * divisor))
    .ok (LispNumber.canonicalizeNumber (.bignum res0), res1)

end Ratios

/-- The functions of one rounding, by the type of the arguments. -/
structure Conversion (v : ℕ) where
  fixnums : BitVec v → BitVec v → Except (LispError v) (Values v)
  bignums : ℤ → ℤ → Except (LispError v) (Values v)
  ratios : ℚ → ℚ → Except (LispError v) (Values v)

/-- `ROUNDING_CONVERT` with a divisor and no float result. -/
def roundingConvert (conversion : Conversion v) (number divisor : LispObject v) :
    Except (LispError v) (Values v) :=
  match promoteArgs number divisor with
  | .fixnums number divisor => conversion.fixnums number divisor
  | .bignums number divisor => conversion.bignums number divisor
  | .ratios number divisor => conversion.ratios number divisor

def conversion : Rounding → Conversion v
  | .ceiling => ⟨ceilingTwoFixnum, ceilingTwoBignum, ceilingTwoRatio⟩
  | .floor => ⟨floorTwoFixnum, floorTwoBignum, floorTwoRatio⟩
  | .round => ⟨roundTwoFixnum, roundTwoBignum, roundTwoRatio⟩
  | .truncate => ⟨truncateTwoFixnum, truncateTwoBignum, truncateTwoRatio⟩

def fceiling (number divisor : LispObject v) : Except (LispError v) (Values v) :=
  roundingConvert (conversion .ceiling) number divisor

def ffloor (number divisor : LispObject v) : Except (LispError v) (Values v) :=
  roundingConvert (conversion .floor) number divisor

def fround (number divisor : LispObject v) : Except (LispError v) (Values v) :=
  roundingConvert (conversion .round) number divisor

def ftruncate (number divisor : LispObject v) : Except (LispError v) (Values v) :=
  roundingConvert (conversion .truncate) number divisor

end XEmacs.Number
