import XEmacs.Lib.Words
import Mathlib.Algebra.Order.Field.Rat

/-! The exact numbers of Lisp. A fixnum lies in an object beside its tag bit, a bignum and a ratio
hold a number of the number library; the arithmetic functions promote two arguments to one type
and bring a result back to the simplest type that holds it. Floats and bigfloats are left out.
The width `v` is `FIXNUM_VALBITS`, which is 31 or 63. -/

namespace XEmacs.Number

open Lib.Words (Fits)

/-- An `EMACS_INT`, one bit longer than the value bits of a fixnum. -/
abbrev EmacsInt (v : ℕ) := BitVec (v + 1)

inductive LispNumber (v : ℕ) where
  | fixnum (val : BitVec v)
  | bignum (data : ℤ)
  | ratio (data : ℚ)
  deriving DecidableEq

/-- What the arithmetic functions take: a number, or a character or a marker in its place. -/
inductive LispObject (v : ℕ) where
  | number (n : LispNumber v)
  | character (ch : ℕ)
  | marker (position : ℕ)
  deriving DecidableEq

inductive TypePredicate where
  | fixnump
  | integerp
  | integerOrCharP
  | integerCharOrMarkerP
  deriving DecidableEq, Repr

inductive LispError (v : ℕ) where
  | wrongTypeArgument (predicate : TypePredicate) (obj : LispObject v)
  | arithError
  | arithError2 (operator : String) (number divisor : LispNumber v)
  | argsOutOfRange3 (obj low high : LispNumber v)
  deriving DecidableEq

inductive NumberType where
  | fixnumT
  | bignumT
  | ratioT
  deriving DecidableEq, Repr

namespace NumberType

def rank : NumberType → ℕ
  | fixnumT => 0
  | bignumT => 1
  | ratioT => 2

end NumberType

variable {v : ℕ}

def xrealfixnum (val : BitVec v) : EmacsInt v := val.signExtend (v + 1)

def makeFixnum (x : EmacsInt v) : LispNumber v := .fixnum (x.setWidth v)

def numberFitsInAFixnum (x : EmacsInt v) : Bool := Fits v x.toInt

def makeInteger (x : EmacsInt v) : LispNumber v :=
  if numberFitsInAFixnum x then makeFixnum x else .bignum x.toInt

def bignumFitsEmacsIntP (v : ℕ) (data : ℤ) : Bool := Fits (v + 1) data

namespace LispNumber

def getNumberType : LispNumber v → NumberType
  | fixnum _ => .fixnumT
  | bignum _ => .bignumT
  | ratio _ => .ratioT

def integerp : LispNumber v → Bool
  | fixnum _ => true
  | bignum _ => true
  | ratio _ => false

def value : LispNumber v → ℚ
  | fixnum val => val.toInt
  | bignum data => data
  | ratio data => data

def canonicalizeBignum (data : ℤ) : LispNumber v :=
  if bignumFitsEmacsIntP v data then
    let n : EmacsInt v := BitVec.ofInt _ data
    if numberFitsInAFixnum n then makeFixnum n else .bignum data
  else .bignum data

/-- `Fcanonicalize_number`. -/
def canonicalizeNumber : LispNumber v → LispNumber v
  | fixnum val => .fixnum val
  | bignum data => canonicalizeBignum data
  | ratio data => if data.den = 1 then canonicalizeBignum data.num else .ratio data

end LispNumber

def integerCharOrMarkerP : LispObject v → Bool
  | .number n => n.integerp
  | .character _ => true
  | .marker _ => true

/-- A character or a marker is the fixnum of its code or position. -/
def LispObject.toNumber : LispObject v → LispNumber v
  | number n => n
  | character ch => makeFixnum (BitVec.ofNat _ ch)
  | marker position => makeFixnum (BitVec.ofNat _ position)

/-- `internal_coerce_number` to `BIGNUM_T`. -/
def LispNumber.coerceToBignum : LispNumber v → LispNumber v
  | fixnum val => .bignum (xrealfixnum val).toInt
  | bignum data => .bignum data
  | ratio data => .bignum (data.num.tdiv data.den)

/-- `internal_coerce_number` to `RATIO_T`. -/
def LispNumber.coerceToRatio : LispNumber v → LispNumber v
  | fixnum val => .ratio (xrealfixnum val).toInt
  | bignum data => .ratio data
  | ratio data => .ratio data

/-- Two arguments of one type. -/
inductive Promoted (v : ℕ) where
  | fixnums (x y : BitVec v)
  | bignums (x y : ℤ)
  | ratios (x y : ℚ)
  deriving DecidableEq

/-- `promote_args` on numbers; the conversions are those of `internal_coerce_number`. -/
def promoteNumbers : LispNumber v → LispNumber v → Promoted v
  | .fixnum x, .fixnum y => .fixnums x y
  | .fixnum x, .bignum y => .bignums (xrealfixnum x).toInt y
  | .fixnum x, .ratio y => .ratios (xrealfixnum x).toInt y
  | .bignum x, .fixnum y => .bignums x (xrealfixnum y).toInt
  | .bignum x, .bignum y => .bignums x y
  | .bignum x, .ratio y => .ratios x y
  | .ratio x, .fixnum y => .ratios x (xrealfixnum y).toInt
  | .ratio x, .bignum y => .ratios x y
  | .ratio x, .ratio y => .ratios x y

def promoteArgs (x y : LispObject v) : Promoted v :=
  promoteNumbers x.toNumber y.toNumber

def Promoted.Of (x y : LispNumber v) : Promoted v → Prop
  | .fixnums a b => x = .fixnum a ∧ y = .fixnum b
  | .bignums a b => x.value = a ∧ y.value = b
  | .ratios a b => x.value = a ∧ y.value = b

section Fixnums

theorem fits_value (val : BitVec v) : Fits v val.toInt := Lib.Words.fits_toInt val

@[simp] theorem xrealfixnum_toInt (val : BitVec v) : (xrealfixnum val).toInt = val.toInt :=
  BitVec.toInt_signExtend_of_le (Nat.le_succ v)

theorem numberFitsInAFixnum_iff {x : EmacsInt v} :
    numberFitsInAFixnum x = true ↔ Fits v x.toInt := decide_eq_true_iff

theorem makeFixnum_eq (x : EmacsInt v) :
    makeFixnum x = .fixnum (BitVec.ofInt v x.toInt) := by
  rw [makeFixnum, Lib.Words.setWidth_eq_ofInt (Nat.le_succ v)]

theorem makeFixnum_value (x : EmacsInt v) :
    (makeFixnum x).value = (x.toInt.bmod (2 ^ v) : ℤ) := by
  rw [makeFixnum_eq, LispNumber.value, BitVec.toInt_ofInt]

theorem makeFixnum_value_of_fits (hbits : 0 < v) {x : EmacsInt v}
    (h : Fits v x.toInt) : (makeFixnum x).value = x.toInt := by
  rw [makeFixnum_value, Lib.Words.bmod_of_fits hbits h]

theorem promoteNumbers_of (x y : LispNumber v) : (promoteNumbers x y).Of x y := by
  cases x <;> cases y <;> simp [promoteNumbers, Promoted.Of, LispNumber.value]

end Fixnums

namespace LispNumber

variable {x y : LispNumber v} {data : ℤ}

/-- The simplest type that holds the value. -/
def Canonical : LispNumber v → Prop
  | fixnum _ => True
  | bignum data => ¬Fits v data
  | ratio data => data.den ≠ 1

instance : DecidablePred (Canonical (v := v)) := fun x => by
  cases x <;> unfold Canonical <;> infer_instance

theorem canonicalizeBignum_of_fits (h : Fits v data) :
    canonicalizeBignum (v := v) data = .fixnum (BitVec.ofInt v data) := by
  have hword : Fits (v + 1) data := h.mono (Nat.le_succ v)
  have hvalue := Lib.Words.ofInt_eq_of_fits (Nat.succ_pos v) hword
  rw [canonicalizeBignum, if_pos (show bignumFitsEmacsIntP v data = true from decide_eq_true hword)]
  dsimp only
  rw [if_pos]
  · rw [makeFixnum_eq, hvalue]
  · rwa [numberFitsInAFixnum_iff, hvalue]

theorem canonicalizeBignum_of_not_fits (h : ¬Fits v data) :
    canonicalizeBignum (v := v) data = .bignum data := by
  rw [canonicalizeBignum]
  split
  · rename_i hword
    have hvalue := Lib.Words.ofInt_eq_of_fits (Nat.succ_pos v) (of_decide_eq_true hword)
    rw [if_neg]
    rwa [numberFitsInAFixnum_iff, hvalue]
  · rfl

theorem canonicalizeBignum_canonical (data : ℤ) :
    (canonicalizeBignum (v := v) data).Canonical := by
  by_cases h : Fits v data
  · rw [canonicalizeBignum_of_fits h]
    trivial
  · rw [canonicalizeBignum_of_not_fits h]
    exact h

theorem canonicalizeBignum_value (hbits : 0 < v) (data : ℤ) :
    (canonicalizeBignum (v := v) data).value = data := by
  by_cases h : Fits v data
  · rw [canonicalizeBignum_of_fits h, value, Lib.Words.ofInt_eq_of_fits hbits h]
  · rw [canonicalizeBignum_of_not_fits h, value]

theorem canonicalizeNumber_canonical (x : LispNumber v) : x.canonicalizeNumber.Canonical := by
  cases x with
  | fixnum val => trivial
  | bignum data => exact canonicalizeBignum_canonical data
  | ratio data =>
    rw [canonicalizeNumber]
    split
    · exact canonicalizeBignum_canonical data.num
    · assumption

theorem canonicalizeNumber_value (hbits : 0 < v) (x : LispNumber v) :
    x.canonicalizeNumber.value = x.value := by
  cases x with
  | fixnum val => rfl
  | bignum data => exact canonicalizeBignum_value hbits data
  | ratio data =>
    rw [canonicalizeNumber]
    split
    · rename_i hden
      rw [canonicalizeBignum_value hbits]
      exact Rat.coe_int_num_of_den_eq_one hden
    · rfl

theorem canonicalizeNumber_intCast (n : ℤ) :
    canonicalizeNumber (v := v) (.ratio (n : ℚ)) = canonicalizeBignum n := by
  rw [canonicalizeNumber, if_pos (Rat.den_intCast n), Rat.num_intCast]

theorem Canonical.eq_canonicalizeNumber (hx : x.Canonical) :
    x = canonicalizeNumber (.ratio x.value) := by
  cases x with
  | fixnum val =>
    rw [value, canonicalizeNumber_intCast, canonicalizeBignum_of_fits (fits_value val),
      BitVec.ofInt_toInt]
  | bignum data => rw [value, canonicalizeNumber_intCast, canonicalizeBignum_of_not_fits hx]
  | ratio data => rw [value, canonicalizeNumber, if_neg hx]

theorem Canonical.eq_of_value (hx : x.Canonical) (hy : y.Canonical) (h : x.value = y.value) :
    x = y := by
  rw [hx.eq_canonicalizeNumber, hy.eq_canonicalizeNumber, h]

end LispNumber

theorem canonicalizeNumber_of_canonical {x : LispNumber v} (hx : x.Canonical) : x.canonicalizeNumber = x := by
  cases x with
  | fixnum val => rfl
  | bignum data => exact LispNumber.canonicalizeBignum_of_not_fits hx
  | ratio data => rw [LispNumber.canonicalizeNumber, if_neg hx]

theorem makeInteger_eq (x : EmacsInt v) : makeInteger x = LispNumber.canonicalizeBignum x.toInt := by
  by_cases h : Fits v x.toInt
  · rw [LispNumber.canonicalizeBignum_of_fits h, makeInteger, if_pos (numberFitsInAFixnum_iff.mpr h), makeFixnum_eq]
  · rw [LispNumber.canonicalizeBignum_of_not_fits h, makeInteger, if_neg (mt numberFitsInAFixnum_iff.mp h)]

end XEmacs.Number
