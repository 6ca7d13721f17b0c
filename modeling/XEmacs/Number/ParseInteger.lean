import XEmacs.Number.DigitMaps
import XEmacs.Number.StringToNumber

/-! `parse_integer`. The digits are added up in a word as long as one more is sure to fit, and from there
on in a bignum. -/

namespace XEmacs.Number

open Table

variable {v : ℕ}

/-- The whitespace of the standard syntax table, in which the signs have another syntax. -/
structure StandardSyntax where
  whitespace : ℕ → Bool
  minus_eq : whitespace minus = false
  plus_eq : whitespace plus = false

def fixnumWeight (radixTable : CharTable) (c : ℕ) : Option ℤ :=
  match CharBuild.getCharTable c radixTable with
  | .fixnum cint => some cint
  | _ => none

def digitWeight (base : EmacsInt v) (radixTable : CharTable) (c : ℕ) : Option ℕ :=
  ((fixnumWeight radixTable c).filter fun cint => 0 ≤ cint ∧ cint < base.toInt).map Int.toNat

/-- `CALCULATE_INT_LIMIT`. -/
def intLimit (base : EmacsInt v) : EmacsInt v := (BitVec.allOnes (v + 1) - base) / base

/-- `make_integer` on an unsigned word. -/
def makeUnsignedInteger (x : EmacsInt v) : LispNumber v :=
  if x.toNat < 2 ^ (v - 1) then makeFixnum x else .bignum x.toNat

/-- What was added up; `result` is a bignum if there is one. -/
structure Accumulated (v : ℕ) where
  num : EmacsInt v
  /-- All ones before the first digit. -/
  onum : EmacsInt v
  result : Option ℤ

/-- `Invalid integer syntax`. -/
structure InvalidIntegerSyntax (v : ℕ) where
  text : List ℕ
  base : EmacsInt v
  deriving DecidableEq

section Reading

variable (chars : StandardSyntax) (base : EmacsInt v) (radixTable : CharTable)

/-- Whitespace with a fixnum that is no weight in the base is left out. The last character that was looked
at, if any, and what follows. -/
def skipWhitespace : List ℕ → Option ℕ → Option ℕ × List ℕ
  | [], c => (c, [])
  | c :: p, _ =>
    if (fixnumWeight radixTable c).any (fun cint => cint < 0 ∨ cint ≥ base.toInt) ∧ chars.whitespace c then
      skipWhitespace p (some c)
    else (some c, c :: p)

/-- A plus sign with a weight is a digit. -/
def dropSignOf (c : Option ℕ) (p : List ℕ) : Bool × List ℕ :=
  if c = some minus then (true, p.tail)
  else if c = some plus ∧ (digitWeight base radixTable plus).isNone then (false, p.tail)
  else (false, p)

def readBignum (data : ℤ) : List ℕ → ℤ × List ℕ
  | [] => (data, [])
  | c :: p =>
    match digitWeight base radixTable c with
    | some cint => readBignum (data * base.toInt + cint) p
    | none => (data, c :: p)

def readDigits (num onum : EmacsInt v) : List ℕ → Accumulated v × List ℕ
  | [] => (⟨num, onum, none⟩, [])
  | c :: p =>
    match digitWeight base radixTable c with
    | some cint =>
      if num > intLimit base then
        let (data, p) := readBignum base radixTable (num.toNat * base.toInt + cint) p
        (⟨num, num, some data⟩, p)
      else readDigits (num * base + BitVec.ofNat _ cint) num p
    | none => (⟨num, onum, none⟩, c :: p)

end Reading

/-- The integer in a word, which is taken for a signed one if it is negated. -/
def wordInteger (negativland : Bool) (num : EmacsInt v) : LispNumber v :=
  if negativland then makeInteger (-num) else makeUnsignedInteger num

def negated (negativland : Bool) (data : ℤ) : ℤ := if negativland then data * -1 else data

def finishedInteger (negativland : Bool) (read : Accumulated v) : LispNumber v :=
  match read.result with
  | none => wordInteger negativland read.num
  | some data => LispNumber.canonicalizeBignum (negated negativland data)

def stoppedInteger (negativland : Bool) (read : Accumulated v) : Option (LispNumber v) :=
  match read.result with
  | some data => some (.bignum (negated negativland data))
  | none => if read.onum = BitVec.allOnes _ then none else some (wordInteger negativland read.num)

/-- The part of `parse_integer` after the sign. -/
def parseDigits (chars : StandardSyntax) (base : EmacsInt v) (junkAllowed : Bool) (radixTable : CharTable)
    (text : List ℕ) (negativland : Bool) (p : List ℕ) :
    Except (InvalidIntegerSyntax v) (Option (LispNumber v) × ℕ) :=
  let (read, p) := readDigits base radixTable 0 (BitVec.allOnes _) p
  if p = [] ∧ (read.result.isSome ∨ read.onum ≠ BitVec.allOnes _) then
    .ok (some (finishedInteger negativland read), text.length)
  else
    let p := if junkAllowed then p else p.dropWhile chars.whitespace
    if junkAllowed ∨ p = [] ∧ read.onum ≠ BitVec.allOnes _ then
      .ok (stoppedInteger negativland read, text.length - p.length)
    else .error ⟨text, base⟩

/-- `parse_integer`, with the number of characters before the end that it returns; none is `nil`. -/
def parseInteger (chars : StandardSyntax) (base : EmacsInt v) (junkAllowed : Bool) (radixTable : CharTable)
    (text : List ℕ) : Except (InvalidIntegerSyntax v) (Option (LispNumber v) × ℕ) :=
  let (c, p) := skipWhitespace chars base radixTable text none
  let (negativland, p) := dropSignOf base radixTable c p
  parseDigits chars base junkAllowed radixTable text negativland p

inductive ParseFailure (v : ℕ) where
  | radix (e : RadixFailure v)
  | argsOutOfRange (string : List ℕ) (start : ℕ) (stop : Option ℕ)
  | invalidSyntax (e : InvalidIntegerSyntax v)

/-- The loop over the string up to an end, which returns the character that it comes to and the one at the start. -/
def findRegion (starting ending : ℕ) : List ℕ → ℕ → ℕ → ℕ × ℕ
  | [], ii, startp => (ii, startp)
  | _ :: cursor, ii, startp =>
    if ii < ending then findRegion starting ending cursor (ii + 1) (if ii < starting then ii + 1 else startp)
    else (ii, startp)

def parsedFrom (startp : ℕ) : Except (InvalidIntegerSyntax v) (Option (LispNumber v) × ℕ) →
    Except (ParseFailure v) (Option (LispNumber v) × ℕ)
  | .error e => .error (.invalidSyntax e)
  | .ok (result, endRead) => .ok (result, startp + endRead)

/-- `parse-integer`. The greatest radix is that of the table, if its maps are known, and the end is the largest
fixnum and one if there is none. -/
def fparseInteger (chars : StandardSyntax) (greatest : Option ℕ) (string : List ℕ) (start : ℕ) (stop : Option ℕ)
    (radix : LispNumber v) (junkAllowed : Bool) (radixTable : CharTable) :
    Except (ParseFailure v) (Option (LispNumber v) × ℕ) :=
  match checkRadix radix (greatest.getD 0xFFFF) with
  | .error e => .error (.radix e)
  | .ok radixing =>
    let ending := stop.getD (2 ^ (v - 1))
    let (ii, startp) := findRegion start ending string 0 0
    if ii < start ∨ ii < ending ∧ stop.isSome then .error (.argsOutOfRange string start stop)
    else
      parsedFrom startp
        (parseInteger chars (BitVec.ofNat _ radixing) junkAllowed radixTable ((string.take ii).drop startp))

end XEmacs.Number
