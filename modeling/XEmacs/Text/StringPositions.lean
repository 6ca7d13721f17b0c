import XEmacs.Text.BytePositions

/-! The decoding of a position of a string, in characters and in bytes (text.c). The byte
version avoids counting the characters where it can. -/

namespace XEmacs.Text

/-- How characters are laid out, in either build. -/
structure TextFormat where
  rep : UInt8 → ℕ
  firstByteP : UInt8 → Bool
  maxIcharLen : ℕ
  rep_le : ∀ c, firstByteP c = true → rep c ≤ maxIcharLen
  firstByteP_zero : firstByteP 0 = true
  rep_zero : rep 0 = 1

/-- A build without `UNICODE_INTERNAL`. -/
def muleFormat : TextFormat where
  rep := repBytesByFirstByte
  firstByteP := ibyteFirstByteP
  maxIcharLen := 4
  rep_le c _ := by unfold repBytesByFirstByte; split_ifs <;> decide
  firstByteP_zero := by decide
  rep_zero := by decide

variable {fmt : TextFormat}

/-- The zero byte after the text of a string, as a character. -/
def nul (fmt : TextFormat) : Ichar fmt.rep := ⟨0, [], fmt.rep_zero.symm⟩

/-- `Lisp_String`. At least the first `asciiEnd` characters are ASCII. -/
structure LispString (fmt : TextFormat) where
  chars : List (Ichar fmt.rep)
  asciiEnd : ℕ
  valid : ∀ c ∈ chars, c.Valid fmt.firstByteP
  asciiEnd_le : asciiEnd ≤ chars.length
  ascii : ∀ c ∈ chars.take asciiEnd, c.rest = []

/-- A Lisp object that `CHECK_FIXNUM` lets pass. -/
structure Fixnum where
  val : ℤ
  ge : -mostPositiveFixnum - 1 ≤ val
  le : val ≤ mostPositiveFixnum

/-- The flags for one position; what is signalled needs `GB_NO_ERROR_IF_BAD` unset. -/
structure PosFlags where
  negativeFromEnd : Bool
  coerceRange : Bool
  noErrorIfBad : Bool
  needCharBefore : Bool
  needCharAfter : Bool
  deriving DecidableEq

structure RangeFlags extends PosFlags where
  allowNil : Bool
  checkOrder : Bool
  deriving DecidableEq

inductive PosError
  | argsOutOfRange
  /-- "start greater than end" -/
  | startGreaterThanEnd
  /-- What `CHECK_FIXNUM` signals for nil. -/
  | wrongType
  deriving DecidableEq

/-- A flag as a number. -/
def flagInt (b : Bool) : ℤ := if b then 1 else 0

/-- What happens to a position out of range that is not coerced. -/
def badPos (flags : PosFlags) : Except PosError ℤ := if flags.noErrorIfBad then .ok (-1) else .error .argsOutOfRange

namespace LispString

variable (s : LispString fmt)

def data : List UInt8 := itextBytes (s.chars ++ [nul fmt])

/-- `XSTRING_LENGTH`. -/
def length : ℕ := (itextBytes s.chars).length

def stringIndexByteToChar (idx : ℕ) : ℕ :=
  if idx ≤ s.asciiEnd then idx
  else s.asciiEnd + bytecountToCharcount fmt.rep ((s.data.drop s.asciiEnd).take (idx - s.asciiEnd))

def stringCharLength : ℕ := s.stringIndexByteToChar s.length

def stringIndexCharToByte (idx : ℕ) : ℕ :=
  if idx ≤ s.asciiEnd then idx
  else s.asciiEnd + charcountToBytecount fmt.rep (s.data.drop s.asciiEnd) (idx - s.asciiEnd)

/-- `prev_string_index`, by `DEC_IBYTEPTR`. -/
def prevStringIndex : ℕ → ℕ
  | 0 => 0
  | idx + 1 => if fmt.firstByteP (s.data.getD idx 0) then idx else prevStringIndex idx

/-- The loop that walks back from the end, with the steps that are left. -/
def walkBack : ℕ → ℕ → ℕ × ℕ
  | 0, bpos => (0, bpos)
  | counter + 1, bpos => if bpos > 0 then walkBack counter (s.prevStringIndex bpos) else (counter + 1, bpos)

def getStringPosChar1 (pos : Fixnum) (flags : PosFlags) (knownLength : ℤ) : Except PosError ℤ :=
  let minAllowed := flagInt flags.needCharBefore
  let maxAllowed := if flags.needCharAfter then knownLength - 1 else knownLength
  let ccpos := if pos.val < 0 ∧ flags.negativeFromEnd then pos.val + maxAllowed else pos.val
  if ccpos < minAllowed ∨ ccpos > maxAllowed then
    if flags.coerceRange then .ok (if ccpos < minAllowed then minAllowed else maxAllowed) else badPos flags
  else .ok ccpos

def getStringPosChar (pos : Fixnum) (flags : PosFlags) : Except PosError ℤ :=
  getStringPosChar1 pos flags s.stringCharLength

/-- The checks of `get_string_pos_byte_1`, once a negative position has been dealt with. -/
def checkPosByte (flags : PosFlags) (ccpos charLength maxCposAllowed : ℤ) : Except PosError ℤ :=
  if ccpos < flagInt flags.needCharBefore then
    if flags.coerceRange then .ok (if flags.needCharBefore then fmt.rep (s.data.headD 0) else 0)
    else badPos flags
  else
    -- the lower bound of the length in characters saves counting them
    let maxCposAllowed :=
      if charLength < 0 ∧
          ccpos > (s.length : ℤ) / fmt.maxIcharLen - fmt.maxIcharLen * flagInt flags.needCharAfter then
        s.stringCharLength - flagInt flags.needCharAfter
      else maxCposAllowed
    if ccpos > maxCposAllowed then
      if flags.coerceRange ∧ maxCposAllowed ≥ 0 then
        .ok (if flags.needCharAfter then s.prevStringIndex s.length else s.length)
      else badPos flags
    else .ok (s.stringIndexCharToByte ccpos.toNat)

/-- The shortcut of `get_string_pos_byte_1` for small negative positions. -/
def shortcut (pos : Fixnum) (flags : PosFlags) : Option ℕ :=
  if pos.val > -6 ∧ !flags.needCharAfter ∧ !flags.needCharBefore then
    let r := s.walkBack pos.val.natAbs s.length
    if r.1 = 0 then some r.2 else none
  else none

/-- `get_string_pos_byte_1`; a negative `charLength` is not known. -/
def getStringPosByte1 (pos : Fixnum) (flags : PosFlags) (charLength : ℤ) : Except PosError ℤ :=
  if pos.val < 0 ∧ flags.negativeFromEnd then
    match if charLength < 0 then s.shortcut pos flags else none with
    | some bpos => .ok bpos
    | none =>
      let charLength := if charLength < 0 then (s.stringCharLength : ℤ) else charLength
      s.checkPosByte flags (pos.val + charLength) charLength (charLength - flagInt flags.needCharAfter)
  else
    s.checkPosByte flags pos.val charLength
      (if charLength < 0 then mostPositiveFixnum + 1 else charLength - flagInt flags.needCharAfter)

def getStringPosByte (pos : Fixnum) (flags : PosFlags) : Except PosError ℤ :=
  s.getStringPosByte1 pos flags (-1)

def rangePos (flags : RangeFlags) (whenNil : ℤ) (getPos : Fixnum → PosFlags → Except PosError ℤ) :
    Option Fixnum → Except PosError ℤ
  | none => if flags.allowNil then .ok whenNil else .error .wrongType
  | some pos => getPos pos { flags.toPosFlags with noErrorIfBad := true }

/-- The end of `get_string_range_char` and of `get_string_range_byte`. -/
def orderRange (flags : RangeFlags) (fromOut toOut : ℤ) : Except PosError (ℤ × ℤ) :=
  if (fromOut < 0 ∨ toOut < 0) ∧ !flags.noErrorIfBad then .error .argsOutOfRange
  else if fromOut ≥ 0 ∧ toOut ≥ 0 ∧ fromOut > toOut then
    if flags.checkOrder then .error .startGreaterThanEnd else .ok (toOut, fromOut)
  else .ok (fromOut, toOut)

def getStringRangeChar (start stop : Option Fixnum) (flags : RangeFlags) : Except PosError (ℤ × ℤ) :=
  let maxAllowed := s.stringCharLength
  let getPos pos flags := getStringPosChar1 pos flags maxAllowed
  match rangePos flags 0 getPos start, rangePos flags maxAllowed getPos stop with
  | .ok fromOut, .ok toOut => orderRange flags fromOut toOut
  | .error e, _ => .error e
  | .ok _, .error e => .error e

/-- The length in characters, where `get_string_range_byte` counts them. -/
def rangeCharLength (flags : RangeFlags) : Option Fixnum → ℤ
  | none => -1
  | some start =>
    if (start.val < 0 ∧ flags.negativeFromEnd) ∨ start.val > (s.length : ℤ) / fmt.maxIcharLen then
      s.stringCharLength
    else -1

def getStringRangeByte (start stop : Option Fixnum) (flags : RangeFlags) : Except PosError (ℤ × ℤ) :=
  let charLength := s.rangeCharLength flags start
  let getPos pos flags := s.getStringPosByte1 pos flags charLength
  match rangePos flags 0 getPos start, rangePos flags s.length getPos stop with
  | .ok fromOut, .ok toOut => orderRange flags fromOut toOut
  | .error e, _ => .error e
  | .ok _, .error e => .error e

end LispString

end XEmacs.Text
