import Mathlib.Data.Int.Basic
import Mathlib.Data.List.Basic
import Mathlib.Tactic.Common

/-! Base64 of fns.c. Text is a list of character codes and an input stream is the text
that is still to be read. A conversion returns what it has written into its output and
the error that ended it, if one did. -/

namespace XEmacs.Coding.Base64

def mimeLineLength : ℕ := 72

/-- The code of `=`. -/
def pad : ℕ := 61

def newline : ℕ := 10

def base64ValueToChar : List ℕ := [
  65, 66, 67, 68, 69, 70, 71, 72, 73, 74,
  75, 76, 77, 78, 79, 80, 81, 82, 83, 84,
  85, 86, 87, 88, 89, 90, 97, 98, 99, 100,
  101, 102, 103, 104, 105, 106, 107, 108, 109, 110,
  111, 112, 113, 114, 115, 116, 117, 118, 119, 120,
  121, 122, 48, 49, 50, 51, 52, 53, 54, 55,
  56, 57, 43, 47]

def base64CharToValue : List ℤ := [
  -1, -1, -1, -1, -1, -1, -1, -1, -1, -1,
  -1, -1, -1, -1, -1, -1, -1, -1, -1, -1,
  -1, -1, -1, -1, -1, -1, -1, -1, -1, -1,
  -1, -1, -1, -1, -1, -1, -1, -1, -1, -1,
  -1, -1, -1, 62, -1, -1, -1, 63, 52, 53,
  54, 55, 56, 57, 58, 59, 60, 61, -1, -1,
  -1, -1, -1, -1, -1, 0, 1, 2, 3, 4,
  5, 6, 7, 8, 9, 10, 11, 12, 13, 14,
  15, 16, 17, 18, 19, 20, 21, 22, 23, 24,
  25, -1, -1, -1, -1, -1, -1, 26, 27, 28,
  29, 30, 31, 32, 33, 34, 35, 36, 37, 38,
  39, 40, 41, 42, 43, 44, 45, 46, 47, 48,
  49, 50, 51, -1, -1, -1, -1, -1]

def valueToChar (value : ℕ) : ℕ := base64ValueToChar.getD value 0

def charToValue (ec : ℕ) : ℕ := (base64CharToValue.getD ec (-1)).toNat

def IsBase64 (ec : ℕ) : Prop := ec < 128 ∧ base64CharToValue.getD ec (-1) ≥ 0

instance (ec : ℕ) : Decidable (IsBase64 ec) := inferInstanceAs (Decidable (_ ∧ _))

/-- What `base64_conversion_error` is called with. -/
inductive ConversionError
  /-- "Non-ascii character in base64 input" -/
  | nonAscii (ec : ℕ)
  /-- "Illegal `=' character while decoding base64" -/
  | illegalPad (streampos : ℕ)
  /-- "Premature EOF while decoding base64" -/
  | prematureEof
  /-- "Padding `=' expected but not found while decoding base64" -/
  | paddingExpected (streampos : ℕ)
  deriving DecidableEq

/-- What a conversion has written and the error that ended it. -/
structure Conversion where
  written : List ℕ
  error : Option ConversionError
  deriving DecidableEq

/-- A conversion that writes `cs` and then goes on as `r`. -/
def Conversion.store (cs : List ℕ) (r : Conversion) : Conversion := { r with written := cs ++ r.written }

def groupBreak (lineBreak : Bool) (counter : ℕ) : List ℕ :=
  if lineBreak ∧ ¬ counter < mimeLineLength / 4 then [newline] else []

def groupCount (lineBreak : Bool) (counter : ℕ) : ℕ :=
  if lineBreak ∧ ¬ counter < mimeLineLength / 4 then 1 else counter + 1

/-- The loop of `base64_encode_1`; `counter` is the number of groups on the line. -/
def encodeLoop (lineBreak : Bool) : ℕ → List ℕ → Conversion
  | _, [] => ⟨[], none⟩
  | counter, c :: istream =>
    if c > 255 then ⟨[], some (.nonAscii c)⟩
    else
      -- the first byte of a triplet
      .store (groupBreak lineBreak counter ++ [valueToChar (0x3f &&& c >>> 2)]) <|
      let value := (0x03 &&& c) <<< 4
      match istream with
      | [] => ⟨[valueToChar value, pad, pad], none⟩
      | c :: istream =>
        if c > 255 then ⟨[], some (.nonAscii c)⟩
        else
          .store [valueToChar (value ||| 0x0f &&& c >>> 4)] <|
          let value := (0x0f &&& c) <<< 2
          match istream with
          | [] => ⟨[valueToChar value, pad], none⟩
          | c :: istream =>
            if c > 255 then ⟨[], some (.nonAscii c)⟩
            else
              .store [valueToChar (value ||| 0x03 &&& c >>> 6), valueToChar (0x3f &&& c)] <|
              encodeLoop lineBreak (groupCount lineBreak counter) istream

/-- `base64_encode_1`. -/
def encode1 (istream : List ℕ) (lineBreak : Bool) : Conversion := encodeLoop lineBreak 0 istream

def allength (length : ℕ) : ℕ :=
  let allength := length + length / 3 + 1
  allength + (allength / mimeLineLength + 1 + 6)

/-- `base64-encode-string`. -/
def encodeString (string : List ℕ) (noLineBreak : Bool) : Except ConversionError (List ℕ) :=
  match encode1 string (!noLineBreak) with
  | ⟨encoded, none⟩ => .ok encoded
  | ⟨_, some e⟩ => .error e

/-- `ADVANCE_INPUT_IGNORE_NONBASE64`: the character read, none at the end of the stream. -/
def advanceInput : List ℕ → ℕ → Option ℕ × ℕ × List ℕ
  | [], streampos => (none, streampos + 1, [])
  | ec :: istream, streampos =>
    if IsBase64 ec ∨ ec = pad then (some ec, streampos + 1, istream)
    else advanceInput istream (streampos + 1)

theorem advanceInput_length {istream rest : List ℕ} {streampos pos ec : ℕ}
    (h : advanceInput istream streampos = (some ec, pos, rest)) : rest.length < istream.length := by
  induction istream generalizing streampos with
  | nil => simp [advanceInput] at h
  | cons c istream ih =>
    rw [advanceInput] at h
    split at h
    · simp only [Prod.mk.injEq] at h
      rw [← h.2.2]
      exact Nat.lt_succ_self _
    · exact Nat.lt_succ_of_lt (ih h)

set_option linter.unusedVariables false in
/-- The loop of `base64_decode_1`. -/
def decodeLoop (istream : List ℕ) (streampos : ℕ) : Conversion :=
  -- the first byte of a quadruplet
  match h₁ : advanceInput istream streampos with
  | (none, _, _) => ⟨[], none⟩
  | (some ec, streampos, istream₁) =>
    if ec = pad then ⟨[], some (.illegalPad streampos)⟩
    else
      let value := charToValue ec <<< 18
      match h₂ : advanceInput istream₁ streampos with
      | (none, _, _) => ⟨[], some .prematureEof⟩
      | (some ec, streampos, istream₂) =>
        if ec = pad then ⟨[], some (.illegalPad streampos)⟩
        else
          let value := value ||| charToValue ec <<< 12
          .store [value >>> 16 % 256] <|
          match h₃ : advanceInput istream₂ streampos with
          | (none, _, _) => ⟨[], some .prematureEof⟩
          | (some ec, streampos, istream₃) =>
            if ec = pad then
              match h₄ : advanceInput istream₃ streampos with
              | (none, _, _) => ⟨[], some .prematureEof⟩
              | (some ec, streampos, istream₄) =>
                if ec ≠ pad then ⟨[], some (.paddingExpected streampos)⟩
                else decodeLoop istream₄ streampos
            else
              let value := value ||| charToValue ec <<< 6
              .store [(0xff &&& value >>> 8) % 256] <|
              match h₄ : advanceInput istream₃ streampos with
              | (none, _, _) => ⟨[], some .prematureEof⟩
              | (some ec, streampos, istream₄) =>
                if ec = pad then decodeLoop istream₄ streampos
                else
                  let value := value ||| charToValue ec
                  .store [(0xff &&& value) % 256] (decodeLoop istream₄ streampos)
termination_by istream.length
decreasing_by
  all_goals
    have l₁ := advanceInput_length h₁
    have l₂ := advanceInput_length h₂
    have l₃ := advanceInput_length h₃
    have l₄ := advanceInput_length h₄
    omega

/-- `base64_decode_1`. -/
def decode1 (istream : List ℕ) : Conversion := decodeLoop istream 0

/-- `base64-decode-string`. -/
def decodeString (string : List ℕ) : Except ConversionError (List ℕ) :=
  match decode1 string with
  | ⟨decoded, none⟩ => .ok decoded
  | ⟨_, some e⟩ => .error e

end XEmacs.Coding.Base64
