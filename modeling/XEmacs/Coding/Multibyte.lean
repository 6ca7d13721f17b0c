import XEmacs.Coding.CharsetTables
import XEmacs.Coding.Unicode

/-! The multibyte coding system (mule-coding.c) in the build with Unicode inside, where a
character is its code point, and the precedence arrays it searches (unicode.c, charset.h). A
charset is named by its place among all charsets. Overlapping charsets are not allowed, as the
file is compiled. Left out is what an encoder reports about errors, which are not signalled. -/

namespace XEmacs.Coding.Multibyte

open Unicode (Byte byte byteAsciiP unicodeErrorOctetRangeStart unicodeErrorOctetCodeP)

/-- There is a byte. -/
scoped instance neZeroBytes : @NeZero ℕ Zero.ofOfNat0 256 :=
  @NeZero.mk ℕ Zero.ofOfNat0 256 (Nat.succ_ne_zero 255)

/-- There is a dimension. -/
scoped instance neZeroDimensions : @NeZero ℕ Zero.ofOfNat0 2 :=
  @NeZero.mk ℕ Zero.ofOfNat0 2 (Nat.succ_ne_zero 1)

/-- A charset with its conversion tables, after they have been loaded. -/
structure LispCharset extends Charset where
  dimension : ℕ
  dimension_eq : dimension = 1 ∨ dimension = 2
  /-- A charset of one dimension is one row. -/
  row : dimension = 1 → offset 0 = 0 ∧ chars 0 = 1
  chars_pos : ∀ dim, 0 < chars dim
  loaded : doAutoload = true → autoloadFailed = true
  valid : ∀ {c1 c2 u}, toCharset.codeOf c1 c2 = some u → Coding.validUnicodeCodepointP u
  counted : ∀ {c1 c2 u}, toCharset.codeOf c1 c2 = some u → u ≤ 127 → 0 < numberOfAsciiMappings

namespace LispCharset

variable (cs : LispCharset)

/-- `CHARSET_MIN_CODE`. -/
def minCode (dim : Fin 2) : ℕ := cs.offset dim

/-- `CHARSET_MAX_CODE`. -/
def maxCode (dim : Fin 2) : ℕ := cs.offset dim + cs.chars dim - 1

/-- `charset_codepoint_to_ichar` with `CONVERR_FAIL`, none for -1. -/
def charsetCodepointToIchar (c1 c2 : Byte) : Option ℕ :=
  (cs.toCharset.charsetCodepointToUnicode c1 c2).join

/-- `get_unicode_conversion_1`, none where it returns 0. -/
def unicodeConversion (code : ℕ) : Option (Byte × Byte) :=
  (Charset.getUnicodeConversion1 code cs.toCharset).join

end LispCharset

/-- `Vcharset_ascii` and the other charsets, with the tables by which a charset is found from
its number and from its type, final byte and direction. -/
structure Charsets where
  charset : ℕ → LispCharset
  ascii : ℕ
  charsetById : ℕ → Option ℕ
  charsetByAttributes : (type final : ℕ) → (rightToLeft : Bool) → Option ℕ
  ascii_dimension : (charset ascii).dimension = 1
  ascii_limits : (charset ascii).minCode 1 = 0 ∧ (charset ascii).maxCode 1 = 127
  /-- As `initialize_ascii_control_1_latin_1_unicode_translation` leaves it. -/
  ascii_codes : ∀ c : Byte, byteAsciiP c → (charset ascii).charsetCodepointToIchar 0 c = some c.val

/-- `precedence_array`, whose charsets are `precdyn`. -/
structure PrecedenceArray where
  precdyn : List ℕ
  seenAscii : Bool
  hasOverridingAscii : Bool
  deriving DecidableEq

def allocatePrecedenceArray : PrecedenceArray := ⟨[], false, false⟩

/-- `multibyte_coding_stream`; no `ch` is -1. -/
structure MultibyteCodingStream where
  charactersSeen : ℕ
  ch : Option Byte
  deriving DecidableEq

/-- `multibyte_init_coding_stream`. -/
def MultibyteCodingStream.init : MultibyteCodingStream := ⟨0, none⟩

def multibyteCharacterTell (data : MultibyteCodingStream) : ℕ := data.charactersSeen

def cantConvertCharWhenEncoding : Byte := 0x3f

namespace Charsets

variable (env : Charsets)

/-- `add_charset_to_precedence_array`; the hash table of the charsets seen is `precdyn` itself. -/
def addCharsetToPrecedenceArray (precarr : PrecedenceArray) (charset : ℕ) : PrecedenceArray :=
  if charset ∈ precarr.precdyn then precarr
  else
    let precarr := { precarr with precdyn := precarr.precdyn ++ [charset] }
    if charset = env.ascii then { precarr with seenAscii := true }
    else if (env.charset charset).numberOfAsciiMappings > 0 ∧ ¬ precarr.seenAscii then
      { precarr with hasOverridingAscii := true }
    else precarr

def rangesOverlap (from1 to1 from2 to2 : ℕ) : Bool := !(to1 < from2 || to2 < from1)

/-- The rectangle of a charset in `charsets_overlap`, which takes the one octet of a charset of
one dimension for the first of two. -/
def rectangle (cs : LispCharset) : (ℕ × ℕ) × (ℕ × ℕ) :=
  if cs.dimension = 1 then ((cs.minCode 1, cs.maxCode 1), (0, 255))
  else ((cs.minCode 0, cs.maxCode 0), (cs.minCode 1, cs.maxCode 1))

def charsetsOverlap (cseta csetb : ℕ) : Bool :=
  let a := rectangle (env.charset cseta)
  let b := rectangle (env.charset csetb)
  rangesOverlap a.1.1 a.1.2 b.1.1 b.1.2 && rangesOverlap a.2.1 a.2.2 b.2.1 b.2.2

/-- The loop of `multibyte_putprop` that checks a charset against those before it. -/
def checkCharset (charset : ℕ) : List ℕ → Except (String × List ℕ) Unit
  | [] => .ok ()
  | ocharset :: charsets =>
    if ocharset = charset then .error ("Duplicated charset in `charsets' list", [charset])
    else if env.charsetsOverlap charset ocharset then
      .error ("Charset overlaps with existing charset", [charset, ocharset])
    else checkCharset charset charsets

/-- The loop of `multibyte_putprop` over the list. -/
def checkCharsets (charsets : List ℕ) : List ℕ → Except (String × List ℕ) (List ℕ)
  | [] => .ok charsets
  | charset :: value => do
    env.checkCharset charset charsets
    checkCharsets (charsets ++ [charset]) value

/-- `multibyte_putprop` with `charsets`, on a coding system that has just been made. -/
def multibytePutprop (value : List ℕ) : Except (String × List ℕ) PrecedenceArray := do
  let charsets ← env.checkCharsets [] value
  return charsets.foldl env.addCharsetToPrecedenceArray allocatePrecedenceArray

/-- `try_to_derive_character`, none for -1. -/
def tryToDeriveCharacter (c1 c2 : Byte) (dimension : ℕ) (precarr : PrecedenceArray) : Option ℕ :=
  precarr.precdyn.findSome? fun charset =>
    let cs := env.charset charset
    if cs.dimension = dimension ∧ cs.validCharsetCodepointP c1 c2 then cs.charsetCodepointToIchar c1 c2
    else none

def decodeErrorOctet (octet : Byte) : List ℕ := [octet + unicodeErrorOctetRangeStart]

/-- `skip_ascii_p` of `multibyte_decode`. -/
def skipAsciiP (precarr : PrecedenceArray) : Bool := precarr.seenAscii && !precarr.hasOverridingAscii

/-- From `retry_one_byte` to the end of the loop: the new state, what is put out, and the rest of
the source. -/
def retryOneByte (precarr : PrecedenceArray) (data : MultibyteCodingStream) (c : Byte) (src : List Byte) :
    MultibyteCodingStream × List ℕ × List Byte :=
  if skipAsciiP precarr ∧ byteAsciiP c then
    let ascii := (c :: src).takeWhile byteAsciiP
    ({ data with charactersSeen := data.charactersSeen + ascii.length }, ascii.map (·.val),
      (c :: src).dropWhile byteAsciiP)
  else
    match env.tryToDeriveCharacter 0 c 1 precarr with
    | none => ({ data with ch := some c }, [], src)
    | some ich => ({ data with charactersSeen := data.charactersSeen + 1 }, [ich], src)

theorem retryOneByte_length (precarr : PrecedenceArray) (data : MultibyteCodingStream) (c : Byte) (src : List Byte) :
    (env.retryOneByte precarr data c src).2.2.length < (c :: src).length := by
  rw [retryOneByte]
  split_ifs with h
  · exact Unicode.UnicodeCodingSystem.length_dropWhile_lt h.2
  · cases env.tryToDeriveCharacter 0 c 1 precarr <;> exact Nat.lt_succ_self _

/-- What has been put out before the rest. -/
def emit (out : List ℕ) (r : MultibyteCodingStream × List ℕ) : MultibyteCodingStream × List ℕ :=
  (r.1, out ++ r.2)

/-- The loop of `multibyte_decode`. -/
def decodeLoop (precarr : PrecedenceArray) (data : MultibyteCodingStream) (src : List Byte) :
    MultibyteCodingStream × List ℕ :=
  match src with
  | [] => (data, [])
  | c :: src =>
    match data.ch with
    | some ch =>
      match env.tryToDeriveCharacter ch c 2 precarr with
      | some ich => emit [ich] (decodeLoop precarr { data with ch := none } src)
      | none =>
        let r := env.retryOneByte precarr ⟨data.charactersSeen + 1, none⟩ c src
        emit (decodeErrorOctet ch ++ r.2.1) (decodeLoop precarr r.1 r.2.2)
    | none =>
      let r := env.retryOneByte precarr data c src
      emit r.2.1 (decodeLoop precarr r.1 r.2.2)
termination_by src.length
decreasing_by
  · exact Nat.lt_succ_self _
  · exact retryOneByte_length env precarr _ c src
  · exact retryOneByte_length env precarr _ c src

def decodeStraggler (data : MultibyteCodingStream) : MultibyteCodingStream × List ℕ :=
  match data.ch with
  | some ch => (⟨data.charactersSeen + 1, none⟩, decodeErrorOctet ch)
  | none => (data, [])

/-- `multibyte_decode`, which takes all of its source. -/
def multibyteDecode (precarr : PrecedenceArray) (data : MultibyteCodingStream) (src : List Byte) (eof : Bool) :
    MultibyteCodingStream × List ℕ :=
  let r := env.decodeLoop precarr data src
  if eof then emit r.2 (decodeStraggler r.1) else r

/-- The calls of `multibyte_decode` for chunks of bytes, of which the last is the end of the
file: what each puts out, and `multibyte_character_tell` after it. -/
def decodeChunks (precarr : PrecedenceArray) (data : MultibyteCodingStream) : List (List Byte) → List (List ℕ × ℕ)
  | [] => []
  | [src] =>
    let r := env.multibyteDecode precarr data src true
    [(r.2, multibyteCharacterTell r.1)]
  | src :: chunk :: chunks =>
    let r := env.multibyteDecode precarr data src false
    (r.2, multibyteCharacterTell r.1) :: decodeChunks precarr r.1 (chunk :: chunks)

/-- `private_unicode_to_charset_codepoint`, none for `Qnil`. -/
def privateUnicodeToCharsetCodepoint (priv : ℕ) : Option (ℕ × Byte × Byte) :=
  let found :=
    if priv ≥ 0x1000000 then
      (env.charsetById (priv >>> 16 - 256)).map fun charset =>
        (charset, byte (priv >>> 8 &&& 0xff), byte (priv &&& 0xff))
    else if priv ≥ 0x800000 then
      let priv := priv - 0x800000
      let type := priv >>> 21 &&& 3
      let final := priv >>> 14 &&& 0x7f
      ((env.charsetByAttributes type final false).or (env.charsetByAttributes type final true)).map fun charset =>
        let high dim := if (env.charset charset).offset dim ≥ 128 then 128 else 0
        (charset, byte ((priv >>> 7 &&& 0x7f) + high 0), byte ((priv &&& 0x7f) + high 1))
    else none
  found.filter fun r => (env.charset r.1).validCharsetCodepointP r.2.1 r.2.2

def unicodeToCharsetCodepointRaw (code : ℕ) (precarr : PrecedenceArray) : Option (ℕ × Byte × Byte) :=
  (precarr.precdyn.findSome? fun charset =>
    ((env.charset charset).unicodeConversion code).map fun c => (charset, c)).or
    (env.privateUnicodeToCharsetCodepoint code)

/-- `ichar_to_charset_codepoint` with `CONVERR_FAIL`. -/
def icharToCharsetCodepoint (ich : ℕ) (precarr : PrecedenceArray) : Option (ℕ × Byte × Byte) :=
  if ich ≤ 0x7f ∧ ¬ precarr.hasOverridingAscii then some (env.ascii, 0, byte ich)
  else env.unicodeToCharsetCodepointRaw ich precarr

/-- The step of `multibyte_encode` on one character. -/
def encodeIchar (precarr : PrecedenceArray) (ich : ℕ) : List Byte :=
  if unicodeErrorOctetCodeP ich then [byte (ich &&& 0xff)]
  else
    match env.icharToCharsetCodepoint ich precarr with
    | none => [cantConvertCharWhenEncoding]
    | some (charset, c1, c2) => if (env.charset charset).dimension = 2 then [c1, c2] else [c2]

def multibyteEncode (precarr : PrecedenceArray) (src : List ℕ) : List Byte := src.flatMap (env.encodeIchar precarr)

end Charsets

end XEmacs.Coding.Multibyte
