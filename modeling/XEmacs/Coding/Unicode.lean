import Mathlib.Algebra.Group.Int.Defs
import Mathlib.Algebra.Group.Nat.Defs
import Mathlib.Data.Int.Basic
import XEmacs.Lib.Transducer

/-! The Unicode coding systems of unicode.c, where characters are code points. A decoder
goes through its bytes with a state kept in the stream; what is no character it puts out
as error octets, characters that the encoder turns back into bytes. UTF-7, which the code
does not implement, is left out, and so is what an encoder reports about errors, which are
not signalled. -/

namespace XEmacs.Coding.Unicode

open Lib

abbrev Byte : Type := Fin 256

/-- The conversion to `unsigned char`. -/
def byte (n : ℕ) : Byte := ⟨n % 256, Nat.mod_lt _ (by decide)⟩

inductive UnicodeEncodingType
  | utf16
  | utf8
  | ucs4
  | utf32
  deriving DecidableEq

structure UnicodeCodingSystem where
  type : UnicodeEncodingType
  littleEndian : Bool
  needBom : Bool
  allowPrivate : Bool
  deriving DecidableEq

/-- `unicode_coding_stream`; `ch` holds the bits of an `int`. -/
structure UnicodeCodingStream where
  counter : ℕ
  indicatedLength : ℕ
  seenChar : Bool
  ch : ℕ
  charactersSeen : ℕ
  wroteBom : Bool
  deriving DecidableEq

def UnicodeCodingStream.fresh : UnicodeCodingStream := ⟨0, 0, false, 0, 0, false⟩

/-- The `int` of 32 bits. -/
def asInt (bits : ℕ) : ℤ := if bits < 2 ^ 31 then bits else bits - 2 ^ 32

/-- The 32 bits of an `int`. -/
def asBits (i : ℤ) : ℕ := (i % 2 ^ 32).toNat

/-- `valid_unicode_leading_surrogate`, on bits. -/
def validUnicodeLeadingSurrogate (ch : ℕ) : Bool := ch &&& 0x7ffffc00 == 0xd800

/-- `valid_unicode_trailing_surrogate`, on bits. -/
def validUnicodeTrailingSurrogate (ch : ℕ) : Bool := ch &&& 0x7ffffc00 == 0xdc00

/-- `valid_unicode_surrogate`, on bits. -/
def validUnicodeSurrogate (ch : ℕ) : Bool := ch &&& 0x7ffff800 == 0xd800

def utf16SurrogatesToCode (lead trail : ℤ) : ℤ := lead * 2 ^ 10 + trail + (0x10000 - 0xd800 * 2 ^ 10 - 0xdc00)

def validUnicodeCodepointP (ch : ℤ) (allowPrivate : Bool) : Bool :=
  0 ≤ ch && ch ≤ (if allowPrivate then 0x7fffffff else 0x10ffff) && !validUnicodeSurrogate ch.toNat

def unicodeErrorOctetRangeStart : ℕ := 0x200000

def unicodeErrorOctetCodeP (code : ℕ) : Bool :=
  unicodeErrorOctetRangeStart ≤ code && code ≤ unicodeErrorOctetRangeStart + 0xff

def firstbyteMask (bytes : ℕ) : ℕ := [0, 0, 0xc0, 0xe0, 0xf0, 0xf8, 0xfc].getD bytes 0

def byteAsciiP (c : Byte) : Bool := c < 0x80

def utf8Mark : List Byte := [0xef, 0xbb, 0xbf]

namespace UnicodeCodingSystem

variable (cs : UnicodeCodingSystem)

/-- `decode_unicode_to_dynarr_0`; none where it fails its assertion. -/
def decodeUnicodeToDynarr0 (ucs : ℤ) (data : UnicodeCodingStream) : Option (UnicodeCodingStream × List ℕ) :=
  if validUnicodeCodepointP ucs true then
    some ({ data with seenChar := true },
      if ucs = 0xfeff ∧ cs.needBom ∧ ¬ data.seenChar then [] else [ucs.toNat])
  else none

/-- `UNICODE_DECODE_ERROR_OCTET`. -/
def decodeErrorOctet (data : UnicodeCodingStream) (octet : ℕ) : Option (UnicodeCodingStream × List ℕ) :=
  cs.decodeUnicodeToDynarr0 (octet + unicodeErrorOctetRangeStart) data

/-- `UNICODE_DECODE_ERROR_OCTET` on several octets. -/
def decodeErrorOctets (data : UnicodeCodingStream) (octets : List ℕ) : Option (UnicodeCodingStream × List ℕ) :=
  transduce cs.decodeErrorOctet data octets

def count (n : ℕ) (r : UnicodeCodingStream × List ℕ) : UnicodeCodingStream × List ℕ :=
  ({ r.1 with charactersSeen := r.1.charactersSeen + n }, r.2)

/-- The octets of a sequence of which `stored` bytes have been seen, the first with a mask. -/
def storedOctets : (stored mask ch : ℕ) → List ℕ
  | 0, _, _ => []
  | stored + 1, mask, ch => (ch >>> (6 * stored) &&& 0x3f ||| mask) :: storedOctets stored 0x80 ch

def indicateInvalidUtf8 (indicatedLength counter ch : ℕ) (data : UnicodeCodingStream) :
    Option (UnicodeCodingStream × List ℕ) :=
  cs.decodeErrorOctets data (storedOctets (indicatedLength - counter) (firstbyteMask indicatedLength) ch)

/-- The least code that a sequence of a length may have; none where the code aborts. -/
def leastCode : ℕ → Option ℕ
  | 2 => some 0x80
  | 3 => some 0x800
  | 4 => some 0x10000
  | 5 => some 0x200000
  | 6 => some 0x4000000
  | _ => none

def startSequence (ch counter : ℕ) (data : UnicodeCodingStream) : Option (UnicodeCodingStream × List ℕ) :=
  some ({ data with ch := ch, counter := counter, indicatedLength := counter + 1 }, [])

/-- `decode_utf_8` on a byte that no sequence waits for. -/
def decodeFirstByte (data : UnicodeCodingStream) (c : ℕ) : Option (UnicodeCodingStream × List ℕ) :=
  if c &&& 0x80 = 0 then (cs.decodeUnicodeToDynarr0 c data).map (count 1)
  else if c &&& 0x40 = 0 then (cs.decodeErrorOctet data c).map (count 1)
  else if c &&& 0x20 = 0 then startSequence (c &&& 0x1f) 1 data
  else if c &&& 0x10 = 0 then startSequence (c &&& 0x0f) 2 data
  else if c &&& 0x08 = 0 then startSequence (c &&& 0x07) 3 data
  else if cs.allowPrivate ∧ c &&& 0x04 = 0 then startSequence (c &&& 0x03) 4 data
  else if cs.allowPrivate ∧ c &&& 0x02 = 0 then startSequence (c &&& 0x01) 5 data
  else (cs.decodeErrorOctet data c).map (count 1)

/-- `decode_utf_8` on a byte that does not continue the sequence. -/
def decodeInterruption (data : UnicodeCodingStream) (c : ℕ) : Option (UnicodeCodingStream × List ℕ) :=
  (cs.indicateInvalidUtf8 data.indicatedLength data.counter data.ch data).bind fun r =>
    ((if c &&& 0x80 ≠ 0 then cs.decodeErrorOctet r.1 c else cs.decodeUnicodeToDynarr0 c r.1).map (count 1)).map
      fun r' => ({ r'.1 with ch := 0, counter := 0 }, r.2 ++ r'.2)

/-- `decode_utf_8` at the end of a sequence. -/
def decodeSequence (data : UnicodeCodingStream) : Option (UnicodeCodingStream × List ℕ) :=
  (leastCode data.indicatedLength).bind fun least =>
    (if data.ch < least ∨ ¬ validUnicodeCodepointP data.ch cs.allowPrivate then
      (cs.indicateInvalidUtf8 data.indicatedLength data.counter data.ch data).map
        (count (data.indicatedLength - data.counter))
    else (cs.decodeUnicodeToDynarr0 data.ch data).map (count 1)).map fun r => ({ r.1 with ch := 0 }, r.2)

def decodeUtf8 (data : UnicodeCodingStream) (c : Byte) : Option (UnicodeCodingStream × List ℕ) :=
  if data.counter = 0 then cs.decodeFirstByte data c
  else if c.val &&& 0x80 = 0 ∨ c.val &&& 0x40 ≠ 0 then cs.decodeInterruption data c
  else
    let data := { data with ch := data.ch <<< 6 ||| c.val &&& 0x3f, counter := data.counter - 1 }
    if data.counter = 0 then cs.decodeSequence data else some (data, [])

theorem length_dropWhile_lt {c : Byte} {src : List Byte} (h : byteAsciiP c) :
    ((c :: src).dropWhile byteAsciiP).length < (c :: src).length := by
  rw [List.dropWhile_cons_of_pos h, List.length_cons]
  exact Nat.lt_succ_of_le (List.dropWhile_suffix _).length_le

/-- The loop of `unicode_decode` for UTF-8; `skip_ascii` goes to the first byte that is not
ASCII. -/
def decodeUtf8Loop (data : UnicodeCodingStream) (src : List Byte) : Option (UnicodeCodingStream × List ℕ) :=
  match src with
  | [] => some (data, [])
  | c :: src =>
    if _h : data.counter = 0 ∧ byteAsciiP c then
      let ascii := (c :: src).takeWhile byteAsciiP
      (decodeUtf8Loop { data with charactersSeen := data.charactersSeen + ascii.length }
        ((c :: src).dropWhile byteAsciiP)).map fun r => (r.1, ascii.map (·.val) ++ r.2)
    else
      (cs.decodeUtf8 data c).bind fun r =>
        (decodeUtf8Loop r.1 src).map fun r' => (r'.1, r.2 ++ r'.2)
termination_by src.length
decreasing_by
  · exact length_dropWhile_lt _h.2
  · exact Nat.lt_succ_self _

/-- The bits of `ch` and `counter` after a byte. -/
def takeByte (data : UnicodeCodingStream) (c : Byte) : UnicodeCodingStream :=
  { data with
    ch := if cs.littleEndian then c.val <<< data.counter % 2 ^ 32 ||| data.ch
      else data.ch <<< 8 % 2 ^ 32 ||| c
    counter := data.counter + 8 }

/-- The `n` bytes of `ch`, in the order in which they came. -/
def octets (n ch : ℕ) : List ℕ :=
  let low := (List.range n).map fun i => ch >>> (8 * i) &&& 0xff
  if cs.littleEndian then low else low.reverse

def reset (data : UnicodeCodingStream) : UnicodeCodingStream := { data with ch := 0, counter := 0 }

/-- The two surrogates of `ch`, in the order of the bytes, as the code takes them out. -/
def surrogates (ch : ℕ) : ℤ × ℤ :=
  if cs.littleEndian then (((ch &&& 0xffff : ℕ) : ℤ), asInt ch >>> (16 : ℕ))
  else (asInt ch >>> (16 : ℕ), ((ch &&& 0xffff : ℕ) : ℤ))

/-- The step of `unicode_decode` for UTF-16. -/
def decodeUtf16 (data : UnicodeCodingStream) (c : Byte) : Option (UnicodeCodingStream × List ℕ) :=
  let data := cs.takeByte data c
  if data.counter = 16 then
    if validUnicodeLeadingSurrogate data.ch then some (data, [])
    else if validUnicodeTrailingSurrogate data.ch then
      (cs.decodeErrorOctets (reset data) (cs.octets 2 data.ch)).map (count 2)
    else (cs.decodeUnicodeToDynarr0 (asInt data.ch) (reset data)).map (count 1)
  else if data.counter = 32 then
    if validUnicodeTrailingSurrogate (asBits (cs.surrogates data.ch).2) then
      (cs.decodeUnicodeToDynarr0 (utf16SurrogatesToCode (cs.surrogates data.ch).1 (cs.surrogates data.ch).2)
        (reset data)).map (count 1)
    else (cs.decodeErrorOctets (reset data) (cs.octets 4 data.ch)).map (count 4)
  else if data.counter = 8 ∨ data.counter = 24 then some (data, [])
  else none

/-- The step of `unicode_decode` for UCS-4 and UTF-32. -/
def decodeUtf32 (data : UnicodeCodingStream) (c : Byte) : Option (UnicodeCodingStream × List ℕ) :=
  let data := cs.takeByte data c
  if data.counter = 32 then
    if validUnicodeCodepointP (asInt data.ch) false ∨
        cs.type = .ucs4 ∧ validUnicodeCodepointP (asInt data.ch) true then
      (cs.decodeUnicodeToDynarr0 (asInt data.ch) (reset data)).map (count 1)
    else (cs.decodeErrorOctets (reset data) (cs.octets 4 data.ch)).map (count 4)
  else some (data, [])

/-- The octets that `unicode_decode` puts out for what is left of a character of 16 or 32 bits
at the end of the file; none where it fails its assertion. -/
def leftOctets (counter ch : ℕ) : Option (List ℕ) :=
  if counter = 8 then some [ch]
  else if counter = 16 then some (cs.octets 2 ch)
  else if counter = 24 then
    if cs.littleEndian then some [ch >>> 16 &&& 0xff, ch &&& 0xff, ch >>> 8 &&& 0xff]
    else some [ch >>> 16 &&& 0xff, ch >>> 8 &&& 0xff, ch &&& 0xff]
  else none

/-- The end of `unicode_decode` at the end of the file. -/
def decodeLeft (data : UnicodeCodingStream) : Option (UnicodeCodingStream × List ℕ) :=
  if data.counter = 0 then some (data, [])
  else
    match cs.type with
    | .utf8 =>
      (cs.indicateInvalidUtf8 data.indicatedLength data.counter data.ch data).map fun r =>
        count (data.indicatedLength - data.counter) (reset r.1, r.2)
    | _ => (cs.leftOctets data.counter data.ch).bind fun octets =>
      (cs.decodeErrorOctets (reset data) octets).map (count octets.length)

/-- The loop of `unicode_decode`. -/
def decodeLoop (data : UnicodeCodingStream) (src : List Byte) : Option (UnicodeCodingStream × List ℕ) :=
  match cs.type with
  | .utf8 => cs.decodeUtf8Loop data src
  | .utf16 => transduce cs.decodeUtf16 data src
  | _ => transduce cs.decodeUtf32 data src

def unicodeDecode (data : UnicodeCodingStream) (src : List Byte) (eof : Bool) :
    Option (UnicodeCodingStream × List ℕ) :=
  (cs.decodeLoop data src).bind fun r =>
    if eof then (cs.decodeLeft r.1).map fun r' => (r'.1, r.2 ++ r'.2) else some r

/-- What a stream puts out for chunks of bytes, of which the last is the end of the file. -/
def decodeChunks (data : UnicodeCodingStream) : List (List Byte) → Option (List ℕ)
  | [] => none
  | [src] => (cs.unicodeDecode data src true).map (·.2)
  | src :: chunk :: chunks =>
    (cs.unicodeDecode data src false).bind fun r => (decodeChunks r.1 (chunk :: chunks)).map (r.2 ++ ·)

def decode (src : List Byte) : Option (List ℕ) := (cs.unicodeDecode .fresh src true).map (·.2)

def add16BitChar (code : ℕ) : List Byte :=
  if cs.littleEndian then [byte (code &&& 255), byte (code >>> 8 &&& 255)]
  else [byte (code >>> 8 &&& 255), byte (code &&& 255)]

/-- The bytes of a UTF-8 sequence, from the last to the first. -/
def utf8Bytes (mask : ℕ) : (bytes code : ℕ) → List Byte
  | 0, _ => []
  | 1, code => [byte (code ||| mask)]
  | bytes + 2, code => utf8Bytes mask (bytes + 1) (code >>> 6) ++ [byte ((code ||| 0x80) &&& 0xbf)]

def utf8Length (code : ℕ) : ℕ :=
  if code ≤ 0x7ff then 2 else if code ≤ 0xffff then 3 else if code ≤ 0x1fffff then 4
  else if code ≤ 0x3ffffff then 5 else 6

/-- `encode_unicode_to_dynarr` for UTF-8. -/
def encodeUtf8 (code : ℕ) : List Byte :=
  if code ≤ 0x7f then [byte code]
  else
    let code := if code ≤ 0x10ffff ∨ cs.allowPrivate then code else 0xfffd
    utf8Bytes (firstbyteMask (utf8Length code)) (utf8Length code) code

/-- `encode_unicode_to_dynarr` for UTF-16. -/
def encodeUtf16 (code : ℕ) : List Byte :=
  if code < 0x10000 then cs.add16BitChar code
  else if code ≤ 0x10ffff then
    cs.add16BitChar (0xd800 - 0x10000 >>> 10 + code >>> 10) ++ cs.add16BitChar (0xdc00 + (code &&& 0x3ff))
  else cs.add16BitChar 0xfffd

/-- `encode_unicode_to_dynarr` for UCS-4 and UTF-32. -/
def encodeUtf32 (code : ℕ) : List Byte :=
  if cs.littleEndian then
    [byte (code &&& 255), byte (code >>> 8 &&& 255), byte (code >>> 16 &&& 255), byte (code >>> 24)]
  else [byte (code >>> 24), byte (code >>> 16 &&& 255), byte (code >>> 8 &&& 255), byte (code &&& 255)]

/-- `encode_unicode_to_dynarr`, which does not preserve error characters. -/
def encodeUnicodeToDynarr (code : ℕ) : List Byte :=
  if unicodeErrorOctetCodeP code then [byte (code &&& 0xff)]
  else
    match cs.type with
    | .utf8 => cs.encodeUtf8 code
    | .utf16 => cs.encodeUtf16 code
    | _ => cs.encodeUtf32 code

theorem length_dropWhile_text_lt {c : ℕ} {src : List ℕ} (h : c < 0x80) :
    ((c :: src).dropWhile (· < 0x80)).length < (c :: src).length := by
  rw [List.dropWhile_cons_of_pos (by simpa using h), List.length_cons]
  exact Nat.lt_succ_of_le (List.dropWhile_suffix _).length_le

/-- The loop of `unicode_encode`. -/
def encodeLoop (src : List ℕ) : List Byte :=
  match src with
  | [] => []
  | c :: src =>
    if _h : c < 0x80 ∧ cs.type = .utf8 then
      ((c :: src).takeWhile (· < 0x80)).map byte ++ encodeLoop ((c :: src).dropWhile (· < 0x80))
    else cs.encodeUnicodeToDynarr c ++ encodeLoop src
termination_by src.length
decreasing_by
  · exact length_dropWhile_text_lt _h.1
  · exact Nat.lt_succ_self _

def unicodeEncode (data : UnicodeCodingStream) (src : List ℕ) : UnicodeCodingStream × List Byte :=
  if cs.needBom ∧ ¬ data.wroteBom then
    ({ data with wroteBom := true }, cs.encodeUnicodeToDynarr 0xfeff ++ cs.encodeLoop src)
  else (data, cs.encodeLoop src)

def encode (src : List ℕ) : List Byte := (cs.unicodeEncode .fresh src).2

end UnicodeCodingSystem

end XEmacs.Coding.Unicode
