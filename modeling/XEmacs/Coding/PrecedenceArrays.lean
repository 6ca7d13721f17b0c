import XEmacs.Coding.Multibyte
import XEmacs.Lib.Transition

/-! Precedence arrays over charsets whose conversion tables change (unicode.c, charset.h): an array is
reset and built charset by charset, and between the lookups conversions are set and tables are loaded. A
load is the calls it makes on the tables of its charset. Left out are the assertions of
`set_unicode_conversion` on charsets other than ASCII. -/

namespace XEmacs.Coding.Multibyte

open Unicode (Byte byte)

/-- The charsets, `Vprecedence_array_charsets_seen_hash` and a precedence array. -/
structure PrecedenceState where
  charset : ℕ → Charset
  charsetsSeen : List ℕ
  precarr : PrecedenceArray

/-- The calls that concern the array or the tables of a charset. -/
inductive PrecedenceOp
  | resetPrecedenceArray
  | beginPrecedenceArrayGeneration
  | addCharsetToPrecedenceArray (charset : ℕ)
  | table (charset : ℕ) (op : CharsetOp)
  deriving DecidableEq

/-- What `set_unicode_conversion` asserts for ASCII. -/
def asciiConversionP : CharsetOp → Bool
  | .set code _ c2 => code == some c2.val
  | _ => true

namespace PrecedenceState

variable (env : Charsets) (s : PrecedenceState)

def resetPrecedenceArray : PrecedenceState := { s with precarr := { s.precarr with precdyn := [] } }

def beginPrecedenceArrayGeneration : PrecedenceState := { s with charsetsSeen := [] }

def addCharsetToPrecedenceArray (charset : ℕ) : PrecedenceState :=
  if charset ∈ s.charsetsSeen then s
  else
    let precarr := { s.precarr with precdyn := s.precarr.precdyn ++ [charset] }
    let precarr :=
      if charset = env.ascii then { precarr with seenAscii := true }
      else if (s.charset charset).numberOfAsciiMappings > 0 ∧ ¬ precarr.seenAscii then
        { precarr with hasOverridingAscii := true }
      else precarr
    { s with precarr := precarr, charsetsSeen := charset :: s.charsetsSeen }

def step (s : PrecedenceState) : PrecedenceOp → Option PrecedenceState
  | .resetPrecedenceArray => some s.resetPrecedenceArray
  | .beginPrecedenceArrayGeneration => some s.beginPrecedenceArrayGeneration
  | .addCharsetToPrecedenceArray charset => some (s.addCharsetToPrecedenceArray env charset)
  | .table charset op =>
    if charset = env.ascii ∧ ¬ asciiConversionP op then none
    else ((s.charset charset).step op).map fun cs => { s with charset := Function.update s.charset charset cs }

def passes (predicate : Option (ℕ → Bool)) (charset : ℕ) : Bool := predicate.all fun p => p charset

/-- The search of `unicode_to_charset_codepoint_raw` through the array; none where
`autoload_charset_unicode_tables` has to run first. -/
def searchArray (code : ℕ) (predicate : Option (ℕ → Bool)) : List ℕ → Option (Option (ℕ × Byte × Byte))
  | [] => some none
  | charset :: precdyn =>
    if passes predicate charset then
      (Charset.getUnicodeConversion1 code (s.charset charset)).bind fun found =>
        match found with
        | some c => some (some (charset, c))
        | none => searchArray code predicate precdyn
    else searchArray code predicate precdyn

def unicodeToCharsetCodepointRaw (code : ℕ) (predicate : Option (ℕ → Bool)) : Option (Option (ℕ × Byte × Byte)) :=
  (s.searchArray code predicate s.precarr.precdyn).map fun found =>
    found.or (env.privateUnicodeToCharsetCodepoint code)

/-- `filtered_unicode_to_charset_codepoint` with `CONVERR_FAIL`. -/
def filteredUnicodeToCharsetCodepoint (code : ℕ) (predicate : Option (ℕ → Bool)) :
    Option (Option (ℕ × Byte × Byte)) :=
  if code ≤ 0x7f ∧ ¬ s.precarr.hasOverridingAscii ∧ passes predicate env.ascii then
    some (some (env.ascii, 0, byte code))
  else s.unicodeToCharsetCodepointRaw env code predicate

end PrecedenceState

end XEmacs.Coding.Multibyte
