import Mathlib.Logic.Function.Basic
import XEmacs.Lib.Transition

/-! The conversion tables between a charset and Unicode (unicode.c, charset.h), in the build
that always uses tables of the maximum depth. The to-Unicode tables have two levels, the lower
of a variable range; the from-Unicode tables have four levels of 256 entries. A blank table
is shared by all charsets and is replaced by one of the charset's own before a write. Left out
are charsets of an algorithmic conversion, whose tables cannot be set, and the file that
tables are loaded from, which is a sequence of calls. -/

namespace XEmacs.Coding

open Lib

def charsetIndexMultiple : ℕ := 32

def badvalFromTable : ℕ := 0x0100

/-- `to_unicode_base`, whose `len` is the length of the array; a code of -1, here none, is
`BADVAL_TO_TABLE`. -/
structure ToUnicodeBase where
  offset : ℕ
  array : List (Option ℕ)

/-- The to-Unicode tables; none is `to_unicode_blank`, at either level. -/
abbrev ToUnicodeTable : Type := Option (Fin 256 → Option ToUnicodeBase)

/-- A from-Unicode table of some levels; none is `from_unicode_blank`. -/
def FromUnicodeTable : ℕ → Type
  | 0 => ℕ
  | level + 1 => Option (Fin 256 → FromUnicodeTable level)

def fromUnicodeBlank : (level : ℕ) → FromUnicodeTable level
  | 0 => badvalFromTable
  | _ + 1 => none

structure Charset where
  chars : Fin 2 → ℕ
  offset : Fin 2 → ℕ
  fits : ∀ dim, offset dim + chars dim ≤ 256
  toUnicodeTable : ToUnicodeTable
  /-- The table of the highest level is the charset's own from the start. -/
  fromUnicodeTable : Fin 256 → FromUnicodeTable 3
  badvalUnicodeCode : Option ℕ
  numberOfAsciiMappings : ℕ
  doAutoload : Bool
  autoloadFailed : Bool

/-- `valid_unicode_codepoint_p`, with private code points allowed. -/
def validUnicodeCodepointP (ch : ℕ) : Bool := ch ≤ 0x7fffffff && (ch &&& 0x7ffff800) != 0xd800

theorem breakup_lt (level code : ℕ) : code >>> (8 * level) % 256 < 256 := Nat.mod_lt _ (by decide)

/-- A part of a code, by `UNICODE_BREAKUP_CHAR_CODE`. -/
def breakup (level code : ℕ) : Fin 256 := ⟨code >>> (8 * level) % 256, breakup_lt level code⟩

/-- The range of a table that is to hold another range, rounded unless it has to be exact. -/
def newRange (newMin newPastMax : ℕ) (exact : Bool) : ℕ × ℕ :=
  if exact then (newMin, newPastMax)
  else (newMin - newMin % charsetIndexMultiple,
    newPastMax + (charsetIndexMultiple - newPastMax % charsetIndexMultiple))

/-- The resizing in `ensure_to_unicode_holds_range`. -/
def resize (toTable : Option ToUnicodeBase) (offset len : ℕ) (exact : Bool) : ToUnicodeBase :=
  match toTable with
  | none =>
    let (newMin, newPastMax) := newRange offset (offset + len) exact
    ⟨newMin, List.replicate (newPastMax - newMin) none⟩
  | some toTable =>
    if offset < toTable.offset ∨ offset + len > toTable.offset + toTable.array.length then
      let (newMin, newPastMax) := newRange (min offset toTable.offset)
        (max (offset + len) (toTable.offset + toTable.array.length)) exact
      ⟨newMin, List.replicate (toTable.offset - newMin) none ++ toTable.array ++
        List.replicate (newPastMax - (toTable.offset + toTable.array.length)) none⟩
    else toTable

def ensureToUnicodeHoldsRange (toTable : ToUnicodeTable) (c1 : Fin 256) (offset len : ℕ) (exact : Bool) :
    ToUnicodeTable :=
  let toTable2 := toTable.getD fun _ => none
  some (Function.update toTable2 c1 (some (resize (toTable2 c1) offset len exact)))

/-- The store into one lower table. -/
def ToUnicodeBase.store (toTable : ToUnicodeBase) (c2 : Fin 256) (code : Option ℕ) : ToUnicodeBase :=
  { toTable with array := toTable.array.set (c2 - toTable.offset) code }

def setUnicodeConversionCharToUnicode (code : Option ℕ) (toTable : ToUnicodeTable) (c1 c2 : Fin 256) :
    ToUnicodeTable :=
  (ensureToUnicodeHoldsRange toTable c1 c2 1 false).map fun toTable2 =>
    Function.update toTable2 c1 ((toTable2 c1).map fun toTable => toTable.store c2 code)

/-- The code at the second octet in a lower table, none for -1; the blank table has length 0. -/
def ToUnicodeBase.code (toTable : Option ToUnicodeBase) (c2 : Fin 256) : Option ℕ :=
  match toTable with
  | none => none
  | some toTable =>
    if c2 < toTable.offset ∨ c2.val ≥ toTable.offset + toTable.array.length then none
    else (toTable.array[c2.val - toTable.offset]?).join

namespace Charset

def validCharsetCodepointP (cs : Charset) (c1 c2 : Fin 256) : Bool :=
  cs.offset 0 ≤ c1 && c1 < cs.offset 0 + cs.chars 0 && cs.offset 1 ≤ c2 && c2 < cs.offset 1 + cs.chars 1

/-- The table access of `charset_codepoint_to_unicode_raw_1`, none for -1. -/
def codeOf (cs : Charset) (c1 c2 : Fin 256) : Option ℕ :=
  ToUnicodeBase.code (cs.toUnicodeTable.bind fun toTable2 => toTable2 c1) c2

/-- `charset_codepoint_to_unicode_raw_1`; none where `autoload_charset_unicode_tables` has to
run first. -/
def charsetCodepointToUnicodeRaw1 (cs : Charset) (c1 c2 : Fin 256) : Option (Option ℕ) :=
  if cs.doAutoload then if cs.autoloadFailed then some none else none else some (cs.codeOf c1 c2)

/-- `charset_codepoint_to_unicode` with `CONVERR_FAIL`. -/
def charsetCodepointToUnicode (cs : Charset) (c1 c2 : Fin 256) : Option (Option ℕ) :=
  cs.charsetCodepointToUnicodeRaw1 c1 c2

end Charset

def FromUnicodeTable.own {level : ℕ} (tab : Fin 256 → FromUnicodeTable level) : FromUnicodeTable (level + 1) :=
  some tab

/-- The entries of a table; a new table starts as a copy of the blank one. -/
def FromUnicodeTable.entries {level : ℕ} : FromUnicodeTable (level + 1) → Fin 256 → FromUnicodeTable level
  | none => fun _ => fromUnicodeBlank level
  | some tab => tab

/-- The store of `set_unicode_conversion_unicode_to_char` into a table that is not blank; on
the way down blank tables are replaced by new ones. -/
def storeCode (code combinedCode : ℕ) :
    (level : ℕ) → (Fin 256 → FromUnicodeTable level) → Fin 256 → FromUnicodeTable level
  | 0, table => Function.update table (breakup 0 code) combinedCode
  | level + 1, table =>
    let ind := breakup (level + 1) code
    Function.update table ind (.own (storeCode code combinedCode level (table ind).entries))

/-- The walk of `get_unicode_conversion_1` down the tables. -/
def walkCode (code : ℕ) : (level : ℕ) → (Fin 256 → FromUnicodeTable level) → ℕ
  | 0, table => table (breakup 0 code)
  | level + 1, table => walkCode code level (table (breakup (level + 1) code)).entries

def setUnicodeConversionUnicodeToChar (code : ℕ) (table : Fin 256 → FromUnicodeTable 3) (combinedCode : ℕ) :
    Fin 256 → FromUnicodeTable 3 :=
  storeCode code combinedCode 3 table

namespace Charset

theorem high_octet_lt (retval : ℕ) : retval >>> 8 % 256 < 256 := Nat.mod_lt _ (by decide)

theorem low_octet_lt (retval : ℕ) : retval % 256 < 256 := Nat.mod_lt _ (by decide)

def octets (retval : ℕ) : Fin 256 × Fin 256 :=
  (⟨retval >>> 8 % 256, high_octet_lt retval⟩, ⟨retval % 256, low_octet_lt retval⟩)

/-- What `get_unicode_conversion_1` finds in the tables, none where it returns 0. -/
def codepointOf (cs : Charset) (code : ℕ) : Option (Fin 256 × Fin 256) :=
  let retval := walkCode code 3 cs.fromUnicodeTable
  if retval ≠ badvalFromTable then some (octets retval)
  else if some code = cs.badvalUnicodeCode then some (octets badvalFromTable)
  else none

/-- `get_unicode_conversion_1`; none where `autoload_charset_unicode_tables` has to run
first. -/
def getUnicodeConversion1 (code : ℕ) (cs : Charset) : Option (Option (Fin 256 × Fin 256)) :=
  if cs.doAutoload then if cs.autoloadFailed then some none else none else some (cs.codepointOf code)

def unicodeToOneCharsetCodepoint (code : ℕ) (cs : Charset) : Option (Option (Fin 256 × Fin 256)) :=
  getUnicodeConversion1 code cs

/-- A code is one of the 128 that `number_of_ascii_mappings` counts. -/
def asciiCode : Option ℕ → Bool
  | none => false
  | some code => code ≤ 127

/-- `number_of_ascii_mappings` after a code has taken the place of another. -/
def countAscii (number : ℕ) (oldCode code : Option ℕ) : ℕ :=
  let number := if asciiCode oldCode then number - 1 else number
  if asciiCode code then number + 1 else number

/-- The from-Unicode table after the new code has been stored and the old one erased. -/
def replaceCode (table : Fin 256 → FromUnicodeTable 3) (oldCode code : Option ℕ) (combinedCode : ℕ) :
    Fin 256 → FromUnicodeTable 3 :=
  let table :=
    match code with
    | some code => setUnicodeConversionUnicodeToChar code table combinedCode
    | none => table
  match oldCode with
  | some old => if oldCode ≠ code then setUnicodeConversionUnicodeToChar old table badvalFromTable else table
  | none => table

/-- `set_unicode_conversion`, with none for the code -1; none where it fails its assertion. -/
def setUnicodeConversion (code : Option ℕ) (cs : Charset) (c1 c2 : Fin 256) : Option Charset :=
  let combinedCode := c1.val <<< 8 + c2.val
  (if cs.doAutoload then some none else cs.charsetCodepointToUnicode c1 c2).bind fun oldCode =>
    if asciiCode oldCode ∧ ¬ cs.numberOfAsciiMappings > 0 then none
    else some { cs with
      numberOfAsciiMappings := countAscii cs.numberOfAsciiMappings oldCode code
      toUnicodeTable := setUnicodeConversionCharToUnicode code cs.toUnicodeTable c1 c2
      fromUnicodeTable := replaceCode cs.fromUnicodeTable oldCode code combinedCode
      badvalUnicodeCode :=
        if combinedCode = badvalFromTable then code
        else if cs.badvalUnicodeCode = oldCode then none
        else cs.badvalUnicodeCode }

end Charset

/-- Calls on one charset. `hold` is `ensure_to_unicode_holds_range` as called when a mapping
table is loaded, `autoloaded` and `autoloadFails` are the two ends of such a load. -/
inductive CharsetOp
  | set (code : Option ℕ) (c1 c2 : Fin 256)
  | hold (c1 : Fin 256) (offset len : ℕ)
  | autoloaded
  | autoloadFails
  deriving DecidableEq

namespace Charset

def step (cs : Charset) : CharsetOp → Option Charset
  | .set code c1 c2 =>
    if cs.validCharsetCodepointP c1 c2 ∧ code.all validUnicodeCodepointP then
      setUnicodeConversion code cs c1 c2
    else none
  | .hold c1 offset len =>
    if 0 < len ∧ offset + len ≤ 256 then
      some { cs with toUnicodeTable := ensureToUnicodeHoldsRange cs.toUnicodeTable c1 offset len true }
    else none
  | .autoloaded =>
    if cs.doAutoload ∧ ¬ cs.autoloadFailed then some { cs with doAutoload := false } else none
  | .autoloadFails =>
    if cs.doAutoload ∧ ¬ cs.autoloadFailed then some { cs with autoloadFailed := true } else none

/-- A charset after `init_charset_unicode_tables`. -/
def initCharsetUnicodeTables (chars offset : Fin 2 → ℕ) (fits : ∀ dim, offset dim + chars dim ≤ 256)
    (doAutoload : Bool) : Charset where
  chars := chars
  offset := offset
  fits := fits
  toUnicodeTable := none
  fromUnicodeTable _ := fromUnicodeBlank 3
  badvalUnicodeCode := none
  numberOfAsciiMappings := 0
  doAutoload := doAutoload
  autoloadFailed := false

end Charset

end XEmacs.Coding
