import Mathlib.Algebra.Group.Int.Defs
import XEmacs.Coding.CharsetTables
import XEmacs.Coding.CompiledTables

/-! `load-unicode-mapping-table` (unicode.c) on the entries of a mapping table: the calls it makes on the
conversion tables of a charset. Left out are how lines are parsed and warnings, and the flag `big5`; the
flag `ignore-first-column` only concerns the parsing. -/

namespace XEmacs.Coding

/-- The codepoints of a table to be processed, and what is added to them. -/
structure LoadUnicodeArgs where
  st : ℤ
  en : ℤ
  of : ℤ
  deriving DecidableEq

/-- `check_integer_range` with the bounds of `verify_load_unicode_args`; none where it signals. -/
def checkIntegerRange (n : ℤ) : Option ℤ := if 0 ≤ n ∧ n ≤ 0x3fffffff then some n else none

def intMax : ℤ := 2 ^ 31 - 1

/-- `verify_load_unicode_args`, with the values that `load-unicode-mapping-table` starts from; no value is
`Qnil`. -/
def verifyLoadUnicodeArgs (start stop offset : Option ℤ) : Option LoadUnicodeArgs := do
  let st ← start.elim (some 0) checkIntegerRange
  let en ← stop.elim (some intMax) checkIntegerRange
  let of ← offset.elim (some 0) checkIntegerRange
  return ⟨st, en, of⟩

/-- A call on the conversion tables. -/
inductive LoadCall
  | ensureToUnicodeHoldsRange (c1 : Fin 256) (offset len : ℕ)
  | setUnicodeConversion (code : ℤ) (c1 c2 : Fin 256)
  deriving DecidableEq

/-- A Unicode codepoint and the octets of a charset codepoint. -/
abbrev Conversion : Type := ℤ × Fin 256 × Fin 256

section Loading

variable (cs : Charset) (args : LoadUnicodeArgs)

/-- The octets of a codepoint; none where it is out of range. -/
def octetsInRange (cp1 : ℤ) : Option (Fin 256 × Fin 256) :=
  if cp1 < 0 ∨ cp1 ≥ 65536 then none
  else
    let (c1, c2) := Charset.octets cp1.toNat
    if cs.validCharsetCodepointP c1 c2 then some (c1, c2) else none

/-- The loop over the codepoints of an entry, in `fuel` iterations at most; none where an `int`
overflows. The codepoint with the offset added is the loop's own. -/
def loadEntry (cp1to : ℤ) : ℕ → ℤ → ℤ → Option (List Conversion)
  | 0, cp1, _ => if cp1 ≤ cp1to then none else some []
  | fuel + 1, cp1, cp2 =>
    if cp1 ≤ cp1to then
      let inWindow := cp1 ≥ args.st ∧ cp1 ≤ args.en
      (if inWindow then cInt (cp1 + args.of) else some cp1).bind fun cp1 =>
        let done := if inWindow then (octetsInRange cs cp1).map fun c => (cp2, c) else none
        (cInt (cp1 + 1)).bind fun cp1 => (cInt (cp2 + 1)).bind fun cp2 =>
          (loadEntry cp1to fuel cp1 cp2).map (done.toList ++ ·)
    else some []

/-- The loop over a table. No entry takes more iterations than it has codepoints. -/
def loadEntries : List MappingEntry → Option (List Conversion)
  | [] => some []
  | e :: table =>
    (loadEntry cs args e.cp1to (e.cp1to + 1 - e.cp1from).toNat e.cp1from e.cp2).bind fun done =>
      (loadEntries table).map (done ++ ·)

/-- `to_unicode_min_val` and `to_unicode_max_val` of each row. -/
abbrev RowLimits : Type := Fin 256 → ℕ × ℕ

/-- What the first stage does at `do_it`. -/
def RowLimits.add (limits : RowLimits) (c1 c2 : Fin 256) : RowLimits :=
  let (minVal, maxVal) := limits c1
  Function.update limits c1 (if c2.val < minVal then c2.val else minVal, if c2.val > maxVal then c2.val else maxVal)

def rowLimits (done : List Conversion) : RowLimits :=
  done.foldl (fun limits c => limits.add c.2.1 c.2.2) fun _ => (255, 0)

def holdRows (limits : RowLimits) : List LoadCall :=
  (List.finRange 256).filterMap fun i =>
    let (minVal, maxVal) := limits i
    if minVal ≤ maxVal then some (.ensureToUnicodeHoldsRange i minVal (maxVal - minVal + 1)) else none

/-- `load-unicode-mapping-table`; none where an `int` overflows. -/
def loadUnicodeMappingTable (table : List MappingEntry) : Option (List LoadCall) := do
  let done ← loadEntries cs args table
  let limits := rowLimits done
  let done ← loadEntries cs args table
  return holdRows limits ++ done.map fun c => .setUnicodeConversion c.1 c.2.1 c.2.2

end Loading

/-- A to-Unicode table after a call. A code that is not a codepoint is stored as -1 is. -/
def LoadCall.apply (t : ToUnicodeTable) : LoadCall → ToUnicodeTable
  | ensureToUnicodeHoldsRange c1 offset len => Coding.ensureToUnicodeHoldsRange t c1 offset len true
  | setUnicodeConversion code c1 c2 =>
    setUnicodeConversionCharToUnicode (if 0 ≤ code then some code.toNat else none) t c1 c2

/-- The codepoint of an entry is within the given range, and so is what it is in the charset, to which
it converts. -/
def documentedCodepoint (cs : Charset) (args : LoadUnicodeArgs) (cp cp2 : ℤ) : Option Conversion :=
  if args.st ≤ cp ∧ cp ≤ args.en then (octetsInRange cs (cp + args.of)).map fun c => (cp2, c) else none

def documentedEntry (cs : Charset) (args : LoadUnicodeArgs) (e : MappingEntry) : List Conversion :=
  (List.range (e.cp1to + 1 - e.cp1from).toNat).filterMap fun i : ℕ =>
    documentedCodepoint cs args (e.cp1from + i) (e.cp2 + i)

def conversions (calls : List LoadCall) : List Conversion :=
  calls.filterMap fun
    | .setUnicodeConversion code c1 c2 => some (code, c1, c2)
    | .ensureToUnicodeHoldsRange .. => none

/-- No call that sets a conversion has to resize a table. -/
def NoResize (t : ToUnicodeTable) : List LoadCall → Prop
  | [] => True
  | .ensureToUnicodeHoldsRange c1 offset len :: calls =>
    NoResize ((LoadCall.ensureToUnicodeHoldsRange c1 offset len).apply t) calls
  | .setUnicodeConversion code c1 c2 :: calls =>
    ensureToUnicodeHoldsRange t c1 c2 1 false = t ∧ NoResize ((LoadCall.setUnicodeConversion code c1 c2).apply t) calls

end XEmacs.Coding
