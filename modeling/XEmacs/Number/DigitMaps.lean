import XEmacs.Number.LispNumber
import XEmacs.Table.CharTableLookup
import XEmacs.Table.CharTableMap

/-! `digit-char` and `digit-char-p`. A radix table gives characters their weights; the maps back from
weights to characters are calculated when they are first asked for and kept for the table. In a map,
which in the code is a string with `MAX_ICHAR_LEN` bytes for each weight, there is one character for
each weight. -/

namespace XEmacs.Number

open Table

variable {B : CharBuild} {v : ℕ}

/-- A char table, with a tree of one to four levels. -/
abbrev RadixTable := {t : CharTable // CharBuild.Leveled t}

/-- The standard case table, and `isupper` and `islower`, which stand in for it while there is no
current buffer. -/
structure LetterCases where
  currentBuffer : Bool
  upcase : ℕ → ℕ
  downcase : ℕ → ℕ
  isupper : ℕ → Bool
  islower : ℕ → Bool

inductive RadixError (v : ℕ) where
  | notFixnum (val : TableValue)
  | notInteger (val : LispNumber v)
  | notNatnum (val : LispNumber v)
  | argsOutOfRange3 (val : LispNumber v) (low high : ℕ)
  | unimplemented (reason : String) (radixTable : ℕ)
  | invalidArgument (reason : String) (weight : ℕ)
  deriving DecidableEq

inductive RadixFailure (v : ℕ) where
  | lispError (e : RadixError v)
  /-- An element of a vector that it does not have. -/
  | outsideVector
  deriving DecidableEq

/-- What `build_fixnum_to_char_maps` puts in a list with the table. -/
structure RadixMaps where
  greatestRadix : ℕ
  majuscule : Vector ℕ greatestRadix
  minuscule : Vector ℕ greatestRadix
  greatestRadix_le : greatestRadix ≤ 0xFFFF
  deriving DecidableEq

/-- A value that is no fixnum is an error, which ends the mapping. -/
def findHighestValue (r : MapRange) : Except TableValue ℤ → ℤ × Except TableValue ℤ
  | .error val => (1, .error val)
  | .ok maxSeen =>
    match r.val with
    | .fixnum val => (0, .ok (if maxSeen < val then val else maxSeen))
    | val => (1, .error val)

/-- The functions that fill the vector; a character that is preferred takes the place of the one
that is there. None is a weight outside the vector. -/
def fillCharVector (preferred : ℕ → ℕ → Bool) {n : ℕ} (r : MapRange) :
    Option (Vector (Option ℕ) n) → ℤ × Option (Vector (Option ℕ) n)
  | none => (1, none)
  | some cctable =>
    match r.val with
    | .fixnum valint =>
      if 0 ≤ valint ∧ valint < n then
        match cctable[valint.toNat]? with
        | some (some currch) =>
          (0, some (if preferred r.start currch then cctable.setIfInBounds valint.toNat (some r.start) else cctable))
        | _ => (0, some (cctable.setIfInBounds valint.toNat (some r.start)))
      else (1, none)
    | _ => (1, none)

def preferMajuscule (cases : LetterCases) (start currch : ℕ) : Bool :=
  if cases.currentBuffer = true ∧ cases.upcase start = start ∧ cases.upcase currch ≠ currch then true
  else if cases.currentBuffer = false then cases.isupper start && !cases.isupper currch
  else start < currch

def preferMinuscule (cases : LetterCases) (start currch : ℕ) : Bool :=
  if cases.currentBuffer = true ∧ cases.downcase start = start ∧ cases.downcase currch ≠ currch then true
  else if cases.currentBuffer = false then cases.islower start && !cases.islower currch
  else start < currch

def fillMajusculeCharVector (cases : LetterCases) {n : ℕ} :=
  fillCharVector (preferMajuscule cases) (n := n)

/-- There is a character for each weight when this is used. -/
def fillMinusculeCharVector (cases : LetterCases) {n : ℕ} :=
  fillCharVector (preferMinuscule cases) (n := n)

section Building

variable (R : CharRounding B) (cases : LetterCases)

/-- The maps for weights below `n`, once no weight is larger. -/
def fillMaps (t : CharTable) (n : ℕ) (hn : n ≤ 0xFFFF) : Except (RadixFailure v) RadixMaps :=
  match (CharBuild.mapCharTable R (fillMajusculeCharVector cases) t .all (some (Vector.replicate n none))).2 with
  | none => .error .outsideVector
  | some cctable =>
    match cctable.toList.findIdx? Option.isNone with
    | some ii => .error (.lispError (.invalidArgument "No digit specified for weight" ii))
    | none =>
      match (CharBuild.mapCharTable R (fillMinusculeCharVector cases) t .all (some cctable)).2 with
      | none => .error .outsideVector
      | some cctable' => .ok ⟨n, cctable.map (Option.getD · 0), cctable'.map (Option.getD · 0), hn⟩

/-- `build_fixnum_to_char_maps`, for the table at an address. `make_vector` writes past the end of a
vector of negative length. -/
def buildFixnumToCharMaps (radixTable : ℕ) (t : CharTable) : Except (RadixFailure v) RadixMaps :=
  match t.default_ with
  | .fixnum default =>
    match (CharBuild.mapCharTable R findHighestValue t .all (.ok default)).2 with
    | .error val => .error (.lispError (.notFixnum val))
    | .ok highestValue =>
      if hlarge : highestValue + 1 > 0xFFFF then
        .error (.lispError (.unimplemented "Radix values greater than #xFFFF" radixTable))
      else if highestValue + 1 < 0 then .error .outsideVector
      else fillMaps R cases t (highestValue + 1).toNat (Int.toNat_le.mpr (not_lt.mp hlarge))
  | val => .error (.lispError (.notFixnum val))

end Building

/-- The char tables by their addresses, the maps that were calculated, and `digit-fixnum-map`. -/
structure DigitState where
  tables : ℕ → RadixTable
  calculated : List (ℕ × RadixMaps)
  digitFixnumMap : ℕ

/-- `Vdigit_fixnum_map` where no table is given. -/
def DigitState.tableOf (s : DigitState) (radixTable : Option ℕ) : ℕ := radixTable.getD s.digitFixnumMap

def checkNatnum (weight : LispNumber v) : Except (RadixFailure v) Unit :=
  if weight.integerp ∧ 0 ≤ weight.value then .ok () else .error (.lispError (.notNatnum weight))

/-- `check_integer_range` from one on. -/
def checkRadix (radix : LispNumber v) (greatest : ℕ) : Except (RadixFailure v) ℕ :=
  if !radix.integerp then .error (.lispError (.notInteger radix))
  else if 1 ≤ radix.value ∧ radix.value ≤ greatest then .ok radix.value.num.toNat
  else .error (.lispError (.argsOutOfRange3 radix 1 greatest))

section Functions

variable (R : CharRounding B) (cases : LetterCases)

/-- The maps of a table, which are calculated unless they are known. -/
def getRadixTableMaps (radixTable : ℕ) (s : DigitState) : Except (RadixFailure v) (RadixMaps × DigitState) :=
  match s.calculated.lookup radixTable with
  | some maps => .ok (maps, s)
  | none =>
    match buildFixnumToCharMaps R cases radixTable (s.tables radixTable).val with
    | .error e => .error e
    | .ok maps => .ok (maps, { s with calculated := (radixTable, maps) :: s.calculated })

/-- `set-digit-fixnum-map`, with the address of the copy. The maps are those of the original. -/
def fsetDigitFixnumMap (radixTable copy : ℕ) (s : DigitState) : Except (RadixFailure v) DigitState :=
  let s := { s with tables := Function.update s.tables copy (s.tables radixTable) }
  match getRadixTableMaps R cases radixTable s with
  | .error e => .error e
  | .ok (_, s) => .ok { s with digitFixnumMap := copy }

/-- The weight that a table gives, where it is one of a digit; none is `nil`. -/
def digitBelow (radixing : ℕ) : TableValue → Except (RadixFailure v) (Option ℤ)
  | .fixnum val => .ok (if val < 0 ∨ val ≥ radixing then none else some val)
  | got => .error (.lispError (.notFixnum got))

def fdigitCharP (character : ℕ) (radix : Option (LispNumber v)) (radixTable : Option ℕ) (s : DigitState) :
    Except (RadixFailure v) (Option ℤ) :=
  let table := s.tableOf radixTable
  let radixing :=
    match radix with
    | some radix => checkRadix radix (((s.calculated.lookup table).map RadixMaps.greatestRadix).getD 0xFFFF)
    | none => .ok 10
  match radixing with
  | .error e => .error e
  | .ok radixing => digitBelow radixing (CharBuild.getCharTable character (s.tables table))

def digitCharOf (weighting : ℤ) (radix : LispNumber v) (table : ℕ) (s : DigitState) :
    Except (RadixFailure v) (Option ℕ × DigitState) :=
  match getRadixTableMaps R cases table s with
  | .error e => .error e
  | .ok (maps, s) =>
    match checkRadix radix maps.greatestRadix with
    | .error e => .error e
    | .ok radixing =>
      if weighting < radixing then
        match maps.majuscule[weighting.toNat]? with
        | some cc => .ok (some cc, s)
        | none => .error .outsideVector
      else .ok (none, s)

def fdigitChar (weight : LispNumber v) (radix : Option (LispNumber v)) (radixTable : Option ℕ) (s : DigitState) :
    Except (RadixFailure v) (Option ℕ × DigitState) :=
  match checkNatnum weight with
  | .error e => .error e
  | .ok () =>
    match weight.canonicalizeNumber with
    | .fixnum weighting =>
      digitCharOf R cases weighting.toInt (radix.getD (makeFixnum 10)) (s.tableOf radixTable) s
    | _ => .ok (none, s)

end Functions

end XEmacs.Number
