import XEmacs.Table.CharTableMap

/-! A char table as it is printed readably and read again. The texts of characters and lists are those
that the reader reads them from, so a printed table is the property list of its structure. Mirrors of
syntax tables, and symbols and vectors that stand for charsets, are left out. -/

namespace XEmacs.Table

open Lib

/-- `equal`, where `E` says which other objects are. -/
inductive TableValue.Equal (E : ℕ → ℕ → Prop) : TableValue → TableValue → Prop
  | fixnum (n : ℤ) : Equal E (.fixnum n) (.fixnum n)
  | char (ch : ℤ) : Equal E (.char ch) (.char ch)
  | cons {car cdr car' cdr' : TableValue} : Equal E car car' → Equal E cdr cdr' → Equal E (.cons car cdr) (.cons car' cdr')
  | other {address address' : ℕ} : E address address' → Equal E (.other address) (.other address')

/-- What the validation and the instantiation signal. -/
inductive CharTableReadError
  /-- "Unrecognized char table type" -/
  | unrecognizedType (symbol : String)
  /-- "Can't directly create category-type char tables" -/
  | categoryType
  /-- "Invalid range format" -/
  | invalidRange (range : TableValue)
  | malformedPropertyList
  /-- `wrong-type-argument`, and what `put-char-table` signals. -/
  | wrongType
  /-- A failed assertion, or `ABORT`. -/
  | abort
  deriving DecidableEq

/-- A keyword of the structure with its value. -/
inductive ChartabKeyword
  | type (symbol : String)
  | default_ (value : TableValue)
  | data (value : TableValue)
  deriving DecidableEq

def charTableTypeToSymbol : CharTableType → String
  | .generic => "generic"
  | .syntax' => "syntax"
  | .char => "char"
  | .category => "category"

def symbolToCharTableType : String → Except CharTableReadError CharTableType
  | "generic" => .ok .generic
  | "syntax" => .ok .syntax'
  | "char" => .ok .char
  | "category" => .ok .category
  | symbol => .error (.unrecognizedType symbol)

def TableValue.fcar : TableValue → Except CharTableReadError TableValue
  | .cons car _ => .ok car
  | value => if value = .nil then .ok .nil else .error .wrongType

def propertyList : List (TableValue × TableValue) → TableValue
  | [] => .nil
  | (range, val) :: entries => .cons range (.cons val (propertyList entries))

namespace CharBuild

variable {B : CharBuild}

/-- The range that `print_table_entry` writes. -/
def printedRange (r : MapRange) : TableValue :=
  if r.start = r.stop then .char r.start else .cons (.char r.start) (.cons (.char r.stop) .nil)

/-- `print_table_entry` under `print-readably`. -/
def printTableEntry (r : MapRange) (entries : List (TableValue × TableValue)) :
    ℤ × List (TableValue × TableValue) :=
  (0, entries ++ [(printedRange r, r.val)])

/-- The data that `print_char_table` writes. -/
def printedData (R : CharRounding B) (t : CharTable) : TableValue :=
  propertyList (mapCharTable R printTableEntry t .all []).2

/-- `print_char_table`, with data that are read in the place of those written. -/
def printCharTable (t : CharTable) (data : TableValue) : List ChartabKeyword :=
  .type (charTableTypeToSymbol t.type) ::
    ((if t.default_ = charTableDefaultForType t.type then [] else [.default_ t.default_]) ++ [.data data])

/-- The ranges that `chartab_data_validate` lets pass. -/
def validRange : TableValue → Bool
  | .cons (.char _) (.cons (.char _) tail) => tail = .nil
  | .char _ => true
  | _ => false

def chartabDataValidate : TableValue → Except CharTableReadError Unit
  | .cons range (.cons _ rest) =>
    if validRange range then chartabDataValidate rest else .error (.invalidRange range)
  | value => if value = .nil then .ok () else .error .malformedPropertyList

variable (B) (checksText : Bool)

/-- `Fput_char_table (make_char (i), val, chartab)`; `make_char` asserts in a build that checks text
that the character is valid. -/
def putMadeChar (i : ℕ) (val : TableValue) (t : CharTable) : Except CharTableReadError CharTable :=
  if checksText ∧ ¬ B.validIcharP i then .error .abort
  else if t.type = .category ∨ ¬ B.validCharTableValue val t.type then .error .wrongType
  else .ok (B.putCharTableRange t (some (canonicalizeCharTableValue val t.type)) (.char i))

/-- The loop over the characters of a range, with `n` of them to go. -/
def putCharacters (val : TableValue) : ℕ → ℕ → CharTable → Except CharTableReadError CharTable
  | 0, _, t => .ok t
  | n + 1, i, t => B.putMadeChar checksText i val t >>= putCharacters val n (i + 1)

/-- `XCHAR_OR_CHAR_INT`, which is -1 for another object. -/
def charOrCharInt : TableValue → ℤ
  | .char ch => ch
  | .fixnum n => if B.validIcharP n then n else -1
  | _ => -1

/-- One turn of the loop of `chartab_instantiate` over the data. -/
def putEntry (range val : TableValue) (t : CharTable) : Except CharTableReadError CharTable :=
  match range with
  | .cons first tail =>
    if B.charOrCharIntP first then
      tail.fcar >>= fun last =>
      B.putCharacters checksText val (B.charOrCharInt last - B.charOrCharInt first + 1).toNat
        (B.charOrCharInt first).toNat t
    else .error .abort
  | range => (B.fputCharTable (.char range) val t).elim (.error .wrongType) .ok

/-- The loop of `chartab_instantiate` over the data. -/
def putData : TableValue → CharTable → Except CharTableReadError CharTable
  | .cons range (.cons val rest), t => B.putEntry checksText range val t >>= putData rest
  | .cons range tail, t => if tail = .nil then B.putEntry checksText range .nil t else .error .wrongType
  | value, t => if value = .nil then .ok t else .error .wrongType

/-- `type`, `default_` and `dataval` of `chartab_instantiate`. -/
structure ChartabProperties where
  type : String
  default_ : Option TableValue
  dataval : TableValue

/-- The loop of `chartab_instantiate` over the property list. -/
def chartabProperties (plist : List ChartabKeyword) : ChartabProperties :=
  plist.foldl (fun properties keyword =>
    match keyword with
    | .data value => { properties with dataval := value }
    | .type symbol => { properties with type := symbol }
    | .default_ value => { properties with default_ := some value }) ⟨"generic", none, .nil⟩

def chartabInstantiate (plist : List ChartabKeyword) : Except CharTableReadError CharTable := do
  let properties := chartabProperties plist
  let type ← symbolToCharTableType properties.type
  if type = .category then throw .categoryType
  let chartab := makeCharTable type
  match properties.default_ with
  | none => B.putData checksText properties.dataval chartab
  | some value =>
    if ¬ B.validCharTableValue value type then throw .wrongType
    B.putData checksText properties.dataval { chartab with default_ := value }

/-- The validation of the data and then the instantiation. -/
def readCharTable (plist : List ChartabKeyword) : Except CharTableReadError CharTable := do
  chartabDataValidate (chartabProperties plist).dataval
  B.chartabInstantiate checksText plist

end CharBuild

end XEmacs.Table
