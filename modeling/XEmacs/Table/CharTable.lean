import Mathlib.Data.Int.Basic
import XEmacs.Lib.Bits
import XEmacs.Lib.Transition

/-! Char tables of chartab.c: a radix tree of one to four levels, each level standing for
eight bits of a character code, in which a value that is no subtable holds for all characters
of its span. The tree grows upward when a larger code is set. The values of category tables,
which no operation here accepts, the mirrors of syntax tables, and charsets and their rows as
ranges are left out. -/

namespace XEmacs.Table

open Lib

structure CharBuild where
  /-- `CHAR_CODE_LIMIT` -/
  limit : ℕ
  /-- `valid_ichar_p` -/
  validIcharP : ℤ → Bool
  bound : ∀ ch, validIcharP ch → 0 ≤ ch ∧ ch < limit
  limit_le : limit ≤ 2 ^ 30

/-- Lisp objects, as far as char tables tell them apart. -/
inductive TableValue
  | fixnum (n : ℤ)
  | char (ch : ℤ)
  | cons (car cdr : TableValue)
  | other (address : ℕ)
  deriving DecidableEq

inductive CharTableType
  | generic
  | category
  | syntax'
  | char
  deriving DecidableEq

/-- What an entry of a subtable is: a value, none for `Qunbound`, or a `char-subtable`. -/
inductive Chartab
  | val (v : Option TableValue)
  | subtab (ptr : Fin 256 → Chartab)

structure CharTable where
  table : Chartab
  levels : ℕ
  default_ : TableValue
  type : CharTableType

/-- What names the characters of a call: `t`, a cons of two characters, or a character. -/
inductive CharTableRange
  | all
  | range (ch chtop : TableValue)
  | char (ch : TableValue)
  deriving DecidableEq

inductive ChartabRange
  | all
  | range (ch chtop : ℕ)
  | char (ch : ℕ)
  deriving DecidableEq

/-- `Qnil`. -/
def TableValue.nil : TableValue := .other 0

/-- `Sinherit`, a syntax code. -/
def sinherit : ℤ := 13

/-- `GET_CHAR_LEVELS`. -/
def charLevels (ch : ℕ) : ℕ :=
  if ch ≤ 0xff then 1 else if ch ≤ 0xffff then 2 else if ch ≤ 0xffffff then 3 else 4

namespace Chartab

/-- `UNBOUNDP`. -/
def Unbound : Chartab → Prop
  | val none => True
  | _ => False

instance : ∀ t, Decidable (Unbound t)
  | val none => .isTrue trivial
  | val (some _) => .isFalse id
  | subtab _ => .isFalse id

/-- The array of a subtable; `create_new_chartab_table` where there is none yet. -/
def entries : Chartab → Fin 256 → Chartab
  | val v, _ => val v
  | subtab ptr, i => ptr i

end Chartab

namespace CharBuild

variable (B : CharBuild)

/-- `chartab_span_top`. -/
def spanTop (level : ℕ) : ℕ := if level = 4 then B.limit - 1 else 256 ^ level - 1

def charOrCharIntP : TableValue → Bool
  | .char _ => true
  | .fixnum n => B.validIcharP n
  | _ => false

/-- The object that `CHECK_CHAR_COERCE_INT` leaves, on one that passes the check. -/
def coerceInt : TableValue → TableValue
  | .fixnum n => .char n
  | v => v

/-- `XCHAR_OR_CHAR_INT`, on an object that passes the check and holds a valid character. -/
def xcharOrCharInt : TableValue → Option ℕ
  | .char ch => if B.validIcharP ch then some ch.toNat else none
  | .fixnum n => if B.validIcharP n then some n.toNat else none
  | _ => none

/-- The walk of `get_char_table_raw` down from a level. -/
def walk : ℕ → Chartab → ℕ → Option TableValue
  | _, .val v, _ => v
  | 0, .subtab _, _ => none
  | level + 1, .subtab ptr, ch => walk level (ptr ⟨ch >>> (8 * level) % 256, Nat.mod_lt _ (by decide)⟩) ch

/-- `get_char_table_raw`; none is `Qunbound`. -/
def getCharTableRaw (ch : ℕ) (t : CharTable) : Option TableValue :=
  if t.levels < charLevels ch then none else walk t.levels t.table ch

def getCharTable (ch : ℕ) (t : CharTable) : TableValue := (getCharTableRaw ch t).getD t.default_

def putChartabTable (start stop : ℕ) (v : Option TableValue) : ℕ → ℕ → Chartab → Chartab
  | 0, _, table => table
  | level + 1, offset, table =>
    if start ≤ offset ∧ offset + B.spanTop (level + 1) ≤ stop then .val v
    else
      let startind := (start - offset) >>> (level * 8)
      let endind := min 255 ((stop - offset) >>> (level * 8))
      let tab := table.entries
      if level = 0 then .subtab fun i => if startind ≤ i ∧ i ≤ endind then .val v else tab i
      else
        .subtab fun i =>
          if startind ≤ i ∧ i ≤ endind then
            putChartabTable start stop v level (offset + i.val <<< (level * 8)) (tab i)
          else tab i

def grow (table : Chartab) : Chartab := .subtab fun i => if i.val = 0 then table else .val none

def putCharTable (t : CharTable) (start stop : ℕ) (v : Option TableValue) : CharTable :=
  let codeLevels := charLevels stop
  let t :=
    if t.levels < codeLevels then
      let t :=
        if ¬ t.table.Unbound ∧ ¬ (start = 0 ∧ stop ≥ B.spanTop t.levels) then
          { t with table := grow^[codeLevels - t.levels] t.table }
        else t
      { t with levels := codeLevels }
    else t
  { t with table := B.putChartabTable start stop v t.levels 0 t.table }

/-- `decode_char_table_range`; none where it signals an error. -/
def decodeCharTableRange : CharTableRange → Option ChartabRange
  | .all => some .all
  | .range ch chtop => do some (.range (← B.xcharOrCharInt ch) (← B.xcharOrCharInt chtop))
  | .char ch => do some (.char (← B.xcharOrCharInt ch))

def putCharTableRange (t : CharTable) (v : Option TableValue) : ChartabRange → CharTable
  | .all => B.putCharTable t 0 (B.limit - 1) v
  | .range ch chtop => B.putCharTable t ch chtop v
  | .char ch => B.putCharTable t ch ch v

/-- `check_valid_char_table_value` lets the value pass. -/
def validCharTableValue (value : TableValue) : CharTableType → Bool
  | .syntax' =>
    match value with
    | .cons (.fixnum _) cdr => B.charOrCharIntP cdr
    | .fixnum _ => true
    | _ => false
  | .category => false
  | .generic => true
  | .char => B.charOrCharIntP value

def canonicalizeCharTableValue (value : TableValue) : CharTableType → TableValue
  | .syntax' =>
    match value with
    | .cons car cdr => .cons car (coerceInt cdr)
    | _ => value
  | .char => coerceInt value
  | _ => value

def charTableDefaultForType : CharTableType → TableValue
  | .char => .char 0
  | .generic | .category => .nil
  | .syntax' => .fixnum sinherit

/-- `init_chartab_tables`, after `free_chartab_tables`. -/
def initChartabTables (t : CharTable) : CharTable := { t with levels := 1, table := .val none }

def makeCharTable (type : CharTableType) : CharTable :=
  ⟨.val none, 1, charTableDefaultForType type, type⟩

/-- `put-char-table`; none where it signals an error. -/
def fputCharTable (range : CharTableRange) (value : TableValue) (t : CharTable) : Option CharTable :=
  if t.type = .category then none
  else if ¬ B.validCharTableValue value t.type then none
  else
    (B.decodeCharTableRange range).map
      (B.putCharTableRange t (some (canonicalizeCharTableValue value t.type)))

/-- `remove-char-table`; none where it signals an error. -/
def fremoveCharTable (range : CharTableRange) (t : CharTable) : Option CharTable :=
  if t.type = .category then none
  else
    (B.decodeCharTableRange range).map fun
      | .all => initChartabTables t
      | range => B.putCharTableRange t none range

def fresetCharTable (t : CharTable) : CharTable :=
  initChartabTables { t with default_ := charTableDefaultForType t.type }

inductive CharTableOp
  | put (range : CharTableRange) (value : TableValue)
  | remove (range : CharTableRange)
  | reset
  deriving DecidableEq

/-- One call; one that signals an error leaves the table as it is. -/
def step (t : CharTable) : CharTableOp → Option CharTable
  | .put range value => some ((B.fputCharTable range value t).getD t)
  | .remove range => some ((B.fremoveCharTable range t).getD t)
  | .reset => some (fresetCharTable t)

end CharBuild

end XEmacs.Table
