import XEmacs.Lib.Intervals
import XEmacs.Lib.Until
import XEmacs.Table.CharTable

/-! `map_char_table`, in a build that does not check structures. Ranges of one value that touch are
grouped before the function is called on them, with the ends moved to valid characters. The function
does not change the table; charsets and their rows as ranges are left out. -/

namespace XEmacs.Table

open Lib

/-- `round_up_to_valid_ichar` and `round_down_to_valid_ichar` of a build; none is -1. -/
structure CharRounding (B : CharBuild) where
  up : ℕ → Option ℕ
  down : ℕ → Option ℕ
  up_some : ∀ {ch c}, up ch = some c → B.validIcharP c ∧ ch ≤ c ∧ ∀ d : ℕ, ch ≤ d → B.validIcharP d → c ≤ d
  up_none : ∀ {ch}, up ch = none → ∀ d : ℕ, ch ≤ d → ¬ B.validIcharP d
  down_some : ∀ {ch c}, down ch = some c → B.validIcharP c ∧ c ≤ ch ∧ ∀ d : ℕ, d ≤ ch → B.validIcharP d → d ≤ c
  down_none : ∀ {ch}, down ch = none → ∀ d : ℕ, d ≤ ch → ¬ B.validIcharP d

/-- `map_chartab_range`. -/
structure MapRange where
  start : ℕ
  stop : ℕ
  val : TableValue
  deriving DecidableEq

namespace CharBuild

variable {B : CharBuild} (R : CharRounding B) {σ : Type} (fn : MapRange → σ → ℤ × σ)

/-- A range with the ends moved to valid characters; none if there are none. -/
def rounded (r : MapRange) : Option MapRange :=
  match R.up r.start, R.down r.stop with
  | some start, some stop => if start ≤ stop then some ⟨start, stop, r.val⟩ else none
  | _, _ => none

def reallyCallMapChartabFun (r : MapRange) (s : σ) : ℤ × σ := ((rounded R r).map fun r => fn r s).getD (0, s)

/-- `call_map_chartab_fun`; the state is the range that is held back, none where its start is -1, and
that of the function. -/
def callMapChartabFun (r : MapRange) (s : Option MapRange × σ) : ℤ × (Option MapRange × σ) :=
  match s.1 with
  | none => (0, some r, s.2)
  | some range =>
    if range.stop + 1 = r.start ∧ range.val = r.val then (0, some { range with stop := r.stop }, s.2)
    else
      let retval := reallyCallMapChartabFun R fn range s.2
      if retval.1 ≠ 0 then (retval.1, some range, retval.2) else (0, some r, retval.2)

/-- The entries of a subtable that meet the characters from `start` to `stop`. -/
def meeting (start stop level offset : ℕ) : List (Fin 256) :=
  (List.finRange 256).filter fun i =>
    (start - offset) >>> (level * 8) ≤ i.val ∧ i.val ≤ min 255 ((stop - offset) >>> (level * 8))

/-- `map_chartab_table`; there are no subtables at level 0. -/
def mapChartabTable (start stop : ℕ) : ℕ → Chartab → ℕ → Option MapRange × σ → ℤ × (Option MapRange × σ)
  | _, .val none, _, s => (0, s)
  | level, .val (some v), offset, s =>
    callMapChartabFun R fn ⟨max start offset, min stop (offset + B.spanTop level), v⟩ s
  | 0, .subtab _, _, s => (0, s)
  | level + 1, .subtab ptr, offset, s =>
    untilNonzero (fun i => mapChartabTable start stop level (ptr i) (offset + i.val <<< (level * 8)))
      (meeting start stop level offset) s

/-- The last call of `map_chartab_table_0`, on the range that is still held back. -/
def mapLastRange (r : ℤ × (Option MapRange × σ)) : ℤ × σ :=
  if r.1 ≠ 0 then (r.1, r.2.2)
  else
    match r.2.1 with
    | none => (0, r.2.2)
    | some range => reallyCallMapChartabFun R fn range r.2.2

def mapChartabTable0 (table : Chartab) (level start stop : ℕ) (s : σ) : ℤ × σ :=
  mapLastRange R fn (mapChartabTable R fn start stop level table 0 (none, s))

def mapCharTable (t : CharTable) (range : ChartabRange) (s : σ) : ℤ × σ :=
  let maxval := B.spanTop t.levels
  match range with
  | .all => mapChartabTable0 R fn t.table t.levels 0 maxval s
  | .range ch chtop => mapChartabTable0 R fn t.table t.levels (min ch maxval) (min chtop maxval) s
  | .char ch =>
    match getCharTableRaw ch t with
    | some v => reallyCallMapChartabFun R fn ⟨ch, ch, v⟩ s
    | none => (0, s)

end CharBuild

end XEmacs.Table
