import Mathlib.Algebra.Group.Int.Defs
import Mathlib.Algebra.Group.Nat.Defs
import Mathlib.Data.Int.Order.Basic
import XEmacs.Lib.RunLength
import XEmacs.Table.RangeTableRead

/-! The compiled Unicode mapping tables. compiled-unicode-tables.el turns the columns of a table that
has been read into vectors of differences, with the lengths of their runs where that is shorter;
unicode.c reads the columns back. The hash table that holds the vectors is left out, and so are
warnings. -/

namespace XEmacs.Coding

open Lib
open Table.RangeTable (FixnumP)

/-- The first and the last codepoint of a line of a mapping table and the Unicode codepoint. -/
structure MappingEntry where
  cp1from : ℤ
  cp1to : ℤ
  cp2 : ℤ
  deriving DecidableEq

/-- An element of a compiled column: an integer, or nil. -/
abbrev Element : Type := Option ℤ

/-- `eq`; two bignums are not the same object. -/
def eqElement : Element → Element → Bool
  | some m, some n => decide (FixnumP m) && m == n
  | none, none => true
  | _, _ => false

/-- `delta-optimize-dumped-table`; the first element of an empty list is nil. -/
def deltaOptimizeDumpedTable (table : List ℤ) : List Element :=
  some 0 :: table.head? :: (differences (table.headD 0) table.tail).map some

def runElements (rs : List (Element × ℕ)) : List Element := rs.flatMap fun r => [r.1, some r.2]

/-- `range-length-optimize-dumped-table`, which skips the identifier of the encoding. -/
def rangeLengthOptimizeDumpedTable (table : List Element) : List Element :=
  some 1 :: runElements (runs eqElement table.tail)

def optimizeColumn (col : List ℤ) : List Element :=
  let deltaOcol := deltaOptimizeDumpedTable col
  let rleOcol := rangeLengthOptimizeDumpedTable deltaOcol
  if rleOcol.length < deltaOcol.length then rleOcol else deltaOcol

/-- `optimize-dumped-table`, of a table that has its last line first. -/
def optimizeDumpedTable (table : List MappingEntry) : List (List Element) :=
  let col (value : MappingEntry → ℤ) := table.foldl (fun col elt => value elt :: col) []
  let res1 := optimizeColumn (col (·.cp1from))
  let res2 := optimizeColumn (col (·.cp1to))
  let res3 := optimizeColumn (col (·.cp2))
  if res1 = res2 then [res1, res3] else [res1, res2, res3]

/-- A conversion to `int`. -/
def toCInt (n : ℤ) : ℤ := n.bmod (2 ^ 32)

/-- The value fits in an `int`. -/
def IsCInt (n : ℤ) : Prop := -2 ^ 31 ≤ n ∧ n < 2 ^ 31

instance (n : ℤ) : Decidable (IsCInt n) := inferInstanceAs (Decidable (_ ∧ _))

/-- The value of an `int` operation; none at an overflow. -/
def cInt (n : ℤ) : Option ℤ := if IsCInt n then some n else none

/-- `compiled_unicode_table_type`. -/
inductive CompiledTableType
  | deltaEncoded
  | rangeLengthEncoded
  deriving DecidableEq

/-- `compiled_unicode_table_decode`. -/
structure CompiledTableDecode where
  vector : List Element
  type : CompiledTableType
  length : ℤ
  idx : ℕ
  deltaValue : ℤ
  previousValue : ℤ
  valuesLeft : ℤ

namespace CompiledTableDecode

def fixnumAt (vector : List Element) (idx : ℕ) : Option ℤ :=
  vector[idx]?.join.filter fun n => decide (FixnumP n)

/-- `compiled_unicode_table_decode_init_col`; none where it returns 0. -/
def initCol (vector : List Element) : Option CompiledTableDecode :=
  let col (type : CompiledTableType) : CompiledTableDecode := ⟨vector, type, toCInt vector.length, 0, 0, 0, 0⟩
  if toCInt vector.length = 0 then none
  else (fixnumAt vector 0).bind fun type =>
    if toCInt type = 0 then some (col .deltaEncoded)
    else if toCInt type = 1 then some (col .rangeLengthEncoded)
    else none

/-- `compiled_unicode_table_reset`. -/
def reset (col : CompiledTableDecode) : CompiledTableDecode := { col with previousValue := 0, valuesLeft := 0, idx := 1 }

/-- `compiled_unicode_table_has_next`. -/
def hasNext (col : CompiledTableDecode) : Bool := decide (col.valuesLeft ≠ 0 ∨ col.idx < col.length)

/-- `compiled_unicode_table_next`; none where it returns 0 and where an `int` overflows. -/
def next (col : CompiledTableDecode) : Option (ℤ × CompiledTableDecode) :=
  if col.valuesLeft = 0 ∧ col.idx ≥ col.length - (if col.type = .rangeLengthEncoded then 1 else 0) then none
  else if col.valuesLeft ≠ 0 then
    (cInt (col.previousValue + col.deltaValue)).map fun val =>
      (val, { col with previousValue := val, valuesLeft := col.valuesLeft - 1 })
  else (fixnumAt col.vector col.idx).bind fun delta =>
    match col.type with
    | .deltaEncoded =>
      let val := toCInt (col.previousValue + delta)
      some (val, { col with previousValue := val, idx := col.idx + 1 })
    | .rangeLengthEncoded => (fixnumAt col.vector (col.idx + 1)).bind fun count =>
      let deltaValue := toCInt delta
      let valuesLeft := toCInt (count - 1)
      if valuesLeft ≥ 65536 then none
      else (cInt (col.previousValue + deltaValue)).map fun val =>
        (val, { col with previousValue := val, deltaValue := deltaValue, valuesLeft := valuesLeft, idx := col.idx + 2 })

end CompiledTableDecode

structure CompiledTable where
  col1 : CompiledTableDecode
  col2 : CompiledTableDecode
  col3 : CompiledTableDecode

namespace CompiledTable

open CompiledTableDecode

/-- `compiled_unicode_table_decode_init`; none where it returns 0. -/
def decodeInit (tableArray : List (List Element)) : Option CompiledTable :=
  let columns (elt1 elt2 elt3 : List Element) : Option CompiledTable :=
    (initCol elt1).bind fun col1 => (initCol elt2).bind fun col2 => (initCol elt3).map fun col3 => ⟨col1, col2, col3⟩
  match tableArray with
  | [elt1, elt3] => columns elt1 elt1 elt3
  | [elt1, elt2, elt3] => columns elt1 elt2 elt3
  | _ => none

def reset (t : CompiledTable) : CompiledTable := ⟨t.col1.reset, t.col2.reset, t.col3.reset⟩

def next (t : CompiledTable) : Option (MappingEntry × CompiledTable) :=
  t.col1.next.bind fun r1 => t.col2.next.bind fun r2 => t.col3.next.map fun r3 =>
    (⟨r1.1, r2.1, r3.1⟩, ⟨r1.2, r2.2, r3.2⟩)

/-- The lines that the loop of `load-unicode-mapping-table` takes from the columns in `fuel` iterations
at most, and where the columns are then. -/
def entries : ℕ → CompiledTable → List MappingEntry × CompiledTable
  | 0, t => ([], t)
  | fuel + 1, t =>
    if t.col1.hasNext then
      match t.next with
      | some (e, t') => ((e :: (entries fuel t').1), (entries fuel t').2)
      | none => ([], t)
    else ([], t)

end CompiledTable

end XEmacs.Coding
