import XEmacs.Lib.Intervals
import XEmacs.Lib.Transition

/-! Range tables of rangetab.c. A table holds its entries in a gap array, which is the list it
stands for here; indices are natural numbers. Internally every range is closed at its start
and open at its end. Values are compared with `eq`; the unbound value, which asks for removal,
is `none`. -/

namespace XEmacs.Table

open Lib

inductive RangeTableType
  | startClosedEndOpen
  | startClosedEndClosed
  | startOpenEndOpen
  | startOpenEndClosed
  deriving DecidableEq

abbrev RangeTableEntry (α : Type*) := Interval α

structure RangeTable (α : Type*) where
  entries : List (RangeTableEntry α)
  type : RangeTableType
  deriving DecidableEq

namespace RangeTable

variable {α σ : Type*}

/-- `make-range-table`. -/
def make (type : RangeTableType) : RangeTable α := ⟨[], type⟩

/-- The loop of `get_range_table_pos`. -/
def searchLoop (pos : ℤ) (tab : List (RangeTableEntry α)) : ℕ → ℕ → ℕ → ℕ × Bool
  | 0, left, _ => (left, false)
  | fuel + 1, left, right =>
    if left = right then (left, false)
    else
      let newpos := (left + right) / 2
      match tab[newpos]? with
      | none => (left, false)
      | some entry =>
        if pos ≥ entry.last then searchLoop pos tab fuel (newpos + 1) right
        else if pos < entry.first then searchLoop pos tab fuel left newpos
        else (newpos, true)

/-- The entry that encloses `pos` and `true`, or where it would be inserted and `false`. -/
def getRangeTablePos (pos : ℤ) (tab : List (RangeTableEntry α)) : ℕ × Bool :=
  searchLoop pos tab tab.length 0 tab.length

/-- The entry that `get_range_table` takes the value from. -/
def findEntry (pos : ℤ) (tab : List (RangeTableEntry α)) : Option (RangeTableEntry α) :=
  if (getRangeTablePos pos tab).2 then tab[(getRangeTablePos pos tab).1]? else none

/-- `get_range_table`, `get-range-table`. -/
def getRangeTable (pos : ℤ) (rt : RangeTable α) (default_ : α) : α :=
  match findEntry pos rt.entries with
  | some entry => entry.val
  | none => default_

def externalToInternalAdjustEnds (type : RangeTableType) (first last : ℤ) : ℤ × ℤ :=
  match type with
  | .startClosedEndOpen => (first, last)
  | .startClosedEndClosed => (first, last + 1)
  | .startOpenEndOpen => (first + 1, last)
  | .startOpenEndClosed => (first + 1, last + 1)

def internalToExternalAdjustEnds (type : RangeTableType) (first last : ℤ) : ℤ × ℤ :=
  match type with
  | .startClosedEndOpen => (first, last)
  | .startClosedEndClosed => (first, last - 1)
  | .startOpenEndOpen => (first - 1, last)
  | .startOpenEndClosed => (first - 1, last - 1)

/-- The loop of `put_range_table` that deletes what overlaps the new range; it also notes the
index `insert_me_here`. -/
def overlapLoop (first last : ℤ) :
    ℕ → List (RangeTableEntry α) → ℕ → Option ℕ → List (RangeTableEntry α) × ℕ × Option ℕ
  | 0, entries, i, insertMeHere => (entries, i, insertMeHere)
  | fuel + 1, entries, i, insertMeHere =>
    match entries[i]? with
    | none => (entries, i, insertMeHere)
    | some entry =>
      let insertMeHere := if entry.first ≥ first ∧ insertMeHere = none then some i else insertMeHere
      if entry.last < first then overlapLoop first last fuel entries (i + 1) insertMeHere
      else if entry.first > last then (entries, i, insertMeHere)
      else if entry.first < first ∧ entry.last ≤ last then
        -- truncate the end off of it
        overlapLoop first last fuel (entries.set i { entry with last := first }) (i + 1) insertMeHere
      else if entry.first < first ∧ entry.last > last then
        -- split it in two
        overlapLoop first last fuel
          ((entries.set i { entry with last := first }).insertIdx (i + 1) { entry with first := last })
          (i + 1) insertMeHere
      else if entry.last ≥ last then
        -- truncate the start off of it
        overlapLoop first last fuel (entries.set i { entry with first := last }) (i + 1) insertMeHere
      else overlapLoop first last fuel (entries.eraseIdx i) i insertMeHere

variable [DecidableEq α]

/-- The end of `put_range_table`: combine the entry at `i` with the one before it. -/
def combineBefore (entries : List (RangeTableEntry α)) (i : ℕ) (first last : ℤ) (val : α) :
    List (RangeTableEntry α) × ℕ × ℤ :=
  if i > 0 then
    match entries[i - 1]? with
    | some entry =>
      if val = entry.val ∧ entry.last = first then
        ((entries.set (i - 1) { entry with last := last }).eraseIdx i, i - 1, entry.first)
      else (entries, i, first)
    | none => (entries, i, first)
  else (entries, i, first)

/-- The end of `put_range_table`: combine the entry at `i` with the one after it. -/
def combineAfter (entries : List (RangeTableEntry α)) (i : ℕ) (first last : ℤ) (val : α) :
    List (RangeTableEntry α) :=
  if i + 1 < entries.length then
    match entries[i + 1]? with
    | some entry =>
      if val = entry.val ∧ entry.first = last then
        (entries.set (i + 1) { entry with first := first }).eraseIdx i
      else entries
    | none => entries
  else entries

/-- `put_range_table` on the entries, for the ends in internal form. -/
def putEntries (entries : List (RangeTableEntry α)) (first last : ℤ) (val : Option α) :
    List (RangeTableEntry α) :=
  if first ≥ last then entries
  else
    let found := getRangeTablePos first entries
    -- back up over a range whose end is just grazed
    let i := if found.2 = false ∧ found.1 > 0 then found.1 - 1 else found.1
    let (entries, i, insertMeHere) := overlapLoop first last (2 * entries.length + 1) entries i none
    match val with
    | none => entries
    | some val =>
      let insertMeHere := insertMeHere.getD i
      let entries := entries.insertIdx insertMeHere ⟨first, last, val⟩
      let (entries, insertMeHere, first) := combineBefore entries insertMeHere first last val
      combineAfter entries insertMeHere first last val

def putRangeTable (rt : RangeTable α) (first last : ℤ) (val : Option α) : RangeTable α :=
  let ends := externalToInternalAdjustEnds rt.type first last
  { rt with entries := putEntries rt.entries ends.1 ends.2 val }

/-- `put-range-table`, and with no value `remove-range-table`; the error has the message and
the offending ends. -/
def put (rt : RangeTable α) (start finish : ℤ) (val : Option α) :
    Except (String × ℤ × ℤ) (RangeTable α) :=
  if start > finish then .error ("start must be <= end", start, finish)
  else .ok (rt.putRangeTable start finish val)

/-- `clear-range-table`. -/
def clear (rt : RangeTable α) : RangeTable α := { rt with entries := [] }

/-- `range_table_equal`; `internalEqual` compares values as `equal` does. -/
def rangeTableEqual (internalEqual : α → α → Bool) (rt₁ rt₂ : RangeTable α) : Bool :=
  rt₁.entries.length = rt₂.entries.length ∧
    ∀ x ∈ rt₁.entries.zip rt₂.entries,
      x.1.first = x.2.first ∧ x.1.last = x.2.last ∧ internalEqual x.1.val x.2.val

/-- The loop of `map-range-table`; the function gets the external ends and the value, and may
change the table and other state. -/
def mapLoop (f : ℤ → ℤ → α → RangeTable α × σ → RangeTable α × σ) :
    ℕ → ℕ → RangeTable α × σ → RangeTable α × σ
  | 0, _, s => s
  | fuel + 1, i, s =>
    match s.1.entries[i]? with
    | none => s
    | some entry =>
      let ends := internalToExternalAdjustEnds s.1.type entry.first entry.last
      mapLoop f fuel (i + 1) (f ends.1 ends.2 entry.val s)

inductive Call (α : Type*)
  | put (start finish : ℤ) (val : α)
  | remove (start finish : ℤ)
  | clear
  deriving DecidableEq

def step (rt : RangeTable α) : Call α → Option (RangeTable α)
  | .put start finish val => some ((rt.put start finish (some val)).toOption.getD rt)
  | .remove start finish => some ((rt.put start finish none).toOption.getD rt)
  | .clear => some rt.clear

example : getRangeTable 7 ((make .startClosedEndClosed).putRangeTable 3 7 (some 'a')) 'z' = 'a' := by
  decide

end RangeTable

end XEmacs.Table
