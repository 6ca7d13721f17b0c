import XEmacs.Lib.Transition
import XEmacs.Text.MarkerAdjust

/-! The gap array of array.c: a stretchy array of elements with a gap, and markers
into it kept as memory positions. Every sequence of insertions, deletions and marker
operations refines the same sequence on a plain list with marker positions. -/

namespace XEmacs.Text

open Lib Lib.Gap

variable {α : Type*}

/-- A `Gap_Array_Marker`: its address, by which callers name it, and its memory position. -/
structure GapArrayMarker where
  addr : ℕ
  pos : ℤ
  deriving DecidableEq

structure GapArray (α : Type*) where
  gap : ℤ
  gapsize : ℤ
  numels : ℤ
  array : ℤ → α
  markers : List GapArrayMarker

namespace GapArray

/-- `GAP_ARRAY_ARRAY_TO_MEMORY_POS`. -/
def arrayToMemoryPos (ga : GapArray α) (pos : ℤ) : ℤ :=
  if pos < ga.gap then pos else pos + ga.gapsize

/-- `GAP_ARRAY_MEMORY_TO_ARRAY_POS`. -/
def memoryToArrayPos (ga : GapArray α) (pos : ℤ) : ℤ :=
  if pos ≤ ga.gap then pos else pos - ga.gapsize

/-- `gap_array_at`. -/
def at' (ga : GapArray α) (pos : ℤ) : α := ga.array (ga.arrayToMemoryPos pos)

/-- `gap_array_marker_pos`. -/
def markerPos (ga : GapArray α) (m : GapArrayMarker) : ℤ := ga.memoryToArrayPos m.pos

/-- The elements at `0 .. gap_array_length - 1`. -/
def toList (ga : GapArray α) : List α := slice ga.at' ga.numels

/-- `gap_array_adjust_markers`. -/
def adjustMarkers (ga : GapArray α) (start stop amount : ℤ) : GapArray α :=
  { ga with markers := ga.markers.map fun m =>
      { m with pos := doMarkerAdjustment m.pos start stop amount } }

/-- `gap_array_move_gap`. -/
def moveGap (ga : GapArray α) (pos : ℤ) : GapArray α :=
  let gap := ga.gap
  let gapsize := ga.gapsize
  let ga :=
    if pos < gap then
      { ga with array := memmove (pos + gapsize) pos (gap - pos) ga.array }.adjustMarkers
        pos gap gapsize
    else if pos > gap then
      { ga with array := memmove gap (gap + gapsize) (pos - gap) ga.array }.adjustMarkers
        (gap + gapsize) (pos + gapsize) (-gapsize)
    else ga
  { ga with gap := pos }

/-- `gap_array_make_gap`: the new cells are called a gap at the end of the whole space,
moved down to the end of the old one, and the two are combined. -/
def makeGap (ga : GapArray α) (increment : ℤ) : GapArray α :=
  let increment := increment + (100 + ga.numels / 8)
  let realGapLoc := ga.gap
  let oldGapSize := ga.gapsize
  let ga := { ga with gap := ga.numels + ga.gapsize, gapsize := increment }
  let ga := ga.moveGap (realGapLoc + oldGapSize)
  { ga with gapsize := ga.gapsize + oldGapSize, gap := realGapLoc }

/-- `gap_array_insert_els`; undefined where its assertion fails. -/
def insertEls (ga : GapArray α) (pos : ℤ) (els : List α) : Option (GapArray α) :=
  if 0 ≤ pos ∧ pos ≤ ga.numels then
    let ga := if ga.gapsize < els.length then ga.makeGap (els.length - ga.gapsize) else ga
    let ga := if pos ≠ ga.gap then ga.moveGap pos else ga
    let ga :=
      { ga with
        array := memcpy ga.gap els ga.array
        gapsize := ga.gapsize - els.length
        gap := ga.gap + els.length
        numels := ga.numels + els.length }
    -- the equivalent of insert-before-markers
    some (ga.adjustMarkers (pos - 1) pos els.length)
  else none

/-- `gap_array_delete_els`; undefined where an assertion fails. -/
def deleteEls (ga : GapArray α) (start numdel : ℤ) : Option (GapArray α) :=
  let stop := start + numdel
  let gapsize := ga.gapsize
  if 0 ≤ start ∧ 0 ≤ numdel ∧ stop ≤ ga.numels then
    let ga := if stop < ga.gap then ga.moveGap stop else ga
    let ga := if start > ga.gap then ga.moveGap start else ga
    let ga := ga.adjustMarkers (stop + gapsize) (stop + gapsize) (-numdel - gapsize)
    some { ga with
      gapsize := ga.gapsize + numdel
      numels := ga.numels - numdel
      gap := start }
  else none

end GapArray

/-- A gap array with `gap_array_marker_freelist` and the address of the next new marker. -/
structure GapArrayState (α : Type*) where
  ga : GapArray α
  freelist : List ℕ
  nextAddr : ℕ

inductive GapArrayOp (α : Type*)
  | insertEls (pos : ℤ) (els : List α)
  | deleteEls (start numdel : ℤ)
  /-- `gap_array_make_marker` at `pos` that returns the marker at `addr` -/
  | makeMarker (pos : ℤ) (addr : ℕ)
  | moveMarker (addr : ℕ) (pos : ℤ)
  | deleteMarker (addr : ℕ)

namespace GapArrayState

/-- `make_gap_array`. The memory starts with arbitrary contents. -/
def make (mem : ℤ → α) : GapArrayState α := ⟨⟨0, 0, 0, mem, []⟩, [], 0⟩

/-- `gap_array_make_marker`: reuse a marker of the free list or allocate one. -/
def makeMarker (s : GapArrayState α) (pos : ℤ) : Option (GapArrayState α × ℕ) :=
  if 0 ≤ pos ∧ pos ≤ s.ga.numels then
    let link (addr : ℕ) : GapArray α :=
      { s.ga with markers := ⟨addr, s.ga.arrayToMemoryPos pos⟩ :: s.ga.markers }
    match s.freelist with
    | m :: rest => some (⟨link m, rest, s.nextAddr⟩, m)
    | [] => some (⟨link s.nextAddr, [], s.nextAddr + 1⟩, s.nextAddr)
  else none

/-- `gap_array_delete_marker`: unlink the marker and push it on the free list. -/
def deleteMarker (s : GapArrayState α) (addr : ℕ) : Option (GapArrayState α) :=
  if s.ga.markers.any (·.addr = addr) then
    some { s with
      ga := { s.ga with markers := s.ga.markers.eraseP (·.addr = addr) }
      freelist := addr :: s.freelist }
  else none

/-- `gap_array_move_marker`, on a marker of the array. -/
def moveMarker (s : GapArrayState α) (addr : ℕ) (pos : ℤ) : Option (GapArrayState α) :=
  if (0 ≤ pos ∧ pos ≤ s.ga.numels) ∧ s.ga.markers.any (·.addr = addr) then
    some { s with ga := { s.ga with markers := s.ga.markers.map fun m =>
      if m.addr = addr then { m with pos := s.ga.arrayToMemoryPos pos } else m } }
  else none

def step (s : GapArrayState α) : GapArrayOp α → Option (GapArrayState α)
  | .insertEls pos els => (s.ga.insertEls pos els).map ({ s with ga := · })
  | .deleteEls start numdel => (s.ga.deleteEls start numdel).map ({ s with ga := · })
  | .makeMarker pos addr => (s.makeMarker pos).bind fun (t, m) => if m = addr then some t else none
  | .moveMarker addr pos => s.moveMarker addr pos
  | .deleteMarker addr => s.deleteMarker addr

end GapArrayState

/-- What a gap array stands for: its elements, and the position of each live marker. -/
structure MarkedList (α : Type*) where
  els : List α
  markers : List (ℕ × ℤ)

namespace MarkedList

def mapPos (l : MarkedList α) (f : ℤ → ℤ) : List (ℕ × ℤ) := l.markers.map fun m => (m.1, f m.2)

def step (l : MarkedList α) : GapArrayOp α → Option (MarkedList α)
  | .insertEls pos els =>
    if 0 ≤ pos ∧ pos ≤ l.els.length then
      some ⟨l.els.take pos.toNat ++ els ++ l.els.drop pos.toNat, l.mapPos (insertPos pos els.length true)⟩
    else none
  | .deleteEls start numdel =>
    if 0 ≤ start ∧ 0 ≤ numdel ∧ start + numdel ≤ l.els.length then
      some ⟨l.els.take start.toNat ++ l.els.drop (start + numdel).toNat,
        l.mapPos (deletePos start (start + numdel))⟩
    else none
  | .makeMarker pos addr =>
    if 0 ≤ pos ∧ pos ≤ l.els.length then some { l with markers := (addr, pos) :: l.markers }
    else none
  | .moveMarker addr pos =>
    if (0 ≤ pos ∧ pos ≤ l.els.length) ∧ l.markers.any (·.1 = addr) then
      some { l with markers := l.markers.map fun m => if m.1 = addr then (m.1, pos) else m }
    else none
  | .deleteMarker addr =>
    if l.markers.any (·.1 = addr) then some { l with markers := l.markers.eraseP (·.1 = addr) }
    else none

end MarkedList

end XEmacs.Text
