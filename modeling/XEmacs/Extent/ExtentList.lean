import XEmacs.Lib.SortedList
import XEmacs.Text.GapArray

/-! Extent lists and the stack of extents, in extents.c. The extents of an object are kept in
two gap arrays, by start in display order and by end in e-order; the stack of extents is
another such pair, of those that overlap its position. Extents are named by numbers. What an
assertion forbids is undefined. Redisplay, syntax caches and undo records are left out, and so
are all properties but those that the lists and the mapping over them look at, as the extent
and its ancestors have them. -/

namespace XEmacs.Extents

open Lib Text

/-- An extent; its endpoints are memory positions, and a detached one starts at -1. -/
structure Extent where
  start : ℤ
  /-- `extent_end` -/
  stop : ℤ
  startOpen : Bool
  endOpen : Bool
  detachable : Bool
  internal : Bool
  deriving DecidableEq

namespace Extent

/-- `extent_endpoint`. -/
def endpoint (e : Extent) (endp : Bool) : ℤ := if endp then e.stop else e.start

/-- `set_extent_endpoint`. -/
def setEndpoint (e : Extent) (val : ℤ) (endp : Bool) : Extent :=
  if endp then { e with stop := val } else { e with start := val }

/-- `extent_detached_p`. -/
def detachedP (e : Extent) : Bool := e.start < 0

/-- `EXTENT_LESS_VALS`, or `EXTENT_E_LESS_VALS`. -/
def lessVals (endp : Bool) (e : Extent) (st nd : ℤ) : Bool :=
  if endp then e.stop < nd ∨ e.stop = nd ∧ e.start > st
  else e.start < st ∨ e.start = st ∧ e.stop > nd

/-- `EXTENT_EQUAL_VALS`. -/
def equalVals (e : Extent) (st nd : ℤ) : Bool := e.start = st ∧ e.stop = nd

/-- `EXTENT_LESS`, or `EXTENT_E_LESS`. -/
def less (endp : Bool) (e₁ e₂ : Extent) : Bool := e₁.lessVals endp e₂.start e₂.stop

end Extent

/-- Where the extents are. -/
abbrev Heap := ℕ → Extent

/-- `struct extent_list`. -/
structure ExtentList where
  start : MarkedList ℕ
  /-- the list by end position -/
  stop : MarkedList ℕ

namespace ExtentList

variable (ext : Heap)

def empty : ExtentList := ⟨⟨[], []⟩, ⟨[], []⟩⟩

/-- One of the two gap arrays. -/
def ga (el : ExtentList) (endp : Bool) : MarkedList ℕ := if endp then el.stop else el.start

def setGa (el : ExtentList) (endp : Bool) (ga : MarkedList ℕ) : ExtentList :=
  if endp then { el with stop := ga } else { el with start := ga }

/-- `extent_list_num_els`. -/
def numEls (el : ExtentList) : ℕ := el.start.els.length

/-- The loop of `extent_list_locate` over the extents equal to the one looked for, with the
number of those passed and whether it was found. -/
def equalRun (is : ℕ → Bool) (st nd : ℤ) : List ℕ → ℕ × Bool
  | [] => (0, false)
  | e :: els =>
    if is e then (0, true)
    else if (ext e).equalVals st nd then
      let r := equalRun is st nd els
      (r.1 + 1, r.2)
    else (0, false)

/-- `extent_list_locate` of an extent from `st` to `nd` that `is` recognizes. -/
def locateVals (el : ExtentList) (endp : Bool) (is : ℕ → Bool) (st nd : ℤ) : ℕ × Bool :=
  let els := (el.ga endp).els
  let left := bisect (fun i => (ext (els.getD i default)).lessVals endp st nd) els.length 0 els.length
  let r := equalRun ext is st nd (els.drop left)
  (if r.2 ∨ ¬endp then left + r.1 else left, r.2)

/-- `extent_list_locate`. -/
def locate (el : ExtentList) (extent : ℕ) (endp : Bool) : ℕ × Bool :=
  el.locateVals ext endp (· = extent) (ext extent).start (ext extent).stop

/-- `extent_list_locate_from_pos`. -/
def locateFromPos (el : ExtentList) (pos : ℤ) (endp : Bool) : ℕ :=
  let pos := if endp then pos else pos - 1
  (el.locateVals ext endp (fun _ => false) pos pos).1

/-- `extent_list_at`. -/
def at' (el : ExtentList) (pos : ℤ) (endp : Bool) : Option ℕ :=
  if 0 ≤ pos then (el.ga endp).els[pos.toNat]? else none

/-- What `extent_list_insert` does to one of the lists. -/
def insertInto (extent : ℕ) (endp : Bool) (el : ExtentList) : Option ExtentList :=
  let r := el.locate ext extent endp
  if r.2 then none else ((el.ga endp).step (.insertEls r.1 [extent])).map (el.setGa endp)

/-- `extent_list_insert`. -/
def insert (el : ExtentList) (extent : ℕ) : Option ExtentList :=
  (el.insertInto ext extent false).bind (insertInto ext extent true)

/-- What `extent_list_delete` does to one of the lists. -/
def deleteFrom (extent : ℕ) (endp : Bool) (el : ExtentList) : Option ExtentList :=
  let r := el.locate ext extent endp
  if r.2 then ((el.ga endp).step (.deleteEls r.1 1)).map (el.setGa endp) else none

/-- `extent_list_delete`. -/
def delete (el : ExtentList) (extent : ℕ) : Option ExtentList :=
  (el.deleteFrom ext extent false).bind (deleteFrom ext extent true)

/-- `extent_list_delete_all`. -/
def deleteAll (el : ExtentList) : Option ExtentList :=
  (el.start.step (.deleteEls 0 el.start.els.length)).bind fun start =>
    (el.stop.step (.deleteEls 0 el.stop.els.length)).map fun stop => ⟨start, stop⟩

end ExtentList

/-- `struct stack_of_extents`. -/
structure StackOfExtents where
  extents : ExtentList
  pos : ℤ

/-- `allocate_soe`. -/
def StackOfExtents.allocate : StackOfExtents := ⟨.empty, -1⟩

/-- The extents of an object: `struct extent_info`, with the extents themselves, of which those
from `next` on are not yet used. -/
structure ExtentInfo where
  ext : Heap
  next : ℕ
  extents : ExtentList
  soe : Option StackOfExtents

namespace ExtentInfo

/-- `allocate_extent_info`, where there is no extent. -/
def allocate : ExtentInfo := ⟨fun _ => ⟨-1, -1, false, false, false, false⟩, 0, .empty, none⟩

def setExtent (s : ExtentInfo) (e : ℕ) (x : Extent) : ExtentInfo :=
  { s with ext := Function.update s.ext e x }

/-- `set_extent_start` and `set_extent_end`. -/
def setStartEnd (s : ExtentInfo) (e : ℕ) (start stop : ℤ) : ExtentInfo :=
  s.setExtent e { s.ext e with start := start, stop := stop }

/-- `object_stack_of_extents_force`. -/
def soeForce (s : ExtentInfo) : StackOfExtents := s.soe.getD .allocate

def soeInsert (s : ExtentInfo) (extent : ℕ) : Option ExtentInfo :=
  match s.soe with
  | none => some s
  | some soe =>
    if soe.pos < (s.ext extent).start ∨ soe.pos > (s.ext extent).stop then some s
    else (soe.extents.insert s.ext extent).map fun el => { s with soe := some { soe with extents := el } }

def soeDelete (s : ExtentInfo) (extent : ℕ) : Option ExtentInfo :=
  match s.soe with
  | none => some s
  | some soe =>
    if soe.pos < (s.ext extent).start ∨ soe.pos > (s.ext extent).stop then some s
    else (soe.extents.delete s.ext extent).map fun el => { s with soe := some { soe with extents := el } }

/-- The loop of the first stage of `soe_move`, over the extents from `start` on. -/
def deleteRun (ext : Heap) (start : ℕ) (endp : Bool) : ℕ → ExtentList → Option ExtentList
  | 0, sel => some sel
  | n + 1, sel => (sel.at' start endp).bind fun e => (sel.delete ext e).bind (deleteRun ext start endp n)

/-- The first stage of `soe_move`: what does not overlap `pos` leaves the stack. -/
def soeMoveDelete (ext : Heap) (forward : Bool) (pos : ℤ) (sel : ExtentList) : Option ExtentList :=
  let numsoe := sel.numEls
  if numsoe > 0 then
    let start := if forward then 0 else sel.locateFromPos ext (pos + 1) false
    let stop := if forward then sel.locateFromPos ext pos true else numsoe
    deleteRun ext start forward (stop - start) sel
  else some sel

/-- The loop of the second stage of `soe_move`, over the extents on the way in their order. -/
def insertRun (ext : Heap) (forward : Bool) (pos : ℤ) : List ℕ → ExtentList → Option ExtentList
  | [], sel => some sel
  | e :: els, sel =>
    if (if forward then (ext e).start > pos else (ext e).stop < pos) then some sel
    else if (if forward then (ext e).stop ≥ pos else (ext e).start ≤ pos) then
      (sel.insert ext e).bind (insertRun ext forward pos els)
    else insertRun ext forward pos els sel

/-- The extents of the object that `soe_move` meets on its way, in their order. -/
def onTheWay (s : ExtentInfo) (forward : Bool) (pos : ℤ) : List ℕ :=
  if forward then s.extents.start.els.drop (s.extents.locateFromPos s.ext (pos + 1) false)
  else (s.extents.stop.els.take (s.extents.locateFromPos s.ext pos true)).reverse

def soeMove (s : ExtentInfo) (pos : ℤ) : Option ExtentInfo :=
  let soe := s.soeForce
  if soe.pos = pos then some { s with soe := some soe }
  else
    let forward : Bool := soe.pos < pos
    (soeMoveDelete s.ext forward pos soe.extents).bind fun sel =>
      (insertRun s.ext forward pos (s.onTheWay forward soe.pos) sel).map fun sel =>
        { s with soe := some ⟨sel, pos⟩ }

def soeInvalidate (s : ExtentInfo) : Option ExtentInfo :=
  match s.soe with
  | none => some s
  | some soe => soe.extents.deleteAll.map fun el => { s with soe := some ⟨el, -1⟩ }

/-- `flush_cached_extent_info`, at a garbage collection. -/
def flushSoe (s : ExtentInfo) : ExtentInfo := { s with soe := none }

/-- `extent_attach`. -/
def attach (s : ExtentInfo) (extent : ℕ) : Option ExtentInfo :=
  (s.extents.insert s.ext extent).bind fun el => soeInsert { s with extents := el } extent

/-- `extent_detach`. -/
def detach (s : ExtentInfo) (extent : ℕ) : Option ExtentInfo :=
  if (s.ext extent).detachedP then some s
  else
    (s.extents.delete s.ext extent).bind fun el =>
      (soeDelete { s with extents := el } extent).map (setStartEnd · extent (-1) (-1))

def setExtentEndpoints1 (s : ExtentInfo) (extent : ℕ) (start stop : ℤ) : Option ExtentInfo :=
  if ¬(s.ext extent).detachedP ∧ (s.ext extent).start = start ∧ (s.ext extent).stop = stop then some s
  else (s.detach extent).bind fun s => (s.setStartEnd extent start stop).attach extent

/-- `make_extent_detached`, of an extent with the flags of `x`. -/
def makeExtentDetached (s : ExtentInfo) (x : Extent) : ExtentInfo × ℕ :=
  ({ s.setExtent s.next { x with start := -1, stop := -1 } with next := s.next + 1 }, s.next)

def detachAllExtents (s : ExtentInfo) : Option ExtentInfo :=
  s.extents.deleteAll.bind fun el =>
    soeInvalidate { s with
      ext := fun e => if e ∈ s.extents.start.els then { s.ext e with start := -1, stop := -1 } else s.ext e
      extents := el }

end ExtentInfo

end XEmacs.Extents
