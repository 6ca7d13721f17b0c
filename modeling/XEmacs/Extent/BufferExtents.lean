import XEmacs.Extent.MapExtents

/-! Extents and editing, in extents.c and insdel.c: what is done to the extents of a buffer when
the gap is moved or grows, and when text is inserted or deleted. Endpoints are memory positions
and are adjusted like markers; the openness of an endpoint only counts in an insertion, and
an extent whose text is deleted may be detached. There are no undo records. -/

namespace XEmacs.Extents

open Lib Text

/-- The loop of `adjust_extents` over one of the lists, from its start position on. -/
def adjustRun (start stop amount : ℤ) (endp : Bool) : List ℕ → Heap → Heap
  | [], ext => ext
  | e :: els, ext =>
    if (ext e).endpoint endp > stop then ext
    else
      let val := doMarkerAdjustment ((ext e).endpoint endp) start stop amount
      adjustRun start stop amount endp els (Function.update ext e ((ext e).setEndpoint val endp))

namespace ExtentInfo

/-- `adjust_extents`; its amount is an `int`. -/
def adjustExtents (s : ExtentInfo) (start stop amount : ℤ) : ExtentInfo :=
  let amount := toInt amount
  if s.extents.numEls = 0 then s
  else
    -- both places are looked up before anything is moved
    let startpos (endp : Bool) := s.extents.locateFromPos s.ext (start + 1) endp
    let run (endp : Bool) := adjustRun start stop amount endp ((s.extents.ga endp).els.drop (startpos endp))
    { s with
      ext := run true (run false s.ext)
      soe := s.soe.map fun soe =>
        if soe.pos ≥ 0 then { soe with pos := doMarkerAdjustment soe.pos start stop amount } else soe }

end ExtentInfo

/-- `process_extents_for_insertion_mapper`, for text inserted at `opoint`; its length is an
`int` in `struct process_extents_for_insertion_arg`. -/
def processForInsertionMapper (b : Buffer) (opoint length : ℤ) : Mapper Unit := fun s _ e =>
  let indice := b.bytebposToMembpos opoint
  let x := s.ext e
  -- a zero-length extent that is open at both ends stays in front of the text
  let newStart := if indice = x.start ∧ x.startOpen ∧ ¬ (x.start = x.stop ∧ x.endOpen) then x.start + length else x.start
  let newEnd := if indice = x.stop ∧ ¬ x.endOpen then x.stop + length else x.stop
  (s.setExtentEndpoints1 e newStart newEnd).map (·, (), false)

def ExtentInfo.processExtentsForInsertion (s : ExtentInfo) (b : Buffer) (fuel : ℕ) (opoint length : ℤ) :
    Option ExtentInfo :=
  (mapExtents false b fuel opoint (opoint + length) (processForInsertionMapper b opoint (toInt length)) () none
    { MapFlags.zero with endClosed := true, mightModifyExtents := true, includeInternal := true } s).map (·.1)

/-- `process_extents_for_deletion_mapper`, where extents are not to be destroyed. -/
def processForDeletionMapper (start stop : ℤ) : Mapper Unit := fun s _ e =>
  if start ≤ (s.ext e).start ∧ (s.ext e).stop ≤ stop then
    if (s.ext e).detachable then (s.detach e).map (·, (), false) else some (s, (), false)
  else some (s, (), false)

/-- The flags of `process_extents_for_deletion`. -/
def processFlags : MapFlags := { MapFlags.zero with endClosed := true, mightModifyExtents := true }

def ExtentInfo.processExtentsForDeletion (s : ExtentInfo) (b : Buffer) (fuel : ℕ) (start stop : ℤ) :
    Option ExtentInfo :=
  (mapExtents false b fuel start stop
    (processForDeletionMapper (b.bytebposToMembpos start) (b.bytebposToMembpos stop)) () none processFlags s).map (·.1)

/-- `adjust_extents_for_deletion_mapper`. -/
def adjustForDeletionMapper : Mapper (List ℕ) := fun s list e => some (s, list ++ [e], false)

/-- The flags of `adjust_extents_for_deletion`. -/
def adjustFlags : MapFlags :=
  { MapFlags.zero with
    allExtents := some .closed, endClosed := true, inRegion := some .startOrEnd, includeInternal := true }

namespace ExtentInfo

/-- The position of the stack of extents, if there is one, is set without moving it. -/
def setSoePos (s : ExtentInfo) (pos : ℤ) : ExtentInfo := { s with soe := s.soe.map fun soe => { soe with pos := pos } }

/-- The loop of `adjust_extents_for_deletion` over what has been gathered; `oldsoe` and `newsoe`
are the positions of the stack of extents, if it is there. -/
def adjustEach (adjustTo amount : ℤ) (soe : Option (ℤ × ℤ)) : List ℕ → ExtentInfo → Option ExtentInfo
  | [], s => some s
  | e :: els, s =>
    let newStart := doMarkerAdjustment (s.ext e).start adjustTo adjustTo amount
    let newEnd := doMarkerAdjustment (s.ext e).stop adjustTo adjustTo amount
    if newStart ≠ (s.ext e).start ∨ newEnd ≠ (s.ext e).stop then
      (s.detach e).bind fun s =>
        let s := s.setStartEnd e newStart newEnd
        let s := (soe.map fun p => s.setSoePos p.2).getD s
        (s.attach e).bind fun s => adjustEach adjustTo amount soe els ((soe.map fun p => s.setSoePos p.1).getD s)
    else adjustEach adjustTo amount soe els s

/-- `adjust_extents_for_deletion`; the three amounts are `int`s. -/
def adjustExtentsForDeletion (s : ExtentInfo) (b : Buffer) (fuel : ℕ) (start stop gapsize numdel movegapsize : ℤ) :
    Option ExtentInfo :=
  let adjustTo := stop + toInt gapsize
  let amount := toInt (-toInt numdel - toInt movegapsize)
  -- the stack of extents is looked for before the mapping, which would allocate it
  let hasSoe := s.soe.isSome
  (mapExtents false b fuel start stop adjustForDeletionMapper [] none adjustFlags s).bind fun r =>
    let s := r.1
    let oldsoe := s.soeForce.pos
    let newsoe := if oldsoe ≥ 0 then doMarkerAdjustment oldsoe adjustTo adjustTo amount else oldsoe
    (adjustEach adjustTo amount (if hasSoe then some (oldsoe, newsoe) else none) r.2 s).map fun s =>
      if hasSoe then s.setSoePos newsoe else s

end ExtentInfo

structure BufferExtents where
  buf : Buffer
  info : ExtentInfo

namespace BufferExtents

variable (rep : UInt8 → ℕ)

/-- `gap_left`; the gap may have stopped before `bpos`. -/
def gapLeft (s : BufferExtents) (quitp : ℕ → Bool) (cpos bpos : ℤ) : BufferExtents :=
  let b := s.buf.gapLeft rep quitp cpos bpos
  ⟨b, s.info.adjustExtents b.gpt s.buf.gpt s.buf.gapSize⟩

def gapRight (s : BufferExtents) (quitp : ℕ → Bool) (cpos bpos : ℤ) : BufferExtents :=
  let b := s.buf.gapRight rep quitp cpos bpos
  let gsize := toInt s.buf.gapSize
  ⟨b, s.info.adjustExtents (s.buf.gpt + gsize) (b.gpt + gsize) (-gsize)⟩

def moveGap (s : BufferExtents) (quitp : ℕ → Bool) (cpos bpos : ℤ) : BufferExtents :=
  if bpos < s.buf.gpt then s.gapLeft rep quitp cpos bpos
  else if bpos > s.buf.gpt then s.gapRight rep quitp cpos bpos
  else s

/-- The part that `merge_gap_with_end_gap` and `make_gap` share: new cells at the end are
called the gap and moved down. -/
def combineGaps (s : BufferExtents) (increment : ℤ) : BufferExtents :=
  let cells : BufferExtents := { s with
    buf := { s.buf with
      bufgpt := s.buf.bufz + s.buf.gapSize
      gpt := s.buf.z + s.buf.gapSize
      gapSize := increment
      endGapSize := 0 } }
  ⟨s.buf.combineGaps rep increment,
    (cells.gapLeft rep Buffer.inhibitQuit (s.buf.bufgpt + s.buf.gapSize) (s.buf.gpt + s.buf.gapSize)).info⟩

def mergeGapWithEndGap (s : BufferExtents) : BufferExtents :=
  ⟨s.buf.mergeGapWithEndGap rep, if s.buf.endGapSize > 0 then (s.combineGaps rep s.buf.endGapSize).info else s.info⟩

def makeGap (s : BufferExtents) (increment : ℤ) : Option BufferExtents :=
  let size := maxAlignSize (increment + (2000 + (s.buf.z - 1) / 8))
  let size := if size > s.buf.endGapSize then size else s.buf.endGapSize
  (s.buf.makeGap rep increment).map fun b => ⟨b, (s.combineGaps rep size).info⟩

/-- The room that `buffer_insert_string_1` makes. -/
def makeRoom (s : BufferExtents) (pos bytepos length : ℤ) : Option BufferExtents :=
  let s := if bytepos ≠ s.buf.gpt then s.moveGap rep Buffer.inhibitQuit pos bytepos else s
  if ¬ s.buf.gapCanHoldSizeP length then
    if s.buf.endGapSize ≥ length then some (s.mergeGapWithEndGap rep)
    else s.makeGap rep (length - s.buf.gapSize)
  else some s

def bufferInsertString1 (s : BufferExtents) (fuel : ℕ) (pos : ℤ) (str : List UInt8) (beforeMarkers : Bool) :
    Option BufferExtents :=
  let movePoint : Bool := pos = -1
  let pos := if pos = -1 then s.buf.bufpt else pos
  let pos := s.buf.clipPos pos
  let bytepos := s.buf.charbposToBytebpos rep pos
  let cclen : ℤ := bytecountToCharcount rep str
  if mostPositiveFixnum - 1 - s.buf.bufz < cclen then none
  else (s.makeRoom rep pos bytepos str.length).bind fun s =>
    let b := s.buf.insertAtGap bytepos str cclen
    (s.info.processExtentsForInsertion b fuel bytepos str.length).map fun info =>
      ⟨b.moveAfterInsert rep bytepos str.length movePoint beforeMarkers, info⟩

/-- The critical section of `buffer_delete_range`. -/
def deleteAtGap (s : BufferExtents) (fuel : ℕ) (start stop byteFrom byteTo : ℤ) (doMoveGap : Bool) :
    Option BufferExtents :=
  (s.info.processExtentsForDeletion s.buf fuel byteFrom byteTo).bind fun info =>
    (info.adjustExtentsForDeletion s.buf fuel byteFrom byteTo s.buf.gapSize (byteTo - byteFrom)
      (if doMoveGap then s.buf.gapSize else 0)).map fun info =>
        ⟨s.buf.deleteAtGap start stop byteFrom byteTo doMoveGap, info⟩

def moveGapNextTo (s : BufferExtents) (start stop byteFrom byteTo : ℤ) : BufferExtents :=
  let s := if byteTo < s.buf.gpt then s.gapLeft rep Buffer.inhibitQuit stop byteTo else s
  if byteFrom > s.buf.gpt then s.gapRight rep Buffer.inhibitQuit start byteFrom else s

def bufferDeleteRange (s : BufferExtents) (fuel : ℕ) (start stop : ℤ) : Option BufferExtents :=
  let start := if start < s.buf.bufbegv then s.buf.bufbegv else start
  let stop := if stop > s.buf.bufzv then s.buf.bufzv else stop
  if stop - start ≤ 0 then some s
  else
    let byteFrom := s.buf.charbposToBytebpos rep start
    let byteTo := s.buf.charbposToBytebpos rep stop
    if s.buf.deletesFromBottom stop byteFrom then s.deleteAtGap fuel start stop byteFrom byteTo false
    else (s.moveGapNextTo rep start stop byteFrom byteTo).deleteAtGap fuel start stop byteFrom byteTo true

def charbposToMembpos (s : BufferExtents) (pos : ℤ) : ℤ :=
  s.buf.bytebposToMembpos (s.buf.charbposToBytebpos rep pos)

/-- `extent_find_end_of_run`. -/
def findEndOfRun (s : BufferExtents) (pos : ℤ) (outsideAccessible : Bool) : Option (BufferExtents × ℤ) :=
  let mempos := s.buf.bytebposToMembpos pos
  let limit := if outsideAccessible then s.buf.z else s.buf.zv
  if s.info.extents.numEls = 0 then some (s, limit)
  else (s.info.soeMove mempos).bind fun info =>
    let bel := info.extents
    let sel := info.soeForce.extents
    -- the first start position after `pos`
    let elind1 := bel.locateFromPos info.ext (mempos + 1) false
    (if elind1 < bel.numEls then
      (bel.at' elind1 false).map fun e => s.buf.membposToBytebpos (info.ext e).start
    else some limit).bind fun pos1 =>
      -- the first end position after `pos`, unless it is beyond `pos1`
      let elind2 := sel.locateFromPos info.ext (mempos + 1) true
      (if elind2 < sel.numEls then
        (sel.at' elind2 true).map fun e => s.buf.membposToBytebpos (info.ext e).stop
      else some limit).map fun pos2 => ({ s with info := info }, min (min pos1 pos2) limit)

/-- `extent_find_beginning_of_run`. -/
def findBeginningOfRun (s : BufferExtents) (pos : ℤ) (outsideAccessible : Bool) : Option (BufferExtents × ℤ) :=
  let mempos := s.buf.bytebposToMembpos pos
  let limit := if outsideAccessible then 1 else s.buf.begv
  if s.info.extents.numEls = 0 then some (s, limit)
  else (s.info.soeMove mempos).bind fun info =>
    let bel := info.extents
    let sel := info.soeForce.extents
    -- the last end position before `pos`
    let elind1 := bel.locateFromPos info.ext mempos true
    (if elind1 > 0 then
      (bel.at' (elind1 - 1) true).map fun e => s.buf.membposToBytebpos (info.ext e).stop
    else some limit).bind fun pos1 =>
      -- the last start position before `pos`, unless it is before `pos1`
      let elind2 := sel.locateFromPos info.ext mempos false
      (if elind2 > 0 then
        (sel.at' (elind2 - 1) false).map fun e => s.buf.membposToBytebpos (info.ext e).start
      else some limit).map fun pos2 => ({ s with info := info }, max (max pos1 pos2) limit)

/-- `Fnext_extent_change`; an error where the position is not one of the buffer. -/
def nextExtentChange (s : BufferExtents) (pos : ℤ) : Option (BufferExtents × ℤ) :=
  if 1 ≤ pos ∧ pos ≤ s.buf.bufz then
    (s.findEndOfRun (s.buf.charbposToBytebpos rep pos) true).map fun r => (r.1, r.1.buf.bytebposToCharbpos rep r.2)
  else none

/-- `Fprevious_extent_change`. -/
def previousExtentChange (s : BufferExtents) (pos : ℤ) : Option (BufferExtents × ℤ) :=
  if 1 ≤ pos ∧ pos ≤ s.buf.bufz then
    (s.findBeginningOfRun (s.buf.charbposToBytebpos rep pos) true).map fun r =>
      (r.1, r.1.buf.bytebposToCharbpos rep r.2)
  else none

end BufferExtents

/-- What is done to a buffer and its extents. The numbers `fuel` bound the loops of
`map_extents`; positions are character positions. -/
inductive BufferExtentsOp (rep : UInt8 → ℕ)
  | insert (pos : ℤ) (str : List (Ichar rep)) (beforeMarkers : Bool) (fuel : ℕ)
  | delete (start stop : ℤ) (fuel : ℕ)
  | moveGap (pos : ℤ) (quitp : ℕ → Bool)
  | setPoint (pos : ℤ)
  | narrow (start stop : ℤ)
  /-- `make_extent`, of an extent with the flags of `x` -/
  | makeExtent (start stop : ℤ) (x : Extent)
  | setEndpoints (extent : ℕ) (start stop : ℤ)
  | detach (extent : ℕ)
  /-- other properties than the endpoints are set -/
  | setFlags (extent : ℕ) (startOpen endOpen detachable : Bool)
  | nextExtentChange (pos : ℤ)
  | previousExtentChange (pos : ℤ)
  /-- a garbage collection -/
  | flushSoe
  | detachAll

namespace BufferExtents

variable {rep : UInt8 → ℕ}

/-- One operation; undefined where it signals an error, where its arguments are not what the
code asserts, and where the buffer would get too large or the loops take more steps. -/
def step (s : BufferExtents) : BufferExtentsOp rep → Option BufferExtents
  | .insert pos str beforeMarkers fuel => s.bufferInsertString1 rep fuel pos (itextBytes str) beforeMarkers
  | .delete start stop fuel => s.bufferDeleteRange rep fuel start stop
  | .moveGap pos quitp =>
    if 1 ≤ pos ∧ pos ≤ s.buf.bufz then some (s.moveGap rep quitp pos (s.buf.charbposToBytebpos rep pos)) else none
  | .setPoint pos => (s.buf.step (.setPoint pos : BufferOp rep)).map fun b => { s with buf := b }
  | .narrow start stop => (s.buf.step (.narrow start stop : BufferOp rep)).map fun b => { s with buf := b }
  | .makeExtent start stop x =>
    if 1 ≤ start ∧ start ≤ stop ∧ stop ≤ s.buf.bufz then
      let made := s.info.makeExtentDetached { x with internal := false }
      (made.1.setExtentEndpoints1 made.2 (s.charbposToMembpos rep start) (s.charbposToMembpos rep stop)).map
        fun info => { s with info := info }
    else none
  | .setEndpoints e start stop =>
    if e < s.info.next ∧ 1 ≤ start ∧ start ≤ stop ∧ stop ≤ s.buf.bufz then
      (s.info.setExtentEndpoints1 e (s.charbposToMembpos rep start) (s.charbposToMembpos rep stop)).map
        fun info => { s with info := info }
    else none
  | .detach e => (s.info.detach e).map fun info => { s with info := info }
  | .setFlags e startOpen endOpen detachable =>
    let x := { s.info.ext e with startOpen := startOpen, endOpen := endOpen, detachable := detachable }
    some { s with info := s.info.setExtent e x }
  | .nextExtentChange pos => (s.nextExtentChange rep pos).map (·.1)
  | .previousExtentChange pos => (s.previousExtentChange rep pos).map (·.1)
  | .flushSoe => some { s with info := s.info.flushSoe }
  | .detachAll => s.info.detachAllExtents.map fun info => { s with info := info }

/-- A new buffer; the memory of its text starts with arbitrary contents. -/
def init (mem : ℤ → UInt8) : BufferExtents := ⟨Buffer.init mem, .allocate⟩

end BufferExtents

end XEmacs.Extents
