import XEmacs.Lib.Transition
import XEmacs.Text.MarkerAdjust
import XEmacs.Text.Itext

/-! The text of a buffer, as insdel.c edits it: bytes with a gap, an unused stretch at
the end (the end gap), point and the accessible region, each as a character and a byte
position, and markers as memory positions. There are no indirect buffers, change hooks
or extents, and conversions between character and byte positions scan the text instead
of a cache. Addresses count from `BUF_BEG_ADDR`. -/

namespace XEmacs.Text

open Lib Lib.Gap

/-- A `Lisp_Marker` of the buffer. -/
structure BufferMarker where
  addr : ℕ
  membpos : ℤ
  insertionType : Bool
  deriving DecidableEq

structure Buffer where
  beg : ℤ → UInt8
  allocated : ℤ
  gpt : ℤ
  bufgpt : ℤ
  z : ℤ
  bufz : ℤ
  gapSize : ℤ
  endGapSize : ℤ
  pt : ℤ
  bufpt : ℤ
  begv : ℤ
  bufbegv : ℤ
  zv : ℤ
  bufzv : ℤ
  markers : List BufferMarker
  pointMarker : ℕ

/-- `MOST_POSITIVE_FIXNUM` with 63 value bits. -/
def mostPositiveFixnum : ℤ := 2 ^ 62 - 1

def maxAlignSize (len : ℤ) : ℤ := (len + 15) / 16 * 16

/-- A count stored in an `int`. -/
def toInt (n : ℤ) : ℤ := (n + 2 ^ 31) % 2 ^ 32 - 2 ^ 31

def gapMoveChunk : ℤ := 300000

namespace Buffer

variable (rep : UInt8 → ℕ)

/-- `BUF_GPT_ADDR`. -/
def gptAddr (b : Buffer) : ℤ := b.gpt - 1

def endAddr (b : Buffer) : ℤ := b.gapSize + b.z - 1

/-- `BYTE_BUF_BYTE_ADDRESS`. -/
def byteAddress (b : Buffer) (pos : ℤ) : ℤ := (if pos ≥ b.gpt then pos + b.gapSize else pos) - 1

def byteAt (b : Buffer) (pos : ℤ) : UInt8 := b.beg (b.byteAddress pos)

/-- The bytes at `1 .. z - 1`. -/
def text (b : Buffer) : List UInt8 := slice (fun i => b.byteAt (i + 1)) (b.z - 1)

def validMembposP (b : Buffer) (x : ℤ) : Prop :=
  1 ≤ x ∧ x ≤ b.gpt ∨ b.gpt + b.gapSize < x ∧ x ≤ b.z + b.gapSize

def membposToBytebpos (b : Buffer) (x : ℤ) : ℤ := if x > b.gpt then x - b.gapSize else x

def bytebposToMembpos (b : Buffer) (x : ℤ) : ℤ := if x > b.gpt then x + b.gapSize else x

/-- `charbpos_to_bytebpos`, by a scan from the beginning. -/
def charbposToBytebpos (b : Buffer) (x : ℤ) : ℤ := 1 + charcountToBytecount rep b.text (x - 1).toNat

/-- `bytebpos_to_charbpos`, by a scan from the beginning. -/
def bytebposToCharbpos (b : Buffer) (x : ℤ) : ℤ :=
  1 + bytecountToCharcount rep (b.text.take (x - 1).toNat)

def markerPosition (b : Buffer) (m : BufferMarker) : ℤ :=
  b.bytebposToCharbpos rep (b.membposToBytebpos m.membpos)

def gapCanHoldSizeP (b : Buffer) (len : ℤ) : Prop := b.gapSize ≥ len + 1

instance (b : Buffer) (len : ℤ) : Decidable (b.gapCanHoldSizeP len) :=
  inferInstanceAs (Decidable (_ ≥ _))

def setGapSentinel (b : Buffer) : Buffer := { b with beg := Function.update b.beg b.gptAddr 0 }

def setEndSentinel (b : Buffer) : Buffer := { b with beg := Function.update b.beg b.endAddr 0 }

def adjustMarkers (b : Buffer) (start stop amount : ℤ) : Buffer :=
  { b with markers := b.markers.map fun m =>
      { m with membpos := doMarkerAdjustment m.membpos start stop amount } }

def adjustMarkersForInsert (b : Buffer) (ind amount : ℤ) : Buffer :=
  { b with markers := b.markers.map fun m =>
      if m.insertionType ∧ m.membpos = ind then { m with membpos := m.membpos + amount } else m }

/-- `set_buffer_point`, which also moves the point marker. -/
def setBufferPoint (b : Buffer) (charbpos bytpos : ℤ) : Buffer :=
  if bytpos = b.pt then b
  else { b with
    bufpt := charbpos
    pt := bytpos
    markers := b.markers.map fun m =>
      if m.addr = b.pointMarker then { m with membpos := b.bytebposToMembpos bytpos } else m }

/-- The loop of `gap_left`: the gap is at `newS1`, `src` and `dst` are the ends of what is to be
moved. It stops at `bpos` or where a quit was detected. -/
def gapLeftLoop (quitp : ℕ → Bool) (bpos gapSize : ℤ) : ℕ → ℤ → (ℤ → UInt8) → (ℤ → UInt8) × ℤ
  | 0, newS1, mem => (mem, newS1)
  | fuel + 1, newS1, mem =>
    let src := newS1 - 1
    let dst := src + gapSize
    let i := newS1 - bpos
    if i = 0 then (mem, newS1)
    else if quitp fuel then (mem, newS1)
    else
      let i := if i > gapMoveChunk then gapMoveChunk else i
      if i ≥ 10 then
        gapLeftLoop quitp bpos gapSize fuel (newS1 - i) (memmove (dst - i) (src - i) i mem)
      else gapLeftLoop quitp bpos gapSize fuel (newS1 - i) (copyDown i.toNat dst src mem)

/-- `gap_left`, for a `bpos` less than the current `gpt`. -/
def gapLeft (b : Buffer) (quitp : ℕ → Bool) (cpos bpos : ℤ) : Buffer :=
  let moved := gapLeftLoop quitp bpos b.gapSize (b.gpt - bpos).toNat b.gpt b.beg
  let b := { b with beg := moved.1 }
  let cpos := if moved.2 = bpos then cpos else b.bytebposToCharbpos rep moved.2
  let bpos := moved.2
  let b := b.adjustMarkers bpos b.gpt b.gapSize
  { b with gpt := bpos, bufgpt := cpos }.setGapSentinel

/-- The loop of `gap_right`. -/
def gapRightLoop (quitp : ℕ → Bool) (bpos gapSize : ℤ) : ℕ → ℤ → (ℤ → UInt8) → (ℤ → UInt8) × ℤ
  | 0, newS1, mem => (mem, newS1)
  | fuel + 1, newS1, mem =>
    let dst := newS1 - 1
    let src := dst + gapSize
    let i := bpos - newS1
    if i = 0 then (mem, newS1)
    else if quitp fuel then (mem, newS1)
    else
      let i := if i > gapMoveChunk then gapMoveChunk else i
      if i ≥ 10 then gapRightLoop quitp bpos gapSize fuel (newS1 + i) (memmove dst src i mem)
      else gapRightLoop quitp bpos gapSize fuel (newS1 + i) (copyUp i.toNat dst src mem)

/-- `gap_right`; the gap size that the markers are adjusted by is an `int`. -/
def gapRight (b : Buffer) (quitp : ℕ → Bool) (cpos bpos : ℤ) : Buffer :=
  let moved := gapRightLoop quitp bpos b.gapSize (bpos - b.gpt).toNat b.gpt b.beg
  let b := { b with beg := moved.1 }
  let cpos := if moved.2 = bpos then cpos else b.bytebposToCharbpos rep moved.2
  let bpos := moved.2
  let gsize := toInt b.gapSize
  let b := b.adjustMarkers (b.gpt + gsize) (bpos + gsize) (-gsize)
  let b := { b with gpt := bpos, bufgpt := cpos }.setGapSentinel
  if bpos = b.z then
    { b with gapSize := b.gapSize + b.endGapSize, endGapSize := 0 }.setEndSentinel
  else b

def moveGap (b : Buffer) (quitp : ℕ → Bool) (cpos bpos : ℤ) : Buffer :=
  if bpos < b.gpt then b.gapLeft rep quitp cpos bpos
  else if bpos > b.gpt then b.gapRight rep quitp cpos bpos
  else b

/-- What `QUITP` says while `Vinhibit_quit` is set. -/
def inhibitQuit (_ : ℕ) : Bool := false

/-- The part that `merge_gap_with_end_gap` and `make_gap` share: a gap of `increment` cells at the
end is moved down and combined with the old one. -/
def combineGaps (b : Buffer) (increment : ℤ) : Buffer :=
  let realGapLocChar := b.bufgpt
  let realGapLocByte := b.gpt
  let oldGapSize := b.gapSize
  let b := { b with
    bufgpt := b.bufz + b.gapSize
    gpt := b.z + b.gapSize
    gapSize := increment
    endGapSize := 0 }
  let b := b.gapLeft rep inhibitQuit (realGapLocChar + oldGapSize) (realGapLocByte + oldGapSize)
  let b := { b with
    gapSize := b.gapSize + oldGapSize
    bufgpt := realGapLocChar
    gpt := realGapLocByte }
  b.setGapSentinel.setEndSentinel

def mergeGapWithEndGap (b : Buffer) : Buffer :=
  let increment := b.endGapSize
  if increment > 0 then b.combineGaps rep increment else { b with endGapSize := 0 }

/-- `make_gap`; no result where the buffer would get too large. -/
def makeGap (b : Buffer) (increment : ℤ) : Option Buffer :=
  let increment := maxAlignSize (increment + (2000 + (b.z - 1) / 8))
  if increment > b.endGapSize then
    if b.bufz - 1 + b.gapSize + increment > mostPositiveFixnum then none
    else
      some ({ b with allocated := b.z - 1 + b.gapSize + increment + 1 }.combineGaps rep increment)
  else some (b.combineGaps rep b.endGapSize)

/-- The room that `buffer_insert_string_1` makes at `pos` for `length` bytes. -/
def makeRoom (b : Buffer) (pos bytepos length : ℤ) : Option Buffer :=
  let b := if bytepos ≠ b.gpt then b.moveGap rep inhibitQuit pos bytepos else b
  if ¬ b.gapCanHoldSizeP length then
    if b.endGapSize ≥ length then some (b.mergeGapWithEndGap rep)
    else b.makeGap rep (length - b.gapSize)
  else some b

/-- The critical section of `buffer_insert_string_1`, with the gap at `bytepos`. -/
def insertAtGap (b : Buffer) (bytepos : ℤ) (str : List UInt8) (cclen : ℤ) : Buffer :=
  let length : ℤ := str.length
  let b := { b with
    beg := memcpy b.gptAddr str b.beg
    gapSize := b.gapSize - length
    bufgpt := b.bufgpt + cclen
    gpt := b.gpt + length
    bufzv := b.bufzv + cclen
    zv := b.zv + length
    bufz := b.bufz + cclen
    z := b.z + length }
  let b := b.setGapSentinel
  let b := b.adjustMarkersForInsert bytepos length
  if b.pt > bytepos then { b with bufpt := b.bufpt + cclen, pt := b.pt + length } else b

/-- The end of `buffer_insert_string_1`: point and markers that go past the new text. -/
def moveAfterInsert (b : Buffer) (bytepos length : ℤ) (movePoint beforeMarkers : Bool) : Buffer :=
  let b :=
    if movePoint then
      b.setBufferPoint (b.bytebposToCharbpos rep (bytepos + length)) (bytepos + length)
    else b
  -- the lower bound of `adjust_markers` is exclusive
  if beforeMarkers then b.adjustMarkers (bytepos - 1) bytepos length else b

/-- Arguments are made valid by moving them into the accessible region. -/
def clipPos (b : Buffer) (pos : ℤ) : ℤ :=
  let pos := if pos < b.bufbegv then b.bufbegv else pos
  if pos > b.bufzv then b.bufzv else pos

/-- `buffer_insert_string_1`; position -1 is point, which then moves past the text. No
result where the buffer would get too large. -/
def bufferInsertString1 (b : Buffer) (pos : ℤ) (str : List UInt8) (beforeMarkers : Bool) :
    Option Buffer :=
  let movePoint : Bool := pos = -1
  let pos := if pos = -1 then b.bufpt else pos
  let pos := b.clipPos pos
  let bytepos := b.charbposToBytebpos rep pos
  let cclen : ℤ := bytecountToCharcount rep str
  if mostPositiveFixnum - 1 - b.bufz < cclen then none
  else (b.makeRoom rep pos bytepos str.length).map fun b =>
    (b.insertAtGap bytepos str cclen).moveAfterInsert rep bytepos str.length movePoint beforeMarkers

/-- Whether `buffer_delete_range` leaves the gap alone and gives the text to the end gap. -/
def deletesFromBottom (b : Buffer) (stop byteFrom : ℤ) : Prop := stop = b.bufz ∧ byteFrom > b.gpt

instance (b : Buffer) (stop byteFrom : ℤ) : Decidable (b.deletesFromBottom stop byteFrom) :=
  inferInstanceAs (Decidable (_ ∧ _))

/-- The critical section of `buffer_delete_range`. -/
def deleteAtGap (b : Buffer) (start stop byteFrom byteTo : ℤ) (doMoveGap : Bool) : Buffer :=
  let numdel := stop - start
  let byteNumdel := byteTo - byteFrom
  let b := b.adjustMarkers (byteTo + b.gapSize) (byteTo + b.gapSize)
    (-byteNumdel - if doMoveGap then b.gapSize else 0)
  let b :=
    if byteFrom < b.pt then
      if b.pt < byteTo then { b with bufpt := start, pt := byteFrom }
      else { b with bufpt := b.bufpt - numdel, pt := b.pt - byteNumdel }
    else b
  let b :=
    if doMoveGap then { b with gapSize := b.gapSize + byteNumdel }
    else { b with endGapSize := b.endGapSize + byteNumdel }
  let b := { b with
    bufzv := b.bufzv - numdel
    zv := b.zv - byteNumdel
    bufz := b.bufz - numdel
    z := b.z - byteNumdel }
  let b := if doMoveGap then { b with bufgpt := start, gpt := byteFrom } else b
  b.setGapSentinel

def moveGapNextTo (b : Buffer) (start stop byteFrom byteTo : ℤ) : Buffer :=
  let b := if byteTo < b.gpt then b.gapLeft rep inhibitQuit stop byteTo else b
  if byteFrom > b.gpt then b.gapRight rep inhibitQuit start byteFrom else b

def bufferDeleteRange (b : Buffer) (start stop : ℤ) : Buffer :=
  let start := if start < b.bufbegv then b.bufbegv else start
  let stop := if stop > b.bufzv then b.bufzv else stop
  if stop - start ≤ 0 then b
  else
    let byteFrom := b.charbposToBytebpos rep start
    let byteTo := b.charbposToBytebpos rep stop
    if b.deletesFromBottom stop byteFrom then b.deleteAtGap start stop byteFrom byteTo false
    else
      (b.moveGapNextTo rep start stop byteFrom byteTo).deleteAtGap start stop byteFrom byteTo true

/-- `ichar_len_fmt` of the character that `BUF_FETCH_CHAR` finds at `pos`. -/
def icharLenAt (b : Buffer) (pos : ℤ) : ℕ := rep (b.byteAt (b.charbposToBytebpos rep pos))

/-- `buffer_replace_char`, for a position in the accessible region. -/
def bufferReplaceChar (b : Buffer) (pos : ℤ) (newstr : List UInt8) : Option Buffer :=
  if newstr.length = b.icharLenAt rep pos then
    let pos := if pos < b.bufbegv then b.bufbegv else pos
    let pos := if pos ≥ b.bufzv then b.bufzv - 1 else pos
    if pos < b.bufbegv then some b
    else
      some { b with beg := memcpy (b.byteAddress (b.charbposToBytebpos rep pos)) newstr b.beg }
  else
    let movepoint := pos = b.bufpt - 1
    let b := b.bufferDeleteRange rep pos (pos + 1)
    let pos := if pos < b.bufbegv then b.bufbegv else pos
    let pos := if pos ≥ b.bufzv then b.bufzv - 1 else pos
    if pos < b.bufbegv then some b
    else b.bufferInsertString1 rep (if movepoint then -1 else pos) newstr false

/-- `Fnarrow_to_region`, for positions in order; `widen` is one to the whole text. -/
def narrowToRegion (b : Buffer) (start stop : ℤ) : Buffer :=
  let b := { b with
    bufbegv := start
    begv := b.charbposToBytebpos rep start
    bufzv := stop
    zv := b.charbposToBytebpos rep stop }
  let b := if b.bufpt < start then b.setBufferPoint start (b.charbposToBytebpos rep start) else b
  if b.bufpt > stop then b.setBufferPoint stop (b.charbposToBytebpos rep stop) else b

/-- `init_buffer_text` and `init_buffer_markers`: the memory starts with arbitrary contents. -/
def init (mem : ℤ → UInt8) : Buffer :=
  Buffer.setEndSentinel <| Buffer.setGapSentinel
    { beg := mem, allocated := 21, gpt := 1, bufgpt := 1, z := 1, bufz := 1, gapSize := 20,
      endGapSize := 0, pt := 1, bufpt := 1, begv := 1, bufbegv := 1, zv := 1, bufzv := 1,
      markers := [⟨0, 1, false⟩], pointMarker := 0 }

end Buffer

/-- What is done to a buffer: editing, gap motions that may stop on a quit, and setting point, the
accessible region and markers. -/
inductive BufferOp (rep : UInt8 → ℕ)
  | insert (pos : ℤ) (str : List (Ichar rep)) (beforeMarkers : Bool)
  | delete (start stop : ℤ)
  | replace (pos : ℤ) (ch : Ichar rep)
  | moveGap (pos : ℤ) (quitp : ℕ → Bool)
  | setPoint (pos : ℤ)
  | narrow (start stop : ℤ)
  /-- a new marker at `pos` with the given insertion type -/
  | makeMarker (addr : ℕ) (pos : ℤ) (insertionType : Bool)
  /-- `set-marker` on a marker of the buffer other than the point marker -/
  | setMarker (addr : ℕ) (pos : ℤ)
  | unchainMarker (addr : ℕ)

namespace Buffer

variable {rep : UInt8 → ℕ}

/-- One operation; undefined where its arguments are not what the code asserts or its
callers promise, and where the buffer would get too large. -/
def step (b : Buffer) : BufferOp rep → Option Buffer
  | .insert pos str beforeMarkers => b.bufferInsertString1 rep pos (itextBytes str) beforeMarkers
  | .delete start stop => some (b.bufferDeleteRange rep start stop)
  | .replace pos ch =>
    if b.bufbegv ≤ pos ∧ pos < b.bufzv then b.bufferReplaceChar rep pos ch.bytes else none
  | .moveGap pos quitp =>
    if 1 ≤ pos ∧ pos ≤ b.bufz then some (b.moveGap rep quitp pos (b.charbposToBytebpos rep pos))
    else none
  | .setPoint pos =>
    if b.bufbegv ≤ pos ∧ pos ≤ b.bufzv then some (b.setBufferPoint pos (b.charbposToBytebpos rep pos))
    else none
  | .narrow start stop =>
    if 1 ≤ start ∧ start ≤ stop ∧ stop ≤ b.bufz then some (b.narrowToRegion rep start stop) else none
  | .makeMarker addr pos insertionType =>
    if (1 ≤ pos ∧ pos ≤ b.bufz) ∧ b.markers.all (·.addr ≠ addr) then
      let membpos := b.bytebposToMembpos (b.charbposToBytebpos rep pos)
      some { b with markers := ⟨addr, membpos, insertionType⟩ :: b.markers }
    else none
  | .setMarker addr pos =>
    if (1 ≤ pos ∧ pos ≤ b.bufz) ∧ addr ≠ b.pointMarker then
      let membpos := b.bytebposToMembpos (b.charbposToBytebpos rep pos)
      some { b with markers := b.markers.map fun m =>
        if m.addr = addr then { m with membpos := membpos } else m }
    else none
  | .unchainMarker addr =>
    if addr ≠ b.pointMarker then some { b with markers := b.markers.filter (·.addr ≠ addr) } else none

end Buffer

end XEmacs.Text
