import Mathlib.Data.Option.Basic
import XEmacs.Text.Buffer

/-! Conversions between character and byte positions as text.c does them. Point, the gap,
the accessible region and the positions that have been kept from earlier conversions are
known both ways; a position is looked for between the two closest of them. Whether a byte is
the first of a character is a parameter, as it depends on the build. A gap motion that a quit
stops ends the insertion or deletion that asked for it, and is not among the operations. -/

namespace XEmacs.Text

/-- `ibyte_first_byte_p` of a build without `UNICODE_INTERNAL`. -/
def ibyteFirstByteP (c : UInt8) : Bool := c < 0xa0

/-- The character is one that `ASSERT_VALID_ITEXT` accepts. -/
def Ichar.Valid {rep : UInt8 → ℕ} (firstp : UInt8 → Bool) (c : Ichar rep) : Prop :=
  firstp c.first = true ∧ ∀ byte ∈ c.rest, firstp byte = false

instance {rep : UInt8 → ℕ} (firstp : UInt8 → Bool) (c : Ichar rep) : Decidable (c.Valid firstp) :=
  inferInstanceAs (Decidable (_ ∧ _))

structure BothPos where
  charpos : ℤ
  bytepos : ℤ
  deriving DecidableEq

/-- A buffer with the rest of its `buffer_text`: the pairs of `mule_charbpos_cache` and
`mule_bytebpos_cache` up to `next_cache_pos`, and `cached_charpos` with `cached_bytepos`. -/
structure MuleBuffer where
  buffer : Buffer
  muleCache : List BothPos
  cached : BothPos
  entirelyOneByteP : Bool

namespace Buffer

variable (firstp : UInt8 → Bool)

/-- The loops of `VALIDATE_BYTEBPOS_FORWARD` and `VALIDATE_BYTEBPOS_BACKWARD`, on an address
and a position, in at most `fuel` steps. -/
def validateBytebpos (delta : ℤ) (b : Buffer) : ℕ → ℤ → ℤ → Option ℤ
  | 0, _, _ => none
  | fuel + 1, ptr, x =>
    if firstp (b.beg ptr) then some x else validateBytebpos delta b fuel (ptr + delta) (x + delta)

def incBytebpos (b : Buffer) (x : ℤ) : Option ℤ :=
  b.validateBytebpos firstp 1 b.z.toNat (b.byteAddress (x + 1)) (x + 1)

def decBytebpos (b : Buffer) (x : ℤ) : Option ℤ :=
  b.validateBytebpos firstp (-1) b.z.toNat (b.byteAddress (x - 1)) (x - 1)

/-- The loops that count characters while a condition holds, in at most `fuel` steps. -/
def countChars (step : ℤ → Option ℤ) (delta : ℤ) (goesOn : BothPos → Bool) : ℕ → BothPos → Option BothPos
  | 0, _ => none
  | fuel + 1, p =>
    if goesOn p then
      (step p.bytepos).bind fun bytepos => countChars step delta goesOn fuel ⟨p.charpos + delta, bytepos⟩
    else some p

end Buffer

namespace MuleBuffer

/-- The closest known positions; `x` is looked for by `key`, and `value` is wanted. -/
structure Best where
  below : BothPos
  above : BothPos

section Conversion

variable (key value : BothPos → ℤ) (x : ℤ)

/-- Between positions that are as many bytes apart as characters the result is immediate. -/
def interpolate (best : Best) : Except ℤ Best :=
  if best.above.charpos - best.below.charpos = best.above.bytepos - best.below.bytepos then
    .error (value best.below + (x - key best.below))
  else .ok best

/-- `CONSIDER`; what is thrown is the result of the conversion. -/
def consider (best : Best) (this : BothPos) : Except ℤ Best :=
  if key this = x then .error (value this)
  else if key this > x then
    if key this < key best.above then interpolate key value x { best with above := this } else .ok best
  else if key this > key best.below then interpolate key value x { best with below := this }
  else .ok best

/-- The loop over the positions kept, the last of which come first. -/
def considerCache : List BothPos → Best → Except ℤ Best
  | [], best => .ok best
  | this :: cache, best => do
    let best ← consider key value x best this
    if best.above.charpos - best.below.charpos < 50 then .ok best else considerCache cache best

variable (b : MuleBuffer)

def places : List BothPos :=
  [⟨b.buffer.bufpt, b.buffer.pt⟩, ⟨b.buffer.bufgpt, b.buffer.gpt⟩, ⟨b.buffer.bufbegv, b.buffer.begv⟩,
    ⟨b.buffer.bufzv, b.buffer.zv⟩, b.cached]

def closest : Except ℤ Best := do
  let best ← b.places.foldlM (consider key value x) ⟨⟨1, 1⟩, ⟨b.buffer.bufz, b.buffer.z⟩⟩
  considerCache key value x b.muleCache.reverse best

end Conversion

def numCachedPositions : ℕ := 50

def numMovedPositions : ℕ := 10

def farAwayDistance : ℤ := 5000

/-- Keep a position, among those of the cache if it was `far` from all that were known. -/
def keep (b : MuleBuffer) (p : BothPos) (far : Bool) : MuleBuffer :=
  { b with
    muleCache :=
      if far then
        (if b.muleCache.length = numCachedPositions then b.muleCache.drop numMovedPositions
          else b.muleCache) ++ [p]
      else b.muleCache
    cached := p }

/-- What both conversions share, with the conditions of their loops; none where an assertion
fails or a loop does not end. -/
def convert (firstp : UInt8 → Bool) (key value : BothPos → ℤ) (goesUp goesDown : ℤ → Bool) (b : MuleBuffer)
    (x : ℤ) : Option (MuleBuffer × ℤ) :=
  if b.buffer.bufz = b.buffer.z then none
  else
    match closest key value x b with
    | .error retval => some (b, retval)
    | .ok best =>
      (if x - key best.below < key best.above - x then
        (Buffer.countChars (b.buffer.incBytebpos firstp) 1 (fun p => goesUp (key p)) (b.buffer.z.toNat + 1)
          best.below).map fun p => (p, decide (x - key best.below > farAwayDistance))
      else
        (Buffer.countChars (b.buffer.decBytebpos firstp) (-1) (fun p => goesDown (key p)) (b.buffer.z.toNat + 1)
          best.above).map fun p => (p, decide (key best.above - x > farAwayDistance))).bind fun r =>
        if r.1.bytepos ≥ r.1.charpos then some (b.keep r.1 r.2, value r.1) else none

variable (firstp : UInt8 → Bool)

def charbposToBytebposFunc (b : MuleBuffer) (x : ℤ) : Option (MuleBuffer × ℤ) :=
  b.convert firstp BothPos.charpos BothPos.bytepos (· ≠ x) (· ≠ x) x

def bytebposToCharbposFunc (b : MuleBuffer) (x : ℤ) : Option (MuleBuffer × ℤ) :=
  b.convert firstp BothPos.bytepos BothPos.charpos (· < x) (· > x) x

def charbposToBytebpos (b : MuleBuffer) (x : ℤ) : Option (MuleBuffer × ℤ) :=
  if b.entirelyOneByteP then some (b, x) else b.charbposToBytebposFunc firstp x

def bytebposToCharbpos (b : MuleBuffer) (x : ℤ) : Option (MuleBuffer × ℤ) :=
  if b.entirelyOneByteP then some (b, x) else b.bytebposToCharbposFunc firstp x

def mapKept (b : MuleBuffer) (f : BothPos → BothPos) : MuleBuffer :=
  { b with muleCache := b.muleCache.map f, cached := f b.cached }

/-- `buffer_mule_signal_inserted_region`. -/
def signalInsertedRegion (b : MuleBuffer) (start bytelength charlength : ℤ) : MuleBuffer :=
  b.mapKept fun p => if p.charpos > start then ⟨p.charpos + charlength, p.bytepos + bytelength⟩ else p

/-- `buffer_mule_signal_deleted_region`. -/
def signalDeletedRegion (b : MuleBuffer) (start stop byteStart byteEnd : ℤ) : MuleBuffer :=
  b.mapKept fun p =>
    if p.charpos > stop then ⟨p.charpos - (stop - start), p.bytepos - (byteEnd - byteStart)⟩
    else if p.charpos > start then ⟨start, byteStart⟩
    else p

/-- The flag is computed anew after each edit. -/
def setEntirelyOneByteP (b : MuleBuffer) : MuleBuffer :=
  { b with entirelyOneByteP := b.buffer.bufz = b.buffer.z }

def setBuffer (b : MuleBuffer) (buffer : Buffer) : MuleBuffer := { b with buffer := buffer }

variable (rep : UInt8 → ℕ)

/-- `BYTE_BUF_SET_PT` of the end of the new text, where point is to move. -/
def movePointAfter (b : MuleBuffer) (bytepos : ℤ) (movePoint : Bool) : Option MuleBuffer :=
  if movePoint then
    (b.bytebposToCharbpos firstp bytepos).map fun r => r.1.setBuffer (r.1.buffer.setBufferPoint r.2 bytepos)
  else some b

def bufferInsertString1 (b : MuleBuffer) (pos : ℤ) (str : List UInt8) (beforeMarkers : Bool) : Option MuleBuffer :=
  let movePoint : Bool := pos = -1
  let pos := if pos = -1 then b.buffer.bufpt else pos
  let pos := b.buffer.clipPos pos
  (b.charbposToBytebpos firstp pos).bind fun r =>
    let bytepos := r.2
    let cclen : ℤ := bytecountToCharcount rep str
    if mostPositiveFixnum - 1 - r.1.buffer.bufz < cclen then none
    else
      (r.1.buffer.makeRoom rep pos bytepos str.length).bind fun buffer =>
        let b := (r.1.setBuffer (buffer.insertAtGap bytepos str cclen)).signalInsertedRegion pos str.length cclen
        (b.setEntirelyOneByteP.movePointAfter firstp (bytepos + str.length) movePoint).map fun b =>
          if beforeMarkers then b.setBuffer (b.buffer.adjustMarkers (bytepos - 1) bytepos str.length) else b

def bufferDeleteRange (b : MuleBuffer) (start stop : ℤ) : Option MuleBuffer :=
  let start := if start < b.buffer.bufbegv then b.buffer.bufbegv else start
  let stop := if stop > b.buffer.bufzv then b.buffer.bufzv else stop
  if stop - start ≤ 0 then some b
  else
    (b.charbposToBytebpos firstp start).bind fun r => (r.1.charbposToBytebpos firstp stop).map fun r' =>
      let byteFrom := r.2
      let byteTo := r'.2
      let buffer := r'.1.buffer
      let buffer :=
        if buffer.deletesFromBottom stop byteFrom then buffer.deleteAtGap start stop byteFrom byteTo false
        else (buffer.moveGapNextTo rep start stop byteFrom byteTo).deleteAtGap start stop byteFrom byteTo true
      ((r'.1.setBuffer buffer).signalDeletedRegion start stop byteFrom byteTo).setEntirelyOneByteP

/-- `BUF_SET_PT`. -/
def setPoint (b : MuleBuffer) (pos : ℤ) : Option MuleBuffer :=
  (b.charbposToBytebpos firstp pos).map fun r => r.1.setBuffer (r.1.buffer.setBufferPoint pos r.2)

/-- `Fnarrow_to_region`, for positions in order. -/
def narrowToRegion (b : MuleBuffer) (start stop : ℤ) : Option MuleBuffer :=
  (b.charbposToBytebpos firstp start).bind fun r => (r.1.charbposToBytebpos firstp stop).bind fun r' =>
    let buffer := { r'.1.buffer with bufbegv := start, begv := r.2, bufzv := stop, zv := r'.2 }
    let b := r'.1.setBuffer buffer
    (if b.buffer.bufpt < start then b.setPoint firstp start else some b).bind fun b =>
      if b.buffer.bufpt > stop then b.setPoint firstp stop else some b

/-- `move_gap`, to the end. -/
def moveGap (b : MuleBuffer) (pos : ℤ) : Option MuleBuffer :=
  (b.charbposToBytebpos firstp pos).map fun r =>
    r.1.setBuffer (r.1.buffer.moveGap rep Buffer.inhibitQuit pos r.2)

/-- `init_buffer_text`. -/
def init (mem : ℤ → UInt8) : MuleBuffer := ⟨Buffer.init mem, [], ⟨1, 1⟩, true⟩

end MuleBuffer

/-- What is done to a buffer: edits, conversions, and what moves the places that are known. -/
inductive MuleEvent (rep : UInt8 → ℕ)
  | insert (pos : ℤ) (str : List (Ichar rep)) (beforeMarkers : Bool)
  | delete (start stop : ℤ)
  | setPoint (pos : ℤ)
  | narrow (start stop : ℤ)
  | moveGap (pos : ℤ)
  | charbposToBytebpos (x : ℤ)
  | bytebposToCharbpos (x : ℤ)

namespace MuleBuffer

variable {rep : UInt8 → ℕ} (firstp : UInt8 → Bool)

/-- `ASSERT_VALID_BYTEBPOS_UNSAFE`. -/
def validBytebposP (b : MuleBuffer) (x : ℤ) : Bool :=
  1 ≤ x ∧ x ≤ b.buffer.z ∧ (x = b.buffer.z ∨ firstp (b.buffer.byteAt x) = true)

/-- One event; undefined where its arguments are not what the code asserts or its callers
promise, and where the buffer would get too large. -/
def step (b : MuleBuffer) : MuleEvent rep → Option MuleBuffer
  | .insert pos str beforeMarkers =>
    if ∀ c ∈ str, c.Valid firstp then b.bufferInsertString1 firstp rep pos (itextBytes str) beforeMarkers
    else none
  | .delete start stop => b.bufferDeleteRange firstp rep start stop
  | .setPoint pos =>
    if b.buffer.bufbegv ≤ pos ∧ pos ≤ b.buffer.bufzv then b.setPoint firstp pos else none
  | .narrow start stop =>
    if 1 ≤ start ∧ start ≤ stop ∧ stop ≤ b.buffer.bufz then b.narrowToRegion firstp start stop else none
  | .moveGap pos => if 1 ≤ pos ∧ pos ≤ b.buffer.bufz then b.moveGap firstp rep pos else none
  | .charbposToBytebpos x =>
    if 1 ≤ x ∧ x ≤ b.buffer.bufz then (b.charbposToBytebpos firstp x).map (·.1) else none
  | .bytebposToCharbpos x =>
    if b.validBytebposP firstp x then (b.bytebposToCharbpos firstp x).map (·.1) else none

end MuleBuffer

end XEmacs.Text
