import XEmacs.Lib.Transition
import XEmacs.Text.BytePositions

/-! Output on an lstream, in lstream.c. What the writer of the stream accepts is up to the
writer; it is remembered in the state, call by call. There are no errors, so that no function
returns -1; a flusher, and signalling what is wrong with the stream itself, are left out. The
bytes of `out_buffer` from `out_buffer_ind` on are left out too. What reads outside of a block,
or fails an assertion, is undefined. -/

namespace XEmacs.Stream

open Lib Text

inductive LstreamBuffering
  | unbuffered
  | blockBuffered
  | blocknBuffered
  | lineBuffered
  | unlimited
  deriving DecidableEq

/-- The writer of a stream: how many bytes it accepts of a block, in each of its calls. -/
structure Writer where
  accepts : ℕ → List UInt8 → ℕ
  accepts_le : ∀ n block, accepts n block ≤ block.length

/-- The output side of a `struct lstream`. -/
structure Lstream where
  buffering : LstreamBuffering
  bufferingSize : ℤ
  /-- up to `out_buffer_ind` -/
  outBuffer : List UInt8
  outBufferSize : ℕ
  byteCount : ℕ
  /-- `LSTR_NO_PARTIAL_CHARS` -/
  noPartialChars : Bool
  /-- `LSTR_NO_SQUIRREL` -/
  noSquirrel : Bool
  /-- the calls of the writer: the block, and how many of its bytes were accepted -/
  calls : List (List UInt8 × ℕ)

/-- `INT_MAX`. -/
def intMax : ℤ := 2 ^ 31 - 1

def defaultBlockBufferingSize : ℤ := 512

/-- `DO_REALLOC`, the loop, in at most `fuel` steps. -/
def growSize (needed : ℕ) : ℕ → ℕ → ℕ
  | 0, size => size
  | fuel + 1, size => if size < needed then growSize needed fuel (2 * size) else size

def doRealloc (size needed : ℕ) : ℕ :=
  if size < needed then growSize needed needed (if size < 32 then 32 else size) else size

section Chars

variable (rep : UInt8 → ℕ) (firstp : UInt8 → Bool)

def validateIbyteptrBackward (data : List UInt8) : ℕ → Option ℕ
  | 0 => if firstp (data.getD 0 0) then some 0 else none
  | i + 1 => if firstp (data.getD (i + 1) 0) then some (i + 1) else validateIbyteptrBackward data i

/-- How many of the `size` bytes of `data` from `off` on are to be written, so that there is no
partial character at the end. -/
def chopPartialChar (data : List UInt8) (off size : ℕ) : Option ℕ :=
  if data.getD (off + size - 1) 0 < 0x80 then some size
  else
    (validateIbyteptrBackward firstp data (off + size - 1)).bind fun dataend =>
      if dataend + rep (data.getD dataend 0) ≠ off + size then
        if off ≤ dataend then some (dataend - off) else none
      else some size

end Chars

namespace Lstream

/-- `Lstream_set_buffering`. -/
def setBuffering (lstr : Lstream) (buffering : LstreamBuffering) (bufferingSize : ℤ) : Lstream :=
  { lstr with
    buffering := buffering
    bufferingSize :=
      match buffering with
      | .unbuffered => 0
      | .blockBuffered => defaultBlockBufferingSize
      | .blocknBuffered => bufferingSize
      | .lineBuffered | .unlimited => intMax }

/-- `Lstream_new`, and the buffering that the maker of the stream gives it. -/
def new (noPartialChars noSquirrel : Bool) (buffering : LstreamBuffering) (bufferingSize : ℤ) : Lstream :=
  setBuffering ⟨.blockBuffered, defaultBlockBufferingSize, [], 0, 0, noPartialChars, noSquirrel, []⟩
    buffering bufferingSize

def accepted (lstr : Lstream) : List UInt8 := lstr.calls.flatMap fun call => call.1.take call.2

section Write

variable (rep : UInt8 → ℕ) (firstp : UInt8 → Bool) (w : Writer)

/-- The loop of `Lstream_really_write`, over the `size` bytes of `data` from `off` on, in at
most `fuel` steps; the result says how far it got. -/
def reallyWriteLoop (data : List UInt8) : ℕ → ℕ → ℕ → Lstream → Option (Lstream × ℕ)
  | 0, _, _, _ => none
  | fuel + 1, off, size, lstr =>
    if size = 0 then some (lstr, off)
    else
      (if lstr.noPartialChars then chopPartialChar rep firstp data off size else some size).bind fun size =>
        if size = 0 then some (lstr, off)
        else
          let block := (data.drop off).take size
          let numWritten := w.accepts lstr.calls.length block
          let lstr := { lstr with calls := lstr.calls ++ [(block, numWritten)] }
          if numWritten = 0 then some (lstr, off)
          else reallyWriteLoop data fuel (off + numWritten) (size - numWritten) lstr

/-- `Lstream_really_write`; the size of what is to be written is an `int`. -/
def reallyWrite (lstr : Lstream) (data : List UInt8) : Option (Lstream × ℕ) :=
  reallyWriteLoop rep firstp w data (data.length + 1) 0 (toInt data.length).toNat lstr

/-- `Lstream_flush_out`. -/
def flushOut (lstr : Lstream) : Option Lstream :=
  (lstr.reallyWrite rep firstp w lstr.outBuffer).map fun r =>
    if r.2 = lstr.outBuffer.length then { r.1 with outBuffer := [] }
    else if r.2 > 0 then { r.1 with outBuffer := r.1.outBuffer.drop r.2 }
    else r.1

/-- `Lstream_adding`. -/
def adding (lstr : Lstream) (num : ℕ) (force : Bool) : Lstream × ℕ :=
  let size := num + lstr.outBuffer.length
  if size ≤ lstr.outBufferSize then (lstr, num)
  else if (size : ℤ) > lstr.bufferingSize ∧ ¬ force then
    if lstr.bufferingSize ≤ lstr.outBuffer.length then (lstr, 0)
    else
      let size := lstr.bufferingSize.toNat
      ({ lstr with outBufferSize := doRealloc lstr.outBufferSize size }, size - lstr.outBuffer.length)
  else ({ lstr with outBufferSize := doRealloc lstr.outBufferSize size }, num)

/-- The copy of `data` to the end of `out_buffer`. -/
def append (lstr : Lstream) (data : List UInt8) : Lstream := { lstr with outBuffer := lstr.outBuffer ++ data }

/-- `Lstream_write_1` of an unbuffered stream. -/
def writeUnbuffered (lstr : Lstream) (data : List UInt8) : Option (Lstream × ℕ) :=
  (if lstr.outBuffer.length > 0 then lstr.flushOut rep firstp w else some lstr).bind fun lstr =>
    (if lstr.outBuffer.length = 0 then lstr.reallyWrite rep firstp w data else some (lstr, 0)).map fun r =>
      let r :=
        if ¬ r.1.noSquirrel ∧ r.2 < data.length then
          (((r.1.adding (data.length - r.2) true).1.append (data.drop r.2)), data.length)
        else r
      ({ r.1 with byteCount := r.1.byteCount + r.2 }, r.2)

/-- The loop of `Lstream_write_1`, with `off` bytes of `data` done, in at most `fuel` steps. -/
def writeBuffered (data : List UInt8) : ℕ → ℕ → Bool → Lstream → Option (Lstream × ℕ)
  | 0, _, _, _ => none
  | fuel + 1, off, couldntWriteLastTime, lstr =>
    let size := data.length - off
    let r := lstr.adding size false
    let refused := r.2 = 0 ∧ couldntWriteLastTime
    let couldntWriteLastTime : Bool := r.2 = 0 ∨ couldntWriteLastTime
    -- the writer is refusing to accept any data
    let r := if refused then r.1.adding size true else r
    let chunk := r.2
    let lstr := { r.1.append ((data.drop off).take chunk) with byteCount := r.1.byteCount + chunk }
    if size - chunk > 0 then
      (lstr.flushOut rep firstp w).bind (writeBuffered data fuel (off + chunk) couldntWriteLastTime)
    else some (lstr, off + chunk)

/-- `Lstream_write_1`. -/
def write1 (lstr : Lstream) (data : List UInt8) : Option (Lstream × ℕ) :=
  if lstr.buffering = .unbuffered then lstr.writeUnbuffered rep firstp w data
  else writeBuffered rep firstp w data (data.length + 2) 0 false lstr

/-- `Lstream_fputc`. -/
def fputc (lstr : Lstream) (ch : UInt8) : Option Lstream :=
  (lstr.write1 rep firstp w [ch]).bind fun r =>
    if r.1.buffering = .lineBuffered ∧ ch = 10 then r.1.flushOut rep firstp w else some r.1

/-- `Lstream_putc`. -/
def putc (lstr : Lstream) (ch : UInt8) : Option Lstream :=
  if lstr.outBuffer.length ≥ lstr.outBufferSize then lstr.fputc rep firstp w ch
  else
    let lstr := { lstr.append [ch] with byteCount := lstr.byteCount + 1 }
    if lstr.buffering = .lineBuffered ∧ ch = 10 then lstr.flushOut rep firstp w else some lstr

/-- The loop of `Lstream_write`. -/
def putAll : List UInt8 → Lstream → Option Lstream
  | [], lstr => some lstr
  | ch :: data, lstr => (lstr.putc rep firstp w ch).bind (putAll data)

/-- `Lstream_write`; the result of `Lstream_write_1` is an `int`. -/
def write (lstr : Lstream) (data : List UInt8) : Option (Lstream × ℤ) :=
  if data.length = 0 then some (lstr, 0)
  else if lstr.buffering ≠ .lineBuffered then
    (lstr.write1 rep firstp w data).map fun r => (r.1, toInt r.2)
  else (lstr.putAll rep firstp w data).map (·, (data.length : ℤ))

end Write

end Lstream

/-- A call on the stream. -/
inductive LstreamOp
  | write (data : List UInt8)
  | flushOut

/-- A stream, and the bytes that the calls on it have reported as written. -/
structure Output where
  lstr : Lstream
  reported : List UInt8

def Output.step (rep : UInt8 → ℕ) (firstp : UInt8 → Bool) (w : Writer) (x : Output) : LstreamOp → Option Output
  | .write data => (x.lstr.write rep firstp w data).map fun r => ⟨r.1, x.reported ++ data.take r.2.toNat⟩
  | .flushOut => (x.lstr.flushOut rep firstp w).map (⟨·, x.reported⟩)

end XEmacs.Stream
