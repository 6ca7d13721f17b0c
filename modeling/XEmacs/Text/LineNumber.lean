import XEmacs.Text.EditedText

/-! Line numbers, as line-number.c counts them with the help of a cache: up to eight
positions, kept as the starts of zero-length extents, with the number of newlines before
them, and the number of newlines before the accessible region. The start of an extent is a
byte position here, since extents are adjusted to stay where they are when the gap moves. -/

namespace XEmacs.Text

def lineNumberRingSize : ℕ := 8

def lineNumberFar : ℤ := 2730

def lineNumberLargeString : ℤ := 256

def newline : UInt8 := 10

def byteAt (bytes : List UInt8) (pos : ℤ) : UInt8 := bytes.getD (pos - 1).toNat 0

/-- The forward loop of `byte_scan_buffer`, for at most `fuel` bytes. -/
def scanForward (bytes : List UInt8) (target : UInt8) : ℕ → ℤ → ℤ → ℤ × ℤ
  | 0, st, count => (st, count)
  | fuel + 1, st, count =>
    if count > 0 then
      scanForward bytes target fuel (st + 1) (if byteAt bytes st = target then count - 1 else count)
    else (st, count)

/-- The backward loop of `byte_scan_buffer`. -/
def scanBackward (bytes : List UInt8) (target : UInt8) : ℕ → ℤ → ℤ → ℤ × ℤ
  | 0, st, count => (st, count)
  | fuel + 1, st, count =>
    if count < 0 then
      scanBackward bytes target fuel (st - 1) (if byteAt bytes (st - 1) = target then count + 1 else count)
    else (st, count)

/-- `byte_scan_buffer` for an ASCII character: a position and the shortage. -/
def byteScanBuffer (bytes : List UInt8) (target : UInt8) (st lim count : ℤ) : ℤ × ℤ :=
  if count > 0 then scanForward bytes target (lim - st).toNat st count
  else
    let r := scanBackward bytes target (st - lim).toNat st count
    (if r.2 ≠ 0 then r.1 else r.1 + 1, -r.2)

/-- A RING-PAIR; the start of a detached extent is negative. -/
structure RingPair where
  start : ℤ
  line : ℤ
  deriving DecidableEq

/-- An INITIALIZED-CACHE: the ring up to its first nil, and the line of the beginning of the
accessible region, -1 if it is not known. -/
structure LineNumberCache where
  ring : List RingPair
  begv : ℤ
  length_le : ring.length ≤ lineNumberRingSize
  deriving DecidableEq

namespace LineNumberCache

/-- `narrow_line_number_cache`. -/
def narrow (c : LineNumberCache) (begv : ℤ) : LineNumberCache :=
  { c with begv := if begv = 1 then 0 else -1 }

/-- `allocate_line_number_cache`. -/
def allocate (begv : ℤ) : LineNumberCache := narrow ⟨[], 0, by simp⟩ begv

/-- `invalidate_line_number_cache`: the pairs left are moved up. -/
def invalidate (c : LineNumberCache) (pos : ℤ) : LineNumberCache where
  ring := c.ring.filter fun pair => ¬ pair.start ≥ pos
  begv := c.begv
  length_le := (List.length_filter_le _ _).trans c.length_le

/-- The ring with other pairs in the places of the old ones. -/
def mapRing (c : LineNumberCache) (f : RingPair → RingPair) : LineNumberCache where
  ring := c.ring.map f
  begv := c.begv
  length_le := (List.length_map f).trans_le c.length_le

/-- `insert_adjust_line_number_cache`. -/
def insertAdjust (c : LineNumberCache) (pos : ℤ) (str : List UInt8) : LineNumberCache :=
  if str.length > lineNumberLargeString then c.invalidate pos
  else
    match str.dropWhile (· ≠ newline) with
    | [] => c
    | _ :: rest =>
      if newline ∈ rest then c.invalidate pos
      else c.mapRing fun pair => if pair.start > pos then { pair with line := pair.line + 1 } else pair

/-- `delete_invalidate_line_number_cache`. -/
def deleteInvalidate (c : LineNumberCache) (bytes : List UInt8) (start stop : ℤ) : LineNumberCache :=
  if stop - start > lineNumberLargeString then c.invalidate start
  else if (byteScanBuffer bytes newline start stop 1).2 = 0 then c.invalidate start
  else c

/-- The zero-length extents after an insertion of `length` bytes: one at the insertion point
is closed-open, and stays in front of the new text. -/
def moveForInsertion (c : LineNumberCache) (pos length : ℤ) : LineNumberCache :=
  c.mapRing fun pair => if pair.start > pos then { pair with start := pair.start + length } else pair

/-- The extents after a deletion: one in the region, its ends included, is detached. -/
def moveForDeletion (c : LineNumberCache) (start stop : ℤ) : LineNumberCache :=
  c.mapRing fun pair =>
    if start ≤ pair.start ∧ pair.start ≤ stop then { pair with start := -1 }
    else if pair.start > stop then { pair with start := pair.start - (stop - start) }
    else pair

/-- The loop of `get_nearest_line_number`; `length` is how far `beg` is from `pos`. -/
def nearest (pos : ℤ) : List RingPair → ℤ → ℤ → ℤ → ℤ × ℤ
  | [], _, beg, line => (beg, line)
  | pair :: ring, length, beg, line =>
    if pair.start < 0 then nearest pos ring length beg line
    else
      let howfar := |pair.start - pos|
      if howfar < length then nearest pos ring howfar pair.start pair.line
      else nearest pos ring length beg line

def getNearestLineNumber (c : LineNumberCache) (beg pos line : ℤ) : ℤ × ℤ :=
  nearest pos c.ring |pos - beg| beg line

/-- `add_position_to_cache`: the last pair of a full ring goes, and its extent is used again. -/
def addPosition (c : LineNumberCache) (pos line : ℤ) : LineNumberCache where
  ring := (⟨pos, line⟩ :: c.ring).take lineNumberRingSize
  begv := c.begv
  length_le := List.length_take_le _ _

end LineNumberCache

/-- The newlines between two positions, negative from right to left. -/
def countNewlines (bytes : List UInt8) (beg pos : ℤ) : ℤ :=
  let shortage :=
    (byteScanBuffer bytes newline beg pos (if pos > beg then mostPositiveFixnum else -mostPositiveFixnum)).2
  let line := mostPositiveFixnum - shortage
  if beg > pos then -line else line

/-- Whether `buffer_line_number` uses the cache. -/
def usesCache (begv beg pos : ℤ) (cachep respectNarrowing : Bool) : Prop :=
  ¬ |pos - beg| ≤ lineNumberFar ∧ cachep = true ∧ (respectNarrowing = true ∨ begv = 1)

instance (begv beg pos : ℤ) (cachep respectNarrowing : Bool) :
    Decidable (usesCache begv beg pos cachep respectNarrowing) := inferInstanceAs (Decidable (_ ∧ _))

/-- `buffer_line_number` with a cache that knows the line of the accessible region. -/
def lineNumberFrom (bytes : List UInt8) (begv : ℤ) (c : LineNumberCache) (pos : ℤ)
    (cachep respectNarrowing : Bool) : ℤ × LineNumberCache :=
  let beg := if respectNarrowing then begv else 1
  if usesCache begv beg pos cachep respectNarrowing then
    let near := c.getNearestLineNumber beg pos c.begv
    let line := countNewlines bytes near.1 pos + near.2
    let c' := if |pos - near.1| > lineNumberFar then c.addPosition pos line else c
    (line - c.begv, c')
  else (countNewlines bytes beg pos, c)

def LineNumberCache.known (bytes : List UInt8) (begv : ℤ) (c : LineNumberCache) : LineNumberCache :=
  if c.begv = -1 then
    let r := lineNumberFrom bytes begv { c with begv := 0 } begv true false
    { r.2 with begv := r.1 }
  else c

def bufferLineNumber (bytes : List UInt8) (begv : ℤ) (cache : Option LineNumberCache) (pos : ℤ)
    (cachep respectNarrowing : Bool) : ℤ × Option LineNumberCache :=
  let beg := if respectNarrowing then begv else 1
  if usesCache begv beg pos cachep respectNarrowing then
    let c := cache.getD (.allocate begv)
    let c :=
      if c.begv = -1 then
        let r := lineNumberFrom bytes begv { c with begv := 0 } begv true false
        { r.2 with begv := r.1 }
      else c
    let r := lineNumberFrom bytes begv c pos cachep respectNarrowing
    (r.1, some r.2)
  else (countNewlines bytes beg pos, cache)

/-- A text with `line_number_cache`. -/
structure LineBuffer (rep : UInt8 → ℕ) where
  text : EditedText rep
  cache : Option LineNumberCache
  small : (itextBytes text.chars).length < mostPositiveFixnum

/-- An operation on the buffer, or a call of `buffer_line_number` for a character position. -/
inductive LineEvent (rep : UInt8 → ℕ)
  | edit (op : BufferOp rep)
  | lineNumber (pos : ℤ) (cachep respectNarrowing : Bool)

namespace LineBuffer

variable {rep : UInt8 → ℕ}

def bytes (b : LineBuffer rep) : List UInt8 := itextBytes b.text.chars

/-- `BYTE_BUF_BEGV`. -/
def byteBegv (b : LineBuffer rep) : ℤ := bytePos b.text.chars b.text.begv

/-- What `buffer_insert_string_1` does to the cache. -/
def insertCache (t : EditedText rep) (cache : Option LineNumberCache) (pos : ℤ) (str : List (Ichar rep)) :
    Option LineNumberCache :=
  let bytepos := bytePos t.chars (t.clipPos (if pos = -1 then t.pt else pos))
  cache.map fun c => (c.insertAdjust bytepos (itextBytes str)).moveForInsertion bytepos (itextBytes str).length

/-- What `buffer_delete_range` does to the cache. -/
def deleteCache (t : EditedText rep) (cache : Option LineNumberCache) (start stop : ℤ) :
    Option LineNumberCache :=
  let start := if start < t.begv then t.begv else start
  let stop := if stop > t.zv then t.zv else stop
  if stop - start ≤ 0 then cache
  else
    let byteFrom := bytePos t.chars start
    let byteTo := bytePos t.chars stop
    cache.map fun c =>
      (c.deleteInvalidate (itextBytes t.chars) byteFrom byteTo).moveForDeletion byteFrom byteTo

/-- What `buffer_replace_char` does to the cache: nothing, if the character is overwritten. -/
def replaceCache (t : EditedText rep) (cache : Option LineNumberCache) (pos : ℤ) (ch : Ichar rep) :
    Option LineNumberCache :=
  if ch.bytes.length = t.charLenAt pos then cache
  else
    let d := t.delete pos (pos + 1)
    let p := if pos ≥ d.zv then d.zv - 1 else pos
    let cache := deleteCache t cache pos (pos + 1)
    if p < d.begv then cache else insertCache d cache (if pos = t.pt - 1 then -1 else p) [ch]

def editCache (t : EditedText rep) (cache : Option LineNumberCache) : BufferOp rep → Option LineNumberCache
  | .insert pos str _ => insertCache t cache pos str
  | .delete start stop => deleteCache t cache start stop
  | .replace pos ch => replaceCache t cache pos ch
  | .narrow start _ => cache.map (·.narrow (bytePos t.chars start))
  | _ => cache

def step (b : LineBuffer rep) : LineEvent rep → Option (LineBuffer rep)
  | .edit op =>
    (b.text.stepAsCoded op).bind fun text =>
      if h : (itextBytes text.chars).length < mostPositiveFixnum then some ⟨text, editCache b.text b.cache op, h⟩
      else none
  | .lineNumber pos cachep respectNarrowing =>
    if 1 ≤ pos ∧ pos ≤ b.text.z then
      let bytepos := bytePos b.text.chars pos
      some { b with cache := (bufferLineNumber b.bytes b.byteBegv b.cache bytepos cachep respectNarrowing).2 }
    else none

end LineBuffer

end XEmacs.Text
