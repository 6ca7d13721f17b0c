import XEmacs.Text.EditedText

/-! The undo list of a buffer: how undo.c records the insertions, deletions and
replacements of insdel.c, and how `primitive-undo` replays what it recorded. Entries for
extents are left out, and so are the read-only checks. -/

namespace XEmacs.Text

inductive UndoEntry (rep : UInt8 → ℕ)
  /-- `nil` -/
  | boundary
  /-- an integer: where point was -/
  | point (pos : ℤ)
  /-- `(t HIGH LOW)`: the buffer was unmodified, and the file had this time -/
  | unmodified (high low : ℤ)
  /-- `(BEG . END)` -/
  | inserted (start stop : ℤ)
  /-- `(STRING . POS)`; the position is negative if point was at the end of the text -/
  | deleted (str : List (Ichar rep)) (pos : ℤ)
  deriving DecidableEq

/-- `BUF_MODIFF` and `BUF_SAVE_MODIFF`: a buffer is not saved ahead of its changes. -/
structure Ticks where
  modiff : ℤ
  saveModiff : ℤ
  saveModiff_le : saveModiff ≤ modiff
  deriving DecidableEq

/-- A text with what undo.c looks at and records. -/
structure UndoBuffer (rep : UInt8 → ℕ) where
  text : EditedText rep
  /-- `undo_list`; none is `t`, while undo is disabled -/
  undoList : Option (List (UndoEntry rep))
  ticks : Ticks
  modtime : ℤ
  /-- `Vlast_undo_buffer` is this buffer -/
  lastUndoBuffer : Bool
  /-- `last_point_position`, if `Vlast_point_position_buffer` is this buffer -/
  lastPointPosition : Option ℤ
  deriving DecidableEq

/-- `make_time`; a shift by 16 bits rounds down, a division rounds toward zero. -/
def makeTime (tiempo : ℤ) : ℤ × ℤ :=
  (if tiempo < 0 then tiempo.tdiv 0x10000 else tiempo / 0x10000, tiempo % 0x10000)

/-- `lisp_to_time` of the list `(high low)`. -/
def lispToTime (high low : ℤ) : Option ℤ :=
  let result := high * 0x10000 + low % 0x10000
  if result / 0x10000 = high then some result else none

def bufTickArithcompare (val1 val2 : ℤ) : ℤ :=
  if val1 < val2 ∧ val2 - val1 < 2 ^ 62 - 1 then -1 else if val1 ≠ val2 then 1 else 0

namespace Ticks

def change (t : Ticks) : Ticks := ⟨t.modiff + 1, t.saveModiff, by have := t.saveModiff_le; omega⟩

/-- `Fset_buffer_modified_p` with nil. -/
def setUnmodified (t : Ticks) : Ticks := ⟨t.modiff + 1, t.modiff + 1, le_rfl⟩

def Modified (t : Ticks) : Prop := ¬ bufTickArithcompare t.modiff t.saveModiff ≤ 0

instance (t : Ticks) : Decidable t.Modified := inferInstanceAs (Decidable (¬ _))

end Ticks

variable {rep : UInt8 → ℕ}

def undoBoundary : List (UndoEntry rep) → List (UndoEntry rep)
  | [] => []
  | .boundary :: list => .boundary :: list
  | list => .boundary :: list

/-- The end of `record_insert`: an insertion where the newest one ends is combined with it. -/
def addInsertion (beg length : ℤ) : List (UndoEntry rep) → List (UndoEntry rep)
  | .inserted start stop :: list =>
    if stop = beg then .inserted start (beg + length) :: list
    else .inserted beg (beg + length) :: .inserted start stop :: list
  | list => .inserted beg (beg + length) :: list

/-- `Fbuffer_substring`. -/
def EditedText.substring (t : EditedText rep) (start stop : ℤ) : List (Ichar rep) :=
  (t.chars.drop (start - 1).toNat).take (stop - start).toNat

namespace UndoBuffer

/-- What `undo_prelude` makes of the undo list. -/
def undoPrelude (b : UndoBuffer rep) (list : List (UndoEntry rep)) : List (UndoEntry rep) :=
  let list := if b.lastUndoBuffer then list else undoBoundary list
  if bufTickArithcompare b.ticks.modiff b.ticks.saveModiff ≤ 0 then
    .unmodified (makeTime b.modtime).1 (makeTime b.modtime).2 :: list
  else list

def record (b : UndoBuffer rep) (push : List (UndoEntry rep) → List (UndoEntry rep)) : UndoBuffer rep :=
  match b.undoList with
  | none => b
  | some list => { b with undoList := some (push (b.undoPrelude list)), lastUndoBuffer := true }

def recordInsert (b : UndoBuffer rep) (beg length : ℤ) : UndoBuffer rep :=
  b.record (addInsertion beg length)

/-- The end of `record_delete`: right after a boundary it records where point was. -/
def addDeletion (b : UndoBuffer rep) (beg length : ℤ) (list : List (UndoEntry rep)) :
    List (UndoEntry rep) :=
  let sbeg := if b.text.pt = beg + length then -beg else beg
  let list :=
    match list.head?, b.lastPointPosition with
    | some .boundary, some pos => if pos ≠ sbeg then .point pos :: list else list
    | _, _ => list
  .deleted (b.text.substring beg (beg + length)) sbeg :: list

def recordDelete (b : UndoBuffer rep) (beg length : ℤ) : UndoBuffer rep :=
  b.record (b.addDeletion beg length)

def recordChange (b : UndoBuffer rep) (beg length : ℤ) : UndoBuffer rep :=
  (b.recordDelete beg length).recordInsert beg length

def changeText (b : UndoBuffer rep) (text : EditedText rep) : UndoBuffer rep :=
  { b with text := text, ticks := b.ticks.change }

def bufferInsertString1 (b : UndoBuffer rep) (pos : ℤ) (str : List (Ichar rep)) (beforeMarkers : Bool) :
    UndoBuffer rep :=
  let p := b.text.clipPos (if pos = -1 then b.text.pt else pos)
  (b.recordInsert p str.length).changeText (b.text.insert pos str beforeMarkers)

def bufferDeleteRange (b : UndoBuffer rep) (start stop : ℤ) : UndoBuffer rep :=
  let start := if start < b.text.begv then b.text.begv else start
  let stop := if stop > b.text.zv then b.text.zv else stop
  if stop - start ≤ 0 then b
  else (b.recordDelete start (stop - start)).changeText (b.text.deleteAt start stop)

/-- `buffer_replace_char`, for a position in the accessible region. -/
def bufferReplaceChar (b : UndoBuffer rep) (pos : ℤ) (ch : Ichar rep) : UndoBuffer rep :=
  if ch.bytes.length = b.text.charLenAt pos then
    (b.recordChange pos 1).changeText (b.text.overwrite pos ch)
  else
    let d := b.bufferDeleteRange pos (pos + 1)
    let p := if pos ≥ d.text.zv then d.text.zv - 1 else pos
    if p < d.text.begv then d
    else d.bufferInsertString1 (if pos = b.text.pt - 1 then -1 else p) [ch] false

/-- What happens to a buffer: an operation on it, or the command loop notes where point is. -/
inductive EditEvent (rep : UInt8 → ℕ)
  | op (op : BufferOp rep)
  | lastPoint (pos : Option ℤ)

def step (b : UndoBuffer rep) : EditEvent rep → Option (UndoBuffer rep)
  | .op (.insert pos str beforeMarkers) => some (b.bufferInsertString1 pos str beforeMarkers)
  | .op (.delete start stop) => some (b.bufferDeleteRange start stop)
  | .op (.replace pos ch) =>
    if b.text.begv ≤ pos ∧ pos < b.text.zv then some (b.bufferReplaceChar pos ch) else none
  | .op op => (b.text.stepAsCoded op).map fun text => { b with text := text }
  | .lastPoint pos => some { b with lastPointPosition := pos }

/-! Apart from the records, the text is edited as before. -/

def fundoBoundary (b : UndoBuffer rep) : UndoBuffer rep :=
  { b with undoList := b.undoList.map undoBoundary }

/-- `BUF_SET_PT`. -/
def setPt (b : UndoBuffer rep) (pos : ℤ) : UndoBuffer rep := { b with text := b.text.setPoint pos }

/-- `Fdelete_region`; no result where an argument is out of range. -/
def fdeleteRegion (b : UndoBuffer rep) (start stop : ℤ) : Option (UndoBuffer rep) :=
  if (b.text.begv ≤ start ∧ start ≤ b.text.zv) ∧ b.text.begv ≤ stop ∧ stop ≤ b.text.zv then
    some (b.bufferDeleteRange (min start stop) (max start stop))
  else none

/-- The inner loop of `Fprimitive_undo`, which ends at a boundary or at an entry with the time of
another save; none where an error is signalled. -/
def undoGroup : List (UndoEntry rep) → UndoBuffer rep → Option (UndoBuffer rep × List (UndoEntry rep))
  | [], b => some (b, [])
  | .boundary :: list, b => some (b, list)
  | .point pos :: list, b => undoGroup list (b.setPt (b.text.clipPos pos))
  | .unmodified high low :: list, b =>
    match lispToTime high low with
    | none => none
    | some modTime =>
      if modTime ≠ b.modtime then some (b, list)
      else undoGroup list { b with ticks := b.ticks.setUnmodified }
  | .inserted start stop :: list, b =>
    if start < b.text.begv ∨ stop > b.text.zv then none
    else ((b.setPt (b.text.clipPos start)).fdeleteRegion start stop).bind (undoGroup list)
  | .deleted str pos :: list, b =>
    if pos < 0 then
      if -pos < b.text.begv ∨ -pos > b.text.zv then none
      else undoGroup list ((b.setPt (-pos)).bufferInsertString1 (-1) str false)
    else
      if pos < b.text.begv ∨ pos > b.text.zv then none
      else undoGroup list (((b.setPt pos).bufferInsertString1 (-1) str false).setPt pos)

/-- `Fprimitive_undo`. -/
def primitiveUndo : ℕ → List (UndoEntry rep) → UndoBuffer rep →
    Option (UndoBuffer rep × List (UndoEntry rep))
  | 0, list, b => some (b, list)
  | count + 1, list, b => (undoGroup list b).bind fun r => primitiveUndo count r.2 r.1

end UndoBuffer

end XEmacs.Text
