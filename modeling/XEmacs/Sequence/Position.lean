import XEmacs.Sequence.SearchExact

/-! `position` and `find`, with any bounds. What `search` uses of `position` is in the module on `search`; here
an element is found together with its index, and the storage for a search from the end is what was stored in
it: the test may be given what no element was stored in. There is memory for any storage but one of a negative
size, which is a huge one to `alloca_array`. -/

namespace XEmacs.Sequences

variable {Obj : Type} {L : Objects Obj}

/-- How a call may end without a value. -/
inductive Fault
  | signal (e : Error)
  /-- `memory_full` -/
  | memoryFull
  /-- The test is applied to storage that no element was stored in. -/
  | notAnElement
  deriving DecidableEq

def signals {α : Type} (value : Except Error α) : Except Fault α :=
  value.mapError Fault.signal

/-- `alloca_array` -/
def allocaArray (n : ℤ) : Except Fault Unit :=
  if 0 ≤ n then .ok () else .error .memoryFull

/-- Characters as objects: `CHARP` with `XCHAR`. -/
structure Characters (L : Objects Obj) where
  xchar : Obj → Option ℕ
  xchar_eq_some {o : Obj} {c : ℕ} : xchar o = some c ↔ o = L.makeChar c

/-- A test for an item, with the knowledge that it is `check_eq_nokey`. -/
structure ItemTest (Obj : Type) extends Test Obj where
  eqNokey : Bool
  eq_of_eqNokey : eqNokey = true → ∀ item elt, toTest.checkTest item elt = true ↔ item = elt

section

variable (pointer : ℕ → ℤ)

variable (L) in
/-- `XFIXNUM`; of a bignum it is what its pointer reads as. -/
def Objects.xfixnum (n : ℕ) : ℤ :=
  if n ≤ L.mostPositiveFixnum then n else pointer n

variable (L) in
/-- The end as `position` has it. -/
def Objects.endingOf : Option ℕ → ℤ
  | none => L.mostPositiveFixnum
  | some e => L.elemcount e

variable (L) in
/-- The end as `list_position_cons_before` has it. -/
def Objects.endingInList : Option ℕ → ℤ
  | none => L.mostPositiveFixnum
  | some e => L.xfixnum pointer e

def withElement (elements : List Obj) (ii : ℤ) : Option (ℤ × Obj) :=
  elements[ii.toNat]?.map fun elt => (ii, elt)

/-- `list_position_cons_before`, with the element after the cons that it stores. -/
def listPosition (T : Test Obj) (item : Obj) (list : List Obj) (start : ℕ) (ending : Option ℕ) :
    Except Fault (Option (ℤ × Obj)) := do
  let last := L.endingInList pointer ending
  match listPositionLoop T item start last list 0 with
  | (some ii, _) => return withElement list ii
  | (none, ii) =>
    if ii < start ∨ ii < last ∧ ending.isSome then signals (checkSequenceRange start ending ii)
    return none

/-- The loop over a string for `check_eq_nokey` and a character. -/
def characterPositionLoop (citem : ℕ) (testNotUnboundp : Bool) (starting ending : ℤ) :
    List ℕ → ℤ → Option ℤ × ℤ
  | [], ii => (none, ii)
  | c :: cursor, ii =>
    if ii < ending then
      if ii ≥ starting ∧ (c == citem) = testNotUnboundp then (some ii, ii)
      else characterPositionLoop citem testNotUnboundp starting ending cursor (ii + 1)
    else (none, ii)

/-- The loops from the end, over the storage of `n` elements. -/
def storagePositionLoop (T : Test Obj) (item : Obj) (storage : List Obj) (starting : ℤ) :
    ℕ → Except Fault (Option (ℤ × Obj))
  | 0 => .ok none
  | n + 1 =>
    match storage[n]? with
    | none => .error .notAnElement
    | some elt =>
      if T.checkTest item elt = T.testNotUnboundp then .ok (some (starting + n, elt))
      else storagePositionLoop T item storage starting n

/-- The character of the fast loop over a string, when it is taken. -/
def ItemTest.fastCharacter (X : Characters L) (T : ItemTest Obj) (item : Obj) : Option ℕ :=
  if T.eqNokey then X.xchar item else none

/-- `position` over a list from the end. -/
def listPositionFromEnd (T : Test Obj) (item : Obj) (sequence : Sequence L) (start : ℕ) (ending : Option ℕ) :
    Except Fault (Option (ℤ × Obj)) := do
  let starting := L.elemcount start
  let last := if L.mostPositiveFixnum = L.endingOf ending then sequence.length else L.endingOf ending
  allocaArray (last - starting)
  match ← storagePositionLoop T item (storage sequence starting last) starting (last - starting).toNat with
  | some found => return some found
  | none =>
    -- the loop has left `ii` below `starting`
    signals (checkSequenceRange start ending sequence.length)
    return none

def maxStringAsciiEnd : ℕ := 1048575

/-- `XSTRING_ASCII_END`, with no more than it has bits for. -/
def stringAsciiEnd (characters : List ℕ) : ℕ := min (asciiEnd characters) maxStringAsciiEnd

def checkAfter (sequence : Sequence L) (start : ℕ) (ending : Option ℕ) (ii : ℤ) : Except Fault Unit :=
  if ii < L.elemcount start ∨ ii < L.endingOf ending ∧ ending.isSome then
    signals (checkSequenceRange start ending sequence.length)
  else .ok ()

/-- `position` over a string from the start. -/
def stringPosition (X : Characters L) (T : ItemTest Obj) (item : Obj) (sequence : Sequence L)
    (characters : List ℕ) (start : ℕ) (ending : Option ℕ) : Except Fault (Option (ℤ × Obj)) :=
  let starting := L.elemcount start
  let last := L.endingOf ending
  let ii := min (stringAsciiEnd characters : ℤ) starting
  let cursor := characters.drop ii.toNat
  match T.fastCharacter X item with
  | some citem =>
    match characterPositionLoop citem T.testNotUnboundp starting last cursor ii with
    | (some ii, _) => .ok (some (ii, item))
    | (none, ii) => (checkAfter sequence start ending ii).map fun _ => none
  | none =>
    match stringPositionLoop L T.toTest item starting last cursor ii with
    | (some ii, _) => .ok (withElement sequence.elements ii)
    | (none, ii) => (checkAfter sequence start ending ii).map fun _ => none

/-- `position` over a string from the end. -/
def stringPositionFromEnd (T : Test Obj) (item : Obj) (sequence : Sequence L) (characters : List ℕ) (start : ℕ)
    (ending : Option ℕ) : Except Fault (Option (ℤ × Obj)) := do
  let starting := L.elemcount start
  let last := L.endingOf ending
  if ending.isSome then allocaArray (last - starting)
  let ii := max (min (stringAsciiEnd characters : ℤ) starting) (min (characters.length : ℤ) last)
  checkAfter sequence start ending ii
  let last := if ii = characters.length then ii else last
  storagePositionLoop T item (storage sequence starting last) starting (last - starting).toNat

/-- `position` over an array or nil. -/
def arrayPosition (T : Test Obj) (item : Obj) (sequence : Sequence L) (start : ℕ) (ending : Option ℕ)
    (fromEnd : Bool) : Except Fault (Option (ℤ × Obj)) := do
  signals (checkSequenceRange start ending sequence.length)
  let starting := L.elemcount start
  let last := min (L.endingOf ending) sequence.length
  let found ← signals (if fromEnd then positionFromEndLoop T item sequence.aref starting (last - starting).toNat
    else arrayPositionLoop T item sequence (last - starting).toNat starting)
  return found.bind (withElement sequence.elements)

/-- `position`, with the object that it stores at `object_out` when one is found. -/
def positionWithObject (X : Characters L) (T : ItemTest Obj) (item : Obj) (sequence : Sequence L) (start : ℕ)
    (ending : Option ℕ) (fromEnd : Bool) : Except Fault (Option (ℤ × Obj)) :=
  match sequence.contents with
  | .list (x :: list) =>
    if ¬ L.elemcount start < L.endingOf ending then
      (signals (checkSequenceRange start ending sequence.length)).map fun _ => none
    else if ¬ fromEnd then listPosition (L := L) pointer T.toTest item (x :: list) start ending
    else listPositionFromEnd T.toTest item sequence start ending
  | .string characters =>
    if ¬ fromEnd then stringPosition X T item sequence characters start ending
    else stringPositionFromEnd T.toTest item sequence characters start ending
  | _ => arrayPosition T.toTest item sequence start ending fromEnd

/-- `Fposition`; none is `nil`. -/
def fposition (X : Characters L) (T : ItemTest Obj) (item : Obj) (sequence : Sequence L) (start : ℕ)
    (ending : Option ℕ) (fromEnd : Bool) : Except Fault (Option ℤ) :=
  (positionWithObject pointer X T item sequence start ending fromEnd).map (Option.map Prod.fst)

def ffind (X : Characters L) (T : ItemTest Obj) (item : Obj) (sequence : Sequence L) (start : ℕ)
    (ending : Option ℕ) (fromEnd : Bool) (default_ : Obj) : Except Fault Obj :=
  (positionWithObject pointer X T item sequence start ending fromEnd).map fun found =>
    (found.map Prod.snd).getD default_

end

end XEmacs.Sequences
