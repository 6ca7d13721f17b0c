import XEmacs.Sequence.Mismatch

/-! `position` and `search`. The loop for `eq` alone, which compares characters in a string, is the general
one here, and a pure test leaves the sequences as they are. -/

namespace XEmacs.Sequences

variable {Obj : Type} {L : Objects Obj}

/-- `check_other_key` and its variants for known tests and without a key. -/
def Test.checkTest (T : Test Obj) (item elt : Obj) : Bool :=
  T.test item (T.key elt)

/-! ### `position` -/

/-- `list_position_cons_before`, the loop: the index of the item, if it is found, and the last one. -/
def listPositionLoop (T : Test Obj) (item : Obj) (starting ending : ℤ) : List Obj → ℤ → Option ℤ × ℤ
  | [], ii => (none, ii)
  | elt :: tail, ii =>
    if starting ≤ ii ∧ ii < ending ∧ T.checkTest item elt = T.testNotUnboundp then (some ii, ii)
    else if ii ≥ ending then (none, ii)
    else listPositionLoop T item starting ending tail (ii + 1)

def listPositionConsBefore (T : Test Obj) (item : Obj) (list : List Obj) (start : ℕ) (ending : Option ℕ) :
    Except Error (Option ℤ) := do
  let last : ℤ := match ending with
    | none => L.mostPositiveFixnum
    | some e => e
  match listPositionLoop T item start last list 0 with
  | (some ii, _) => return some ii
  | (none, ii) =>
    if ii < start ∨ ii < last ∧ ending.isSome then checkSequenceRange start ending ii
    return none

/-- The loop of `position` over a string. -/
def stringPositionLoop (L : Objects Obj) (T : Test Obj) (item : Obj) (starting ending : ℤ) :
    List ℕ → ℤ → Option ℤ × ℤ
  | [], ii => (none, ii)
  | c :: cursor, ii =>
    if ii < ending then
      if ii ≥ starting ∧ T.checkTest item (L.makeChar c) = T.testNotUnboundp then (some ii, ii)
      else stringPositionLoop L T item starting ending cursor (ii + 1)
    else (none, ii)

/-- The loop of `position` over an array, with `n` elements to go. -/
def arrayPositionLoop (T : Test Obj) (item : Obj) (sequence : Sequence L) : ℕ → ℤ → Except Error (Option ℤ)
  | 0, _ => .ok none
  | n + 1, ii => do
    let object ← sequence.aref ii
    if T.checkTest item object = T.testNotUnboundp then return some ii
    else arrayPositionLoop T item sequence n (ii + 1)

/-- The loops of `position` from the end; an element is taken from the storage or the array. -/
def positionFromEndLoop (T : Test Obj) (item : Obj) (element : ℤ → Except Error Obj) (starting : ℤ) :
    ℕ → Except Error (Option ℤ)
  | 0 => .ok none
  | n + 1 => do
    let object ← element (starting + n)
    if T.checkTest item object = T.testNotUnboundp then return some (starting + n)
    else positionFromEndLoop T item element starting n

/-- `storage[ii - starting]`. -/
def storageElement (stored : List Obj) (starting ii : ℤ) : Except Error Obj :=
  match stored[(ii - starting).toNat]? with
  | some x => .ok x
  | none => .error .argsOutOfRange

/-- `XSTRING_ASCII_END`. -/
def asciiEnd (characters : List ℕ) : ℕ := (characters.takeWhile fun c => c < 0x80).length

/-- `position`; none is `nil`. -/
def position (T : Test Obj) (item : Obj) (sequence : Sequence L) (start : ℕ) (ending : Option ℕ) (fromEnd : Bool) :
    Except Error (Option ℤ) := do
  let starting := L.elemcount start
  let last : ℤ := if ending.isSome then L.elemcountOrNil ending else L.mostPositiveFixnum
  match sequence.contents with
  | .list (x :: list) =>
    if ¬ starting < last then
      checkSequenceRange start ending sequence.length
      return none
    if ¬ fromEnd then listPositionConsBefore (L := L) T item (x :: list) start ending
    else
      let last := if L.mostPositiveFixnum = last then sequence.length else last
      match ← positionFromEndLoop T item (storageElement (storage sequence starting last) starting) starting
          (last - starting).toNat with
      | some ii => return some ii
      | none =>
        checkSequenceRange start ending sequence.length
        return none
  | .string characters =>
    let ii := min (asciiEnd characters : ℤ) starting
    if ¬ fromEnd then
      match stringPositionLoop L T item starting last (characters.drop ii.toNat) ii with
      | (some ii, _) => return some ii
      | (none, ii) =>
        if ii < starting ∨ ii < last ∧ ending.isSome then checkSequenceRange start ending sequence.length
        return none
    else
      let ii := min (characters.length : ℤ) last
      if ii < starting ∨ ii < last ∧ ending.isSome then checkSequenceRange start ending sequence.length
      let last := if ii = characters.length then ii else last
      positionFromEndLoop T item (storageElement (storage sequence starting last) starting) starting
        (last - starting).toNat
  | _ =>
    checkSequenceRange start ending sequence.length
    let last := min last sequence.length
    if ¬ fromEnd then arrayPositionLoop T item sequence (last - starting).toNat starting
    else positionFromEndLoop T item sequence.aref starting (last - starting).toNat

/-! ### `search` -/

/-- The end of a sequence for `search`, in the range of the sequence. -/
def searchEnd (sequence : Sequence L) (start : ℕ) (ending : Option ℕ) : Except Error ℕ := do
  checkSequenceRange start ending sequence.length
  return min (ending.getD sequence.elements.length) sequence.elements.length

/-- What `search` looks for the matches with: the bounds, which it has at hand as Lisp objects too. -/
structure SearchBounds where
  starting1 : ℕ
  ending1 : ℕ
  starting2 : ℕ
  ending2 : ℕ

def SearchBounds.length1 (b : SearchBounds) : ℕ := b.ending1 - b.starting1

section Loops

variable (T : Test Obj) (sequence1 sequence2 : Sequence L) (b : SearchBounds)

/-- Whether what follows the first element matches; the ends are never nil. -/
def restMismatch (position0 : ℕ) : Except Error (Option ℤ) :=
  mismatch T sequence1 sequence2 false (b.starting1 + 1) (some b.ending1) (1 + position0)
    (some (b.length1 + position0))

def initialMismatch (position0 : ℕ) : Except Error (Option ℤ) :=
  mismatch T sequence1 sequence2 true b.starting1 (some (b.ending1 - 1)) (position0 + 1 - b.length1) (some position0)

def searchLoop (first : Obj) : ℕ → ℕ → Option (Except Error (Option ℤ))
  | 0, _ => none
  | fuel + 1, ii =>
    if ii < b.ending2 then
      match position T first sequence2 ii (some b.ending2) false with
      | .error e => some (.error e)
      | .ok none => some (.ok none)
      | .ok (some position0) =>
        if b.length1 + position0 ≤ b.ending2 then
          match restMismatch T sequence1 sequence2 b position0.toNat with
          | .error e => some (.error e)
          | .ok none => some (.ok (some position0))
          | .ok (some _) => searchLoop first fuel (position0.toNat + 1)
        else searchLoop first fuel (position0.toNat + 1)
    else some (.ok none)

def searchFromEndLoop (last : Obj) : ℕ → ℕ → Option (Except Error (Option ℤ))
  | 0, _ => none
  | fuel + 1, ii =>
    if ii > b.starting2 then
      match position T last sequence2 b.starting2 (some ii) true with
      | .error e => some (.error e)
      | .ok none => some (.ok none)
      | .ok (some position0) =>
        if position0 - b.length1 + 1 ≥ b.starting2 then
          match initialMismatch T sequence1 sequence2 b position0.toNat with
          | .error e => some (.error e)
          | .ok none => some (.ok (some (position0 - b.length1 + 1)))
          | .ok (some _) => searchFromEndLoop last fuel position0.toNat
        else searchFromEndLoop last fuel position0.toNat
    else some (.ok none)

end Loops

/-- `search`, with a number of turns that it may make. -/
def search (fuel : ℕ) (T : Test Obj) (sequence1 sequence2 : Sequence L) (fromEnd : Bool) (start1 : ℕ)
    (end1 : Option ℕ) (start2 : ℕ) (end2 : Option ℕ) : Option (Except Error (Option ℤ)) :=
  match searchEnd sequence1 start1 end1 with
  | .error e => some (.error e)
  | .ok ending1 =>
    match searchEnd sequence2 start2 end2 with
    | .error e => some (.error e)
    | .ok ending2 =>
      let b : SearchBounds := ⟨start1, ending1, start2, ending2⟩
      if start1 ≥ ending1 then some (.ok (some (if fromEnd then ending2 else start2)))
      else
        match sequence1.aref (if fromEnd then ending1 - 1 else start1) with
        | .error e => some (.error e)
        | .ok object =>
          if fromEnd then searchFromEndLoop T sequence1 sequence2 b (T.key object) fuel ending2
          else searchLoop T sequence1 sequence2 b (T.key object) fuel start2

end XEmacs.Sequences
