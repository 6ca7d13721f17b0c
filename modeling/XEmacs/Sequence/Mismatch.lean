import XEmacs.Sequence.Sequence

/-! `mismatch`. There is one function for each pair of representations; the two that are for
different ones serve both orders, with a flag for the sequence whose index is returned. The
cursor into a list or a string is what remains of it. A pure test leaves the string as it is, and
the check for a string that was changed is left out. -/

namespace XEmacs.Sequences

variable {Obj : Type} {L : Objects Obj}

/-- A loop returns an index, or is left with the variables as they are then. -/
inductive Loop (σ : Type)
  | returned (index : ℤ)
  | left (state : σ)

def circularListSuspicionLength : ℤ := 1024

/-- `mismatch_from_end`, the loop. The storages hold the subsequences. -/
def mismatchFromEndLoop (T : Test Obj) (storage1 storage2 : List Obj) (starting1 : ℤ) :
    ℕ → ℕ → Except Error (Option ℤ)
  | n + 1, m + 1 =>
    match storage1[n]?, storage2[m]? with
    | some x, some y =>
      if T.checkMatch x y ≠ T.testNotUnboundp then .ok (some (starting1 + n + 1))
      else mismatchFromEndLoop T storage1 storage2 starting1 n m
    | _, _ => .error .argsOutOfRange
  | n, m => .ok (if 0 < n ∨ 0 < m then some (starting1 + n) else none)

/-- The elements from `starting` up to `ending`, as each representation puts them in an array. -/
def storage (s : Sequence L) (starting ending : ℤ) : List Obj :=
  match s.contents with
  | .list elements =>
    (elements.zipIdx.filter fun (_, i) => starting ≤ i ∧ i < ending).map Prod.fst
  | .string characters =>
    ((characters.drop starting.toNat).take (ending - starting).toNat).map L.makeChar
  | .vector elements => (elements.drop starting.toNat).take (ending - starting).toNat
  | .bitVector bits => ((bits.drop starting.toNat).take (ending - starting).toNat).map L.makeBit

def mismatchFromEnd (T : Test Obj) (sequence1 : Sequence L) (start1 : ℕ) (end1 : Option ℕ)
    (sequence2 : Sequence L) (start2 : ℕ) (end2 : Option ℕ) : Except Error (Option ℤ) := do
  checkSequenceRange start1 end1 sequence1.length
  let ending1 := min (L.elemcountOrNil end1) sequence1.length
  checkSequenceRange start2 end2 sequence2.length
  let ending2 := min (L.elemcountOrNil end2) sequence2.length
  mismatchFromEndLoop T (storage sequence1 start1 ending1) (storage sequence2 start2 ending2) start1
    (ending1 - start1).toNat (ending2 - start2).toNat

/-- `Fnthcdr` past the start of a list; what is left of it is counted from there. -/
def skipStart (list : List Obj) (start : ℕ) (starting ending : ℤ) : List Obj × ℤ × ℤ :=
  if start ≠ 0 then (list.drop start, 0, ending - starting) else (list, starting, ending)

/-- `mismatch_list_list`, the loop. The cursors are `shortestLen` conses after the start, and the
tortoises `tortoise`. -/
def mismatchListListLoop (T : Test Obj) (start1 : ℕ) (startcounting : ℤ) :
    List Obj → List Obj → (counting shortestLen tortoise : ℤ) →
      Except Error (Loop (List Obj × List Obj × ℤ))
  | x :: sequence1, y :: sequence2, counting, shortestLen, tortoise =>
    if counting > 0 then
      if T.checkMatch x y ≠ T.testNotUnboundp then .ok (.returned (start1 + shortestLen))
      else
        let counting := counting - 1
        let shortestLen := shortestLen + 1
        if startcounting - counting > circularListSuspicionLength then
          let tortoise := if counting % 2 = 1 then tortoise + 1 else tortoise
          if shortestLen = tortoise then .error .circularList
          else mismatchListListLoop T start1 startcounting sequence1 sequence2 counting shortestLen
            tortoise
        else mismatchListListLoop T start1 startcounting sequence1 sequence2 counting shortestLen
          tortoise
    else .ok (.left (x :: sequence1, y :: sequence2, shortestLen))
  | sequence1, sequence2, _, shortestLen, _ => .ok (.left (sequence1, sequence2, shortestLen))

def mismatchListList (T : Test Obj) (list1 : List Obj) (start1 : ℕ) (end1 : Option ℕ)
    (list2 : List Obj) (start2 : ℕ) (end2 : Option ℕ) : Except Error (Option ℤ) := do
  let endingOr : Option ℕ → ℤ := fun ending =>
    if ending.isSome then L.elemcountOrNil ending else L.mostPositiveFixnum
  let (sequence1, starting1, ending1) :=
    skipStart list1 start1 (L.elemcount start1) (endingOr end1)
  if start1 ≠ 0 ∧ sequence1 = [] then
    checkSequenceRange start1 end1 list1.length
    return none
  let (sequence2, starting2, ending2) :=
    skipStart list2 start2 (L.elemcount start2) (endingOr end2)
  if start2 ≠ 0 ∧ sequence2 = [] then
    checkSequenceRange start2 end2 list2.length
    return none
  let startcounting := min ending1 ending2
  match ← mismatchListListLoop T start1 startcounting sequence1 sequence2 startcounting 0 0 with
  | .returned index => return some index
  | .left (sequence1, sequence2, shortestLen) =>
    if sequence1 = [] then checkSequenceRange start1 end1 (start1 + shortestLen)
    if sequence2 = [] then checkSequenceRange start2 end2 (start2 + shortestLen)
    if (end1.isSome ∧ shortestLen ≠ ending1 - starting1) ∨
        (end2.isSome ∧ shortestLen ≠ ending2 - starting2) then
      return some (start1 + shortestLen)
    if (end1.isNone ∧ sequence1 ≠ []) ∨ (end2.isNone ∧ sequence2 ≠ []) then
      return some (start1 + shortestLen)
    return none

/-- `mismatch_list_string`, the loop. -/
def mismatchListStringLoop (L : Objects Obj) (T : Test Obj) (listStart : ℕ)
    (listEnding stringEnding : ℤ) (returnListIndex : Bool) :
    List Obj → List ℕ → (listStarting stringStarting charCount : ℤ) →
      Loop (List Obj × List ℕ × ℤ × ℤ × ℤ)
  | x :: list, c :: string, listStarting, stringStarting, charCount =>
    if listStarting < listEnding ∧ stringStarting < stringEnding then
      let character := L.makeChar c
      if returnListIndex ∧ T.checkMatch x character ≠ T.testNotUnboundp then
        .returned (listStart + charCount)
      else if ¬ returnListIndex ∧ T.checkMatch character x ≠ T.testNotUnboundp then
        .returned charCount
      else mismatchListStringLoop L T listStart listEnding stringEnding returnListIndex list string
        (listStarting + 1) (stringStarting + 1) (charCount + 1)
    else .left (x :: list, c :: string, listStarting, stringStarting, charCount)
  | list, string, listStarting, stringStarting, charCount =>
    .left (list, string, listStarting, stringStarting, charCount)

/-- The characters of a string are skipped up to the start; the number skipped is `char_count`. -/
def skipCharacters (string : List ℕ) (starting : ℤ) : List ℕ × ℤ :=
  (string.drop starting.toNat, min starting string.length)

def mismatchListString (T : Test Obj) (origList : List Obj) (listStart : ℕ) (listEnd : Option ℕ)
    (origString : List ℕ) (stringStart : ℕ) (stringEnd : Option ℕ) (returnListIndex : Bool) :
    Except Error (Option ℤ) := do
  let stringEnding := L.elemcountOrNil stringEnd
  let stringStarting := L.elemcount stringStart
  let (string, charCount) := skipCharacters origString stringStarting
  let (list, listStarting, listEnding) :=
    skipStart origList listStart (L.elemcount listStart) (L.elemcountOrNil listEnd)
  if listStart ≠ 0 ∧ list = [] then
    checkSequenceRange listStart listEnd origList.length
    return none
  match mismatchListStringLoop L T listStart listEnding stringEnding returnListIndex list string
      listStarting stringStarting charCount with
  | .returned index => return some index
  | .left (list, string, listStarting, stringStarting, charCount) =>
    if list = [] then checkSequenceRange listStart listEnd (listStart + charCount)
    if string = [] then checkSequenceRange stringStart stringEnd charCount
    if (if stringEnd.isNone then string ≠ [] else stringStarting < stringEnding) ∨
        (if listEnd.isNone then list ≠ [] else listStarting < listEnding) then
      return some (if returnListIndex then listStart + charCount else charCount)
    return none

/-- `mismatch_list_array`, the loop. -/
def mismatchListArrayLoop (T : Test Obj) (listStart : ℕ) (listEnding : ℤ) (array : Sequence L)
    (arrayEnding : ℤ) (returnListIndex : Bool) :
    List Obj → (listStarting arrayStarting ii : ℤ) →
      Except Error (Loop (List Obj × ℤ × ℤ × ℤ))
  | x :: list, listStarting, arrayStarting, ii =>
    if listStarting < listEnding ∧ arrayStarting < arrayEnding then
      array.aref arrayStarting >>= fun y =>
      if returnListIndex ∧ T.checkMatch x y ≠ T.testNotUnboundp then
        .ok (.returned (listStart + ii))
      else if ¬ returnListIndex ∧ T.checkMatch y x ≠ T.testNotUnboundp then
        .ok (.returned arrayStarting)
      else mismatchListArrayLoop T listStart listEnding array arrayEnding returnListIndex list
        (listStarting + 1) (arrayStarting + 1) (ii + 1)
    else .ok (.left (x :: list, listStarting, arrayStarting, ii))
  | [], listStarting, arrayStarting, ii => .ok (.left ([], listStarting, arrayStarting, ii))

def mismatchListArray (T : Test Obj) (origList : List Obj) (listStart : ℕ) (listEnd : Option ℕ)
    (array : Sequence L) (arrayStart : ℕ) (arrayEnd : Option ℕ) (returnListIndex : Bool) :
    Except Error (Option ℤ) := do
  let arrayEnding := min (L.elemcountOrNil arrayEnd) array.length
  checkSequenceRange arrayStart arrayEnd array.length
  let (list, listStarting, listEnding) :=
    skipStart origList listStart (L.elemcount listStart) (L.elemcountOrNil listEnd)
  if listStart ≠ 0 ∧ list = [] then
    checkSequenceRange listStart listEnd origList.length
    return none
  match ← mismatchListArrayLoop T listStart listEnding array arrayEnding returnListIndex list
      listStarting (L.elemcount arrayStart) 0 with
  | .returned index => return some index
  | .left (list, listStarting, arrayStarting, ii) =>
    if list = [] then checkSequenceRange listStart listEnd (listStart + ii)
    if arrayStarting < arrayEnding ∨
        (if listEnd.isNone then list ≠ [] else listStarting < listEnding) then
      return some (if returnListIndex then listStart + ii else arrayStarting)
    return none

/-- `mismatch_string_array`, the loop. -/
def mismatchStringArrayLoop (T : Test Obj) (stringEnding : ℤ) (array : Sequence L)
    (arrayStart : ℕ) (arrayEnding : ℤ) (returnStringIndex : Bool) :
    List ℕ → (stringStarting arrayStarting charCount : ℤ) →
      Except Error (Loop (List ℕ × ℤ × ℤ × ℤ))
  | c :: string, stringStarting, arrayStarting, charCount =>
    if arrayStarting < arrayEnding ∧ stringStarting < stringEnding then
      let character := L.makeChar c
      array.aref arrayStarting >>= fun y =>
      if returnStringIndex ∧ T.checkMatch character y ≠ T.testNotUnboundp then
        .ok (.returned charCount)
      else if ¬ returnStringIndex ∧ T.checkMatch y character ≠ T.testNotUnboundp then
        .ok (.returned (arrayStart + charCount))
      else mismatchStringArrayLoop T stringEnding array arrayStart arrayEnding returnStringIndex
        string (stringStarting + 1) (arrayStarting + 1) (charCount + 1)
    else .ok (.left (c :: string, stringStarting, arrayStarting, charCount))
  | [], stringStarting, arrayStarting, charCount =>
    .ok (.left ([], stringStarting, arrayStarting, charCount))

def mismatchStringArray (T : Test Obj) (origString : List ℕ) (stringStart : ℕ)
    (stringEnd : Option ℕ) (array : Sequence L) (arrayStart : ℕ) (arrayEnd : Option ℕ)
    (returnStringIndex : Bool) : Except Error (Option ℤ) := do
  let arrayStarting := L.elemcount arrayStart
  checkSequenceRange arrayStart arrayEnd array.length
  let arrayEnding := min (L.elemcountOrNil arrayEnd) array.length
  let stringEnding := L.elemcountOrNil stringEnd
  let stringStarting := L.elemcount stringStart
  let (string, charCount) := skipCharacters origString stringStarting
  match ← mismatchStringArrayLoop T stringEnding array arrayStart arrayEnding returnStringIndex
      string stringStarting arrayStarting charCount with
  | .returned index => return some index
  | .left (string, stringStarting, arrayStarting, charCount) =>
    if string = [] then checkSequenceRange stringStart stringEnd charCount
    -- without an end, the array itself is tested, and not what is left of it
    if (if stringEnd.isNone then string ≠ [] else stringStarting < stringEnding) ∨
        (if arrayEnd.isNone then ¬ array.nilp else arrayStarting < arrayEnding) then
      return some (if returnStringIndex then charCount else arrayStart + charCount)
    return none

/-- `mismatch_string_string`, the loop. -/
def mismatchStringStringLoop (L : Objects Obj) (T : Test Obj) (string1Ending string2Ending : ℤ) :
    List ℕ → List ℕ → (string1Starting string2Starting charCount1 charCount2 : ℤ) →
      Loop (List ℕ × List ℕ × ℤ × ℤ × ℤ × ℤ)
  | c :: string1, d :: string2, string1Starting, string2Starting, charCount1, charCount2 =>
    if string2Starting < string2Ending ∧ string1Starting < string1Ending then
      if T.checkMatch (L.makeChar c) (L.makeChar d) ≠ T.testNotUnboundp then .returned charCount1
      else mismatchStringStringLoop L T string1Ending string2Ending string1 string2
        (string1Starting + 1) (string2Starting + 1) (charCount1 + 1) (charCount2 + 1)
    else .left (c :: string1, d :: string2, string1Starting, string2Starting, charCount1, charCount2)
  | string1, string2, string1Starting, string2Starting, charCount1, charCount2 =>
    .left (string1, string2, string1Starting, string2Starting, charCount1, charCount2)

def mismatchStringString (T : Test Obj) (origString1 : List ℕ) (string1Start : ℕ)
    (string1End : Option ℕ) (origString2 : List ℕ) (string2Start : ℕ) (string2End : Option ℕ) :
    Except Error (Option ℤ) := do
  let string1Ending := L.elemcountOrNil string1End
  let string1Starting := L.elemcount string1Start
  let string2Starting := L.elemcount string2Start
  let string2Ending := L.elemcountOrNil string2End
  let (string1, charCount1) := skipCharacters origString1 string1Starting
  let (string2, charCount2) := skipCharacters origString2 string2Starting
  match mismatchStringStringLoop L T string1Ending string2Ending string1 string2 string1Starting
      string2Starting charCount1 charCount2 with
  | .returned index => return some index
  | .left (string1, string2, string1Starting, string2Starting, charCount1, charCount2) =>
    if string1 = [] then checkSequenceRange string1Start string1End charCount1
    if string2 = [] then checkSequenceRange string2Start string2End charCount2
    if (string1End.isSome ∧ string1Starting < string1Ending) ∨
        (string2End.isSome ∧ string2Starting < string2Ending) then
      return some charCount1
    if (string1End.isNone ∧ string1 ≠ []) ∨ (string2End.isNone ∧ string2 ≠ []) then
      return some charCount1
    return none

/-- `mismatch_array_array`, the loop; `n` elements of the first array are left. -/
def mismatchArrayArrayLoop (T : Test Obj) (array1 array2 : Sequence L) (ending2 : ℤ) :
    (n : ℕ) → (starting1 starting2 : ℤ) → Except Error (Option ℤ)
  | n + 1, starting1, starting2 =>
    if starting2 < ending2 then
      array1.aref starting1 >>= fun x =>
      array2.aref starting2 >>= fun y =>
      if T.checkMatch x y ≠ T.testNotUnboundp then .ok (some starting1)
      else mismatchArrayArrayLoop T array1 array2 ending2 n (starting1 + 1) (starting2 + 1)
    else .ok (some starting1)
  | 0, starting1, starting2 => .ok (if starting2 < ending2 then some starting1 else none)

def mismatchArrayArray (T : Test Obj) (array1 : Sequence L) (start1 : ℕ) (end1 : Option ℕ)
    (array2 : Sequence L) (start2 : ℕ) (end2 : Option ℕ) : Except Error (Option ℤ) := do
  checkSequenceRange start1 end1 array1.length
  checkSequenceRange start2 end2 array2.length
  let endingOr : Option ℕ → ℤ := fun ending =>
    if ending.isSome then L.elemcountOrNil ending else L.mostPositiveFixnum
  let starting1 := L.elemcount start1
  let ending1 := min (endingOr end1) array1.length
  let ending2 := min (endingOr end2) array2.length
  mismatchArrayArrayLoop T array1 array2 ending2 (ending1 - starting1).toNat starting1
    (L.elemcount start2)

/-- `get_mismatch_func` and `Fmismatch`. -/
def mismatch (T : Test Obj) (sequence1 sequence2 : Sequence L) (fromEnd : Bool) (start1 : ℕ)
    (end1 : Option ℕ) (start2 : ℕ) (end2 : Option ℕ) : Except Error (Option ℤ) :=
  if fromEnd then mismatchFromEnd T sequence1 start1 end1 sequence2 start2 end2
  else
    match sequence1.contents, sequence2.contents with
    | .list list1, .list list2 =>
      mismatchListList (L := L) T list1 start1 end1 list2 start2 end2
    | .list list, .string string =>
      mismatchListString (L := L) T list start1 end1 string start2 end2 true
    | .list list, _ => mismatchListArray T list start1 end1 sequence2 start2 end2 true
    | .string string1, .string string2 =>
      mismatchStringString (L := L) T string1 start1 end1 string2 start2 end2
    | .string string, .list list =>
      mismatchListString (L := L) T list start2 end2 string start1 end1 false
    | .string string, _ => mismatchStringArray T string start1 end1 sequence2 start2 end2 true
    | _, .string string => mismatchStringArray T string start2 end2 sequence1 start1 end1 false
    | _, .list list => mismatchListArray T list start2 end2 sequence1 start1 end1 false
    | _, _ => mismatchArrayArray T sequence1 start1 end1 sequence2 start2 end2

end XEmacs.Sequences
