import Mathlib.Logic.Function.Basic
import XEmacs.Sequence.Sequence

/-! `merge` and `sort*`. Lists are made of conses in a heap, and are taken apart and linked
again in place; the other sequences are arrays in a memory of words. The loops over lists count
their turns, since a list that is linked to itself would not end; `unfinished` is for a count that
was too small. `check` is the predicate applied to the keys. -/

namespace XEmacs.Sequences

variable {Obj : Type}

/-- The conses; those from `next` on are free. -/
structure Conses (Obj : Type) where
  car : ℕ → Obj
  cdr : ℕ → Option ℕ
  next : ℕ

inductive MergeError
  | circularList
  | mappingInteraction
  /-- the cdr of nil, without a check -/
  | xcdrOfNil
  | assertion
  | wrongTypeArgument
  | unfinished
  deriving DecidableEq

namespace Conses

/-- `Fsetcdr`. -/
def setcdr (h : Conses Obj) (x : ℕ) (p : Option ℕ) : Conses Obj :=
  { h with cdr := Function.update h.cdr x p }

/-- `Fcons`. -/
def cons (h : Conses Obj) (x : Obj) (p : Option ℕ) : Conses Obj where
  car := Function.update h.car h.next x
  cdr := Function.update h.cdr h.next p
  next := h.next + 1

/-- `Flist`. The last cons is made first. -/
def list (h : Conses Obj) : List Obj → Conses Obj × Option ℕ
  | [] => (h, none)
  | x :: xs =>
    let (h, p) := h.list xs
    (h.cons x p, some h.next)

/-- `value = tem` when there is no tail, and else `Fsetcdr (tail, tem)`. -/
def attach (h : Conses Obj) (tail value tem : Option ℕ) : Conses Obj × Option ℕ :=
  match tail with
  | none => (h, tem)
  | some t => (h.setcdr t tem, value)

end Conses

/-- A turn of a loop that looks for a circular list, once it has turned often enough: the tortoise
goes on at every other turn, and the list must not be where the tortoise is. -/
def walkTortoise (h : Conses Obj) (count : ℕ) (onNil : MergeError) (list tortoise : Option ℕ) :
    Except MergeError (Option ℕ) :=
  let step : Except MergeError (Option ℕ) :=
    if count % 2 = 1 then
      match tortoise with
      | none => .error onNil
      | some t => .ok (h.cdr t)
    else .ok tortoise
  step >>= fun tortoise => if list = tortoise then .error .circularList else .ok tortoise

structure ListMerge where
  l1 : Option ℕ
  l2 : Option ℕ
  tail : Option ℕ
  value : Option ℕ
  tortoise1 : Option ℕ
  tortoise2 : Option ℕ
  l1Count : ℕ
  l2Count : ℕ

/-- `list_merge`, the loop. -/
def listMergeLoop (check : Obj → Obj → Bool) : ℕ → Conses Obj → ListMerge →
    Except MergeError (Conses Obj × Option ℕ)
  | 0, _, _ => .error .unfinished
  | fuel + 1, h, s =>
    match s.l1, s.l2 with
    | none, l2 => .ok (h.attach s.tail s.value l2)
    | l1, none => .ok (h.attach s.tail s.value l1)
    | some tem1, some tem2 =>
      if check (h.car tem2) (h.car tem1) = false then
        let l1 := h.cdr tem1
        let tortoise1 :=
          if s.l1Count > 1024 then
            walkTortoise h (s.l1Count + 1) .mappingInteraction l1 s.tortoise1
          else .ok s.tortoise1
        tortoise1 >>= fun tortoise1 =>
          let (h, value) := h.attach s.tail s.value (some tem1)
          listMergeLoop check fuel h
            { s with l1, tail := some tem1, value, tortoise1, l1Count := s.l1Count + 1 }
      else
        let l2 := h.cdr tem2
        let tortoise2 :=
          if s.l2Count > 1024 then
            walkTortoise h (s.l2Count + 1) .mappingInteraction l2 s.tortoise2
          else .ok s.tortoise2
        tortoise2 >>= fun tortoise2 =>
          let (h, value) := h.attach s.tail s.value (some tem2)
          listMergeLoop check fuel h
            { s with l2, tail := some tem2, value, tortoise2, l2Count := s.l2Count + 1 }

def listMerge (check : Obj → Obj → Bool) (fuel : ℕ) (h : Conses Obj) (orgL1 orgL2 : Option ℕ) :
    Except MergeError (Conses Obj × Option ℕ) :=
  listMergeLoop check fuel h
    { l1 := orgL1, l2 := orgL2, tail := none, value := none, tortoise1 := orgL1,
      tortoise2 := orgL2, l1Count := 0, l2Count := 0 }

/-- `Fnthcdr`. -/
def Conses.nthcdr (h : Conses Obj) : ℕ → Option ℕ → Option ℕ
  | n + 1, some x => h.nthcdr n (h.cdr x)
  | _, p => p

/-- `Flength`, of a list that has at most `fuel` conses. -/
def Conses.length (h : Conses Obj) : ℕ → Option ℕ → Except MergeError ℕ
  | _, none => .ok 0
  | 0, some _ => .error .unfinished
  | fuel + 1, some x => (· + 1) <$> h.length fuel (h.cdr x)

/-- `list_sort`; `fuel` is for the loops and for the depth of the recursion. -/
def listSort (check : Obj → Obj → Bool) (fuel : ℕ) :
    ℕ → Conses Obj → Option ℕ → Except MergeError (Conses Obj × Option ℕ)
  | 0, _, _ => .error .unfinished
  | depth + 1, h, list => do
    let len ← h.length fuel list
    if len < 2 then return (h, list)
    match h.nthcdr (len / 2 - 1) list with
    | none => .error .wrongTypeArgument
    | some tem =>
      let back := h.cdr tem
      let h := h.setcdr tem none
      let (h, front) ← listSort check fuel depth h list
      let (h, back) ← listSort check fuel depth h back
      listMerge check fuel h front back

structure ListArrayMerge where
  list : Option ℕ
  tail : Option ℕ
  value : Option ℕ
  tortoise : Option ℕ
  arrayIndex : ℕ
  looped : ℕ

def takesList (check : Obj → Obj → Bool) (reverseOrder : Bool) (x y : Obj) : Bool :=
  if reverseOrder then check x y else !check y x

/-- `list_array_merge_into_list`, the loop. -/
def listArrayMergeLoop (check : Obj → Obj → Bool) (reverseOrder : Bool) (array : List Obj) :
    ℕ → Conses Obj → ListArrayMerge → Except MergeError (Conses Obj × Option ℕ)
  | 0, _, _ => .error .unfinished
  | fuel + 1, h, s =>
    match s.list with
    | none =>
      let (h, rest) := h.list (array.drop s.arrayIndex)
      .ok (h.attach s.tail s.value rest)
    | some list =>
      match array[s.arrayIndex]? with
      | none => .ok (h.attach s.tail s.value (some list))
      | some y =>
        let looped := s.looped + 1
        let walk (h : Conses Obj) (list : Option ℕ) : Except MergeError (Option ℕ) :=
          if looped > 1024 then walkTortoise h looped .xcdrOfNil list s.tortoise
          else .ok s.tortoise
        if takesList check reverseOrder (h.car list) y then
          let (h, value) := h.attach s.tail s.value (some list)
          walk h (h.cdr list) >>= fun tortoise =>
            listArrayMergeLoop check reverseOrder array fuel h
              { s with list := h.cdr list, tail := some list, value, tortoise, looped }
        else
          -- the new cons has the old tail as its cdr until the next turn
          let new := h.next
          let (h, value) := (h.cons y s.tail).attach s.tail s.value (some new)
          walk h (some list) >>= fun tortoise =>
            listArrayMergeLoop check reverseOrder array fuel h
              { s with tail := some new, value, tortoise, arrayIndex := s.arrayIndex + 1, looped }

def listArrayMergeIntoList (check : Obj → Obj → Bool) (fuel : ℕ) (h : Conses Obj)
    (list : Option ℕ) (array : List Obj) (reverseOrder : Bool) :
    Except MergeError (Conses Obj × Option ℕ) :=
  listArrayMergeLoop check reverseOrder array fuel h
    { list, tail := none, value := none, tortoise := list, arrayIndex := 0, looped := 0 }

abbrev Memory (Obj : Type) := ℕ → Obj

def readArray (mem : Memory Obj) (p n : ℕ) : List Obj :=
  (List.range n).map fun i => mem (p + i)

def writeArray (mem : Memory Obj) (p : ℕ) : List Obj → Memory Obj
  | [] => mem
  | x :: xs => writeArray (Function.update mem p x) (p + 1) xs

/-- `front_staging` and `back_staging`: an array that begins in the destination is read from a
copy. -/
def staging (mem : Memory Obj) (dest destLen p : ℕ) : Memory Obj → ℕ → Obj :=
  if p ≥ dest ∧ p < dest + destLen then fun _ i => mem (p + i) else fun mem i => mem (p + i)

def arrayMergeRest (read : Memory Obj → ℕ → Obj) : ℕ → Memory Obj → (dest i : ℕ) → Memory Obj
  | 0, mem, _, _ => mem
  | n + 1, mem, dest, i =>
    arrayMergeRest read n (Function.update mem dest (read mem i)) (dest + 1) (i + 1)

/-- `array_merge`, the loop; `n` words of the destination are left, from `dest` on. -/
def arrayMergeLoop (check : Obj → Obj → Bool) (front back : Memory Obj → ℕ → Obj)
    (frontLen backLen : ℕ) : ℕ → Memory Obj → (dest fronting backing : ℕ) → Memory Obj
  | 0, mem, _, _, _ => mem
  | n + 1, mem, dest, fronting, backing =>
    if fronting ≥ frontLen then arrayMergeRest back (n + 1) mem dest backing
    else if backing ≥ backLen then arrayMergeRest front (n + 1) mem dest fronting
    else if check (back mem backing) (front mem fronting) = false then
      arrayMergeLoop check front back frontLen backLen n
        (Function.update mem dest (front mem fronting)) (dest + 1) (fronting + 1) backing
    else
      arrayMergeLoop check front back frontLen backLen n
        (Function.update mem dest (back mem backing)) (dest + 1) fronting (backing + 1)

def arrayMerge (check : Obj → Obj → Bool) (mem : Memory Obj)
    (dest destLen front frontLen back backLen : ℕ) : Except MergeError (Memory Obj) :=
  if destLen ≠ backLen + frontLen then .error .assertion
  else if destLen = 0 then .ok mem
  else
    .ok (arrayMergeLoop check (staging mem dest destLen front) (staging mem dest destLen back)
      frontLen backLen destLen mem dest 0 0)

def arraySort (check : Obj → Obj → Bool) (mem : Memory Obj) (array arrayLen : ℕ) :
    Except MergeError (Memory Obj) :=
  if arrayLen < 2 then .ok mem
  else do
    let split := arrayLen / 2
    let mem ← arraySort check mem array split
    let mem ← arraySort check mem (array + split) (arrayLen - split)
    arrayMerge check mem array arrayLen array split (array + split) (arrayLen - split)
termination_by arrayLen

/-- `list_list_merge_into_array`; `n` words of the output are left. -/
def listListMergeIntoArray (check : Obj → Obj → Bool) (h : Conses Obj) :
    ℕ → Memory Obj → (output : ℕ) → (listOne listTwo : Option ℕ) →
      Except MergeError (Memory Obj)
  | 0, mem, _, _, _ => .ok mem
  | n + 1, mem, output, none, some x =>
    listListMergeIntoArray check h n (Function.update mem output (h.car x)) (output + 1) none
      (h.cdr x)
  | n + 1, mem, output, some x, none =>
    listListMergeIntoArray check h n (Function.update mem output (h.car x)) (output + 1) (h.cdr x)
      none
  | n + 1, mem, output, some x, some y =>
    if check (h.car y) (h.car x) = false then
      listListMergeIntoArray check h n (Function.update mem output (h.car x)) (output + 1)
        (h.cdr x) (some y)
    else
      listListMergeIntoArray check h n (Function.update mem output (h.car y)) (output + 1)
        (some x) (h.cdr y)
  | _ + 1, _, _, none, none => .error .wrongTypeArgument

def listRestIntoArray (h : Conses Obj) :
    ℕ → Memory Obj → (output : ℕ) → (list : Option ℕ) → Except MergeError (Memory Obj)
  | 0, mem, _, _ => .ok mem
  | n + 1, mem, output, some x =>
    listRestIntoArray h n (Function.update mem output (h.car x)) (output + 1) (h.cdr x)
  | _ + 1, _, _, none => .error .wrongTypeArgument

/-- `list_array_merge_into_array`; `n` words of the output are left. -/
def listArrayMergeIntoArray (check : Obj → Obj → Bool) (h : Conses Obj) (array arrayLen : ℕ)
    (reverseOrder : Bool) :
    ℕ → Memory Obj → (output : ℕ) → (list : Option ℕ) → (arrayIndex : ℕ) →
      Except MergeError (Memory Obj)
  | 0, mem, _, _, _ => .ok mem
  | n + 1, mem, output, none, arrayIndex =>
    if arrayLen - arrayIndex ≠ n + 1 then .error .mappingInteraction
    else .ok (arrayMergeRest (fun mem i => mem (array + i)) (n + 1) mem output arrayIndex)
  | n + 1, mem, output, some x, arrayIndex =>
    if arrayIndex ≥ arrayLen then listRestIntoArray h (n + 1) mem output (some x)
    else if takesList check reverseOrder (h.car x) (mem (array + arrayIndex)) then
      listArrayMergeIntoArray check h array arrayLen reverseOrder n
        (Function.update mem output (h.car x)) (output + 1) (h.cdr x) arrayIndex
    else
      listArrayMergeIntoArray check h array arrayLen reverseOrder n
        (Function.update mem output (mem (array + arrayIndex))) (output + 1) (some x)
        (arrayIndex + 1)

/-- The conses, and the memory, which is free from `top` on. -/
structure Machine (Obj : Type) where
  conses : Conses Obj
  mem : Memory Obj
  top : ℕ

/-- A sequence; a vector is in the memory. -/
inductive Seq
  | list (first : Option ℕ)
  | vector (p n : ℕ)
  | string (characters : List ℕ)
  | bitVector (bits : List Bool)

inductive SeqType
  | list
  | vector
  | string
  | bitVector
  deriving DecidableEq

/-- How objects are taken for characters and bits. -/
structure Readers (L : Objects Obj) where
  /-- `XCHAR` -/
  charOf : Obj → Option ℕ
  /-- `CHECK_BIT` and `XFIXNUM` -/
  bitOf : Obj → Option Bool
  charOf_makeChar : ∀ c, charOf (L.makeChar c) = some c
  bitOf_makeBit : ∀ b, bitOf (L.makeBit b) = some b

variable {L : Objects Obj} (R : Readers L)

namespace Machine

/-- `alloca_array`, and the words of it. -/
def alloca (m : Machine Obj) (xs : List Obj) : Machine Obj × ℕ :=
  ({ m with mem := writeArray m.mem m.top xs, top := m.top + xs.length }, m.top)

/-- `Ffuncall` of `list`, `vector`, `string` or `bit-vector`. -/
def make (m : Machine Obj) (type : SeqType) (elements : List Obj) :
    Except MergeError (Machine Obj × Seq) :=
  match type with
  | .list =>
    let (h, first) := m.conses.list elements
    .ok ({ m with conses := h }, .list first)
  | .vector =>
    let (m, p) := m.alloca elements
    .ok (m, .vector p elements.length)
  | .string =>
    match elements.mapM R.charOf with
    | some characters => .ok (m, .string characters)
    | none => .error .wrongTypeArgument
  | .bitVector =>
    match elements.mapM R.bitOf with
    | some bits => .ok (m, .bitVector bits)
    | none => .error .wrongTypeArgument

/-- The words of a sequence that is not a list: those of a vector, or an array of the characters
or the bits. -/
def storage (L : Objects Obj) (m : Machine Obj) : Seq → Machine Obj × ℕ × ℕ
  | .vector p n => (m, p, n)
  | .string characters =>
    let (m, p) := m.alloca (characters.map L.makeChar)
    (m, p, characters.length)
  | .bitVector bits =>
    let (m, p) := m.alloca (bits.map L.makeBit)
    (m, p, bits.length)
  | .list _ => (m, 0, 0)

/-- `Flength`. -/
def length (fuel : ℕ) (m : Machine Obj) : Seq → Except MergeError ℕ
  | .list first => m.conses.length fuel first
  | .vector _ n => .ok n
  | .string characters => .ok characters.length
  | .bitVector bits => .ok bits.length

/-- The elements of a sequence, as `Fappend` goes through them. -/
def elements (L : Objects Obj) (m : Machine Obj) : ℕ → Seq → Except MergeError (List Obj)
  | _, .list none => .ok []
  | 0, .list (some _) => .error .unfinished
  | fuel + 1, .list (some x) =>
    (m.conses.car x :: ·) <$> m.elements L fuel (.list (m.conses.cdr x))
  | _, .vector p n => .ok (readArray m.mem p n)
  | _, .string characters => .ok (characters.map L.makeChar)
  | _, .bitVector bits => .ok (bits.map L.makeBit)

/-- `Fappend`, of a sequence and nil. -/
def append (L : Objects Obj) (fuel : ℕ) (m : Machine Obj) (s : Seq) :
    Except MergeError (Machine Obj × Seq) := do
  let xs ← m.elements L fuel s
  let (h, first) := m.conses.list xs
  return ({ m with conses := h }, .list first)

end Machine

/-- `Fmerge` into a list, when one of the sequences is a list. -/
def mergeIntoList (L : Objects Obj) (check : Obj → Obj → Bool) (fuel : ℕ) (m : Machine Obj) :
    (sequenceOne sequenceTwo : Seq) → Except MergeError (Machine Obj × Seq)
  | sequenceOne, .list none => m.append L fuel sequenceOne
  | .list none, sequenceTwo => m.append L fuel sequenceTwo
  | .list (some one), .list (some two) => do
    let (h, value) ← listMerge check fuel m.conses (some one) (some two)
    return ({ m with conses := h }, .list value)
  | .list (some one), sequenceTwo => do
    let (m, p, n) := m.storage L sequenceTwo
    let (h, value) ← listArrayMergeIntoList check fuel m.conses (some one) (readArray m.mem p n) false
    return ({ m with conses := h }, .list value)
  | sequenceOne, .list (some two) => do
    let (m, p, n) := m.storage L sequenceOne
    let (h, value) ← listArrayMergeIntoList check fuel m.conses (some two) (readArray m.mem p n) true
    return ({ m with conses := h }, .list value)
  | _, _ => .error .wrongTypeArgument

/-- The merging loops of `Fmerge` that write into the array `output`. -/
def mergeIntoArray (check : Obj → Obj → Bool) (m : Machine Obj)
    (output storageOne lenOne storageTwo lenTwo : ℕ) (sequenceOne sequenceTwo : Seq) :
    Except MergeError (Memory Obj) :=
  match sequenceOne, sequenceTwo with
  | .list one, .list two =>
    listListMergeIntoArray check m.conses (lenOne + lenTwo) m.mem output one two
  | .list one, _ =>
    listArrayMergeIntoArray check m.conses storageTwo lenTwo false (lenOne + lenTwo) m.mem output
      one 0
  | _, .list two =>
    listArrayMergeIntoArray check m.conses storageOne lenOne true (lenOne + lenTwo) m.mem output
      two 0
  | _, _ => arrayMerge check m.mem output (lenOne + lenTwo) storageOne lenOne storageTwo lenTwo

/-- `Fmerge`, by way of an array. -/
def mergeByArray (check : Obj → Obj → Bool) (fuel : ℕ) (m : Machine Obj) (type : SeqType)
    (nil : Obj) (sequenceOne sequenceTwo : Seq) : Except MergeError (Machine Obj × Seq) := do
  let lenOne ← m.length fuel sequenceOne
  let lenTwo ← m.length fuel sequenceTwo
  let (m, output) := m.alloca (List.replicate (lenOne + lenTwo) nil)
  let (m, storageOne, _) := m.storage L sequenceOne
  let (m, storageTwo, _) := m.storage L sequenceTwo
  let mem ← mergeIntoArray check m output storageOne lenOne storageTwo lenTwo sequenceOne sequenceTwo
  { m with mem := mem }.make R type (readArray mem output (lenOne + lenTwo))

/-- `Fmerge`. -/
def merge (check : Obj → Obj → Bool) (fuel : ℕ) (nil : Obj) (m : Machine Obj) (type : SeqType)
    (sequenceOne sequenceTwo : Seq) : Except MergeError (Machine Obj × Seq) :=
  match type, sequenceOne, sequenceTwo with
  | .list, .list _, _ | .list, _, .list _ =>
    mergeIntoList L check fuel m sequenceOne sequenceTwo
  | _, _, _ => mergeByArray R check fuel m type nil sequenceOne sequenceTwo

/-- `FsortX`. A string or bit vector is changed in place: what it holds then is the result. -/
def sortX (check : Obj → Obj → Bool) (fuel : ℕ) (m : Machine Obj) :
    Seq → Except MergeError (Machine Obj × Seq)
  | .list first => do
    let (h, first) ← listSort check fuel fuel m.conses first
    return ({ m with conses := h }, .list first)
  | .vector p n => do
    let mem ← arraySort check m.mem p n
    return ({ m with mem }, .vector p n)
  | .string characters => do
    let (m, carray) := m.alloca (characters.map L.makeChar)
    let mem ← arraySort check m.mem carray characters.length
    { m with mem }.make R .string (readArray mem carray characters.length)
  | .bitVector bits => do
    let (m, carray) := m.alloca (bits.map L.makeBit)
    let mem ← arraySort check m.mem carray bits.length
    { m with mem }.make R .bitVector (readArray mem carray bits.length)

end XEmacs.Sequences
