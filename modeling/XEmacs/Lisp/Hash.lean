import XEmacs.Lisp.Object

/-! `equal`, `equalp` and their hash functions. Comparing takes a number of levels, the calls that
`max_lisp_eval_depth` still allows, and gives `none` where it signals a stack overflow. Hashing
takes the number of levels that are left before `depth > 5`: it is `6 - depth`. -/

namespace XEmacs.Lisp

open Text

variable {rep : UInt8 → ℕ} {α : Type*}

/-- The conversion of integers to doubles, whose values are integers; small integers are exact. -/
structure Doubles where
  ofInt : ℤ → ℤ
  exact : ∀ n, n.natAbs ≤ 2 ^ 53 → ofInt n = n

namespace LispObject

def qxetextcasecmp (C : Charset rep) : List (Ichar rep) → List (Ichar rep) → ℤ
  | c :: s₁, c' :: s₂ =>
    let diff := (C.canoncase (C.itextIchar c) : ℤ) - C.canoncase (C.itextIchar c')
    if diff ≠ 0 then diff else qxetextcasecmp C s₁ s₂
  | s₁, s₂ => (itextBytes s₁).length - (itextBytes s₂).length

/-- A loop over the elements of two arrays of one length, which stops at a difference. -/
def allEqual (equal : α → α → Option Bool) : List α → List α → Option Bool
  | x :: xs, y :: ys => (equal x y).bind fun same => if same then allEqual equal xs ys else some false
  | _, _ => some true

/-- `cons_equal`; `equal` is `internal_equal_0` one level down. -/
def consEqual (equal : LispObject rep → LispObject rep → Option Bool) :
    LispObject rep → LispObject rep → Option Bool
  | cons _ car cdr, cons _ car' cdr' =>
    (equal car car').bind fun same =>
      if same then
        match cdr, cdr' with
        | cons p a d, cons p' a' d' => consEqual equal (cons p a d) (cons p' a' d')
        | cdr, cdr' => equal cdr cdr'
      else some false
  | _, _ => some false

/-- The `equal` methods of the types, for objects that are not `EQ`; objects of different types
are different, and so are symbols, fixnums and characters. -/
def equalMethod (C : Charset rep) (foldcase : Bool) (equal : LispObject rep → LispObject rep → Option Bool) :
    LispObject rep → LispObject rep → Option Bool
  | string _ s, string _ s' =>
    if foldcase then some (qxetextcasecmp C s s' = 0) else some (itextBytes s = itextBytes s')
  | cons p car cdr, cons p' car' cdr' => consEqual equal (cons p car cdr) (cons p' car' cdr')
  | vector _ v, vector _ v' => if v.length = v'.length then allEqual equal v v' else some false
  | bitVector _ v, bitVector _ v' => some (v = v')
  | _, _ => some false

def internalEqual (C : Charset rep) : ℕ → LispObject rep → LispObject rep → Option Bool
  | 0, _, _ => none
  | levels + 1, obj₁, obj₂ =>
    if obj₁ = obj₂ then some true else equalMethod C false (internalEqual C levels) obj₁ obj₂

inductive ArrayType
  | none
  | string
  | vector
  | bitVector
  deriving DecidableEq

def arrayType : LispObject rep → ArrayType
  | string .. => .string
  | vector .. => .vector
  | bitVector .. => .bitVector
  | _ => .none

/-- What `Faref` gives for the indices of an array in turn. -/
def elements (C : Charset rep) : LispObject rep → List (LispObject rep)
  | string _ s => s.map fun c => char (C.itextIchar c)
  | vector _ v => v
  | bitVector _ v => v.map fun bit => fixnum (if bit then 1 else 0)
  | _ => []

def internalEqualp (C : Charset rep) : ℕ → LispObject rep → LispObject rep → Option Bool
  | 0, _, _ => none
  | levels + 1, obj₁, obj₂ =>
    if obj₁ = obj₂ then some true
    else
      match obj₁, obj₂ with
      | fixnum n, fixnum n' => some (n = n')
      | char c, char c' => some (C.canoncase c = C.canoncase c')
      | obj₁, obj₂ =>
        if arrayType obj₁ ≠ arrayType obj₂ ∧ arrayType obj₁ ≠ .none ∧ arrayType obj₂ ≠ .none then
          if (elements C obj₁).length = (elements C obj₂).length then
            allEqual (internalEqualp C levels) (elements C obj₁) (elements C obj₂)
          else some false
        else equalMethod C true (internalEqualp C levels) obj₁ obj₂

def hash2 (a b : UInt64) : UInt64 := 4294967311 * a + b

def hash3 (a b c : UInt64) : UInt64 := 4294967311 * hash2 a b + c

/-- `hash_string`: an unsigned 32-bit integer. -/
def hashString (ptr : List UInt8) : UInt32 := ptr.foldl (fun hash b => 31 * hash + b.toUInt32) 0

def memoryHash (x : List UInt8) : UInt64 :=
  x.foldl (fun h b =>
    let h := (h <<< 4) + b.toUInt64
    let g := h &&& 0xf0000000
    if g ≠ 0 then (h ^^^ (g >>> 24)) ^^^ g else h) 0

def bitVectorBytes (bits : List Bool) : List UInt8 :=
  (List.range (8 * ((bits.length + 63) / 64))).map fun j =>
    (List.range 8).foldl (fun byte b => if bits.getD (8 * j + b) false then byte + 1 <<< UInt8.ofNat b else byte) 0

/-- `FLOAT_HASHCODE_FROM_DOUBLE` of an integer that is converted to a double. -/
def floatHashcode (D : Doubles) (n : ℤ) : UInt64 := UInt64.ofInt ((D.ofInt n).tmod 4000000000)

/-- The indices that the hash of an array looks at: five elements scattered throughout a long one. -/
def scattered (size : ℕ) : List ℕ :=
  if size ≤ 5 then List.range size else (List.range 5).map fun i => i * size / 5

/-- `internal_array_hash`; the elements are hashed by `hash`. -/
def internalArrayHash (hash : α → UInt64) (arr : List α) : UInt64 :=
  (scattered arr.length).foldl (fun h i => hash2 h (arr[i]?.elim 0 hash)) 0

/-- `internal_bit_vector_equalp_hash`. -/
def bitVectorEqualpHash (D : Doubles) (v : List Bool) : UInt64 :=
  internalArrayHash (fun bit => floatHashcode D (if bit then 1 else 0)) v

/-- What the hash of a character by `equalp` is. -/
def charHash (C : Charset rep) (c : ℕ) : UInt64 := lispHash (char (C.canoncase c) : LispObject rep)

/-- `itext_equalp_hash`; in text of one byte a character, the characters are the bytes. -/
def itextEqualpHash (C : Charset rep) (data : List (Ichar rep)) : UInt64 :=
  let bytes := itextBytes data
  let clen := bytecountToCharcount rep bytes
  let hash :=
    if clen ≤ 5 then data.foldl (fun h c => hash2 h (charHash C (C.itextIchar c))) 0
    else if clen = bytes.length then
      (List.range 5).foldl (fun h i => hash2 h (bytes[i * clen / 5]?.elim 0 fun b => charHash C b.toNat)) 0
    else
      (List.range 5).foldl (fun h i =>
        hash2 h (data[i * clen / 5]?.elim 0 fun c => charHash C (C.itextIchar c))) 0
  hash2 (UInt64.ofNat clen) hash

/-- The loop of `internal_hash` over the rest of a list. -/
def hashRest (hash : LispObject rep → UInt64) : ℕ → UInt64 → UInt64 → LispObject rep → UInt64
  | fuel + 1, s, h, cons _ car cdr => hashRest hash fuel (s + 1) (hash3 h (hash car) s) cdr
  | _, _, h, _ => h

/-- `internal_hash` at a depth that is not past the limit; `hash₁` and `hash₂` hash one and two levels down. -/
def hashNode (C : Charset rep) (D : Doubles) (equalp : Bool) (hash₁ hash₂ : LispObject rep → UInt64) :
    LispObject rep → UInt64
  | cons _ car cdr =>
    match cdr with
    | cons p car' cdr' => hashRest hash₁ 5 1 (hash₁ car) (cons p car' cdr')
    | cdr => hash2 (hash₁ car) (hash₁ cdr)
  | string _ data => if equalp then itextEqualpHash C data else (hashString (itextBytes data)).toUInt64
  | vector _ v => hash2 (UInt64.ofNat v.length) (internalArrayHash hash₂ v)
  | bitVector _ v =>
    if equalp then hash2 (UInt64.ofNat v.length) (bitVectorEqualpHash D v)
    else hash2 (UInt64.ofNat v.length) (memoryHash (bitVectorBytes v))
  | char c => if equalp then charHash C c else lispHash (char c : LispObject rep)
  | fixnum n => if equalp then floatHashcode D n else lispHash (fixnum n : LispObject rep)
  | symbol p => lispHash (symbol p : LispObject rep)

def internalHash (C : Charset rep) (D : Doubles) (equalp : Bool) : ℕ → LispObject rep → UInt64
  | 0 => fun _ => 0
  | 1 => hashNode C D equalp (fun _ => 0) fun _ => 0
  | levels + 2 => hashNode C D equalp (internalHash C D equalp (levels + 1))
      (internalHash C D equalp levels)

def equalHash (C : Charset rep) (D : Doubles) (obj : LispObject rep) : UInt64 :=
  internalHash C D false 6 obj

def equalpHash (C : Charset rep) (D : Doubles) (obj : LispObject rep) : UInt64 :=
  internalHash C D true 6 obj

end LispObject

end XEmacs.Lisp
