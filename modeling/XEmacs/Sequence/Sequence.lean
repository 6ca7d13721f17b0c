import Mathlib.Data.Int.Basic

/-! Lisp sequences, as in `sequence.c`, for functions that only read them: proper lists, strings,
vectors and bit vectors. An element of a string is a character and one of a bit vector is a bit;
the objects made of them are given by the build. -/

namespace XEmacs.Sequences

/-- What the functions on sequences use of Lisp objects. -/
structure Objects (Obj : Type) where
  /-- `make_char` -/
  makeChar : ℕ → Obj
  /-- `make_fixnum` of a bit -/
  makeBit : Bool → Obj
  /-- `MOST_POSITIVE_FIXNUM` -/
  mostPositiveFixnum : ℕ

inductive Contents (Obj : Type)
  | list (elements : List Obj)
  | string (characters : List ℕ)
  | vector (elements : List Obj)
  | bitVector (bits : List Bool)

variable {Obj : Type} (L : Objects Obj)

/-- The elements, as `elt` gives them. -/
def Contents.elements : Contents Obj → List Obj
  | .list elements => elements
  | .string characters => characters.map L.makeChar
  | .vector elements => elements
  | .bitVector bits => bits.map L.makeBit

structure Sequence (L : Objects Obj) where
  contents : Contents Obj
  length_le : (contents.elements L).length ≤ L.mostPositiveFixnum

variable {L}

namespace Sequence

def elements (s : Sequence L) : List Obj :=
  s.contents.elements L

/-- `Flength`. -/
def length (s : Sequence L) : ℤ :=
  s.elements.length

/-- `NILP`: the empty list. -/
def nilp (s : Sequence L) : Bool :=
  match s.contents with
  | .list [] => true
  | _ => false

end Sequence

inductive Error
  | argsOutOfRange
  | circularList
  deriving DecidableEq

/-- `Faref`. -/
def Sequence.aref (s : Sequence L) (index : ℤ) : Except Error Obj :=
  match if 0 ≤ index then s.elements[index.toNat]? else none with
  | some x => .ok x
  | none => .error .argsOutOfRange

def checkSequenceRange (start : ℕ) (ending : Option ℕ) (length : ℤ) : Except Error Unit :=
  let last : ℤ := match ending with
    | none => length
    | some e => e
  if start ≤ last ∧ last ≤ length then .ok () else .error .argsOutOfRange

variable (L) in
/-- `FIXNUMP (n) ? XFIXNUM (n) : 1 + MOST_POSITIVE_FIXNUM`, of a natural number. -/
def Objects.elemcount (n : ℕ) : ℤ :=
  if n ≤ L.mostPositiveFixnum then n else 1 + L.mostPositiveFixnum

variable (L) in
/-- The same of a natural number or nil. -/
def Objects.elemcountOrNil : Option ℕ → ℤ
  | none => 1 + L.mostPositiveFixnum
  | some n => L.elemcount n

/-- The `:test` or the `:test-not`, and the `:key`. -/
structure Test (Obj : Type) where
  test : Obj → Obj → Bool
  key : Obj → Obj
  testNotUnboundp : Bool

/-- `check_match_other_key` and its variants for known tests and without a key. -/
def Test.checkMatch (T : Test Obj) (elt1 elt2 : Obj) : Bool :=
  T.test (T.key elt1) (T.key elt2)

def Test.matches (T : Test Obj) (elt1 elt2 : Obj) : Bool :=
  T.checkMatch elt1 elt2 == T.testNotUnboundp

def ValidRange (n start : ℕ) (ending : Option ℕ) : Prop :=
  start ≤ ending.getD n ∧ ending.getD n ≤ n

def subseq {α : Type} (xs : List α) (start : ℕ) (ending : Option ℕ) : List α :=
  (xs.drop start).take (ending.getD xs.length - start)

section

variable {α β : Type} {xs : List α} {start : ℕ} {ending : Option ℕ}

theorem length_subseq (h : ValidRange xs.length start ending) :
    (subseq xs start ending).length = ending.getD xs.length - start := by
  obtain ⟨hle, hlast⟩ := h
  rw [subseq, List.length_take, List.length_drop]
  omega

theorem subseq_map (f : α → β) :
    subseq (xs.map f) start ending = (subseq xs start ending).map f := by
  rw [subseq, subseq, List.length_map, List.map_take, List.map_drop]

theorem checkSequenceRange_eq_ok (h : ValidRange xs.length start ending) {length : ℤ}
    (hlength : (xs.length : ℤ) ≤ length) : checkSequenceRange start ending length = .ok () := by
  obtain ⟨hle, hlast⟩ := h
  cases ending with
  | none =>
    have hstart : (start : ℤ) ≤ length := by
      simp only [Option.getD_none] at hle
      omega
    exact if_pos ⟨hstart, Int.le_refl length⟩
  | some e =>
    simp only [Option.getD_some] at hle hlast
    have hlast' : (e : ℤ) ≤ length := by omega
    exact if_pos ⟨Int.ofNat_le.mpr hle, hlast'⟩

end

end XEmacs.Sequences
