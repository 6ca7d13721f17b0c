import XEmacs.Text.Itext
import Mathlib.Data.Int.Basic

/-! Lisp objects: fixnums, characters, strings, symbols, conses, vectors and bit vectors. An object
in the heap carries its address, and two objects with one address are one object, so `EQ` is
equality. Strings are in internal format; a character object holds the code of its character. -/

namespace XEmacs.Lisp

open Text

inductive LispObject (rep : UInt8 → ℕ)
  | fixnum (n : ℤ)
  | char (c : ℕ)
  | string (address : UInt64) (data : List (Ichar rep))
  | symbol (address : UInt64)
  | cons (address : UInt64) (car cdr : LispObject rep)
  | vector (address : UInt64) (contents : List (LispObject rep))
  | bitVector (address : UInt64) (bits : List Bool)

/-- What the build and the case table of the current buffer say of characters. -/
structure Charset (rep : UInt8 → ℕ) where
  nonAsciiItextIchar : Ichar rep → ℕ
  /-- `CANONCASE` -/
  canoncase : ℕ → ℕ
  /-- only an ASCII character is one byte -/
  ascii : ∀ b, rep b = 1 → b < 0x80

variable {rep : UInt8 → ℕ}

/-- `itext_ichar`. -/
def Charset.itextIchar (C : Charset rep) (c : Ichar rep) : ℕ :=
  if c.first < 0x80 then c.first.toNat else C.nonAsciiItextIchar c

namespace LispObject

mutual
def eq : LispObject rep → LispObject rep → Bool
  | fixnum n, fixnum n' => n = n'
  | char c, char c' => c = c'
  | string p data, string p' data' => p = p' ∧ data = data'
  | symbol p, symbol p' => p = p'
  | cons p car cdr, cons p' car' cdr' => p = p' ∧ eq car car' ∧ eq cdr cdr'
  | vector p contents, vector p' contents' => p = p' ∧ eqAll contents contents'
  | bitVector p bits, bitVector p' bits' => p = p' ∧ bits = bits'
  | _, _ => false

def eqAll : List (LispObject rep) → List (LispObject rep) → Bool
  | [], [] => true
  | x :: xs, y :: ys => eq x y ∧ eqAll xs ys
  | _, _ => false
end

mutual
theorem eq_iff (a b : LispObject rep) : eq a b = true ↔ a = b := by
  cases a <;> cases b <;> simp [eq]
  case cons.cons p car cdr p' car' cdr' =>
    rw [eq_iff car car', eq_iff cdr cdr']
    exact fun _ => Iff.rfl
  case vector.vector p contents p' contents' =>
    rw [eqAll_iff contents contents']
    exact fun _ => Iff.rfl

theorem eqAll_iff (xs ys : List (LispObject rep)) : eqAll xs ys = true ↔ xs = ys := by
  cases xs <;> cases ys <;> simp [eqAll]
  case cons.cons x xs y ys => rw [eq_iff x y, eqAll_iff xs ys]
end

instance : DecidableEq (LispObject rep) := fun a b => decidable_of_iff _ (eq_iff a b)

/-- The word of an object: `make_fixnum`, `make_char`, or the address; it is also `LISP_HASH`. -/
def lispHash : LispObject rep → UInt64
  | fixnum n => (UInt64.ofInt n <<< 1) ||| 1
  | char c => (UInt64.ofNat c <<< 2) ||| 2
  | string p _ => p
  | symbol p => p
  | cons p _ _ => p
  | vector p _ => p
  | bitVector p _ => p

example : (vector 3 [fixnum 1, vector 4 []] : LispObject repBytesByFirstByte) ≠ vector 3 [fixnum 1, vector 5 []] := by
  decide

end LispObject

end XEmacs.Lisp
