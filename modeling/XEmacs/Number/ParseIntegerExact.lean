import Mathlib.Data.List.TakeWhile
import Mathlib.Tactic.Linarith
import XEmacs.Number.ParseInteger

/-! When `parse_integer` gives the integer that a text denotes. Of a negative integer whose digits still fit
in a word, but not with its sign, it takes the wrong one; and whitespace before an integer that has no fixnum
in the radix table is not skipped. -/

namespace XEmacs.Number

open Table
open Lib.Words (Fits)

variable {v : ℕ} {chars : StandardSyntax} {base : EmacsInt v} {radixTable : CharTable} {junkAllowed : Bool}
variable {text p blanks sign digits rest : List ℕ} {c : ℕ}

def Blank (chars : StandardSyntax) (base : EmacsInt v) (radixTable : CharTable) (c : ℕ) : Prop :=
  chars.whitespace c ∧ digitWeight base radixTable c = none

/-- A text that begins with an integer: whitespace, a sign or none, and digits. -/
structure Numeral (chars : StandardSyntax) (base : EmacsInt v) (radixTable : CharTable)
    (text blanks sign digits rest : List ℕ) : Prop where
  text_eq : text = blanks ++ (sign ++ (digits ++ rest))
  blank : ∀ c ∈ blanks, Blank chars base radixTable c
  signed : sign = [] ∧ digits.head? ≠ some minus ∨ sign = [minus] ∨
    sign = [plus] ∧ digitWeight base radixTable plus = none
  ne_nil : digits ≠ []
  digit : ∀ c ∈ digits, (digitWeight base radixTable c).isSome
  ends : ∀ c ∈ rest.head?, digitWeight base radixTable c = none

def valueFrom (base : EmacsInt v) (radixTable : CharTable) (n : ℕ) (digits : List ℕ) : ℕ :=
  digits.foldl (fun n c => n * base.toNat + (digitWeight base radixTable c).getD 0) n

def signedValue (base : EmacsInt v) (radixTable : CharTable) (sign digits : List ℕ) : ℤ :=
  if sign = [minus] then -valueFrom base radixTable 0 digits else valueFrom base radixTable 0 digits

def Followed (chars : StandardSyntax) (junkAllowed : Bool) (rest : List ℕ) : Prop :=
  junkAllowed ∨ ∀ c ∈ rest, chars.whitespace c

def consumed (junkAllowed : Bool) (text rest : List ℕ) : ℕ :=
  if junkAllowed then text.length - rest.length else text.length

/-- The text denotes an integer, up to some character. -/
def Denotes (chars : StandardSyntax) (base : EmacsInt v) (junkAllowed : Bool) (radixTable : CharTable)
    (text : List ℕ) (value : ℤ) (stop : ℕ) : Prop :=
  ∃ blanks sign digits rest, Numeral chars base radixTable text blanks sign digits rest ∧
    Followed chars junkAllowed rest ∧ value = signedValue base radixTable sign digits ∧
    stop = consumed junkAllowed text rest

/-- The integer that is returned is the one that the text denotes. -/
def ParsesExactly (chars : StandardSyntax) (base : EmacsInt v) (junkAllowed : Bool) (radixTable : CharTable)
    (text : List ℕ) : Prop :=
  ∀ n stop, parseInteger chars base junkAllowed radixTable text = .ok (some n, stop) ↔
    ∃ value, Denotes chars base junkAllowed radixTable text value stop ∧ n = LispNumber.canonicalizeBignum value

/-- Digits that fit in a word, but not in a signed one with a minus sign. -/
def TooNegative (base : EmacsInt v) (radixTable : CharTable) (sign digits : List ℕ) : Prop :=
  sign = [minus] ∧ 2 ^ v < valueFrom base radixTable 0 digits ∧
    valueFrom base radixTable 0 digits.dropLast ≤ (intLimit base).toNat

theorem blank_of_skipped (hfixnum : (fixnumWeight radixTable c).any fun cint => cint < 0 ∨ cint ≥ base.toInt)
    (hspace : chars.whitespace c) : Blank chars base radixTable c := by
  refine ⟨hspace, ?_⟩
  rw [digitWeight]
  cases hw : fixnumWeight radixTable c with
  | none => rfl
  | some cint =>
    rw [hw, Option.any_some, decide_eq_true_eq] at hfixnum
    rw [Option.filter_some, if_neg (by rw [decide_eq_true_eq]; omega), Option.map_none]

theorem skipped_iff : ((fixnumWeight radixTable c).any (fun cint => cint < 0 ∨ cint ≥ base.toInt) ∧
    chars.whitespace c) ↔ Blank chars base radixTable c ∧ (fixnumWeight radixTable c).isSome := by
  constructor
  · rintro ⟨hfixnum, hspace⟩
    refine ⟨blank_of_skipped hfixnum hspace, ?_⟩
    cases hw : fixnumWeight radixTable c with
    | none => rw [hw] at hfixnum; exact absurd hfixnum Bool.false_ne_true
    | some cint => rfl
  · rintro ⟨⟨hspace, hdigit⟩, hsome⟩
    refine ⟨?_, hspace⟩
    obtain ⟨cint, hw⟩ := Option.isSome_iff_exists.mp hsome
    rw [digitWeight, hw, Option.map_eq_none_iff, Option.filter_some, ite_eq_right_iff] at hdigit
    rw [hw, Option.any_some, decide_eq_true_eq]
    by_contra hin
    exact absurd (hdigit (by rw [decide_eq_true_eq]; omega)) (Option.some_ne_none cint)

theorem skipWhitespace_append (hblank : ∀ c ∈ blanks, Blank chars base radixTable c ∧ (fixnumWeight radixTable c).isSome)
    (hc : ¬(Blank chars base radixTable c ∧ (fixnumWeight radixTable c).isSome)) (last : Option ℕ) :
    skipWhitespace chars base radixTable (blanks ++ c :: p) last = (some c, c :: p) := by
  induction blanks generalizing last with
  | nil => exact if_neg fun h => hc (skipped_iff.mp h)
  | cons b blanks ih =>
    rw [List.cons_append, skipWhitespace, if_pos (skipped_iff.mpr (hblank b List.mem_cons_self))]
    exact ih (fun x hx => hblank x (List.mem_cons_of_mem b hx)) (some b)

theorem skipWhitespace_eq (chars : StandardSyntax) (base : EmacsInt v) (radixTable : CharTable) (text : List ℕ)
    (last : Option ℕ) :
    ∃ blanks, (∀ c ∈ blanks, Blank chars base radixTable c ∧ (fixnumWeight radixTable c).isSome) ∧
      text = blanks ++ (skipWhitespace chars base radixTable text last).2 ∧
      ((skipWhitespace chars base radixTable text last).2 = [] ∧
          (∀ c ∈ (skipWhitespace chars base radixTable text last).1, chars.whitespace c ∨ last = some c) ∨
        (skipWhitespace chars base radixTable text last).1 = (skipWhitespace chars base radixTable text last).2.head?) := by
  induction text generalizing last with
  | nil => exact ⟨[], fun c hc => absurd hc List.not_mem_nil, rfl, .inl ⟨rfl, fun c hc => .inr hc⟩⟩
  | cons c p ih =>
    by_cases h : (fixnumWeight radixTable c).any (fun cint => cint < 0 ∨ cint ≥ base.toInt) ∧ chars.whitespace c
    · obtain ⟨blanks, hblank, htext, hlast⟩ := ih (some c)
      rw [skipWhitespace, if_pos h]
      refine ⟨c :: blanks, ?_, congrArg (c :: ·) htext, hlast.imp_left fun ⟨hnil, hspace⟩ => ⟨hnil, fun x hx => ?_⟩⟩
      · intro x hx
        rcases List.mem_cons.mp hx with rfl | hx
        · exact skipped_iff.mp h
        · exact hblank x hx
      · rcases hspace x hx with hx | hx
        · exact .inl hx
        · exact .inl (Option.some.inj hx ▸ h.2)
    · rw [skipWhitespace, if_neg h]
      exact ⟨[], fun c hc => absurd hc List.not_mem_nil, rfl, .inr rfl⟩

/-! ### The digits -/

theorem digitWeight_lt {d : ℕ} (h : digitWeight base radixTable c = some d) : (d : ℤ) < base.toInt := by
  rw [digitWeight, Option.map_eq_some_iff] at h
  obtain ⟨cint, hcint, rfl⟩ := h
  have hin := (Option.filter_eq_some_iff.mp hcint).2
  rw [decide_eq_true_eq] at hin
  omega

theorem readBignum_append (hdigit : ∀ c ∈ digits, (digitWeight base radixTable c).isSome)
    (hends : ∀ c ∈ rest.head?, digitWeight base radixTable c = none) (hbase : base.toInt = base.toNat) (n : ℕ) :
    readBignum base radixTable n (digits ++ rest) = ((valueFrom base radixTable n digits : ℤ), rest) := by
  induction digits generalizing n with
  | nil =>
    cases rest with
    | nil => rfl
    | cons c rest =>
      rw [List.nil_append, readBignum.eq_def]
      dsimp only
      rw [hends c rfl]
      rfl
  | cons c digits ih =>
    obtain ⟨d, hd⟩ := Option.isSome_iff_exists.mp (hdigit c List.mem_cons_self)
    have hcast : (n : ℤ) * base.toInt + d = (n * base.toNat + d : ℕ) := by
      rw [hbase]
      push_cast
      rfl
    rw [List.cons_append, readBignum, hd]
    dsimp only
    rw [hcast, ih fun x hx => hdigit x (List.mem_cons_of_mem c hx), valueFrom, valueFrom, List.foldl_cons, hd]
    rfl

theorem readBignum_digits (hdigit : ∀ c ∈ digits, (digitWeight base radixTable c).isSome)
    (hbase : base.toInt = base.toNat) (n : ℕ) :
    readBignum base radixTable n digits = ((valueFrom base radixTable n digits : ℤ), []) := by
  have hends : ∀ c ∈ ([] : List ℕ).head?, digitWeight base radixTable c = none := fun x hx =>
    absurd hx (Option.not_mem_none x)
  have hread := readBignum_append hdigit hends hbase n
  rwa [List.append_nil] at hread

theorem readDigits_append (hdigit : ∀ c ∈ digits, (digitWeight base radixTable c).isSome)
    (hends : ∀ c ∈ rest.head?, digitWeight base radixTable c = none) (hbase : base.toInt = base.toNat)
    (num onum : EmacsInt v) :
    readDigits base radixTable num onum (digits ++ rest) = ((readDigits base radixTable num onum digits).1, rest) := by
  induction digits generalizing num onum with
  | nil =>
    cases rest with
    | nil => rfl
    | cons c rest =>
      rw [List.nil_append, readDigits.eq_def]
      dsimp only
      rw [hends c rfl]
      rfl
  | cons c digits ih =>
    obtain ⟨d, hd⟩ := Option.isSome_iff_exists.mp (hdigit c List.mem_cons_self)
    have hdigit' : ∀ x ∈ digits, (digitWeight base radixTable x).isSome := fun x hx =>
      hdigit x (List.mem_cons_of_mem c hx)
    rw [List.cons_append, readDigits, readDigits, hd]
    dsimp only
    split_ifs
    · have hcast : (num.toNat : ℤ) * base.toInt + d = (num.toNat * base.toNat + d : ℕ) := by
        rw [hbase]
        push_cast
        rfl
      rw [hcast, readBignum_append hdigit' hends hbase, readBignum_digits hdigit' hbase]
    · exact ih hdigit' _ num

theorem readDigits_eq (radixTable : CharTable) (hbase : base.toInt = base.toNat) (num onum : EmacsInt v) (p : List ℕ) :
    ∃ digits rest, p = digits ++ rest ∧ (∀ c ∈ digits, (digitWeight base radixTable c).isSome) ∧
      (∀ c ∈ rest.head?, digitWeight base radixTable c = none) ∧
      readDigits base radixTable num onum p = ((readDigits base radixTable num onum digits).1, rest) := by
  have hdigit : ∀ c ∈ p.takeWhile fun c => (digitWeight base radixTable c).isSome,
      (digitWeight base radixTable c).isSome := fun c hc =>
    List.mem_takeWhile_imp (p := fun c => (digitWeight base radixTable c).isSome) hc
  have hends : ∀ c ∈ (p.dropWhile fun c => (digitWeight base radixTable c).isSome).head?,
      digitWeight base radixTable c = none := fun c hc => by
    have hnot := List.head?_dropWhile_not (fun c => (digitWeight base radixTable c).isSome) p
    rw [hc] at hnot
    exact Option.not_isSome_iff_eq_none.mp (by simpa using hnot)
  refine ⟨_, _, List.takeWhile_append_dropWhile.symm, hdigit, hends, ?_⟩
  have happend := readDigits_append hdigit hends hbase num onum
  rwa [List.takeWhile_append_dropWhile] at happend

theorem le_valueFrom (hbase : 1 ≤ base.toNat) (n : ℕ) (digits : List ℕ) : n ≤ valueFrom base radixTable n digits := by
  induction digits generalizing n with
  | nil => exact le_refl n
  | cons c digits ih =>
    have hmul : n * 1 ≤ n * base.toNat := Nat.mul_le_mul_left n hbase
    exact (by omega : n ≤ n * base.toNat + (digitWeight base radixTable c).getD 0).trans (ih _)

theorem valueFrom_cons (n : ℕ) (c : ℕ) (digits : List ℕ) : valueFrom base radixTable n (c :: digits) =
    valueFrom base radixTable (n * base.toNat + (digitWeight base radixTable c).getD 0) digits := rfl

theorem intLimit_toNat (base : EmacsInt v) :
    (intLimit base).toNat = (2 ^ (v + 1) - 1 - base.toNat) / base.toNat := by
  have hle : base ≤ BitVec.allOnes (v + 1) := by
    rw [BitVec.le_def, BitVec.toNat_allOnes]
    exact Nat.le_sub_one_of_lt base.isLt
  rw [intLimit, BitVec.toNat_udiv, BitVec.toNat_sub_of_le hle, BitVec.toNat_allOnes]

theorem intLimit_bounds (hbase : 1 ≤ base.toNat) :
    (intLimit base).toNat * base.toNat + base.toNat ≤ 2 ^ (v + 1) - 1 ∧
      2 ^ (v + 1) ≤ ((intLimit base).toNat + 1) * base.toNat + base.toNat := by
  have hdiv := Nat.div_add_mod (2 ^ (v + 1) - 1 - base.toNat) base.toNat
  have hmod := Nat.mod_lt (2 ^ (v + 1) - 1 - base.toNat) hbase
  rw [← intLimit_toNat, mul_comm] at hdiv
  have hsucc : ((intLimit base).toNat + 1) * base.toNat = (intLimit base).toNat * base.toNat + base.toNat := by ring
  omega

section Steps

variable {num : EmacsInt v} {d : ℕ}

theorem toNat_step (hbase : 1 ≤ base.toNat) (hint : base.toInt = base.toNat)
    (hd : digitWeight base radixTable c = some d) (hle : num.toNat ≤ (intLimit base).toNat) :
    (num * base + BitVec.ofNat _ d).toNat = num.toNat * base.toNat + d ∧
      num * base + BitVec.ofNat _ d ≠ BitVec.allOnes _ := by
  have hlt := digitWeight_lt hd
  have hmul := Nat.mul_le_mul_right base.toNat hle
  have hbound := (intLimit_bounds hbase).1
  have htoNat : (num * base + BitVec.ofNat (v + 1) d).toNat = num.toNat * base.toNat + d := by
    rw [BitVec.toNat_add, BitVec.toNat_mul, BitVec.toNat_ofNat, ← Nat.add_mod]
    exact Nat.mod_eq_of_lt (by omega)
  refine ⟨htoNat, fun h => ?_⟩
  rw [h, BitVec.toNat_allOnes] at htoNat
  omega

theorem readDigits_cons_of_le (hd : digitWeight base radixTable c = some d)
    (hle : num.toNat ≤ (intLimit base).toNat) (onum : EmacsInt v) (digits : List ℕ) :
    readDigits base radixTable num onum (c :: digits) =
      readDigits base radixTable (num * base + BitVec.ofNat _ d) num digits := by
  rw [readDigits, hd]
  exact if_neg (not_lt.mpr hle)

theorem valueFrom_step (hbase : 1 ≤ base.toNat) (hint : base.toInt = base.toNat)
    (hd : digitWeight base radixTable c = some d) (hle : num.toNat ≤ (intLimit base).toNat) (digits : List ℕ) :
    valueFrom base radixTable num.toNat (c :: digits) =
      valueFrom base radixTable (num * base + BitVec.ofNat _ d).toNat digits := by
  rw [valueFrom_cons, hd, (toNat_step hbase hint hd hle).1]
  rfl

end Steps

theorem readDigits_value (hbase : 1 ≤ base.toNat) (hint : base.toInt = base.toNat) (hne : digits ≠ [])
    (hdigit : ∀ c ∈ digits, (digitWeight base radixTable c).isSome) {num : EmacsInt v} (onum : EmacsInt v)
    (hnum : num ≠ BitVec.allOnes _) :
    (readDigits base radixTable num onum digits).1.onum ≠ BitVec.allOnes _ ∧
      if valueFrom base radixTable num.toNat digits.dropLast ≤ (intLimit base).toNat then
        (readDigits base radixTable num onum digits).1.result = none ∧
          (readDigits base radixTable num onum digits).1.num.toNat = valueFrom base radixTable num.toNat digits
      else (readDigits base radixTable num onum digits).1.result =
        some (valueFrom base radixTable num.toNat digits : ℤ) := by
  induction digits generalizing num onum with
  | nil => exact absurd rfl hne
  | cons c digits ih =>
    obtain ⟨d, hd⟩ := Option.isSome_iff_exists.mp (hdigit c List.mem_cons_self)
    have hdigit' : ∀ x ∈ digits, (digitWeight base radixTable x).isSome := fun x hx =>
      hdigit x (List.mem_cons_of_mem c hx)
    by_cases hsmall : num.toNat ≤ (intLimit base).toNat
    · rw [readDigits_cons_of_le hd hsmall, valueFrom_step hbase hint hd hsmall]
      cases digits with
      | nil =>
        rw [List.dropLast_singleton, if_pos (show valueFrom base radixTable num.toNat [] ≤ _ from hsmall)]
        exact ⟨hnum, rfl, rfl⟩
      | cons c' digits =>
        rw [List.dropLast_cons_cons, valueFrom_step hbase hint hd hsmall]
        exact ih (List.cons_ne_nil c' digits) hdigit' num (toNat_step hbase hint hd hsmall).2
    · have hcast : (num.toNat : ℤ) * base.toInt + d = (num.toNat * base.toNat + d : ℕ) := by
        rw [hint]
        push_cast
        rfl
      rw [if_neg fun hle => hsmall ((le_valueFrom hbase _ _).trans hle), readDigits, hd]
      dsimp only
      rw [if_pos (show num > intLimit base from not_le.mp hsmall), hcast, readBignum_digits hdigit' hint,
        valueFrom_cons, hd]
      exact ⟨hnum, rfl⟩

theorem valueFrom_dropLast (base : EmacsInt v) (radixTable : CharTable) (hne : digits ≠ []) : ∃ d, valueFrom base radixTable 0 digits =
    valueFrom base radixTable 0 digits.dropLast * base.toNat + d := by
  refine ⟨(digitWeight base radixTable (digits.getLast hne)).getD 0, ?_⟩
  conv => lhs; rw [← List.dropLast_append_getLast hne]
  rw [valueFrom, List.foldl_append]
  rfl

section Integers

variable {num : EmacsInt v}

theorem makeUnsignedInteger_eq (x : EmacsInt v) :
    makeUnsignedInteger x = LispNumber.canonicalizeBignum (x.toNat : ℤ) := by
  have hcast : ((2 ^ (v - 1) : ℕ) : ℤ) = 2 ^ (v - 1) := by push_cast; rfl
  have hpos := Lib.Words.two_pow_pos (v - 1)
  rw [makeUnsignedInteger]
  split_ifs with h
  · rw [LispNumber.canonicalizeBignum_of_fits ⟨by omega, by omega⟩, makeFixnum,
      Lib.Words.setWidth_eq_ofInt_toNat]
  · rw [LispNumber.canonicalizeBignum_of_not_fits fun hfits => h (by have hlt := hfits.2; omega)]

theorem toInt_neg_word (num : EmacsInt v) :
    (-num).toInt = if num.toNat ≤ 2 ^ v then -(num.toNat : ℤ) else 2 ^ (v + 1) - (num.toNat : ℤ) := by
  have hlt := num.isLt
  have hcast : ((2 ^ (v + 1) : ℕ) : ℤ) = 2 ^ (v + 1) := by push_cast; rfl
  rw [BitVec.toInt_eq_toNat_cond, BitVec.toNat_neg]
  by_cases hzero : num.toNat = 0
  · rw [hzero, Nat.sub_zero, Nat.mod_self, if_pos (by omega), if_pos (by omega)]
    rfl
  · rw [Nat.mod_eq_of_lt (by omega)]
    split_ifs <;> omega

theorem wordInteger_eq_iff (hv : 0 < v) (negativland : Bool) :
    wordInteger negativland num = LispNumber.canonicalizeBignum (negated negativland num.toNat) ↔
      ¬(negativland ∧ 2 ^ v < num.toNat) := by
  have hlt := num.isLt
  have hcast : ((2 ^ (v + 1) : ℕ) : ℤ) = 2 ^ (v + 1) := by push_cast; rfl
  cases negativland with
  | false => exact iff_of_true (makeUnsignedInteger_eq num) fun h => Bool.false_ne_true h.1
  | true =>
    rw [wordInteger, if_pos rfl, makeInteger_eq, negated, if_pos rfl, toInt_neg_word]
    split_ifs with hle
    · exact iff_of_true (by rw [mul_neg_one]) fun h => absurd h.2 (not_lt.mpr hle)
    · refine iff_of_false (fun h => ?_) fun h => h ⟨rfl, not_le.mp hle⟩
      have hvalue := congrArg LispNumber.value h
      rw [LispNumber.canonicalizeBignum_value hv, LispNumber.canonicalizeBignum_value hv] at hvalue
      have heq : (2 : ℤ) ^ (v + 1) - (num.toNat : ℤ) = (num.toNat : ℤ) * -1 := by exact_mod_cast hvalue
      omega

end Integers

/-! ### Parsing -/

structure FixnumBase (base : EmacsInt v) : Prop where
  pos : 1 ≤ base.toInt
  lt : base.toInt < 2 ^ (v - 1)

namespace FixnumBase

variable (hbase : FixnumBase base)

include hbase

theorem toInt_eq : base.toInt = base.toNat := by
  have hpos := hbase.pos
  exact (Lib.Words.toNat_of_nonneg (by omega)).symm

theorem toNat_pos : 1 ≤ base.toNat := by
  have hpos := hbase.pos
  have heq := hbase.toInt_eq
  omega

theorem width_pos : 0 < v := by
  have hpos := hbase.pos
  have hlt := hbase.lt
  by_contra h
  obtain rfl : v = 0 := by omega
  rw [Nat.zero_sub, pow_zero] at hlt
  omega

theorem not_fits (hne : digits ≠ [])
    (hlt : (intLimit base).toNat < valueFrom base radixTable 0 digits.dropLast) (negativland : Bool) :
    ¬Fits v (negated negativland (valueFrom base radixTable 0 digits : ℕ)) := by
  obtain ⟨d, hd⟩ := valueFrom_dropLast base radixTable hne
  have hbound := (intLimit_bounds hbase.toNat_pos).2
  have hmul : ((intLimit base).toNat + 1) * base.toNat ≤ _ := Nat.mul_le_mul_right base.toNat hlt
  have hsmall := hbase.lt
  have heq := hbase.toInt_eq
  have hcast : ((2 ^ (v + 1) : ℕ) : ℤ) = 4 * 2 ^ (v - 1) := by
    obtain ⟨k, rfl⟩ := Nat.exists_eq_add_of_le' hbase.width_pos
    push_cast
    ring
  rintro ⟨hlow, hhigh⟩
  rw [negated] at hlow hhigh
  split_ifs at hlow hhigh <;> omega

theorem read_digits (hne : digits ≠ []) (hdigit : ∀ c ∈ digits, (digitWeight base radixTable c).isSome)
    (negativland : Bool) :
    (readDigits base radixTable 0 (BitVec.allOnes _) digits).1.onum ≠ BitVec.allOnes _ ∧
      stoppedInteger negativland (readDigits base radixTable 0 (BitVec.allOnes _) digits).1 =
        some (finishedInteger negativland (readDigits base radixTable 0 (BitVec.allOnes _) digits).1) ∧
      (finishedInteger negativland (readDigits base radixTable 0 (BitVec.allOnes _) digits).1 =
          LispNumber.canonicalizeBignum (negated negativland (valueFrom base radixTable 0 digits : ℕ)) ↔
        ¬(negativland ∧ 2 ^ v < valueFrom base radixTable 0 digits ∧
          valueFrom base radixTable 0 digits.dropLast ≤ (intLimit base).toNat)) := by
  have hzero : (0 : EmacsInt v) ≠ BitVec.allOnes _ := fun h => by
    have htoNat := congrArg BitVec.toNat h
    have hpow : 2 ^ 1 ≤ 2 ^ (v + 1) := Nat.pow_le_pow_right Nat.two_pos (by omega)
    rw [BitVec.toNat_allOnes, show (0 : EmacsInt v).toNat = 0 from rfl] at htoNat
    omega
  obtain ⟨honum, hvalue⟩ := readDigits_value hbase.toNat_pos hbase.toInt_eq hne hdigit (BitVec.allOnes _) hzero
  rw [show (0 : EmacsInt v).toNat = 0 from rfl] at hvalue
  by_cases hle : valueFrom base radixTable 0 digits.dropLast ≤ (intLimit base).toNat
  · rw [if_pos hle] at hvalue
    obtain ⟨hresult, hnum⟩ := hvalue
    rw [stoppedInteger, finishedInteger, hresult]
    dsimp only
    rw [if_neg honum, ← show _ = valueFrom base radixTable 0 digits from hnum,
      wordInteger_eq_iff hbase.width_pos, hnum, and_iff_left hle]
    exact ⟨honum, rfl, Iff.rfl⟩
  · rw [if_neg hle] at hvalue
    have hnot := hbase.not_fits hne (not_le.mp hle) negativland
    rw [stoppedInteger, finishedInteger, hvalue]
    dsimp only
    refine ⟨honum, ?_, iff_of_true rfl fun h => hle h.2.2⟩
    exact congrArg some (LispNumber.canonicalizeBignum_of_not_fits hnot).symm

end FixnumBase

variable {negativland : Bool}

theorem parseDigits_append (hbase : FixnumBase base) (hne : digits ≠ [])
    (hdigit : ∀ c ∈ digits, (digitWeight base radixTable c).isSome)
    (hends : ∀ c ∈ rest.head?, digitWeight base radixTable c = none) :
    (Followed chars junkAllowed rest → parseDigits chars base junkAllowed radixTable text negativland (digits ++ rest) =
      .ok (some (finishedInteger negativland (readDigits base radixTable 0 (BitVec.allOnes _) digits).1),
        consumed junkAllowed text rest)) ∧
    (¬Followed chars junkAllowed rest →
      parseDigits chars base junkAllowed radixTable text negativland (digits ++ rest) = .error ⟨text, base⟩) := by
  obtain ⟨honum, hstopped, -⟩ := hbase.read_digits hne hdigit negativland
  rw [parseDigits, readDigits_append hdigit hends hbase.toInt_eq]
  dsimp only
  by_cases hnil : rest = []
  · rw [if_pos ⟨hnil, .inr honum⟩, consumed, hnil]
    refine ⟨fun _ => ?_, fun hnot => absurd (.inr fun c hc => absurd hc List.not_mem_nil) hnot⟩
    rw [List.length_nil, Nat.sub_zero, ite_self]
  · rw [if_neg fun h => hnil h.1, hstopped, Followed, consumed]
    cases junkAllowed with
    | true => exact ⟨fun _ => if_pos (.inl rfl), fun hnot => absurd (.inl rfl) hnot⟩
    | false =>
      have hiff : rest.dropWhile chars.whitespace = [] ↔ ∀ c ∈ rest, chars.whitespace c :=
        List.dropWhile_eq_nil_iff
      rw [if_neg Bool.false_ne_true, if_neg Bool.false_ne_true]
      refine ⟨fun hfollowed => ?_, fun hnot => if_neg ?_⟩
      · have hdrop := hiff.mpr (hfollowed.resolve_left Bool.false_ne_true)
        rw [if_pos (.inr ⟨hdrop, honum⟩), hdrop, List.length_nil, Nat.sub_zero]
      · rintro (hfalse | hdrop)
        · exact Bool.false_ne_true hfalse
        · exact hnot (.inr (hiff.mp hdrop.1))

theorem parseDigits_ne_some (hends : ∀ c ∈ p.head?, digitWeight base radixTable c = none) (n : LispNumber v)
    (stop : ℕ) : parseDigits chars base junkAllowed radixTable text negativland p ≠ .ok (some n, stop) := by
  have hread : readDigits base radixTable 0 (BitVec.allOnes _) p = (⟨0, BitVec.allOnes _, none⟩, p) := by
    cases p with
    | nil => rfl
    | cons c p =>
      rw [readDigits.eq_def]
      dsimp only
      rw [hends c rfl]
  rw [parseDigits, hread]
  dsimp only
  rw [if_neg fun h => h.2.elim Bool.false_ne_true fun h => h rfl, stoppedInteger]
  dsimp only
  rw [if_pos rfl]
  intro h
  split_ifs at h <;> exact absurd (Prod.mk.inj (Except.ok.inj h)).1 (Option.some_ne_none n).symm

namespace Numeral

variable (h : Numeral chars base radixTable text blanks sign digits rest)

include h

theorem exists_head : ∃ c p, sign ++ (digits ++ rest) = c :: p ∧ ¬Blank chars base radixTable c := by
  rcases h.signed with ⟨rfl, -⟩ | rfl | ⟨rfl, -⟩
  · obtain ⟨c, digits', rfl⟩ := List.exists_cons_of_ne_nil h.ne_nil
    refine ⟨c, digits' ++ rest, rfl, fun hblank => ?_⟩
    have hdigit := h.digit c List.mem_cons_self
    rw [hblank.2] at hdigit
    exact Bool.false_ne_true hdigit
  · exact ⟨minus, digits ++ rest, rfl, fun hblank => Bool.false_ne_true (chars.minus_eq.symm.trans hblank.1)⟩
  · exact ⟨plus, digits ++ rest, rfl, fun hblank => Bool.false_ne_true (chars.plus_eq.symm.trans hblank.1)⟩

theorem dropSignOf_eq : dropSignOf base radixTable (sign ++ (digits ++ rest)).head? (sign ++ (digits ++ rest)) =
    (decide (sign = [minus]), digits ++ rest) := by
  rcases h.signed with ⟨rfl, hfirst⟩ | rfl | ⟨rfl, hplus⟩
  · obtain ⟨c, digits', rfl⟩ := List.exists_cons_of_ne_nil h.ne_nil
    rw [List.head?_cons] at hfirst
    rw [List.nil_append, List.cons_append, List.head?_cons, dropSignOf, if_neg hfirst, if_neg]
    · rfl
    · rintro ⟨hc, hnone⟩
      obtain rfl := Option.some.inj hc
      have hdigit := h.digit plus List.mem_cons_self
      rw [Option.isNone_iff_eq_none.mp hnone] at hdigit
      exact Bool.false_ne_true hdigit
  · rfl
  · rw [List.singleton_append, List.head?_cons, dropSignOf, if_neg (by decide), if_pos ⟨rfl, by rw [hplus]; rfl⟩]
    rfl

theorem parseInteger_eq (hfixnum : ∀ c ∈ blanks, (fixnumWeight radixTable c).isSome) :
    parseInteger chars base junkAllowed radixTable text =
      parseDigits chars base junkAllowed radixTable text (decide (sign = [minus])) (digits ++ rest) := by
  obtain ⟨c, p, hp, hc⟩ := h.exists_head
  have hskip : skipWhitespace chars base radixTable text none =
      ((sign ++ (digits ++ rest)).head?, sign ++ (digits ++ rest)) := by
    rw [h.text_eq, hp]
    exact skipWhitespace_append (fun x hx => ⟨h.blank x hx, hfixnum x hx⟩) (fun hskipped => hc hskipped.1) none
  rw [parseInteger, hskip]
  dsimp only
  rw [h.dropSignOf_eq]

theorem blanks_unique {blanks' sign' digits' rest' : List ℕ}
    (h' : Numeral chars base radixTable text blanks' sign' digits' rest') : blanks = blanks' := by
  obtain ⟨c, p, hp, hc⟩ := h.exists_head
  obtain ⟨c', p', hp', hc'⟩ := h'.exists_head
  have heq := h.text_eq.symm.trans h'.text_eq
  have hblank := h.blank
  have hblank' := h'.blank
  rw [hp, hp'] at heq
  clear h h'
  induction blanks generalizing blanks' with
  | nil =>
    cases blanks' with
    | nil => rfl
    | cons b blanks' =>
      obtain ⟨rfl, -⟩ := List.cons.inj heq
      exact absurd (hblank' c List.mem_cons_self) hc
  | cons b blanks ih =>
    cases blanks' with
    | nil =>
      obtain ⟨rfl, -⟩ := List.cons.inj heq
      exact absurd (hblank b List.mem_cons_self) hc'
    | cons b' blanks' =>
      obtain ⟨rfl, htail⟩ := List.cons.inj heq
      rw [ih htail (fun x hx => hblank x (List.mem_cons_of_mem b hx)) fun x hx => hblank' x (List.mem_cons_of_mem b hx)]

end Numeral

theorem parseInteger_unsigned (hbase : FixnumBase base) (hne : digits ≠ [])
    (hdigit : ∀ c ∈ digits, (digitWeight base radixTable c).isSome) (hminus : digits.head? ≠ some minus)
    (hends : ∀ c ∈ rest.head?, digitWeight base radixTable c = none) (hfollowed : Followed chars junkAllowed rest) :
    parseInteger chars base junkAllowed radixTable (digits ++ rest) =
      .ok (some (LispNumber.canonicalizeBignum (valueFrom base radixTable 0 digits : ℕ)),
        consumed junkAllowed (digits ++ rest) rest) := by
  have hnumeral : Numeral chars base radixTable (digits ++ rest) [] [] digits rest :=
    ⟨rfl, fun c hc => absurd hc List.not_mem_nil, .inl ⟨rfl, hminus⟩, hne, hdigit, hends⟩
  obtain ⟨-, -, hright⟩ := hbase.read_digits hne hdigit false
  rw [hnumeral.parseInteger_eq fun c hc => absurd hc List.not_mem_nil,
    (parseDigits_append hbase hne hdigit hends).1 hfollowed, show decide (([] : List ℕ) = [minus]) = false from rfl,
    hright.mpr fun h => absurd h.1 Bool.false_ne_true]
  rfl

theorem digits_of_parseDigits (hbase : FixnumBase base) {n : LispNumber v} {stop : ℕ}
    (h : parseDigits chars base junkAllowed radixTable text negativland p = .ok (some n, stop)) :
    ∃ digits rest, p = digits ++ rest ∧ digits ≠ [] ∧ (∀ c ∈ digits, (digitWeight base radixTable c).isSome) ∧
      ∀ c ∈ rest.head?, digitWeight base radixTable c = none := by
  obtain ⟨digits, rest, rfl, hdigit, hends, -⟩ :=
    readDigits_eq radixTable hbase.toInt_eq 0 (BitVec.allOnes _) p
  refine ⟨digits, rest, rfl, ?_, hdigit, hends⟩
  rintro rfl
  exact parseDigits_ne_some hends n stop h

theorem numeral_of_parseInteger (hbase : FixnumBase base) {n : LispNumber v} {stop : ℕ}
    (h : parseInteger chars base junkAllowed radixTable text = .ok (some n, stop)) :
    ∃ blanks sign digits rest, Numeral chars base radixTable text blanks sign digits rest ∧
      ∀ c ∈ blanks, (fixnumWeight radixTable c).isSome := by
  obtain ⟨blanks, hskipped, htext, hlast⟩ :=
    skipWhitespace_eq chars base radixTable text none
  rw [parseInteger] at h
  revert h htext hlast
  obtain ⟨last, p⟩ := skipWhitespace chars base radixTable text none
  intro h htext hlast
  have hdigits : parseDigits chars base junkAllowed radixTable text (dropSignOf base radixTable last p).1
      (dropSignOf base radixTable last p).2 = .ok (some n, stop) := h
  obtain ⟨digits, rest, hp, hne, hdigit, hends⟩ := digits_of_parseDigits hbase hdigits
  have hblank : ∀ c ∈ blanks, Blank chars base radixTable c := fun c hc => (hskipped c hc).1
  refine ⟨blanks, ?_⟩
  cases p with
  | nil =>
    have hnil : (dropSignOf base radixTable last []).2 = [] := by
      rw [dropSignOf]
      split_ifs <;> rfl
    rw [hnil] at hp
    exact absurd (List.append_eq_nil_iff.mp hp.symm).1 hne
  | cons c p =>
    obtain rfl : last = some c := hlast.resolve_left fun hnil => List.cons_ne_nil c p hnil.1
    rw [dropSignOf] at hp
    split_ifs at hp with hminus hplus
    · obtain rfl := Option.some.inj hminus
      exact ⟨[minus], digits, rest, ⟨by rw [htext, ← hp]; rfl, hblank, .inr (.inl rfl), hne, hdigit, hends⟩,
        fun c hc => (hskipped c hc).2⟩
    · obtain ⟨hplus, hnone⟩ := hplus
      obtain rfl := Option.some.inj hplus
      exact ⟨[plus], digits, rest, ⟨by rw [htext, ← hp]; rfl, hblank,
        .inr (.inr ⟨rfl, Option.isNone_iff_eq_none.mp hnone⟩), hne, hdigit, hends⟩, fun c hc => (hskipped c hc).2⟩
    · obtain ⟨c', digits', rfl⟩ := List.exists_cons_of_ne_nil hne
      obtain ⟨rfl, -⟩ := List.cons.inj hp
      exact ⟨[], c :: digits', rest, ⟨by rw [htext, hp]; rfl, hblank, .inl ⟨rfl, hminus⟩, hne, hdigit, hends⟩,
        fun c hc => (hskipped c hc).2⟩

theorem negated_eq : negated (decide (sign = [minus])) (valueFrom base radixTable 0 digits : ℕ) =
    signedValue base radixTable sign digits := by
  rw [negated, signedValue]
  simp only [decide_eq_true_eq, mul_neg_one]

/-- The integer of a text is parsed exactly just where the blanks before it are fixnums and it is
not too negative for the word that its digits fit in. -/
theorem parseInteger_exact_iff (hbase : FixnumBase base) (chars : StandardSyntax) (junkAllowed : Bool)
    (radixTable : CharTable) (text : List ℕ) : ParsesExactly chars base junkAllowed radixTable text ↔
      ∀ blanks sign digits rest, Numeral chars base radixTable text blanks sign digits rest →
        Followed chars junkAllowed rest →
        (∀ c ∈ blanks, (fixnumWeight radixTable c).isSome) ∧ ¬TooNegative base radixTable sign digits := by
  constructor
  · intro hexact blanks sign digits rest hnumeral hfollowed
    have hparse := (hexact _ _).mpr ⟨_, ⟨blanks, sign, digits, rest, hnumeral, hfollowed, rfl, rfl⟩, rfl⟩
    obtain ⟨blanks', sign', digits', rest', hnumeral', hfixnum⟩ := numeral_of_parseInteger hbase hparse
    rw [← hnumeral.blanks_unique hnumeral'] at hfixnum
    refine ⟨hfixnum, fun hneg => ?_⟩
    obtain ⟨-, -, hright⟩ := hbase.read_digits hnumeral.ne_nil hnumeral.digit (decide (sign = [minus]))
    rw [hnumeral.parseInteger_eq hfixnum,
      (parseDigits_append hbase hnumeral.ne_nil hnumeral.digit hnumeral.ends).1 hfollowed] at hparse
    refine hright.mp ?_ ⟨decide_eq_true hneg.1, hneg.2⟩
    rw [negated_eq]
    exact Option.some.inj (Prod.mk.inj (Except.ok.inj hparse)).1
  · intro hok n stop
    have hforward {blanks sign digits rest : List ℕ}
        (hnumeral : Numeral chars base radixTable text blanks sign digits rest)
        (hfixnum : ∀ c ∈ blanks, (fixnumWeight radixTable c).isSome) (hfollowed : Followed chars junkAllowed rest) :
        parseInteger chars base junkAllowed radixTable text =
          .ok (some (LispNumber.canonicalizeBignum (signedValue base radixTable sign digits)),
            consumed junkAllowed text rest) := by
      obtain ⟨-, -, hright⟩ := hbase.read_digits hnumeral.ne_nil hnumeral.digit (decide (sign = [minus]))
      have hnot := (hok blanks sign digits rest hnumeral hfollowed).2
      rw [hnumeral.parseInteger_eq hfixnum,
        (parseDigits_append hbase hnumeral.ne_nil hnumeral.digit hnumeral.ends).1 hfollowed,
        hright.mpr fun hneg => hnot ⟨of_decide_eq_true hneg.1, hneg.2⟩, negated_eq]
    constructor
    · intro hparse
      obtain ⟨blanks, sign, digits, rest, hnumeral, hfixnum⟩ := numeral_of_parseInteger hbase hparse
      have hfollowed : Followed chars junkAllowed rest := by
        by_contra hnot
        rw [hnumeral.parseInteger_eq hfixnum,
          (parseDigits_append hbase hnumeral.ne_nil hnumeral.digit hnumeral.ends).2 hnot] at hparse
        cases hparse
      obtain ⟨hn, hstop⟩ := Prod.mk.inj (Except.ok.inj ((hforward hnumeral hfixnum hfollowed).symm.trans hparse))
      exact ⟨_, ⟨blanks, sign, digits, rest, hnumeral, hfollowed, rfl, hstop.symm⟩, (Option.some.inj hn).symm⟩
    · rintro ⟨value, ⟨blanks, sign, digits, rest, hnumeral, hfollowed, rfl, rfl⟩, rfl⟩
      exact hforward hnumeral (hok blanks sign digits rest hnumeral hfollowed).1 hfollowed

theorem findRegion_eq (start stop : ℕ) (string : List ℕ) (ii : ℕ) (hle : ii ≤ stop) :
    findRegion start stop string ii (min start ii) =
      (min stop (ii + string.length), min start (min stop (ii + string.length))) := by
  induction string generalizing ii with
  | nil => rw [findRegion, List.length_nil, Nat.add_zero, min_eq_right hle]
  | cons c string ih =>
    rw [findRegion, List.length_cons]
    by_cases hlt : ii < stop
    · have hstart : (if ii < start then ii + 1 else min start ii) = min start (ii + 1) := by
        split_ifs <;> omega
      rw [if_pos hlt, hstart, ih (ii + 1) hlt, show ii + 1 + string.length = ii + (string.length + 1) by omega]
    · rw [if_neg hlt, show min stop (ii + (string.length + 1)) = ii by omega]

theorem fparseInteger_eq {greatest : Option ℕ} {string : List ℕ} {start stop : ℕ} {radix : LispNumber v} {radixing : ℕ}
    (hradix : checkRadix radix (greatest.getD 0xFFFF) = .ok radixing) (hstart : start ≤ stop)
    (hstop : stop ≤ string.length) :
    fparseInteger chars greatest string start (some stop) radix junkAllowed radixTable =
      parsedFrom start
        (parseInteger chars (BitVec.ofNat _ radixing) junkAllowed radixTable ((string.take stop).drop start)) := by
  have hregion : findRegion start stop string 0 0 = (stop, start) := by
    have hfound := findRegion_eq start stop string 0 (Nat.zero_le stop)
    rwa [Nat.zero_add, min_eq_left hstop, Nat.min_zero, min_eq_left hstart] at hfound
  rw [fparseInteger, hradix]
  dsimp only [Option.getD_some]
  rw [hregion]
  exact if_neg (by omega)

def spaces : StandardSyntax := ⟨fun c => c = 32 ∨ c = 9 ∨ c = 10 ∨ c = 13, rfl, rfl⟩

def decimalTable (other : TableValue) : CharTable where
  table := .subtab fun i => if 48 ≤ i.val ∧ i.val ≤ 57 then .val (some (.fixnum (i.val - 48))) else .val none
  levels := 1
  default_ := other
  type := .generic

def decimalBase : EmacsInt 63 := 10

theorem fixnumBase_decimalBase : FixnumBase decimalBase := ⟨by decide, by decide⟩

theorem parseInteger_exact_iff_twelve : ParsesExactly spaces decimalBase false (decimalTable (.fixnum (-1))) [32, 45, 49, 50] ↔
    ∀ blanks sign digits rest, Numeral spaces decimalBase (decimalTable (.fixnum (-1))) [32, 45, 49, 50] blanks sign digits rest →
      Followed spaces false rest → (∀ c ∈ blanks, (fixnumWeight (decimalTable (.fixnum (-1))) c).isSome) ∧
        ¬TooNegative decimalBase (decimalTable (.fixnum (-1))) sign digits :=
  parseInteger_exact_iff fixnumBase_decimalBase spaces false (decimalTable (.fixnum (-1))) [32, 45, 49, 50]

def largeDigits : List ℕ := [49, 56, 52, 52, 54, 55, 52, 52, 48, 55, 51, 55, 48, 57, 53, 53, 49, 54, 48, 57]

/-- With a minus sign these digits are read as 7, and a blank that is not given a fixnum is not skipped. -/
theorem parseInteger_not_exact :
    parseInteger spaces decimalBase false (decimalTable (.fixnum (-1))) (minus :: largeDigits) = .ok (some (.fixnum 7), 21) ∧
      ¬ParsesExactly spaces decimalBase false (decimalTable (.fixnum (-1))) (minus :: largeDigits) ∧
      ¬ParsesExactly spaces decimalBase false (decimalTable .nil) [32, 49, 50] := by
  have hseven : parseInteger spaces decimalBase false (decimalTable (.fixnum (-1))) (minus :: largeDigits) =
      .ok (some (.fixnum 7), 21) := by decide +kernel
  refine ⟨hseven, fun hexact => ?_, fun hexact => ?_⟩
  · have hnumeral : Numeral spaces decimalBase (decimalTable (.fixnum (-1))) (minus :: largeDigits) [] [minus] largeDigits [] :=
      ⟨rfl, fun c hc => absurd hc List.not_mem_nil, .inr (.inl rfl), by decide, by decide +kernel,
        fun c hc => absurd hc (Option.not_mem_none c)⟩
    have hparse := (hexact _ _).mpr ⟨_, ⟨_, _, _, _, hnumeral, .inr fun c hc => absurd hc List.not_mem_nil, rfl, rfl⟩, rfl⟩
    revert hparse
    decide +kernel
  · have hnumeral : Numeral spaces decimalBase (decimalTable .nil) [32, 49, 50] [32] [] [49, 50] [] :=
      ⟨rfl, by unfold Blank; decide +kernel, .inl ⟨rfl, by decide⟩, by decide, by decide +kernel,
        fun c hc => absurd hc (Option.not_mem_none c)⟩
    have hparse := (hexact _ _).mpr ⟨_, ⟨_, _, _, _, hnumeral, .inr fun c hc => absurd hc List.not_mem_nil, rfl, rfl⟩, rfl⟩
    revert hparse
    decide +kernel

end XEmacs.Number
