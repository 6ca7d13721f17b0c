import Mathlib.Algebra.Group.Basic
import XEmacs.Sequence.MismatchLoops

/-! When `mismatch` gives what Common Lisp says. Each function is computed on valid bounds from
the two subsequences, and the condition says for each pair of representations what it takes for
that to be the right index. -/

namespace XEmacs.Sequences

open Lib

variable {Obj : Type} {L : Objects Obj} (T : Test Obj)

section

variable {α : Type} {xs : List α} {start : ℕ} {ending : Option ℕ} {e : ℤ} {n : ℕ}

/-- `e` serves as the end of a list of length `n`. -/
def Ends (n : ℕ) (ending : Option ℕ) (e : ℤ) : Prop :=
  match ending with
  | none => n ≤ e
  | some k => e = k

theorem elemcount_eq (hn : n ≤ L.mostPositiveFixnum) : L.elemcount n = n :=
  if_pos hn

theorem ends_elemcountOrNil (h : ValidRange xs.length start ending)
    (hlength : xs.length ≤ L.mostPositiveFixnum) :
    Ends xs.length ending (L.elemcountOrNil ending) := by
  cases ending with
  | none =>
    show (xs.length : ℤ) ≤ 1 + L.mostPositiveFixnum
    omega
  | some k => exact elemcount_eq (le_trans h.2 hlength)

theorem ends_mostPositiveFixnum (h : ValidRange xs.length start ending)
    (hlength : xs.length ≤ L.mostPositiveFixnum) :
    Ends xs.length ending
      (if ending.isSome then L.elemcountOrNil ending else L.mostPositiveFixnum) := by
  cases ending with
  | none => exact Int.ofNat_le.mpr hlength
  | some k => exact ends_elemcountOrNil h hlength

namespace Ends

theorem exists_eq (he : Ends xs.length ending e) (h : ValidRange xs.length start ending) :
    ∃ n : ℕ, e = start + n := by
  obtain ⟨hle, hlast⟩ := h
  refine ⟨(e - start).toNat, ?_⟩
  cases ending <;> simp only [Ends, Option.getD_none, Option.getD_some] at * <;> omega

theorem take_eq (he : Ends xs.length ending e) (hn : e = start + n) :
    (xs.drop start).take n = subseq xs start ending := by
  cases ending with
  | none =>
    have hle : (xs.length : ℤ) ≤ e := he
    rw [subseq, Option.getD_none, List.take_of_length_le (by rw [List.length_drop]; omega),
      List.take_of_length_le (by rw [List.length_drop])]
  | some k =>
    have hk : e = k := he
    rw [subseq, Option.getD_some, show n = k - start by omega]

theorem length_eq (he : Ends xs.length ending e) (hn : e = start + n) :
    min n (xs.length - start) = (subseq xs start ending).length := by
  rw [← he.take_eq hn, List.length_take, List.length_drop]

theorem of_min (he : Ends xs.length ending e) (h : ValidRange xs.length start ending) :
    Ends xs.length ending (min e xs.length) := by
  obtain ⟨hle, hlast⟩ := h
  cases ending <;> simp only [Ends, Option.getD_none, Option.getD_some] at * <;> omega

section

variable {m : ℕ} (he : Ends xs.length ending e) (hn : e = start + n)
  (h : ValidRange xs.length start ending) (hm : m ≤ (subseq xs start ending).length)

include he hn h hm

theorem left_iff_or (p : Prop) (hp : p ↔ m ≠ n) :
    (ending.isSome ∧ p) ∨ (ending.isNone ∧ (xs.drop start).drop m ≠ []) ↔
      m < (subseq xs start ending).length := by
  rw [length_subseq h] at hm ⊢
  rw [hp]
  obtain ⟨hle, hlast⟩ := h
  cases ending with
  | none =>
    simp only [Option.isSome_none, Bool.false_eq_true, false_and, false_or, Option.isNone_none,
      true_and, List.drop_drop, Ne, List.drop_eq_nil_iff, Option.getD_none] at *
    omega
  | some k =>
    have hk : e = k := he
    simp only [Option.isSome_some, true_and, Option.isNone_some, Bool.false_eq_true, false_and,
      or_false, Option.getD_some] at *
    omega

theorem left_iff {s s' : ℤ} (hs : s' = s + n) :
    (if ending.isNone then (xs.drop start).drop m ≠ [] else s + m < s') ↔
      m < (subseq xs start ending).length := by
  have hle := he.length_eq hn ▸ Nat.min_le_left n (xs.length - start)
  rw [← left_iff_or he hn h hm (s + m < s') (by omega)]
  cases ending <;> simp

end

end Ends

theorem check_reached (h : ValidRange xs.length start ending) {m : ℕ} {length : ℤ}
    (hdrop : (xs.drop start).drop m = []) (hlength : start + m ≤ length) :
    checkSequenceRange start ending length = .ok () := by
  rw [List.drop_drop, List.drop_eq_nil_iff] at hdrop
  exact checkSequenceRange_eq_ok h (by omega)

end

theorem skipStart_eq {list : List Obj} {start n : ℕ} {e : ℤ} (hn : e = start + n) :
    skipStart list start start e = (list.drop start, 0, (n : ℤ)) := by
  rw [skipStart]
  split
  case isTrue => rw [hn, add_sub_cancel_left]
  case isFalse h =>
    have hstart : start = 0 := not_not.mp h
    rw [hn, hstart]
    simp

theorem early_iff {list : List Obj} {start : ℕ} {ending : Option ℕ}
    (h : ValidRange list.length start ending) :
    start ≠ 0 ∧ list.drop start = [] ↔ start ≠ 0 ∧ start = list.length := by
  have hle := le_trans h.1 h.2
  rw [List.drop_eq_nil_iff]
  exact and_congr_right fun _ => ⟨fun hdrop => le_antisymm hle hdrop, fun heq => heq.ge⟩

/-! ### The functions -/

theorem passed_check {τ : Type} {c : Prop} [Decidable c] {check : Except Error Unit}
    (rest : Except Error τ) (h : c → check = .ok ()) :
    (if c then check >>= fun _ => rest else rest) = rest := by
  split
  case isTrue hc =>
    rw [h hc]
    rfl
  case isFalse => rfl

section

variable {r : Obj → Obj → Bool} {xs ys : List Obj} {base : ℕ} {index : ℤ}

theorem returned_eq (h : matched r xs ys < xs.length ∧ matched r xs ys < ys.length)
    (hindex : index = base + (matched r xs ys : ℕ)) :
    (pure (some index) : Except Error (Option ℤ)) =
      .ok ((firstMismatch r base xs ys).map Nat.cast) := by
  rw [firstMismatch_eq_some r base (Or.inl h.1), hindex]
  rfl

theorem left_eq {c : Prop} [Decidable c]
    (hc : c ↔ matched r xs ys < xs.length ∨ matched r xs ys < ys.length)
    (hindex : index = base + (matched r xs ys : ℕ)) :
    (if c then pure (some index) else pure none : Except Error (Option ℤ)) =
      .ok ((firstMismatch r base xs ys).map Nat.cast) := by
  split
  case isTrue h =>
    rw [firstMismatch_eq_some r base (hc.mp h), hindex]
    rfl
  case isFalse h =>
    rw [firstMismatch_eq_none r base fun hleft => h (hc.mpr hleft)]
    rfl

end

theorem mismatchListString_eq (returnListIndex : Bool) {list : List Obj} {listStart : ℕ}
    {listEnd : Option ℕ} {string : List ℕ} {stringStart : ℕ} {stringEnd : Option ℕ}
    (hlist : ValidRange list.length listStart listEnd)
    (hlistLength : list.length ≤ L.mostPositiveFixnum)
    (hstring : ValidRange string.length stringStart stringEnd)
    (hstringLength : string.length ≤ L.mostPositiveFixnum) :
    mismatchListString (L := L) T list listStart listEnd string stringStart stringEnd
        returnListIndex =
      .ok (if listStart ≠ 0 ∧ listStart = list.length then none
        else (firstMismatch (T.oriented returnListIndex)
          ((if returnListIndex then listStart else 0) + stringStart)
          (subseq list listStart listEnd)
          ((subseq string stringStart stringEnd).map L.makeChar)).map Nat.cast) := by
  have hle := le_trans hlist.1 hlist.2
  have hle' := le_trans hstring.1 hstring.2
  have hends := ends_elemcountOrNil (L := L) hlist hlistLength
  have hends' := ends_elemcountOrNil (L := L) hstring hstringLength
  obtain ⟨n₁, hn₁⟩ := hends.exists_eq hlist
  obtain ⟨n₂, hn₂⟩ := hends'.exists_eq hstring
  rw [mismatchListString]
  simp only [elemcount_eq (le_trans hle' hstringLength), elemcount_eq (le_trans hle hlistLength),
    skipCharacters, skipStart_eq hn₁, early_iff hlist, Int.toNat_natCast,
    min_eq_left (Int.ofNat_le.mpr hle'),
    mismatchListStringLoop_eq T listStart returnListIndex (list.drop listStart)
      (string.drop stringStart) (zero_add (n₁ : ℤ)).symm hn₂]
  rw [hends.take_eq hn₁, hends'.take_eq hn₂]
  split
  case isTrue =>
    rw [checkSequenceRange_eq_ok hlist le_rfl]
    rfl
  case isFalse =>
    generalize hxs : subseq list listStart listEnd = xs
    generalize hys : (subseq string stringStart stringEnd).map L.makeChar = ys
    have hlength : ys.length = (subseq string stringStart stringEnd).length := by
      rw [← hys, List.length_map]
    have hleft := matched_le_left (T.oriented returnListIndex) xs ys
    have hright := matched_le_right (T.oriented returnListIndex) xs ys
    rw [outcome]
    by_cases hstop : matched (T.oriented returnListIndex) xs ys < xs.length ∧
        matched (T.oriented returnListIndex) xs ys < ys.length
    · rw [if_pos hstop]
      refine returned_eq hstop ?_
      cases returnListIndex
      · simp
      · simp only [if_true]
        omega
    · rw [if_neg hstop]
      simp only
      rw [passed_check _ fun hdrop => check_reached hlist hdrop (by omega),
        passed_check _ fun hdrop => check_reached hstring hdrop le_rfl]
      have hlistLeft := hends.left_iff hn₁ hlist (hxs ▸ hleft)
        (zero_add (n₁ : ℤ)).symm
      have hstringLeft := hends'.left_iff hn₂ hstring (hlength ▸ hright) hn₂
      rw [hxs] at hlistLeft
      rw [← hlength] at hstringLeft
      refine left_eq ((or_congr hstringLeft hlistLeft).trans or_comm) ?_
      cases returnListIndex
      · simp
      · simp only [if_true]
        omega

theorem mismatchListList_eq {list1 : List Obj} {start1 : ℕ} {end1 : Option ℕ} {list2 : List Obj}
    {start2 : ℕ} {end2 : Option ℕ} (h₁ : ValidRange list1.length start1 end1)
    (hlength₁ : list1.length ≤ L.mostPositiveFixnum) (h₂ : ValidRange list2.length start2 end2)
    (hlength₂ : list2.length ≤ L.mostPositiveFixnum) :
    mismatchListList (L := L) T list1 start1 end1 list2 start2 end2 =
      .ok (if start1 ≠ 0 ∧ start1 = list1.length ∨ start2 ≠ 0 ∧ start2 = list2.length then none
        else (firstMismatch T.matches start1 (subseq list1 start1 end1)
          (subseq list2 start2 end2)).map Nat.cast) := by
  have hends₁ := ends_mostPositiveFixnum (L := L) h₁ hlength₁
  have hends₂ := ends_mostPositiveFixnum (L := L) h₂ hlength₂
  obtain ⟨n₁, hn₁⟩ := hends₁.exists_eq h₁
  obtain ⟨n₂, hn₂⟩ := hends₂.exists_eq h₂
  rw [mismatchListList]
  simp only [elemcount_eq (le_trans (le_trans h₁.1 h₁.2) hlength₁),
    elemcount_eq (le_trans (le_trans h₂.1 h₂.2) hlength₂), skipStart_eq hn₁, skipStart_eq hn₂,
    early_iff h₁, early_iff h₂]
  by_cases hearly₁ : start1 ≠ 0 ∧ start1 = list1.length
  · rw [if_pos hearly₁, if_pos (Or.inl hearly₁), checkSequenceRange_eq_ok h₁ le_rfl]
    rfl
  by_cases hearly₂ : start2 ≠ 0 ∧ start2 = list2.length
  · rw [if_neg hearly₁, if_pos hearly₂, if_pos (Or.inr hearly₂),
      checkSequenceRange_eq_ok h₂ le_rfl]
    rfl
  have hcounting : min (n₁ : ℤ) n₂ = (min n₁ n₂ : ℕ) := by omega
  rw [if_neg hearly₁, if_neg hearly₂, if_neg (not_or.mpr ⟨hearly₁, hearly₂⟩),
    mismatchListListLoop_eq T start1 (list1.drop start1) (list2.drop start2)
      hcounting (sub_self _) le_rfl (le_max_left _ _),
    hends₁.take_eq hn₁, hends₂.take_eq hn₂]
  generalize hxs : subseq list1 start1 end1 = xs
  generalize hys : subseq list2 start2 end2 = ys
  have hleft := matched_le_left T.matches xs ys
  have hright := matched_le_right T.matches xs ys
  rw [outcome]
  by_cases hstop : matched T.matches xs ys < xs.length ∧ matched T.matches xs ys < ys.length
  · rw [if_pos hstop]
    exact returned_eq hstop (by omega)
  · rw [if_neg hstop]
    show (if _ then _ else _) = _
    rw [passed_check _ fun hdrop => check_reached h₁ hdrop (by omega),
      passed_check _ fun hdrop => check_reached h₂ hdrop (by omega), ← ite_or]
    rw [← hxs] at hleft
    rw [← hys] at hright
    have hleft₁ := hends₁.left_iff_or hn₁ h₁ hleft
      (0 + (matched T.matches xs ys : ℤ) ≠ n₁ - 0) (by rw [hxs]; omega)
    have hleft₂ := hends₂.left_iff_or hn₂ h₂ hright
      (0 + (matched T.matches xs ys : ℤ) ≠ n₂ - 0) (by rw [hys]; omega)
    rw [hxs] at hleft₁
    rw [hys] at hleft₂
    exact left_eq (or_or_or_comm.trans (or_congr hleft₁ hleft₂)) (by omega)

theorem mismatchListArray_eq (returnListIndex : Bool) {list : List Obj} {listStart : ℕ}
    {listEnd : Option ℕ} {array : Sequence L} {arrayStart : ℕ} {arrayEnd : Option ℕ}
    (hlist : ValidRange list.length listStart listEnd)
    (hlistLength : list.length ≤ L.mostPositiveFixnum)
    (harray : ValidRange array.elements.length arrayStart arrayEnd) :
    mismatchListArray T list listStart listEnd array arrayStart arrayEnd returnListIndex =
      .ok (if listStart ≠ 0 ∧ listStart = list.length then none
        else (firstMismatch (T.oriented returnListIndex)
          (if returnListIndex then listStart else arrayStart) (subseq list listStart listEnd)
          (subseq array.elements arrayStart arrayEnd)).map Nat.cast) := by
  have hends := ends_elemcountOrNil (L := L) hlist hlistLength
  have hends' := (ends_elemcountOrNil harray array.length_le).of_min harray
  obtain ⟨n₁, hn₁⟩ := hends.exists_eq hlist
  obtain ⟨n₂, hn₂⟩ := hends'.exists_eq harray
  have hle : arrayStart + n₂ ≤ array.elements.length := by omega
  have hn₂' : n₂ = (subseq array.elements arrayStart arrayEnd).length := by
    rw [← hends'.length_eq hn₂]
    omega
  rw [mismatchListArray]
  simp only [elemcount_eq (le_trans (le_trans hlist.1 hlist.2) hlistLength), skipStart_eq hn₁,
    elemcount_eq (le_trans (le_trans harray.1 harray.2) array.length_le), early_iff hlist,
    Sequence.length, checkSequenceRange_eq_ok harray le_rfl]
  show (if _ then _ else _) = _
  split
  case isTrue =>
    rw [checkSequenceRange_eq_ok hlist le_rfl]
    rfl
  case isFalse =>
    rw [mismatchListArrayLoop_eq T listStart array returnListIndex (list.drop listStart)
      (zero_add (n₁ : ℤ)).symm hn₂ hle, hends.take_eq hn₁, hends'.take_eq hn₂]
    generalize hxs : subseq list listStart listEnd = xs
    generalize hys : subseq array.elements arrayStart arrayEnd = ys
    have hleft := matched_le_left (T.oriented returnListIndex) xs ys
    rw [hys] at hn₂'
    rw [outcome]
    by_cases hstop : matched (T.oriented returnListIndex) xs ys < xs.length ∧
        matched (T.oriented returnListIndex) xs ys < ys.length
    · rw [if_pos hstop]
      refine returned_eq hstop ?_
      cases returnListIndex <;> simp
    · rw [if_neg hstop]
      show (if _ then _ else _) = _
      rw [passed_check _ fun hdrop => check_reached hlist hdrop (by omega)]
      have hlistLeft := hends.left_iff hn₁ hlist (hxs ▸ hleft) (zero_add (n₁ : ℤ)).symm
      rw [hxs] at hlistLeft
      refine left_eq ((or_congr ?_ hlistLeft).trans or_comm) ?_
      · rw [hn₂, Int.add_lt_add_iff_left, Int.ofNat_lt, hn₂']
      · cases returnListIndex <;> simp

theorem mismatchStringArray_eq (returnStringIndex : Bool) {string : List ℕ} {stringStart : ℕ}
    {stringEnd : Option ℕ} {array : Sequence L} {arrayStart : ℕ} {arrayEnd : Option ℕ}
    (hstring : ValidRange string.length stringStart stringEnd)
    (hstringLength : string.length ≤ L.mostPositiveFixnum)
    (harray : ValidRange array.elements.length arrayStart arrayEnd) (hnilp : array.nilp = false) :
    mismatchStringArray T string stringStart stringEnd array arrayStart arrayEnd
        returnStringIndex =
      .ok ((if arrayEnd.isNone then
          some ((if returnStringIndex then 0 else arrayStart) + stringStart +
            matched (T.oriented returnStringIndex)
              ((subseq string stringStart stringEnd).map L.makeChar)
              (subseq array.elements arrayStart arrayEnd))
        else firstMismatch (T.oriented returnStringIndex)
          ((if returnStringIndex then 0 else arrayStart) + stringStart)
          ((subseq string stringStart stringEnd).map L.makeChar)
          (subseq array.elements arrayStart arrayEnd)).map Nat.cast) := by
  have hle' := le_trans hstring.1 hstring.2
  have hends := ends_elemcountOrNil (L := L) hstring hstringLength
  have hends' := (ends_elemcountOrNil harray array.length_le).of_min harray
  obtain ⟨n₁, hn₁⟩ := hends.exists_eq hstring
  obtain ⟨n₂, hn₂⟩ := hends'.exists_eq harray
  have hle : arrayStart + n₂ ≤ array.elements.length := by omega
  have hn₂' : n₂ = (subseq array.elements arrayStart arrayEnd).length := by
    rw [← hends'.length_eq hn₂]
    omega
  rw [mismatchStringArray]
  simp only [elemcount_eq (le_trans hle' hstringLength), skipCharacters, Int.toNat_natCast,
    min_eq_left (Int.ofNat_le.mpr hle'),
    elemcount_eq (le_trans (le_trans harray.1 harray.2) array.length_le), Sequence.length,
    checkSequenceRange_eq_ok harray le_rfl, hnilp]
  show (mismatchStringArrayLoop _ _ _ _ _ _ _ _ _ _ >>= _) = _
  rw [mismatchStringArrayLoop_eq T array arrayStart returnStringIndex (string.drop stringStart) hn₁
    hn₂ hle, hends.take_eq hn₁, hends'.take_eq hn₂]
  generalize hxs : (subseq string stringStart stringEnd).map L.makeChar = xs
  generalize hys : subseq array.elements arrayStart arrayEnd = ys
  have hlength : xs.length = (subseq string stringStart stringEnd).length := by
    rw [← hxs, List.length_map]
  have hleft := matched_le_left (T.oriented returnStringIndex) xs ys
  rw [hys] at hn₂'
  have hindex : (if returnStringIndex then 0 else (arrayStart : ℤ)) +
      (stringStart + (matched (T.oriented returnStringIndex) xs ys : ℕ)) =
        ((if returnStringIndex then 0 else arrayStart) + stringStart : ℕ) +
          (matched (T.oriented returnStringIndex) xs ys : ℕ) := by
    cases returnStringIndex <;> simp [add_assoc]
  rw [outcome]
  by_cases hstop : matched (T.oriented returnStringIndex) xs ys < xs.length ∧
      matched (T.oriented returnStringIndex) xs ys < ys.length
  · rw [if_pos hstop, ← firstMismatch_eq_some _ _ (Or.inl hstop.1), ite_self]
    exact returned_eq hstop hindex
  · rw [if_neg hstop]
    show (if _ then _ else _) = _
    have hindex' : (if returnStringIndex then
        (stringStart : ℤ) + (matched (T.oriented returnStringIndex) xs ys : ℕ)
        else arrayStart + (stringStart + (matched (T.oriented returnStringIndex) xs ys : ℕ))) =
          ((if returnStringIndex then 0 else arrayStart) + stringStart : ℕ) +
            (matched (T.oriented returnStringIndex) xs ys : ℕ) := by
      rw [← hindex]
      cases returnStringIndex <;> simp
    rw [passed_check _ fun hdrop => check_reached hstring hdrop le_rfl]
    cases arrayEnd with
    | none =>
      rw [if_pos (Or.inr (by simp)), hindex']
      rfl
    | some k =>
      have hstringLeft := hends.left_iff hn₁ hstring (hlength ▸ hleft) hn₁
      rw [← hlength] at hstringLeft
      refine left_eq (or_congr hstringLeft ?_) hindex'
      simp only [Option.isNone_some, Bool.false_eq_true, if_false]
      rw [hn₂, Int.add_lt_add_iff_left, Int.ofNat_lt, hn₂']

theorem mismatchStringString_eq {string1 : List ℕ} {string1Start : ℕ} {string1End : Option ℕ}
    {string2 : List ℕ} {string2Start : ℕ} {string2End : Option ℕ}
    (h₁ : ValidRange string1.length string1Start string1End)
    (hlength₁ : string1.length ≤ L.mostPositiveFixnum)
    (h₂ : ValidRange string2.length string2Start string2End)
    (hlength₂ : string2.length ≤ L.mostPositiveFixnum) :
    mismatchStringString (L := L) T string1 string1Start string1End string2 string2Start
        string2End =
      .ok ((firstMismatch T.matches string1Start
        ((subseq string1 string1Start string1End).map L.makeChar)
        ((subseq string2 string2Start string2End).map L.makeChar)).map Nat.cast) := by
  have hle₁ := le_trans h₁.1 h₁.2
  have hle₂ := le_trans h₂.1 h₂.2
  have hends₁ := ends_elemcountOrNil (L := L) h₁ hlength₁
  have hends₂ := ends_elemcountOrNil (L := L) h₂ hlength₂
  obtain ⟨n₁, hn₁⟩ := hends₁.exists_eq h₁
  obtain ⟨n₂, hn₂⟩ := hends₂.exists_eq h₂
  rw [mismatchStringString]
  simp only [elemcount_eq (le_trans hle₁ hlength₁), elemcount_eq (le_trans hle₂ hlength₂),
    skipCharacters, Int.toNat_natCast, min_eq_left (Int.ofNat_le.mpr hle₁),
    min_eq_left (Int.ofNat_le.mpr hle₂), mismatchStringStringLoop_eq T (string1.drop string1Start)
      (string2.drop string2Start) hn₁ hn₂]
  rw [hends₁.take_eq hn₁, hends₂.take_eq hn₂]
  generalize hxs : (subseq string1 string1Start string1End).map L.makeChar = xs
  generalize hys : (subseq string2 string2Start string2End).map L.makeChar = ys
  have hlengthx : xs.length = (subseq string1 string1Start string1End).length := by
    rw [← hxs, List.length_map]
  have hlengthy : ys.length = (subseq string2 string2Start string2End).length := by
    rw [← hys, List.length_map]
  have hleft := matched_le_left T.matches xs ys
  have hright := matched_le_right T.matches xs ys
  have hn₁' := hends₁.length_eq hn₁
  have hn₂' := hends₂.length_eq hn₂
  rw [outcome]
  by_cases hstop : matched T.matches xs ys < xs.length ∧ matched T.matches xs ys < ys.length
  · rw [if_pos hstop]
    exact returned_eq hstop rfl
  · rw [if_neg hstop]
    show (if _ then _ else _) = _
    rw [passed_check _ fun hdrop => check_reached h₁ hdrop le_rfl,
      passed_check _ fun hdrop => check_reached h₂ hdrop le_rfl, ← ite_or]
    rw [hlengthx] at hleft
    rw [hlengthy] at hright
    have hleft₁ := hends₁.left_iff_or hn₁ h₁ hleft
      (string1Start + (matched T.matches xs ys : ℤ) < L.elemcountOrNil string1End) (by omega)
    have hleft₂ := hends₂.left_iff_or hn₂ h₂ hright
      (string2Start + (matched T.matches xs ys : ℤ) < L.elemcountOrNil string2End) (by omega)
    rw [← hlengthx] at hleft₁
    rw [← hlengthy] at hleft₂
    exact left_eq (or_or_or_comm.trans (or_congr hleft₁ hleft₂)) rfl

theorem mismatchArrayArray_eq {array1 : Sequence L} {start1 : ℕ} {end1 : Option ℕ}
    {array2 : Sequence L} {start2 : ℕ} {end2 : Option ℕ}
    (h₁ : ValidRange array1.elements.length start1 end1)
    (h₂ : ValidRange array2.elements.length start2 end2) :
    mismatchArrayArray T array1 start1 end1 array2 start2 end2 =
      .ok ((firstMismatch T.matches start1 (subseq array1.elements start1 end1)
        (subseq array2.elements start2 end2)).map Nat.cast) := by
  have hends₁ := (ends_mostPositiveFixnum h₁ array1.length_le).of_min h₁
  have hends₂ := (ends_mostPositiveFixnum h₂ array2.length_le).of_min h₂
  obtain ⟨n₁, hn₁⟩ := hends₁.exists_eq h₁
  obtain ⟨n₂, hn₂⟩ := hends₂.exists_eq h₂
  rw [mismatchArrayArray]
  simp only [elemcount_eq (le_trans (le_trans h₁.1 h₁.2) array1.length_le),
    elemcount_eq (le_trans (le_trans h₂.1 h₂.2) array2.length_le), Sequence.length,
    checkSequenceRange_eq_ok h₁ le_rfl, checkSequenceRange_eq_ok h₂ le_rfl]
  show mismatchArrayArrayLoop _ _ _ _ _ _ _ = _
  have hcount : (min (if end1.isSome then L.elemcountOrNil end1 else (L.mostPositiveFixnum : ℤ))
      array1.elements.length - start1).toNat = n₁ := by omega
  rw [hcount, mismatchArrayArrayLoop_eq T array1 array2 hn₂ (by omega) (by omega),
    hends₁.take_eq hn₁, hends₂.take_eq hn₂]

theorem filter_zipIdx (xs : List Obj) (k i j : ℕ) :
    ((xs.zipIdx k).filter fun (_, n) => (i : ℤ) ≤ n ∧ (n : ℤ) < j).map Prod.fst =
      (xs.drop (i - k)).take (j - max i k) := by
  induction xs generalizing k with
  | nil => simp
  | cons x xs ih =>
    rw [List.zipIdx_cons, List.filter_cons]
    by_cases hik : i ≤ k
    · by_cases hkj : k < j
      · rw [if_pos (decide_eq_true ⟨Int.ofNat_le.mpr hik, Int.ofNat_lt.mpr hkj⟩), List.map_cons, ih,
          show i - k = 0 by omega, show i - (k + 1) = 0 by omega, List.drop_zero, List.drop_zero,
          show j - max i k = j - max i (k + 1) + 1 by omega, List.take_succ_cons]
      · rw [if_neg fun h => hkj (Int.ofNat_lt.mp (of_decide_eq_true h).2), ih,
          show j - max i k = 0 by omega, show j - max i (k + 1) = 0 by omega, List.take_zero,
          List.take_zero]
    · rw [if_neg fun h => hik (Int.ofNat_le.mp (of_decide_eq_true h).1), ih,
        show i - k = i - (k + 1) + 1 by omega, List.drop_succ_cons,
        show max i (k + 1) = max i k by omega]

theorem storage_eq (s : Sequence L) {start n : ℕ} {e : ℤ} (hn : e = start + n) :
    storage s start e = (s.elements.drop start).take n := by
  have hcount : (e - start).toNat = n := by omega
  have hcast : e = (start + n : ℕ) := by omega
  obtain ⟨contents, hlength⟩ := s
  cases contents with
  | list elements =>
    show ((elements.zipIdx 0).filter _).map _ = (elements.drop start).take n
    rw [hcast, filter_zipIdx, Nat.sub_zero, Nat.max_zero, Nat.add_sub_cancel_left]
  | string characters =>
    show ((characters.drop _).take _).map _ = ((characters.map _).drop start).take n
    rw [Int.toNat_natCast, hcount, List.map_take, List.map_drop]
  | vector elements =>
    show (elements.drop _).take _ = (elements.drop start).take n
    rw [Int.toNat_natCast, hcount]
  | bitVector bits =>
    show ((bits.drop _).take _).map _ = ((bits.map _).drop start).take n
    rw [Int.toNat_natCast, hcount, List.map_take, List.map_drop]

theorem mismatchFromEnd_eq {sequence1 : Sequence L} {start1 : ℕ} {end1 : Option ℕ}
    {sequence2 : Sequence L} {start2 : ℕ} {end2 : Option ℕ}
    (h₁ : ValidRange sequence1.elements.length start1 end1)
    (h₂ : ValidRange sequence2.elements.length start2 end2) :
    mismatchFromEnd T sequence1 start1 end1 sequence2 start2 end2 =
      .ok ((lastMismatch T.matches start1 (subseq sequence1.elements start1 end1)
        (subseq sequence2.elements start2 end2)).map Nat.cast) := by
  have hends₁ := (ends_elemcountOrNil h₁ sequence1.length_le).of_min h₁
  have hends₂ := (ends_elemcountOrNil h₂ sequence2.length_le).of_min h₂
  obtain ⟨n₁, hn₁⟩ := hends₁.exists_eq h₁
  obtain ⟨n₂, hn₂⟩ := hends₂.exists_eq h₂
  have hlength₁ : (subseq sequence1.elements start1 end1).length = n₁ := by
    rw [← hends₁.length_eq hn₁]
    omega
  have hlength₂ : (subseq sequence2.elements start2 end2).length = n₂ := by
    rw [← hends₂.length_eq hn₂]
    omega
  rw [mismatchFromEnd]
  simp only [Sequence.length, checkSequenceRange_eq_ok h₁ le_rfl, checkSequenceRange_eq_ok h₂ le_rfl]
  show mismatchFromEndLoop _ _ _ _ _ _ = _
  rw [storage_eq sequence1 hn₁, storage_eq sequence2 hn₂, hends₁.take_eq hn₁, hends₂.take_eq hn₂,
    hn₁, hn₂, add_sub_cancel_left, add_sub_cancel_left, Int.toNat_natCast, Int.toNat_natCast,
    mismatchFromEndLoop_eq T start1 hlength₁.ge hlength₂.ge, List.take_of_length_le hlength₁.le,
    List.take_of_length_le hlength₂.le]

/-! ### When the answer is right -/

/-- What Common Lisp says, for the subsequences `xs` and `ys`, the first of which begins at
`start1`. -/
def commonLispMismatch (fromEnd : Bool) (start1 : ℕ) (xs ys : List Obj) : Option ℕ :=
  if fromEnd then lastMismatch T.matches start1 xs ys else firstMismatch T.matches start1 xs ys

/-- A start that is not zero is at the end of the elements. -/
def AtEnd (elements : List Obj) (start : ℕ) : Prop :=
  start ≠ 0 ∧ start = elements.length

def AllMatch (xs ys : List Obj) : Prop :=
  List.Forall₂ (fun x y => T.matches x y = true) xs ys

/-- What it takes for the answer to be right, for each pair of representations: of a list its end,
of a string its start, of a vector that it has an end. -/
def IndexIsRight (a b : Sequence L) (fromEnd : Bool) (start1 : ℕ) (end1 : Option ℕ) (start2 : ℕ)
    (end2 : Option ℕ) : Prop :=
  let xs := subseq a.elements start1 end1
  let ys := subseq b.elements start2 end2
  fromEnd = true ∨
    match a.contents, b.contents with
    | .list _, .list _ => (AtEnd a.elements start1 → ys = []) ∧ (AtEnd b.elements start2 → xs = [])
    | .list _, .string _ => (AtEnd a.elements start1 → ys = []) ∧ (start2 ≠ 0 → AllMatch T xs ys)
    | .list _, _ => AtEnd a.elements start1 → ys = []
    | .string _, .string _ => True
    | .string _, .list _ => AtEnd b.elements start2 → xs = []
    | .string _, _ => end2 = none → ¬ AllMatch T xs ys
    | _, .string _ => (end1 = none → ¬ AllMatch T xs ys) ∧ (start2 ≠ 0 → AllMatch T xs ys)
    | _, .list _ => AtEnd b.elements start2 → xs = []
    | _, _ => True

theorem AtEnd.subseq_eq_nil {elements : List Obj} {start : ℕ} {ending : Option ℕ}
    (h : AtEnd elements start) : subseq elements start ending = [] := by
  rw [subseq, h.2, List.drop_length, List.take_nil]

theorem Test.oriented_true : T.oriented true = T.matches := rfl

theorem Test.oriented_false : T.oriented false = fun x y => T.matches y x := rfl

section

variable {r : Obj → Obj → Bool} {xs ys : List Obj} {start k : ℕ}

theorem map_cast_inj {o o' : Option ℕ} :
    (.ok (o.map Nat.cast) : Except Error (Option ℤ)) = .ok (o'.map Nat.cast) ↔ o = o' := by
  rw [Except.ok.injEq]
  exact (Option.map_injective fun _ _ h => Int.ofNat_inj.mp h).eq_iff

theorem ite_early {c : Prop} [Decidable c] {o : Option ℕ} :
    (if c then none else o.map Nat.cast : Option ℤ) = (if c then none else o).map Nat.cast := by
  split <;> rfl

theorem early_eq_iff {c : Prop} [Decidable c] :
    (if c then none else firstMismatch r start xs ys) = firstMismatch r start xs ys ↔
      (c → List.Forall₂ (fun x y => r x y = true) xs ys) := by
  split
  case isTrue h =>
    rw [eq_comm, firstMismatch_eq_none_iff]
    exact ⟨fun hall _ => hall, fun hall => hall h⟩
  case isFalse h => exact ⟨fun _ hc => absurd hc h, fun _ => rfl⟩

theorem shift_eq_iff :
    firstMismatch r (start + k) xs ys = firstMismatch r start xs ys ↔
      (k ≠ 0 → List.Forall₂ (fun x y => r x y = true) xs ys) := by
  by_cases hall : List.Forall₂ (fun x y => r x y = true) xs ys
  · rw [firstMismatch_of_all r hall, firstMismatch_of_all r hall]
    exact ⟨fun _ _ => hall, fun _ => rfl⟩
  · rw [firstMismatch_of_not_all r hall, firstMismatch_of_not_all r hall, Option.some_inj]
    exact ⟨fun heq hk => absurd (by omega) hk, fun hk => by
      have hzero : k = 0 := not_not.mp fun hne => hall (hk hne)
      omega⟩

theorem some_eq_iff :
    some (start + k + matched r xs ys) = firstMismatch r start xs ys ↔
      ¬ List.Forall₂ (fun x y => r x y = true) xs ys ∧ k = 0 := by
  by_cases hall : List.Forall₂ (fun x y => r x y = true) xs ys
  · rw [firstMismatch_of_all r hall]
    exact ⟨fun h => absurd h (Option.some_ne_none _), fun h => absurd hall h.1⟩
  · rw [firstMismatch_of_not_all r hall, Option.some_inj]
    exact ⟨fun heq => ⟨hall, by omega⟩, fun h => by omega⟩

end

section

variable {list : List Obj} {string : List ℕ} {array : Sequence L} {start1 : ℕ} {end1 : Option ℕ}
  {start2 : ℕ} {end2 : Option ℕ}

theorem allMatch_of_atEnd_left (h : AtEnd list start1) (ys : List Obj) :
    AllMatch T (subseq list start1 end1) ys ↔ ys = [] := by
  rw [AllMatch, h.subseq_eq_nil, List.forall₂_nil_left_iff]

theorem allMatch_of_atEnd_right (h : AtEnd list start2) (xs : List Obj) :
    AllMatch T xs (subseq list start2 end2) ↔ xs = [] := by
  rw [AllMatch, h.subseq_eq_nil, List.forall₂_nil_right_iff]

theorem mismatchListList_right_iff {list' : List Obj} (hlist : list.length ≤ L.mostPositiveFixnum)
    (hlist' : list'.length ≤ L.mostPositiveFixnum)
    (h₁ : ValidRange list.length start1 end1) (h₂ : ValidRange list'.length start2 end2) :
    mismatchListList (L := L) T list start1 end1 list' start2 end2 =
        .ok ((firstMismatch T.matches start1 (subseq list start1 end1)
          (subseq list' start2 end2)).map Nat.cast) ↔
      (AtEnd list start1 → subseq list' start2 end2 = []) ∧
        (AtEnd list' start2 → subseq list start1 end1 = []) := by
  rw [mismatchListList_eq T h₁ hlist h₂ hlist', ite_early, map_cast_inj, early_eq_iff]
  exact ⟨fun hall => ⟨fun hend => (allMatch_of_atEnd_left T hend _).mp (hall (Or.inl hend)),
      fun hend => (allMatch_of_atEnd_right T hend _).mp (hall (Or.inr hend))⟩,
    fun h hend => hend.elim (fun hend => (allMatch_of_atEnd_left T hend _).mpr (h.1 hend))
      fun hend => (allMatch_of_atEnd_right T hend _).mpr (h.2 hend)⟩

theorem mismatchListString_right_iff (hlist : list.length ≤ L.mostPositiveFixnum)
    (hstring : string.length ≤ L.mostPositiveFixnum)
    (h₁ : ValidRange list.length start1 end1) (h₂ : ValidRange string.length start2 end2) :
    mismatchListString (L := L) T list start1 end1 string start2 end2 true =
        .ok ((firstMismatch T.matches start1 (subseq list start1 end1)
          (subseq (string.map L.makeChar) start2 end2)).map Nat.cast) ↔
      (AtEnd list start1 → subseq (string.map L.makeChar) start2 end2 = []) ∧
        (start2 ≠ 0 → AllMatch T (subseq list start1 end1)
          (subseq (string.map L.makeChar) start2 end2)) := by
  rw [mismatchListString_eq T true h₁ hlist h₂ hstring, ite_early, map_cast_inj, ← subseq_map,
    T.oriented_true, if_pos rfl]
  by_cases hend : start1 ≠ 0 ∧ start1 = list.length
  · rw [if_pos hend, eq_comm, firstMismatch_eq_none_iff]
    exact ⟨fun hall => ⟨fun _ => (allMatch_of_atEnd_left T hend _).mp hall, fun _ => hall⟩,
      fun h => (allMatch_of_atEnd_left T hend _).mpr (h.1 hend)⟩
  · rw [if_neg hend, shift_eq_iff]
    exact ⟨fun h => ⟨fun hc => absurd hc hend, h⟩, fun h => h.2⟩

theorem mismatchStringList_right_iff (hlist : list.length ≤ L.mostPositiveFixnum)
    (hstring : string.length ≤ L.mostPositiveFixnum)
    (h₁ : ValidRange string.length start1 end1) (h₂ : ValidRange list.length start2 end2) :
    mismatchListString (L := L) T list start2 end2 string start1 end1 false =
        .ok ((firstMismatch T.matches start1 (subseq (string.map L.makeChar) start1 end1)
          (subseq list start2 end2)).map Nat.cast) ↔
      (AtEnd list start2 → subseq (string.map L.makeChar) start1 end1 = []) := by
  rw [mismatchListString_eq T false h₂ hlist h₁ hstring, ite_early, map_cast_inj, ← subseq_map,
    T.oriented_false, if_neg Bool.false_ne_true, Nat.zero_add, firstMismatch_swap, early_eq_iff]
  exact forall_congr' fun hend => allMatch_of_atEnd_right T hend _

theorem mismatchListArray_right_iff (hlist : list.length ≤ L.mostPositiveFixnum)
    (h₁ : ValidRange list.length start1 end1)
    (h₂ : ValidRange array.elements.length start2 end2) :
    mismatchListArray T list start1 end1 array start2 end2 true =
        .ok ((firstMismatch T.matches start1 (subseq list start1 end1)
          (subseq array.elements start2 end2)).map Nat.cast) ↔
      (AtEnd list start1 → subseq array.elements start2 end2 = []) := by
  rw [mismatchListArray_eq T true h₁ hlist h₂, ite_early, map_cast_inj, T.oriented_true,
    if_pos rfl, early_eq_iff]
  exact forall_congr' fun hend => allMatch_of_atEnd_left T hend _

theorem mismatchArrayList_right_iff (hlist : list.length ≤ L.mostPositiveFixnum)
    (h₁ : ValidRange array.elements.length start1 end1)
    (h₂ : ValidRange list.length start2 end2) :
    mismatchListArray T list start2 end2 array start1 end1 false =
        .ok ((firstMismatch T.matches start1 (subseq array.elements start1 end1)
          (subseq list start2 end2)).map Nat.cast) ↔
      (AtEnd list start2 → subseq array.elements start1 end1 = []) := by
  rw [mismatchListArray_eq T false h₂ hlist h₁, ite_early, map_cast_inj, T.oriented_false,
    if_neg Bool.false_ne_true, firstMismatch_swap, early_eq_iff]
  exact forall_congr' fun hend => allMatch_of_atEnd_right T hend _

theorem mismatchStringArray_right_iff (hstring : string.length ≤ L.mostPositiveFixnum)
    (hnilp : array.nilp = false) (h₁ : ValidRange string.length start1 end1)
    (h₂ : ValidRange array.elements.length start2 end2) :
    mismatchStringArray T string start1 end1 array start2 end2 true =
        .ok ((firstMismatch T.matches start1 (subseq (string.map L.makeChar) start1 end1)
          (subseq array.elements start2 end2)).map Nat.cast) ↔
      (end2 = none → ¬ AllMatch T (subseq (string.map L.makeChar) start1 end1)
        (subseq array.elements start2 end2)) := by
  rw [mismatchStringArray_eq T true h₁ hstring h₂ hnilp, map_cast_inj, ← subseq_map,
    T.oriented_true, if_pos rfl, Nat.zero_add]
  cases end2 with
  | none =>
    rw [if_pos Option.isNone_none]
    apply Iff.trans (some_eq_iff (k := 0))
    exact ⟨fun h _ => h.1, fun h => ⟨h rfl, rfl⟩⟩
  | some k => simp

theorem mismatchArrayString_right_iff (hstring : string.length ≤ L.mostPositiveFixnum)
    (hnilp : array.nilp = false) (h₁ : ValidRange array.elements.length start1 end1)
    (h₂ : ValidRange string.length start2 end2) :
    mismatchStringArray T string start2 end2 array start1 end1 false =
        .ok ((firstMismatch T.matches start1 (subseq array.elements start1 end1)
          (subseq (string.map L.makeChar) start2 end2)).map Nat.cast) ↔
      (end1 = none → ¬ AllMatch T (subseq array.elements start1 end1)
          (subseq (string.map L.makeChar) start2 end2)) ∧
        (start2 ≠ 0 → AllMatch T (subseq array.elements start1 end1)
          (subseq (string.map L.makeChar) start2 end2)) := by
  rw [mismatchStringArray_eq T false h₂ hstring h₁ hnilp, map_cast_inj, ← subseq_map,
    T.oriented_false, if_neg Bool.false_ne_true, firstMismatch_swap, matched_swap]
  cases end1 with
  | none =>
    rw [if_pos Option.isNone_none, some_eq_iff]
    exact ⟨fun h => ⟨fun _ => h.1, fun hne => absurd h.2 hne⟩,
      fun h => ⟨h.1 rfl, not_not.mp fun hne => h.1 rfl (h.2 hne)⟩⟩
  | some k =>
    rw [if_neg (by simp), shift_eq_iff]
    exact ⟨fun h => ⟨fun hnone => absurd hnone (Option.some_ne_none k), h⟩, fun h => h.2⟩

end

theorem mismatch_right_iff (a b : Sequence L) (fromEnd : Bool) {start1 : ℕ} {end1 : Option ℕ}
    {start2 : ℕ} {end2 : Option ℕ} (ha : ValidRange a.elements.length start1 end1)
    (hb : ValidRange b.elements.length start2 end2) :
    mismatch T a b fromEnd start1 end1 start2 end2 =
        .ok ((commonLispMismatch T fromEnd start1 (subseq a.elements start1 end1)
          (subseq b.elements start2 end2)).map Nat.cast) ↔
      IndexIsRight T a b fromEnd start1 end1 start2 end2 := by
  cases fromEnd with
  | true => exact ⟨fun _ => Or.inl rfl, fun _ => mismatchFromEnd_eq T ha hb⟩
  | false =>
    rw [IndexIsRight, commonLispMismatch, if_neg Bool.false_ne_true, or_iff_right Bool.false_ne_true,
      mismatch, if_neg Bool.false_ne_true]
    have hstring : ∀ (string : List ℕ) (start : ℕ) (ending : Option ℕ),
        ValidRange (string.map L.makeChar).length start ending →
          ValidRange string.length start ending := fun string start ending h => by
      rwa [List.length_map] at h
    have hlength : ∀ string : List ℕ, (string.map L.makeChar).length ≤ L.mostPositiveFixnum →
        string.length ≤ L.mostPositiveFixnum := fun string h => by
      rwa [List.length_map] at h
    obtain ⟨contents, hle⟩ := a
    obtain ⟨contents', hle'⟩ := b
    cases contents with
    | list list =>
      cases contents' with
      | list list' => exact mismatchListList_right_iff T hle hle' ha hb
      | string string => exact mismatchListString_right_iff T hle (hlength _ hle') ha (hstring _ _ _ hb)
      | vector elements => exact mismatchListArray_right_iff T hle ha hb
      | bitVector bits => exact mismatchListArray_right_iff T hle ha hb
    | string string =>
      cases contents' with
      | list list => exact mismatchStringList_right_iff T hle' (hlength _ hle) (hstring _ _ _ ha) hb
      | string string' =>
        refine ⟨fun _ => trivial, fun _ => ?_⟩
        show mismatchStringString T string start1 end1 string' start2 end2 = _
        rw [mismatchStringString_eq T (hstring _ _ _ ha) (hlength _ hle) (hstring _ _ _ hb)
          (hlength _ hle'), ← subseq_map, ← subseq_map]
        rfl
      | vector elements =>
        exact mismatchStringArray_right_iff T (hlength _ hle) rfl (hstring _ _ _ ha) hb
      | bitVector bits =>
        exact mismatchStringArray_right_iff T (hlength _ hle) rfl (hstring _ _ _ ha) hb
    | vector elements =>
      cases contents' with
      | list list => exact mismatchArrayList_right_iff T hle' ha hb
      | string string =>
        exact mismatchArrayString_right_iff T (hlength _ hle') rfl ha (hstring _ _ _ hb)
      | vector elements' => exact ⟨fun _ => trivial, fun _ => mismatchArrayArray_eq T ha hb⟩
      | bitVector bits => exact ⟨fun _ => trivial, fun _ => mismatchArrayArray_eq T ha hb⟩
    | bitVector bits =>
      cases contents' with
      | list list => exact mismatchArrayList_right_iff T hle' ha hb
      | string string =>
        exact mismatchArrayString_right_iff T (hlength _ hle') rfl ha (hstring _ _ _ hb)
      | vector elements => exact ⟨fun _ => trivial, fun _ => mismatchArrayArray_eq T ha hb⟩
      | bitVector bits' => exact ⟨fun _ => trivial, fun _ => mismatchArrayArray_eq T ha hb⟩

def numbers : Objects ℕ where
  makeChar c := c
  makeBit b := b.toNat
  mostPositiveFixnum := 0x3FFFFFFF

/-- The default test, `eql`. -/
def eql : Test ℕ where
  test x y := x == y
  key x := x
  testNotUnboundp := true

theorem one_le_numbers : 1 ≤ numbers.mostPositiveFixnum := by
  decide

end XEmacs.Sequences
