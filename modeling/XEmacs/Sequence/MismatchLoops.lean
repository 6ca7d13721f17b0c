import Mathlib.Algebra.Group.Int.Defs
import XEmacs.Lib.Matched
import XEmacs.Sequence.Mismatch

/-! The loops of `mismatch`. Each walks two lists of elements until they differ or one of them
ends, and what it is left with is a function of the length of the matching prefixes. -/

namespace XEmacs.Sequences

open Lib

variable {Obj σ : Type} {L : Objects Obj} (T : Test Obj)

theorem Test.matches_iff (x y : Obj) : T.matches x y = true ↔ T.checkMatch x y = T.testNotUnboundp :=
  beq_iff_eq

theorem Test.checkMatch_ne_iff (x y : Obj) :
    T.checkMatch x y ≠ T.testNotUnboundp ↔ T.matches x y = false := by
  rw [Ne, ← T.matches_iff, Bool.not_eq_true]

def Test.oriented (inOrder : Bool) (x y : Obj) : Bool :=
  if inOrder then T.matches x y else T.matches y x

theorem Test.oriented_tests {τ : Type} (inOrder : Bool) (x y : Obj) (a b c : τ) :
    (if inOrder ∧ T.checkMatch x y ≠ T.testNotUnboundp then a
      else if ¬ inOrder ∧ T.checkMatch y x ≠ T.testNotUnboundp then b else c) =
      if T.oriented inOrder x y = false then (if inOrder then a else b) else c := by
  simp only [checkMatch_ne_iff, Test.oriented]
  cases inOrder <;> simp

section

variable (r : Obj → Obj → Bool) (xs ys : List Obj) (index : ℕ → ℤ) (state : ℕ → σ)

/-- A loop over two lists of elements: the index where they differ, or the state after the
matching prefix. -/
def outcome : Loop σ :=
  if matched r xs ys < xs.length ∧ matched r xs ys < ys.length then
    .returned (index (matched r xs ys))
  else .left (state (matched r xs ys))

@[simp] theorem outcome_nil_left : outcome r [] ys index state = .left (state 0) :=
  if_neg fun h => absurd h.1 (Nat.not_lt_zero _)

@[simp] theorem outcome_nil_right : outcome r xs [] index state = .left (state 0) := by
  rw [outcome, matched_nil_right]
  exact if_neg fun h => absurd h.2 (Nat.lt_irrefl 0)

variable {r} {x y : Obj}

theorem outcome_cons_of_match (h : r x y = true) :
    outcome r (x :: xs) (y :: ys) index state =
      outcome r xs ys (fun m => index (m + 1)) (fun m => state (m + 1)) := by
  rw [outcome, outcome, matched_cons_of_match r h]
  simp only [List.length_cons, Nat.add_lt_add_iff_right]

theorem outcome_cons_of_differ (h : r x y = false) :
    outcome r (x :: xs) (y :: ys) index state = .returned (index 0) := by
  rw [outcome, matched_cons_of_differ r h]
  exact if_pos ⟨Nat.succ_pos _, Nat.succ_pos _⟩

theorem outcome_congr {index index' : ℕ → ℤ} {state state' : ℕ → σ}
    (hindex : ∀ m, index m = index' m) (hstate : ∀ m, state m = state' m) :
    outcome r xs ys index state = outcome r xs ys index' state' := by
  rw [funext hindex, funext hstate]

end

theorem Sequence.aref_eq {s : Sequence L} {i : ℕ} {y : Obj} {ys : List Obj}
    (h : s.elements.drop i = y :: ys) : s.aref i = .ok y := by
  have hget : s.elements[i]? = some y := by
    rw [← List.head?_drop, h, List.head?_cons]
  rw [Sequence.aref, if_pos (Int.natCast_nonneg i), Int.toNat_natCast, hget]

theorem exists_drop_eq_cons {xs : List Obj} {i n : ℕ} (h : i + (n + 1) ≤ xs.length) :
    ∃ y, xs.drop i = y :: xs.drop (i + 1) :=
  ⟨xs[i], List.drop_eq_getElem_cons (by omega)⟩

theorem add_succ_eq (a : ℤ) (m : ℕ) : a + (m + 1 : ℕ) = a + 1 + m := by
  omega

theorem mismatchListListLoop_eq (start1 : ℕ) {startcounting counting shortestLen tortoise : ℤ}
    {n₁ n₂ : ℕ} (xs ys : List Obj) (hcounting : counting = (min n₁ n₂ : ℕ))
    (hlen : startcounting - counting = shortestLen) (hpos : 0 ≤ shortestLen)
    (htortoise : tortoise ≤ max 0 (shortestLen - circularListSuspicionLength)) :
    mismatchListListLoop T start1 startcounting xs ys counting shortestLen tortoise =
      .ok (outcome T.matches (xs.take n₁) (ys.take n₂) (fun m => start1 + (shortestLen + m))
        fun m => (xs.drop m, ys.drop m, shortestLen + m)) := by
  induction xs generalizing ys n₁ n₂ counting shortestLen tortoise with
  | nil => simp [mismatchListListLoop]
  | cons x xs ih =>
    cases ys with
    | nil => simp [mismatchListListLoop]
    | cons y ys =>
      rw [mismatchListListLoop]
      cases n₁ with
      | zero =>
        rw [if_neg (by omega)]
        simp
      | succ n₁ =>
        cases n₂ with
        | zero =>
          rw [if_neg (by omega)]
          simp
        | succ n₂ =>
          rw [if_pos (by omega), List.take_succ_cons, List.take_succ_cons]
          cases hxy : T.matches x y with
          | false =>
            rw [if_pos ((T.checkMatch_ne_iff x y).mpr hxy), outcome_cons_of_differ _ _ _ _ hxy]
            simp
          | true =>
            have hnext : ∀ tortoise ≤ max 0 (shortestLen + 1 - circularListSuspicionLength),
                mismatchListListLoop T start1 startcounting xs ys (counting - 1) (shortestLen + 1)
                  tortoise = .ok (outcome T.matches (x :: xs.take n₁) (y :: ys.take n₂)
                    (fun m => start1 + (shortestLen + m))
                    fun m => ((x :: xs).drop m, (y :: ys).drop m, shortestLen + m)) := by
              intro tortoise htortoise
              have hcounting' : counting - 1 = (min n₁ n₂ : ℕ) := by omega
              rw [ih ys hcounting' (by omega) (by omega) htortoise,
                outcome_cons_of_match _ _ _ _ hxy]
              refine congrArg Except.ok (outcome_congr _ _ (fun m => ?_) fun m => ?_)
              · omega
              · simp only [List.drop_succ_cons, add_succ_eq]
            rw [if_neg (by rw [T.checkMatch_ne_iff, hxy]; exact Bool.false_ne_true.symm)]
            -- the tortoise is at least as far behind as the loop had run before it started
            simp only
            split
            · have hbehind : (if (counting - 1) % 2 = 1 then tortoise + 1 else tortoise) ≤
                  max 0 (shortestLen + 1 - circularListSuspicionLength) := by
                split <;> simp only [circularListSuspicionLength] at * <;> omega
              rw [if_neg (by simp only [circularListSuspicionLength] at *; omega)]
              exact hnext _ hbehind
            · exact hnext _ (by omega)

theorem mismatchListStringLoop_eq (listStart : ℕ) {listEnding stringEnding : ℤ}
    (returnListIndex : Bool) (list : List Obj) (string : List ℕ)
    {listStarting stringStarting charCount : ℤ} {n₁ n₂ : ℕ}
    (hlist : listEnding = listStarting + n₁) (hstring : stringEnding = stringStarting + n₂) :
    mismatchListStringLoop L T listStart listEnding stringEnding returnListIndex list string
        listStarting stringStarting charCount =
      outcome (T.oriented returnListIndex) (list.take n₁) ((string.take n₂).map L.makeChar)
        (fun m => (if returnListIndex then (listStart : ℤ) else 0) + (charCount + m))
        fun m => (list.drop m, string.drop m, listStarting + m, stringStarting + m,
          charCount + m) := by
  induction list generalizing string listStarting stringStarting charCount n₁ n₂ with
  | nil => simp [mismatchListStringLoop]
  | cons x list ih =>
    cases string with
    | nil => simp [mismatchListStringLoop]
    | cons c string =>
      rw [mismatchListStringLoop]
      cases n₁ with
      | zero =>
        rw [if_neg (by omega)]
        simp
      | succ n₁ =>
        cases n₂ with
        | zero =>
          rw [if_neg (by omega)]
          simp
        | succ n₂ =>
          rw [if_pos (by omega), T.oriented_tests, List.take_succ_cons, List.take_succ_cons,
            List.map_cons]
          cases hxy : T.oriented returnListIndex x (L.makeChar c) with
          | false =>
            rw [if_pos rfl, outcome_cons_of_differ _ _ _ _ hxy]
            cases returnListIndex <;> simp
          | true =>
            have hlist' : listEnding = listStarting + 1 + n₁ := by omega
            have hstring' : stringEnding = stringStarting + 1 + n₂ := by omega
            rw [if_neg Bool.false_ne_true.symm, ih string hlist' hstring',
              outcome_cons_of_match _ _ _ _ hxy]
            refine outcome_congr _ _ (fun m => by omega) fun m => ?_
            simp only [List.drop_succ_cons, add_succ_eq]

theorem mismatchListArrayLoop_eq (listStart : ℕ) {listEnding arrayEnding : ℤ} (array : Sequence L)
    (returnListIndex : Bool) (list : List Obj) {listStarting ii : ℤ} {i n₁ n₂ : ℕ}
    (hlist : listEnding = listStarting + n₁) (harray : arrayEnding = i + n₂)
    (hle : i + n₂ ≤ array.elements.length) :
    mismatchListArrayLoop T listStart listEnding array arrayEnding returnListIndex list
        listStarting i ii =
      .ok (outcome (T.oriented returnListIndex) (list.take n₁) ((array.elements.drop i).take n₂)
        (fun m => if returnListIndex then listStart + (ii + m) else (i : ℤ) + m)
        fun m => (list.drop m, listStarting + m, (i : ℤ) + m, ii + m)) := by
  induction list generalizing listStarting ii i n₁ n₂ with
  | nil => simp [mismatchListArrayLoop]
  | cons x list ih =>
    rw [mismatchListArrayLoop]
    cases n₁ with
    | zero =>
      rw [if_neg (by omega)]
      simp
    | succ n₁ =>
      cases n₂ with
      | zero =>
        rw [if_neg (by omega)]
        simp
      | succ n₂ =>
        obtain ⟨y, hdrop⟩ := exists_drop_eq_cons hle
        rw [if_pos (by omega), Sequence.aref_eq hdrop, hdrop, List.take_succ_cons,
          List.take_succ_cons]
        show (if _ then _ else if _ then _ else _) = _
        rw [T.oriented_tests]
        cases hxy : T.oriented returnListIndex x y with
        | false =>
          rw [if_pos rfl, outcome_cons_of_differ _ _ _ _ hxy]
          cases returnListIndex <;> simp
        | true =>
          have hlist' : listEnding = listStarting + 1 + n₁ := by omega
          have harray' : arrayEnding = (i + 1 : ℕ) + n₂ := by omega
          rw [if_neg Bool.false_ne_true.symm, ← Int.natCast_succ, ih hlist' harray' (by omega),
            outcome_cons_of_match _ _ _ _ hxy]
          refine congrArg Except.ok (outcome_congr _ _ (fun m => ?_) fun m => ?_)
          · cases returnListIndex
            · exact (add_succ_eq i m).symm
            · exact congrArg ((listStart : ℤ) + ·) (add_succ_eq ii m).symm
          · simp only [List.drop_succ_cons, add_succ_eq, Int.natCast_succ i]

theorem mismatchStringArrayLoop_eq {stringEnding arrayEnding : ℤ} (array : Sequence L)
    (arrayStart : ℕ) (returnStringIndex : Bool) (string : List ℕ)
    {stringStarting charCount : ℤ} {i n₁ n₂ : ℕ} (hstring : stringEnding = stringStarting + n₁)
    (harray : arrayEnding = i + n₂) (hle : i + n₂ ≤ array.elements.length) :
    mismatchStringArrayLoop T stringEnding array arrayStart arrayEnding returnStringIndex string
        stringStarting i charCount =
      .ok (outcome (T.oriented returnStringIndex) ((string.take n₁).map L.makeChar)
        ((array.elements.drop i).take n₂)
        (fun m => (if returnStringIndex then 0 else (arrayStart : ℤ)) + (charCount + m))
        fun m => (string.drop m, stringStarting + m, (i : ℤ) + m, charCount + m)) := by
  induction string generalizing stringStarting charCount i n₁ n₂ with
  | nil => simp [mismatchStringArrayLoop]
  | cons c string ih =>
    rw [mismatchStringArrayLoop]
    cases n₂ with
    | zero =>
      rw [if_neg (by omega)]
      simp
    | succ n₂ =>
      cases n₁ with
      | zero =>
        rw [if_neg (by omega)]
        simp
      | succ n₁ =>
        obtain ⟨y, hdrop⟩ := exists_drop_eq_cons hle
        rw [if_pos (by omega), Sequence.aref_eq hdrop, hdrop, List.take_succ_cons,
          List.take_succ_cons, List.map_cons]
        show (if _ then _ else if _ then _ else _) = _
        rw [T.oriented_tests]
        cases hxy : T.oriented returnStringIndex (L.makeChar c) y with
        | false =>
          rw [if_pos rfl, outcome_cons_of_differ _ _ _ _ hxy]
          cases returnStringIndex <;> simp
        | true =>
          have hstring' : stringEnding = stringStarting + 1 + n₁ := by omega
          have harray' : arrayEnding = (i + 1 : ℕ) + n₂ := by omega
          rw [if_neg Bool.false_ne_true.symm, ← Int.natCast_succ, ih hstring' harray' (by omega),
            outcome_cons_of_match _ _ _ _ hxy]
          refine congrArg Except.ok (outcome_congr _ _ (fun m => by omega) fun m => ?_)
          simp only [List.drop_succ_cons, add_succ_eq, Int.natCast_succ i]

theorem mismatchStringStringLoop_eq {string1Ending string2Ending : ℤ} (string1 string2 : List ℕ)
    {string1Starting string2Starting charCount1 charCount2 : ℤ} {n₁ n₂ : ℕ}
    (hstring1 : string1Ending = string1Starting + n₁)
    (hstring2 : string2Ending = string2Starting + n₂) :
    mismatchStringStringLoop L T string1Ending string2Ending string1 string2 string1Starting
        string2Starting charCount1 charCount2 =
      outcome T.matches ((string1.take n₁).map L.makeChar) ((string2.take n₂).map L.makeChar)
        (fun m => charCount1 + m)
        fun m => (string1.drop m, string2.drop m, string1Starting + m, string2Starting + m,
          charCount1 + m, charCount2 + m) := by
  induction string1 generalizing string2 string1Starting string2Starting charCount1 charCount2
      n₁ n₂ with
  | nil => simp [mismatchStringStringLoop]
  | cons c string1 ih =>
    cases string2 with
    | nil => simp [mismatchStringStringLoop]
    | cons d string2 =>
      rw [mismatchStringStringLoop]
      cases n₁ with
      | zero =>
        rw [if_neg (by omega)]
        simp
      | succ n₁ =>
        cases n₂ with
        | zero =>
          rw [if_neg (by omega)]
          simp
        | succ n₂ =>
          rw [if_pos (by omega), List.take_succ_cons, List.take_succ_cons, List.map_cons,
            List.map_cons]
          cases hxy : T.matches (L.makeChar c) (L.makeChar d) with
          | false =>
            rw [if_pos ((T.checkMatch_ne_iff _ _).mpr hxy), outcome_cons_of_differ _ _ _ _ hxy]
            simp
          | true =>
            have hstring1' : string1Ending = string1Starting + 1 + n₁ := by omega
            have hstring2' : string2Ending = string2Starting + 1 + n₂ := by omega
            rw [if_neg (by rw [T.checkMatch_ne_iff, hxy]; exact Bool.false_ne_true.symm),
              ih string2 hstring1' hstring2', outcome_cons_of_match _ _ _ _ hxy]
            refine outcome_congr _ _ (fun m => by omega) fun m => ?_
            simp only [List.drop_succ_cons, add_succ_eq]

theorem mismatchArrayArrayLoop_eq (array1 array2 : Sequence L) {ending2 : ℤ} {i j n₁ n₂ : ℕ}
    (hending : ending2 = j + n₂) (hle₁ : i + n₁ ≤ array1.elements.length)
    (hle₂ : j + n₂ ≤ array2.elements.length) :
    mismatchArrayArrayLoop T array1 array2 ending2 n₁ i j =
      .ok ((firstMismatch T.matches i ((array1.elements.drop i).take n₁)
        ((array2.elements.drop j).take n₂)).map Nat.cast) := by
  induction n₁ generalizing i j n₂ with
  | zero =>
    rw [mismatchArrayArrayLoop, List.take_zero]
    cases n₂ with
    | zero => rw [if_neg (by omega), List.take_zero, firstMismatch_nil_nil, Option.map_none]
    | succ n₂ =>
      obtain ⟨y, hdrop⟩ := exists_drop_eq_cons hle₂
      rw [if_pos (by omega), hdrop, List.take_succ_cons, firstMismatch_nil_cons, Option.map_some]
  | succ n₁ ih =>
    obtain ⟨x, hdrop₁⟩ := exists_drop_eq_cons hle₁
    rw [mismatchArrayArrayLoop, hdrop₁, List.take_succ_cons]
    cases n₂ with
    | zero => rw [if_neg (by omega), List.take_zero, firstMismatch_cons_nil, Option.map_some]
    | succ n₂ =>
      obtain ⟨y, hdrop₂⟩ := exists_drop_eq_cons hle₂
      rw [if_pos (by omega), Sequence.aref_eq hdrop₁, Sequence.aref_eq hdrop₂, hdrop₂,
        List.take_succ_cons]
      show (if _ then _ else _) = _
      cases hxy : T.matches x y with
      | false =>
        rw [if_pos ((T.checkMatch_ne_iff x y).mpr hxy), firstMismatch_cons_of_differ _ _ hxy,
          Option.map_some]
      | true =>
        have hending' : ending2 = (j + 1 : ℕ) + n₂ := by omega
        rw [if_neg (by rw [T.checkMatch_ne_iff, hxy]; exact Bool.false_ne_true.symm),
          firstMismatch_cons_of_match _ _ hxy, ← Int.natCast_succ, ← Int.natCast_succ,
          ih hending' (by omega) (by omega)]

theorem mismatchFromEndLoop_eq {storage1 storage2 : List Obj} (start1 : ℕ) {n₁ n₂ : ℕ}
    (hle₁ : n₁ ≤ storage1.length) (hle₂ : n₂ ≤ storage2.length) :
    mismatchFromEndLoop T storage1 storage2 start1 n₁ n₂ =
      .ok ((lastMismatch T.matches start1 (storage1.take n₁) (storage2.take n₂)).map Nat.cast) := by
  induction n₁ generalizing n₂ with
  | zero =>
    rw [mismatchFromEndLoop, List.take_zero]
    · cases n₂ with
      | zero => rfl
      | succ n₂ =>
        rw [if_pos (by omega), lastMismatch_nil_left, Option.map_some]
        · simp
        · exact List.ne_nil_of_length_pos (by simp; omega)
    · omega
  | succ n₁ ih =>
    cases n₂ with
    | zero =>
      rw [mismatchFromEndLoop, List.take_zero, if_pos (by omega), lastMismatch_nil_right,
        Option.map_some, List.length_take, Nat.min_eq_left hle₁]
      · simp
      · exact List.ne_nil_of_length_pos (by simp; omega)
      · omega
    | succ n₂ =>
      have hget₁ : n₁ < storage1.length := by omega
      have hget₂ : n₂ < storage2.length := by omega
      rw [mismatchFromEndLoop, List.getElem?_eq_getElem hget₁, List.getElem?_eq_getElem hget₂,
        List.take_succ_eq_append_getElem hget₁, List.take_succ_eq_append_getElem hget₂]
      simp only
      cases hxy : T.matches storage1[n₁] storage2[n₂] with
      | false =>
        rw [if_pos ((T.checkMatch_ne_iff _ _).mpr hxy), lastMismatch_concat_of_differ _ _ hxy,
          Option.map_some, List.length_take, Nat.min_eq_left hget₁.le]
        simp
      | true =>
        rw [if_neg (by rw [T.checkMatch_ne_iff, hxy]; exact Bool.false_ne_true.symm),
          lastMismatch_concat_of_match _ _ hxy, ih hget₁.le hget₂.le]

end XEmacs.Sequences
