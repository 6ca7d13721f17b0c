import Mathlib.Data.List.Forall2
import Mathlib.Order.Bounds.Basic

/-! Two lists compared element by element. `matched` is the length of the longest prefixes that
match, and the first and the last position where the lists differ are computed from it. -/

namespace XEmacs.Lib

variable {α β γ : Type*} (r : α → β → Bool)

def matched : List α → List β → ℕ
  | x :: xs, y :: ys => if r x y then matched xs ys + 1 else 0
  | _, _ => 0

@[simp] theorem matched_nil_left (ys : List β) : matched r [] ys = 0 := rfl

@[simp] theorem matched_nil_right (xs : List α) : matched r xs [] = 0 := by
  cases xs <;> rfl

theorem matched_cons_of_match {x : α} {y : β} (h : r x y = true) (xs : List α) (ys : List β) :
    matched r (x :: xs) (y :: ys) = matched r xs ys + 1 := if_pos h

theorem matched_cons_of_differ {x : α} {y : β} (h : r x y = false) (xs : List α) (ys : List β) :
    matched r (x :: xs) (y :: ys) = 0 := by
  rw [matched, h]
  rfl

def Matching (xs : List α) (ys : List β) : Set ℕ :=
  {k | k ≤ xs.length ∧ k ≤ ys.length ∧ List.Forall₂ (fun x y => r x y = true) (xs.take k) (ys.take k)}

theorem matched_isGreatest (xs : List α) (ys : List β) :
    IsGreatest (Matching r xs ys) (matched r xs ys) := by
  induction xs generalizing ys with
  | nil => exact ⟨⟨le_rfl, Nat.zero_le _, by simp⟩, fun k hk => hk.1⟩
  | cons x xs ih =>
    cases ys with
    | nil => exact ⟨⟨Nat.zero_le _, le_rfl, by simp⟩, fun k hk => hk.2.1⟩
    | cons y ys =>
      cases hxy : r x y with
      | false =>
        rw [matched_cons_of_differ r hxy]
        refine ⟨⟨Nat.zero_le _, Nat.zero_le _, by simp⟩, fun k hk => ?_⟩
        cases k with
        | zero => exact le_rfl
        | succ k =>
          have hhead : r x y = true := (List.forall₂_cons.mp hk.2.2).1
          exact absurd (hxy.symm.trans hhead) Bool.false_ne_true
      | true =>
        rw [matched_cons_of_match r hxy]
        obtain ⟨⟨hleft, hright, htake⟩, hmax⟩ := ih ys
        refine ⟨⟨Nat.succ_le_succ hleft, Nat.succ_le_succ hright, .cons hxy htake⟩,
          fun k hk => ?_⟩
        cases k with
        | zero => exact Nat.zero_le _
        | succ k =>
          exact Nat.succ_le_succ (hmax ⟨Nat.le_of_succ_le_succ hk.1,
            Nat.le_of_succ_le_succ hk.2.1, (List.forall₂_cons.mp hk.2.2).2⟩)

theorem matched_le_left (xs : List α) (ys : List β) : matched r xs ys ≤ xs.length :=
  (matched_isGreatest r xs ys).1.1

theorem matched_le_right (xs : List α) (ys : List β) : matched r xs ys ≤ ys.length :=
  (matched_isGreatest r xs ys).1.2.1

theorem matched_eq_length_iff (xs : List α) (ys : List β) :
    matched r xs ys = xs.length ∧ matched r xs ys = ys.length ↔
      List.Forall₂ (fun x y => r x y = true) xs ys := by
  constructor
  · intro ⟨hleft, hright⟩
    have htake := (matched_isGreatest r xs ys).1.2.2
    rwa [hleft, List.take_length, ← hleft, hright, List.take_length] at htake
  · intro h
    have hall : xs.length ≤ matched r xs ys :=
      (matched_isGreatest r xs ys).2 ⟨le_rfl, h.length_eq.le, by
        rw [List.take_length, h.length_eq, List.take_length]
        exact h⟩
    have hlength := h.length_eq
    have hle := matched_le_left r xs ys
    omega

theorem matched_swap (xs : List α) (ys : List β) :
    matched (fun y x => r x y) ys xs = matched r xs ys := by
  induction xs generalizing ys with
  | nil => exact matched_nil_right _ ys
  | cons x xs ih =>
    cases ys with
    | nil => rfl
    | cons y ys =>
      rw [matched, matched, ih]

/-- The first position that does not match, for a first list whose elements are numbered from
`start`; the end of the shorter list, when one is a prefix of the other. -/
def firstMismatch (start : ℕ) (xs : List α) (ys : List β) : Option ℕ :=
  if matched r xs ys = xs.length ∧ matched r xs ys = ys.length then none
  else some (start + matched r xs ys)

/-- The lists are aligned at their ends, and the position after the last that does not match is
given. -/
def lastMismatch (start : ℕ) (xs : List α) (ys : List β) : Option ℕ :=
  let n := matched r xs.reverse ys.reverse
  if n = xs.length ∧ n = ys.length then none else some (start + xs.length - n)

section

variable {r} {start : ℕ} {x : α} {y : β} (xs : List α) (ys : List β)

@[simp] theorem firstMismatch_nil_nil : firstMismatch r start [] [] = none := rfl

@[simp] theorem firstMismatch_nil_cons : firstMismatch r start [] (y :: ys) = some start := rfl

@[simp] theorem firstMismatch_cons_nil : firstMismatch r start (x :: xs) [] = some start := rfl

theorem firstMismatch_cons_of_match (h : r x y = true) :
    firstMismatch r start (x :: xs) (y :: ys) = firstMismatch r (start + 1) xs ys := by
  rw [firstMismatch, firstMismatch, matched_cons_of_match r h, Nat.add_right_comm, Nat.add_assoc]
  simp only [List.length_cons, Nat.add_right_cancel_iff]

theorem firstMismatch_cons_of_differ (h : r x y = false) :
    firstMismatch r start (x :: xs) (y :: ys) = some start := by
  rw [firstMismatch, matched_cons_of_differ r h]
  exact if_neg fun hall => Nat.succ_ne_zero _ hall.1.symm

@[simp] theorem lastMismatch_nil_nil : lastMismatch r start [] [] = none := rfl

theorem lastMismatch_nil_left (h : ys ≠ []) : lastMismatch r start [] ys = some start := by
  have hpos := List.length_pos_iff.mpr h
  exact if_neg fun hall => by
    have hlength : 0 = ys.length := hall.2
    omega

theorem lastMismatch_nil_right (h : xs ≠ []) :
    lastMismatch r start xs [] = some (start + xs.length) := by
  have hpos := List.length_pos_iff.mpr h
  simp only [lastMismatch, List.reverse_nil, matched_nil_right]
  exact if_neg fun hall => by
    omega

theorem lastMismatch_concat_of_match (h : r x y = true) :
    lastMismatch r start (xs ++ [x]) (ys ++ [y]) = lastMismatch r start xs ys := by
  simp only [lastMismatch, List.reverse_append, List.reverse_singleton, List.singleton_append,
    List.length_append, List.length_singleton, matched_cons_of_match r h,
    Nat.add_right_cancel_iff, ← Nat.add_assoc, Nat.add_sub_add_right]

theorem lastMismatch_concat_of_differ (h : r x y = false) :
    lastMismatch r start (xs ++ [x]) (ys ++ [y]) = some (start + xs.length + 1) := by
  simp only [lastMismatch, List.reverse_append, List.reverse_singleton, List.singleton_append,
    List.length_append, List.length_singleton, matched_cons_of_differ r h]
  exact if_neg fun hall => Nat.succ_ne_zero _ hall.1.symm

end

theorem firstMismatch_eq_none_iff (start : ℕ) (xs : List α) (ys : List β) :
    firstMismatch r start xs ys = none ↔ List.Forall₂ (fun x y => r x y = true) xs ys := by
  rw [firstMismatch, ← matched_eq_length_iff]
  split
  case isTrue h => exact ⟨fun _ => h, fun _ => rfl⟩
  case isFalse h => exact ⟨fun hsome => absurd hsome (Option.some_ne_none _), fun hall => absurd hall h⟩

theorem lastMismatch_eq_none_iff (start : ℕ) (xs : List α) (ys : List β) :
    lastMismatch r start xs ys = none ↔ List.Forall₂ (fun x y => r x y = true) xs ys := by
  have hreverse := matched_eq_length_iff r xs.reverse ys.reverse
  rw [List.length_reverse, List.length_reverse, List.forall₂_reverse_iff] at hreverse
  rw [lastMismatch, ← hreverse]
  simp

theorem firstMismatch_of_not_all {start : ℕ} {xs : List α} {ys : List β}
    (h : ¬ List.Forall₂ (fun x y => r x y = true) xs ys) :
    firstMismatch r start xs ys = some (start + matched r xs ys) :=
  if_neg fun hall => h ((matched_eq_length_iff r xs ys).mp hall)

theorem firstMismatch_of_all {start : ℕ} {xs : List α} {ys : List β}
    (h : List.Forall₂ (fun x y => r x y = true) xs ys) : firstMismatch r start xs ys = none :=
  (firstMismatch_eq_none_iff r start xs ys).mpr h

theorem firstMismatch_eq_some (start : ℕ) {xs : List α} {ys : List β}
    (h : matched r xs ys < xs.length ∨ matched r xs ys < ys.length) :
    firstMismatch r start xs ys = some (start + matched r xs ys) :=
  if_neg fun hall => by omega

theorem firstMismatch_eq_none (start : ℕ) {xs : List α} {ys : List β}
    (h : ¬ (matched r xs ys < xs.length ∨ matched r xs ys < ys.length)) :
    firstMismatch r start xs ys = none := by
  have hleft := matched_le_left r xs ys
  have hright := matched_le_right r xs ys
  exact if_pos ⟨by omega, by omega⟩

theorem firstMismatch_swap (start : ℕ) (xs : List α) (ys : List β) :
    firstMismatch (fun y x => r x y) start ys xs = firstMismatch r start xs ys := by
  rw [firstMismatch, firstMismatch, matched_swap]
  simp only [and_comm]

end XEmacs.Lib
