import Mathlib.Data.Int.Basic
import Mathlib.Data.List.Basic

/-! Version lists, as `subr.el` compares them: trailing zeros are insignificant, and an element
below zero makes a version lower than the one without it. -/

namespace XEmacs.Elpa

def versionListNotZero : List ℤ → ℤ
  | [] => 0
  | x :: l => if x = 0 then versionListNotZero l else x

/-- `version-list-<`. -/
def versionListLt : List ℤ → List ℤ → Bool
  | x :: l1, y :: l2 => if x = y then versionListLt l1 l2 else x < y
  | [], [] => false
  | l1, [] => versionListNotZero l1 < 0
  | [], l2 => 0 < versionListNotZero l2

/-- `version-list-<=`. -/
def versionListLe : List ℤ → List ℤ → Bool
  | x :: l1, y :: l2 => if x = y then versionListLe l1 l2 else x < y
  | [], [] => true
  | l1, [] => versionListNotZero l1 ≤ 0
  | [], l2 => 0 ≤ versionListNotZero l2

example : versionListLe [1] [1, 0] = true ∧ versionListLe [1, 0] [1] = true := by decide
example : versionListLt [1, -1] [1] = true := by decide

theorem versionListLe_nil_right (l : List ℤ) :
    versionListLe l [] = true ↔ versionListNotZero l ≤ 0 := by
  cases l with
  | nil => simp [versionListLe, versionListNotZero]
  | cons x l => simp [versionListLe]

theorem versionListLe_nil_left (l : List ℤ) :
    versionListLe [] l = true ↔ 0 ≤ versionListNotZero l := by
  cases l with
  | nil => simp [versionListLe, versionListNotZero]
  | cons x l => simp [versionListLe]

theorem versionListLe_iff (l1 l2 : List ℤ) :
    versionListLe l1 l2 = true ↔ l1.headD 0 < l2.headD 0 ∨
      l1.headD 0 = l2.headD 0 ∧ versionListLe l1.tail l2.tail = true := by
  cases l1 with
  | nil =>
    cases l2 with
    | nil => simp [versionListLe]
    | cons y l2 =>
      rw [versionListLe_nil_left, List.tail_nil, List.tail_cons, versionListLe_nil_left,
        versionListNotZero, List.headD_nil, List.headD_cons]
      split <;> omega
  | cons x l1 =>
    cases l2 with
    | nil =>
      rw [versionListLe_nil_right, List.tail_nil, List.tail_cons, versionListLe_nil_right,
        versionListNotZero, List.headD_nil, List.headD_cons]
      split <;> omega
    | cons y l2 =>
      rw [versionListLe, List.headD_cons, List.headD_cons, List.tail_cons, List.tail_cons]
      split
      case isTrue h => simp [h]
      case isFalse h => simp [h]

theorem versionListLe_total (l1 l2 : List ℤ) :
    versionListLe l1 l2 = true ∨ versionListLe l2 l1 = true := by
  have main : ∀ n : ℕ, ∀ l1 l2 : List ℤ, l1.length ≤ n → l2.length ≤ n →
      versionListLe l1 l2 = true ∨ versionListLe l2 l1 = true := by
    intro n
    induction n with
    | zero =>
      intro l1 l2 h1 h2
      rw [List.length_eq_zero_iff.mp (Nat.le_zero.mp h1), List.length_eq_zero_iff.mp (Nat.le_zero.mp h2)]
      exact Or.inl rfl
    | succ n ih =>
      intro l1 l2 h1 h2
      have htail := ih l1.tail l2.tail (by rw [List.length_tail]; omega) (by rw [List.length_tail]; omega)
      rw [versionListLe_iff l1, versionListLe_iff l2]
      rcases Int.lt_trichotomy (l1.headD 0) (l2.headD 0) with h | h | h
      · exact Or.inl (Or.inl h)
      · exact htail.imp (fun ht => Or.inr ⟨h, ht⟩) fun ht => Or.inr ⟨h.symm, ht⟩
      · exact Or.inr (Or.inl h)
  exact main _ l1 l2 (le_max_left _ _) (le_max_right _ _)

theorem versionListLe_trans {l1 l2 l3 : List ℤ} (h : versionListLe l1 l2 = true)
    (h' : versionListLe l2 l3 = true) : versionListLe l1 l3 = true := by
  have main : ∀ n : ℕ, ∀ l1 l2 l3 : List ℤ, l1.length ≤ n → l2.length ≤ n → l3.length ≤ n →
      versionListLe l1 l2 = true → versionListLe l2 l3 = true → versionListLe l1 l3 = true := by
    intro n
    induction n with
    | zero =>
      intro l1 l2 l3 h1 _ h3 _ _
      rw [List.length_eq_zero_iff.mp (Nat.le_zero.mp h1), List.length_eq_zero_iff.mp (Nat.le_zero.mp h3)]
      rfl
    | succ n ih =>
      intro l1 l2 l3 h1 h2 h3 h h'
      have htail := ih l1.tail l2.tail l3.tail (by rw [List.length_tail]; omega)
        (by rw [List.length_tail]; omega) (by rw [List.length_tail]; omega)
      rw [versionListLe_iff] at h h' ⊢
      rcases h with h | ⟨h, ht⟩
      · exact Or.inl (by omega)
      · rcases h' with h' | ⟨h', ht'⟩
        · exact Or.inl (by omega)
        · exact Or.inr ⟨h.trans h', htail ht ht'⟩
  exact main (l1.length + l2.length + l3.length) l1 l2 l3 (by omega) (by omega) (by omega) h h'

end XEmacs.Elpa
