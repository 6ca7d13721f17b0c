import Mathlib.Data.Finset.Card
import Mathlib.Data.Finset.Range
import Mathlib.Logic.Function.Iterate
import Mathlib.Tactic.WLOG

/-! A tortoise and a hare follow a function from one point, the hare two steps for each step of the
tortoise. Where there are only finitely many points, they meet. -/

namespace XEmacs.Lib

variable {α : Type*} {f : α → α} {a : α} {i n p : ℕ}

theorem iterate_add_period (h : f^[i + p] a = f^[i] a) (hi : i ≤ n) : f^[n + p] a = f^[n] a := by
  obtain ⟨d, rfl⟩ := Nat.exists_eq_add_of_le' hi
  rw [Nat.add_assoc, Function.iterate_add_apply, h, ← Function.iterate_add_apply]

theorem iterate_add_periods (h : f^[i + p] a = f^[i] a) (hi : i ≤ n) (k : ℕ) : f^[n + k * p] a = f^[n] a := by
  induction k with
  | zero => rw [Nat.zero_mul, Nat.add_zero]
  | succ k ih => rw [Nat.succ_mul, ← Nat.add_assoc, iterate_add_period h (hi.trans (Nat.le_add_right _ _)), ih]

theorem iterate_of_meet (h : f^[2 * n] a = f^[n] a) (k : ℕ) : f^[n + k * n] a = f^[n] a :=
  iterate_add_periods (i := n) (by rw [← Nat.two_mul, h]) le_rfl k

/-- Among finitely many points the hare meets the tortoise. -/
theorem exists_meet {s : Finset α} (h : ∀ n, f^[n] a ∈ s) : ∃ n, 1 ≤ n ∧ n ≤ s.card ∧ f^[2 * n] a = f^[n] a := by
  obtain ⟨i, hi, j, hj, hne, heq⟩ := Finset.exists_ne_map_eq_of_card_lt_of_maps_to
    (show s.card < (Finset.range (s.card + 1)).card by rw [Finset.card_range]; exact Nat.lt_succ_self _)
    (show Set.MapsTo (fun n => f^[n] a) (Finset.range (s.card + 1)) s from fun n _ => h n)
  rw [Finset.mem_range] at hi hj
  -- the point that comes at `i` comes again at `j`
  wlog hlt : i < j generalizing i j
  · exact this j hj i hi hne.symm heq.symm (by omega)
  have hperiod : f^[i + (j - i)] a = f^[i] a := by
    rw [Nat.add_sub_cancel' hlt.le]
    exact heq.symm
  have hpos : 0 < j - i := by omega
  -- the first multiple of the period that is not before `i`
  set k := (max i 1 + (j - i) - 1) / (j - i) with hk
  have hle : k * (j - i) ≤ max i 1 + (j - i) - 1 := Nat.div_mul_le_self _ _
  have hlt' : max i 1 + (j - i) - 1 < k * (j - i) + (j - i) := Nat.lt_div_mul_add hpos
  refine ⟨k * (j - i), by omega, by omega, ?_⟩
  rw [Nat.two_mul]
  exact iterate_add_periods hperiod (by omega) k

end XEmacs.Lib
