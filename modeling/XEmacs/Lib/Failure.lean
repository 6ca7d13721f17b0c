import Mathlib.Tactic.Common

/-! Computations that may fail. -/

namespace XEmacs.Lib

/-- A sequence of computations that succeeds does so step by step. -/
theorem exists_of_bind_eq_ok {ε α β : Type} {x : Except ε α} {f : α → Except ε β} {b : β}
    (h : x >>= f = .ok b) : ∃ a, x = .ok a ∧ f a = .ok b := by
  cases x with
  | error e => exact absurd h (by simp [bind, Except.bind])
  | ok a => exact ⟨a, rfl, h⟩

end XEmacs.Lib
