import Mathlib.Tactic.Common
import Mathlib.Data.List.Basic

/-! Finite runs of a deterministic partial step function. A step `step s a` is
undefined where the action `a` is not enabled in `s`, or where the program has no
behaviour there. A run may carry a condition `ok` that every one of its steps meets
in the state before it; `anyStep` is the condition that rules nothing out. -/

namespace XEmacs.Lib

variable {σ τ α : Type*}

/-- No condition on the steps of a run. -/
def anyStep (_ : σ) (_ : α) : Prop := True

/-- `Run step ok s as t`: the actions `as` lead from `s` to `t`, each step meeting `ok`. -/
inductive Run (step : σ → α → Option σ) (ok : σ → α → Prop) (s : σ) : List α → σ → Prop
  | nil : Run step ok s [] s
  | snoc {as : List α} {t u : σ} {a : α} :
      Run step ok s as t → ok t a → step t a = some u → Run step ok s (as ++ [a]) u

variable {step : σ → α → Option σ} {ok ok' : σ → α → Prop} {s t u : σ} {as bs : List α} {a : α}

namespace Run

/-- An invariant kept by every step holds after every run. -/
theorem invariant {I : σ → Prop} (h : Run step ok s as t) (h0 : I s)
    (hstep : ∀ t a u, I t → ok t a → step t a = some u → I u) : I t := by
  induction h with
  | nil => exact h0
  | snoc _ hok hs ih => exact hstep _ _ _ ih hok hs

theorem mono (h : Run step ok s as t) (himp : ∀ s a, ok s a → ok' s a) :
    Run step ok' s as t := by
  induction h with
  | nil => exact .nil
  | snoc _ hok hs ih => exact ih.snoc (himp _ _ hok) hs

theorem any (h : Run step ok s as t) : Run step anyStep s as t :=
  h.mono fun _ _ _ => trivial

theorem single (hok : ok s a) (hs : step s a = some t) : Run step ok s [a] t :=
  show Run step ok s ([] ++ [a]) t from .snoc .nil hok hs

theorem trans (h : Run step ok s as t) (h' : Run step ok t bs u) :
    Run step ok s (as ++ bs) u := by
  induction h' with
  | nil => simpa using h
  | snoc _ hok hs ih => rw [← List.append_assoc]; exact ih.snoc hok hs

theorem cons (hok : ok s a) (hs : step s a = some t) (h : Run step ok t bs u) :
    Run step ok s (a :: bs) u :=
  (single hok hs).trans h

/-- A run is simulated where every step is: `R` relates the states reached. -/
theorem simulation {stepA : τ → α → Option τ} {R : σ → τ → Prop} {x : τ}
    (h : Run step ok s as t) (h0 : R s x)
    (hstep : ∀ s a t x, R s x → ok s a → step s a = some t →
      ∃ y, stepA x a = some y ∧ R t y) :
    ∃ y, Run stepA anyStep x as y ∧ R t y := by
  induction h with
  | nil => exact ⟨x, .nil, h0⟩
  | snoc _ hok hs ih =>
    obtain ⟨y, hy, hR⟩ := ih
    obtain ⟨z, hz, hR'⟩ := hstep _ _ _ _ hR hok hs
    exact ⟨z, hy.snoc trivial hz, hR'⟩

end Run

/-- Execute the actions in order; undefined as soon as one step is. -/
def exec (step : σ → α → Option σ) : σ → List α → Option σ
  | s, [] => some s
  | s, a :: as => (step s a).bind (exec step · as)

/-- Execute the actions, checking the condition before each step. -/
def execOk (step : σ → α → Option σ) (ok : σ → α → Prop) [∀ s a, Decidable (ok s a)] :
    σ → List α → Option σ
  | s, [] => some s
  | s, a :: as => if ok s a then (step s a).bind (execOk step ok · as) else none

theorem exec_append (step : σ → α → Option σ) (s : σ) (as bs : List α) :
    exec step s (as ++ bs) = (exec step s as).bind (exec step · bs) := by
  induction as generalizing s with
  | nil => rfl
  | cons a as ih => simp only [List.cons_append, exec, Option.bind_assoc, ih]

theorem Run.exec_eq (h : Run step ok s as t) : exec step s as = some t := by
  induction h with
  | nil => rfl
  | snoc _ _ hs ih => rw [exec_append, ih, Option.bind_some, exec, hs, Option.bind_some, exec]

theorem Run.end_eq (h : Run step ok s as t) (h' : Run step ok' s as u) : t = u :=
  Option.some.inj (h.exec_eq.symm.trans h'.exec_eq)

theorem Run.last (h : Run step ok s (as ++ [a]) u) : ∃ t, Run step ok s as t ∧ ok t a ∧ step t a = some u := by
  generalize hbs : as ++ [a] = bs at h
  cases h with
  | nil => exact absurd hbs (List.append_ne_nil_of_right_ne_nil _ (List.cons_ne_nil _ _))
  | snoc h hok hs =>
    obtain ⟨rfl, ha⟩ := List.append_inj' hbs rfl
    obtain rfl := List.singleton_inj.mp ha
    exact ⟨_, h, hok, hs⟩

theorem Run.of_execOk [∀ s a, Decidable (ok s a)] (h : execOk step ok s as = some t) :
    Run step ok s as t := by
  induction as generalizing s with
  | nil => simp only [execOk, Option.some.injEq] at h; subst h; exact .nil
  | cons a as ih =>
    simp only [execOk] at h
    split at h
    next hok =>
      obtain ⟨u, hu, h⟩ := Option.bind_eq_some_iff.mp h
      exact .cons hok hu (ih h)
    next => contradiction

theorem Run.of_exec (h : exec step s as = some t) : Run step anyStep s as t := by
  induction as generalizing s with
  | nil => simp only [exec, Option.some.injEq] at h; subst h; exact .nil
  | cons a as ih =>
    obtain ⟨u, hu, h⟩ := Option.bind_eq_some_iff.mp h
    exact .cons trivial hu (ih h)

theorem exists_run_of_exec {p : σ → Prop} [DecidablePred p]
    (h : (exec step s as).any (fun t => decide (p t)) = true) :
    ∃ t, Run step anyStep s as t ∧ p t := by
  obtain ⟨t, ht, hp⟩ := (Option.any_eq_true _ _).mp h
  exact ⟨t, .of_exec ht, of_decide_eq_true hp⟩

theorem exists_run_of_execOk [∀ s a, Decidable (ok s a)] {p : σ → Prop} [DecidablePred p]
    (h : (execOk step ok s as).any (fun t => decide (p t)) = true) :
    ∃ t, Run step ok s as t ∧ p t := by
  obtain ⟨t, ht, hp⟩ := (Option.any_eq_true _ _).mp h
  exact ⟨t, .of_execOk ht, of_decide_eq_true hp⟩

end XEmacs.Lib
