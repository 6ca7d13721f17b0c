import Mathlib.Tactic.Common
import Mathlib.Data.List.Basic

/-! Transducers: partial functions that take one item, change a state and put out a list.
What they put out for a list of items does not depend on how the list is cut into pieces,
and an invariant may speak of all that has been taken in and put out. -/

namespace XEmacs.Lib

variable {σ α β : Type*}

/-- Take in the items in order; undefined as soon as one step is. -/
def transduce (step : σ → α → Option (σ × List β)) : σ → List α → Option (σ × List β)
  | s, [] => some (s, [])
  | s, a :: as =>
    (step s a).bind fun r => (transduce step r.1 as).map fun r' => (r'.1, r.2 ++ r'.2)

variable {step : σ → α → Option (σ × List β)} {s t u : σ} {a : α} {as bs : List α} {out out' : List β}

theorem transduce_cons (h : step s a = some (t, out)) (h' : transduce step t as = some (u, out')) :
    transduce step s (a :: as) = some (u, out ++ out') := by
  rw [transduce, h, Option.bind_some, h', Option.map_some]

theorem transduce_append (step : σ → α → Option (σ × List β)) (s : σ) (as bs : List α) :
    transduce step s (as ++ bs) =
      (transduce step s as).bind fun r => (transduce step r.1 bs).map fun r' => (r'.1, r.2 ++ r'.2) := by
  induction as generalizing s with
  | nil => simp [transduce]
  | cons a as ih =>
    rw [List.cons_append, transduce, transduce, Option.bind_assoc]
    refine congrArg (Option.bind _) (funext fun r => ?_)
    rw [ih, Option.map_bind, Option.bind_map]
    refine congrArg (Option.bind _) (funext fun r' => ?_)
    simp only [Function.comp_apply, Option.map_map, List.append_assoc]
    rfl

theorem transduce_append_some (h : transduce step s as = some (t, out))
    (h' : transduce step t bs = some (u, out')) : transduce step s (as ++ bs) = some (u, out ++ out') := by
  rw [transduce_append, h, Option.bind_some, h', Option.map_some]

theorem transduce_singleton (step : σ → α → Option (σ × List β)) (s : σ) (a : α) :
    transduce step s [a] = step s a := by
  rw [transduce]
  cases step s a <;> simp [transduce]

theorem transduce_append_silent (h : transduce step s as = some (t, [])) (bs : List α) :
    transduce step s (as ++ bs) = transduce step t bs := by
  rw [transduce_append, h, Option.bind_some]
  exact Option.map_id'

theorem transduce_cons_silent (h : step s a = some (t, [])) (as : List α) : transduce step s (a :: as) = transduce step t as :=
  transduce_append_silent ((transduce_singleton step s a).trans h) as

theorem transduce_cons_head? {r r' : σ × List β} (hfirst : step s a = some r) (hne : r.2 ≠ [])
    (h : transduce step s (a :: as) = some r') : r'.2.head? = r.2.head? := by
  rw [transduce, hfirst, Option.bind_some] at h
  obtain ⟨r₁, -, rfl⟩ := Option.map_eq_some_iff.mp h
  exact List.head?_append_of_ne_nil _ hne

/-- Where every step is defined under the invariant, so is the run, and the invariant holds
of all that was taken in and put out. -/
theorem exists_transduce {P : σ → List α → List β → Prop} (hstep : ∀ t as out a, P t as out →
      ∃ u out', step t a = some (u, out') ∧ P u (as ++ [a]) (out ++ out'))
    (h : P s as out) (bs : List α) :
    ∃ t out', transduce step s bs = some (t, out') ∧ P t (as ++ bs) (out ++ out') := by
  induction bs generalizing s as out with
  | nil => exact ⟨s, [], rfl, by simpa using h⟩
  | cons b bs ih =>
    obtain ⟨u, out₁, hu, hP⟩ := hstep s as out b h
    obtain ⟨t, out₂, ht, hP'⟩ := ih hP
    refine ⟨t, out₁ ++ out₂, transduce_cons hu ht, ?_⟩
    simpa [List.append_assoc] using hP'

end XEmacs.Lib
