import Mathlib.Logic.Function.Basic
import Mathlib.Tactic.Common

/-! A partial map together with an index of its values. The map may take a value at several
keys; the index holds one of them. When a key changes its value the index drops the old value
and takes the new one, which keeps it an index of the map exactly if no other key has the old
value. -/

namespace XEmacs.Lib

variable {α β : Type*}

/-- `g` finds a key for each value of `f`, and nothing else. -/
structure IsReverseIndex (f : α → Option β) (g : β → Option α) : Prop where
  sound : ∀ {v a}, g v = some a → f a = some v
  complete : ∀ {v a}, f a = some v → (g v).isSome

variable {f : α → Option β} {g : β → Option α} {a : α} {old new : Option β} {v : β}

theorem IsReverseIndex.isSome_iff (h : IsReverseIndex f g) : (g v).isSome ↔ ∃ a, f a = some v := by
  refine ⟨fun hv => ?_, fun ⟨_, ha⟩ => h.complete ha⟩
  obtain ⟨a, ha⟩ := Option.isSome_iff_exists.mp hv
  exact ⟨a, h.sound ha⟩

variable [DecidableEq α] [DecidableEq β]

/-- The index after a key has been given a value, `old` being what is dropped. -/
def reindex (g : β → Option α) (a : α) (old new : Option β) (v : β) : Option α :=
  if new = some v then some a else if old = some v then none else g v

omit [DecidableEq α] in
/-- A value other than the new one is found at the key it was found at, unless it is dropped. -/
theorem reindex_eq_some (hnew : new ≠ some v) {b : α} :
    reindex g a old new v = some b ↔ old ≠ some v ∧ g v = some b := by
  rw [reindex, if_neg hnew]
  by_cases hold : old = some v
  · simp [hold]
  · simp [hold]

/-- The reindexed map is indexed if the old value of the key is dropped wherever it is not the
new one, and no other key has it. -/
theorem IsReverseIndex.update (h : IsReverseIndex f g)
    (hold : ∀ v, f a = some v → new ≠ some v → old = some v)
    (hothers : ∀ v, old = some v → new ≠ some v → ∀ b, f b = some v → b = a) :
    IsReverseIndex (Function.update f a new) (reindex g a old new) where
  sound := by
    intro v b hb
    by_cases hnew : new = some v
    · rw [reindex, if_pos hnew, Option.some.injEq] at hb
      rw [← hb, Function.update_self, hnew]
    · obtain ⟨hdrop, hg⟩ := (reindex_eq_some hnew).mp hb
      have hba : b ≠ a := by
        rintro rfl
        exact hdrop (hold v (h.sound hg) hnew)
      rw [Function.update_of_ne hba, h.sound hg]
  complete := by
    intro v b hb
    by_cases hnew : new = some v
    · rw [reindex, if_pos hnew, Option.isSome_some]
    · have hba : b ≠ a := by
        rintro rfl
        exact hnew (by rwa [Function.update_self] at hb)
      rw [Function.update_of_ne hba] at hb
      have hkeep : old ≠ some v := fun hdrop => hba (hothers v hdrop hnew b hb)
      rw [reindex, if_neg hnew, if_neg hkeep]
      exact h.complete hb

end XEmacs.Lib
