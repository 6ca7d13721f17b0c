import Mathlib.Data.Set.Card

/-! Going from one element to the next, until there is no next one. -/

namespace XEmacs.Lib

variable {σ α : Type*} [DecidableEq α]

/-- The elements that `next` gives one after the other, in at most `n` steps; it gives an
element again after which nothing comes. -/
def walk (next : σ → α → Option (σ × α)) : ℕ → σ → α → Option (σ × List α)
  | 0, _, _ => none
  | n + 1, s, a =>
    (next s a).bind fun r =>
      if r.2 = a then some (r.1, []) else (walk next n r.1 r.2).map fun r' => (r'.1, r.2 :: r'.2)

variable {next : σ → α → Option (σ × α)} {I : σ → α → Prop} {B : α → Set α}

/-- If each element is followed by one of what is to come, and the rest of that is to come
afterwards, then all of it is visited, each element once. -/
theorem exists_walk (hfinite : ∀ a, (B a).Finite)
    (hnext : ∀ s a, I s a → ∃ s' v, next s a = some (s', v) ∧ I s' v ∧
      (v = a ∧ B a = ∅ ∨ v ≠ a ∧ v ∉ B v ∧ B a = insert v (B v))) {s : σ} {a : α} (h : I s a) :
    ∃ n s' l, walk next n s a = some (s', l) ∧ l.Nodup ∧ ∀ p, p ∈ l ↔ p ∈ B a := by
  induction hn : (B a).ncard generalizing s a with
  | zero =>
    obtain ⟨s', v, hv, -, hcases⟩ := hnext s a h
    have hempty := (Set.ncard_eq_zero (hfinite a)).mp hn
    rcases hcases with ⟨rfl, -⟩ | ⟨-, -, hB⟩
    · refine ⟨1, s', [], ?_, List.nodup_nil, fun p => ?_⟩
      · rw [walk, hv, Option.bind_some, if_pos rfl]
      · rw [hempty]
        exact iff_of_false List.not_mem_nil (Set.notMem_empty p)
    · exact absurd (hB.symm.trans hempty) (Set.insert_nonempty v (B v)).ne_empty
  | succ n ih =>
    obtain ⟨s', v, hv, hI, hcases⟩ := hnext s a h
    rcases hcases with ⟨-, hB⟩ | ⟨hne, hnew, hB⟩
    · rw [hB, Set.ncard_empty] at hn
      exact absurd hn.symm (Nat.succ_ne_zero n)
    · rw [hB, Set.ncard_insert_of_notMem hnew (hfinite v)] at hn
      obtain ⟨m, s'', l, hwalk, hnodup, hmem⟩ := ih hI (Nat.succ.inj hn)
      refine ⟨m + 1, s'', v :: l, ?_, List.nodup_cons.mpr ⟨mt (hmem v).mp hnew, hnodup⟩, fun p => ?_⟩
      · rw [walk, hv, Option.bind_some, if_neg hne, hwalk, Option.map_some]
      · rw [List.mem_cons, hmem, hB, Set.mem_insert_iff]

end XEmacs.Lib
