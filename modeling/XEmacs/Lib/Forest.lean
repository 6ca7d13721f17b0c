import Mathlib.Data.Fintype.Card
import Mathlib.Tactic.Common

/-! Forests given by a parent function: the ancestors of a node by iteration, when a parent
function is acyclic, and how hanging a node below another or cutting nodes off keeps it so. -/

namespace XEmacs.Lib.Forest

variable {α : Type*} {p q : α → Option α} {x y z : α} {j k : ℕ}

/-- The `k`-th ancestor of a node. -/
def up (p : α → Option α) : ℕ → α → Option α
  | 0, x => some x
  | k + 1, x => (p x).bind (up p k)

theorem up_add (j k : ℕ) (x : α) : up p (j + k) x = (up p j x).bind (up p k) := by
  induction j generalizing x with
  | zero => rw [Nat.zero_add, up, Option.bind_some]
  | succ j ih =>
    rw [Nat.succ_add, up, up, Option.bind_assoc]
    exact congrArg _ (funext ih)

theorem up_one (x : α) : up p 1 x = p x := by
  rw [up]
  cases p x <;> rfl

/-- No node is a proper ancestor of itself. -/
def Acyclic (p : α → Option α) : Prop := ∀ k x, up p (k + 1) x ≠ some x

theorem acyclic_none : Acyclic fun _ : α => none := fun _ _ h => by simp [up] at h

theorem up_mono (h : ∀ x y, q x = some y → p x = some y) (hy : up q k x = some y) : up p k x = some y := by
  induction k generalizing x with
  | zero => exact hy
  | succ k ih =>
    obtain ⟨z, hz, hy⟩ := Option.bind_eq_some_iff.mp hy
    rw [up, h x z hz]
    exact ih hy

theorem Acyclic.mono (hp : Acyclic p) (h : ∀ x y, q x = some y → p x = some y) : Acyclic q :=
  fun k x hx => hp k x (up_mono h hx)

theorem exists_up_of_update (h : ∀ x, x ≠ y → q x = p x) (hy : up q k x = some y) :
    ∃ j ≤ k, up p j x = some y := by
  induction k generalizing x with
  | zero => exact ⟨0, Nat.le_refl _, hy⟩
  | succ k ih =>
    by_cases hx : x = y
    · exact ⟨0, Nat.zero_le _, by rw [hx]; rfl⟩
    · obtain ⟨z, hz, hy⟩ := Option.bind_eq_some_iff.mp hy
      obtain ⟨j, hj, hup⟩ := ih hy
      exact ⟨j + 1, Nat.succ_le_succ hj, by rw [up, ← h x hx, hz]; exact hup⟩

theorem up_eq_of_update (h : ∀ x, x ≠ y → q x = p x) (hy : ∀ j < k, up q j x ≠ some y) :
    up p k x = up q k x := by
  induction k generalizing x with
  | zero => rfl
  | succ k ih =>
    have hx : x ≠ y := fun hx => hy 0 (Nat.succ_pos _) (by rw [hx]; rfl)
    rw [up, up, h x hx]
    rcases hpx : p x with _ | z
    · rfl
    · refine ih fun j hj hup => hy (j + 1) (Nat.succ_lt_succ hj) ?_
      rw [up, h x hx, hpx]
      exact hup

/-- A node may be hung below another that is not below it. -/
theorem Acyclic.update (hp : Acyclic p) (h : ∀ x, x ≠ y → q x = p x) (hz : q y = some z)
    (hbelow : ∀ k, up p k z ≠ some y) : Acyclic q := by
  intro k x hx
  by_cases hmeet : ∃ j < k + 1, up q j x = some y
  · obtain ⟨j, -, hj⟩ := hmeet
    -- the cycle, turned so that it starts at `y`
    have hcycle : up q (k + 1) y = some y := by
      have hturn := up_add (p := q) (k + 1) j x
      rw [hx, Option.bind_some, hj, Nat.add_comm, up_add, hj, Option.bind_some] at hturn
      exact hturn
    rw [up, hz, Option.bind_some] at hcycle
    obtain ⟨i, -, hi⟩ := exists_up_of_update h hcycle
    exact hbelow i hi
  · have hsame := up_eq_of_update h fun j hj hup => hmeet ⟨j, hj, hup⟩
    exact hp k x (hsame.trans hx)

/-- An ancestor among finitely many nodes is at most as many steps away as there are nodes. -/
theorem exists_up_lt {n : ℕ} {p : ℕ → Option ℕ} {x y : ℕ} (hx : x < n) (h : ∀ x y, p x = some y → y < n)
    (hy : ∃ k, up p k x = some y) : ∃ k < n, up p k x = some y := by
  classical
  refine ⟨Nat.find hy, ?_, Nat.find_spec hy⟩
  set k := Nat.find hy with hk
  have hspec : up p k x = some y := Nat.find_spec hy
  -- every step on the shortest way leads to a node, and no node is met twice
  have hnode : ∀ j ≤ k, ∃ z < n, up p j x = some z := by
    intro j hj
    have hsplit := up_add (p := p) j (k - j) x
    rw [Nat.add_sub_cancel' hj, hspec] at hsplit
    obtain ⟨z, hz, -⟩ := Option.bind_eq_some_iff.mp hsplit.symm
    refine ⟨z, ?_, hz⟩
    rcases j with _ | j
    · rw [up, Option.some.injEq] at hz
      exact hz ▸ hx
    · rw [up_add] at hz
      obtain ⟨w, -, hw⟩ := Option.bind_eq_some_iff.mp hz
      exact h w z (by rwa [up_one] at hw)
  choose! node hlt hnode using hnode
  have hinj : ∀ i j, i < j → j ≤ k → node i ≠ node j := by
    intro i j hij hj heq
    have hshort : up p (i + (k - j)) x = some y := by
      have hlong := up_add (p := p) j (k - j) x
      rw [Nat.add_sub_cancel' hj, hspec, hnode j hj, ← heq, ← hnode i (by omega), ← up_add] at hlong
      exact hlong.symm
    exact absurd (Nat.find_le (h := hy) hshort) (by omega)
  have hcard := Fintype.card_le_of_injective (fun i : Fin (k + 1) => (⟨node i, hlt i (by omega)⟩ : Fin n))
    fun i j heq => by
      have heq : node i = node j := congrArg Fin.val heq
      rcases Nat.lt_trichotomy i j with hij | hij | hij
      · exact absurd heq (hinj i j hij (by omega))
      · exact Fin.ext hij
      · exact absurd heq.symm (hinj j i hij (by omega))
  rw [Fintype.card_fin, Fintype.card_fin] at hcard
  exact hcard

end XEmacs.Lib.Forest
