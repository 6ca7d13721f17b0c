import Mathlib.Algebra.BigOperators.Group.Finset.Basic
import Mathlib.Data.Fintype.Card
import Mathlib.Tactic.Common

/-! Marking of what can be reached, with a stack, and the iteration of it with objects that are
pending once other objects are marked. Both end, and what they mark is the least set that contains
the roots and is closed. -/

namespace XEmacs.Lib.Marking

variable {A : Type*} [DecidableEq A] {refs : A → List A} {pending : Finset A → List A} {fuel : ℕ}
  {stack : List A} {marks marks' : Finset A} {P : A → Prop}

def markStack (refs : A → List A) : ℕ → List A → Finset A → Option (Finset A)
  | _, [], marks => some marks
  | 0, _ :: _, _ => none
  | fuel + 1, a :: stack, marks =>
    if a ∈ marks then markStack refs fuel stack marks
    else markStack refs fuel (refs a ++ stack) (insert a marks)

/-- Whatever is marked refers to what is marked, or on the stack. -/
def ClosedUpTo (refs : A → List A) (marks : Finset A) (stack : List A) : Prop :=
  ∀ a ∈ marks, ∀ b ∈ refs a, b ∈ marks ∨ b ∈ stack

theorem markStack_closed (h : markStack refs fuel stack marks = some marks') (hc : ClosedUpTo refs marks stack) :
    marks ⊆ marks' ∧ (∀ a ∈ stack, a ∈ marks') ∧ ClosedUpTo refs marks' [] := by
  induction fuel generalizing stack marks with
  | zero =>
    cases stack with
    | nil =>
      obtain rfl := Option.some.inj h
      exact ⟨Finset.Subset.refl _, by simp, hc⟩
    | cons a stack => simp [markStack] at h
  | succ fuel ih =>
    cases stack with
    | nil =>
      obtain rfl := Option.some.inj h
      exact ⟨Finset.Subset.refl _, by simp, hc⟩
    | cons a stack =>
      rw [markStack] at h
      split_ifs at h with ha
      · have hc' : ClosedUpTo refs marks stack := by
          intro b hb c hcb
          rcases hc b hb c hcb with hmem | hmem
          · exact .inl hmem
          · rcases List.mem_cons.mp hmem with rfl | hmem
            · exact .inl ha
            · exact .inr hmem
        obtain ⟨hsub, hstack, hclosed⟩ := ih h hc'
        refine ⟨hsub, fun b hb => ?_, hclosed⟩
        rcases List.mem_cons.mp hb with rfl | hb
        · exact hsub ha
        · exact hstack b hb
      · have hc' : ClosedUpTo refs (insert a marks) (refs a ++ stack) := by
          intro b hb c hcb
          rcases Finset.mem_insert.mp hb with rfl | hb
          · exact .inr (List.mem_append_left _ hcb)
          · rcases hc b hb c hcb with hmem | hmem
            · exact .inl (Finset.mem_insert_of_mem hmem)
            · rcases List.mem_cons.mp hmem with rfl | hmem
              · exact .inl (Finset.mem_insert_self _ _)
              · exact .inr (List.mem_append_right _ hmem)
        obtain ⟨hsub, hstack, hclosed⟩ := ih h hc'
        refine ⟨(Finset.subset_insert a marks).trans hsub, fun b hb => ?_, hclosed⟩
        rcases List.mem_cons.mp hb with rfl | hb
        · exact hsub (Finset.mem_insert_self _ _)
        · exact hstack b (List.mem_append_right _ hb)

theorem markStack_least (h : markStack refs fuel stack marks = some marks') (hmarks : ∀ a ∈ marks, P a)
    (hstack : ∀ a ∈ stack, P a) (hrefs : ∀ a, P a → ∀ b ∈ refs a, P b) : ∀ a ∈ marks', P a := by
  induction fuel generalizing stack marks with
  | zero =>
    cases stack with
    | nil =>
      obtain rfl := Option.some.inj h
      exact hmarks
    | cons a stack => simp [markStack] at h
  | succ fuel ih =>
    cases stack with
    | nil =>
      obtain rfl := Option.some.inj h
      exact hmarks
    | cons a stack =>
      rw [List.forall_mem_cons] at hstack
      rw [markStack] at h
      split_ifs at h with ha
      · exact ih h hmarks hstack.2
      · refine ih h (fun b hb => ?_) fun b hb => ?_
        · rcases Finset.mem_insert.mp hb with rfl | hb
          · exact hstack.1
          · exact hmarks b hb
        · rcases List.mem_append.mp hb with hb | hb
          · exact hrefs a hstack.1 b hb
          · exact hstack.2 b hb

variable [Fintype A]

def work (refs : A → List A) (marks : Finset A) : ℕ := ∑ a ∈ marksᶜ, (refs a).length

theorem work_insert (refs : A → List A) {a : A} (ha : a ∉ marks) :
    work refs (insert a marks) + (refs a).length = work refs marks := by
  rw [work, work, Finset.compl_insert]
  exact Finset.sum_erase_add _ _ (Finset.mem_compl.mpr ha)

theorem markStack_ends (refs : A → List A) (fuel : ℕ) {stack : List A} {marks : Finset A}
    (hfuel : stack.length + work refs marks ≤ fuel) : ∃ marks', markStack refs fuel stack marks = some marks' := by
  induction fuel generalizing stack marks with
  | zero =>
    cases stack with
    | nil => exact ⟨marks, rfl⟩
    | cons a stack => simp at hfuel
  | succ fuel ih =>
    cases stack with
    | nil => exact ⟨marks, rfl⟩
    | cons a stack =>
      rw [List.length_cons] at hfuel
      rw [markStack]
      split_ifs with ha
      · exact ih (by omega)
      · have hwork := work_insert refs ha
        exact ih (by rw [List.length_append]; omega)

def mark (refs : A → List A) (stack : List A) (marks : Finset A) : Option (Finset A) :=
  markStack refs (stack.length + work refs marks) stack marks

def markLoop (refs : A → List A) (pending : Finset A → List A) : ℕ → Finset A → Option (Finset A)
  | 0, _ => none
  | fuel + 1, marks =>
    if pending marks = [] then some marks
    else (mark refs (pending marks) marks).bind (markLoop refs pending fuel)

/-- What the loop marks is closed, and nothing is pending. -/
theorem markLoop_closed (h : markLoop refs pending fuel marks = some marks') (hc : ClosedUpTo refs marks []) :
    marks ⊆ marks' ∧ ClosedUpTo refs marks' [] ∧ pending marks' = [] := by
  induction fuel generalizing marks with
  | zero => simp [markLoop] at h
  | succ fuel ih =>
    rw [markLoop] at h
    split_ifs at h with hp
    · obtain rfl := Option.some.inj h
      exact ⟨Finset.Subset.refl _, hc, hp⟩
    · obtain ⟨marks₁, hmark, h⟩ := Option.bind_eq_some_iff.mp h
      have hc' : ClosedUpTo refs marks (pending marks) := by
        intro a ha b hb
        rcases hc a ha b hb with hmem | hmem
        · exact .inl hmem
        · simp at hmem
      obtain ⟨hsub, -, hclosed⟩ := markStack_closed hmark hc'
      obtain ⟨hsub', hclosed', hnone⟩ := ih h hclosed
      exact ⟨hsub.trans hsub', hclosed', hnone⟩

theorem markLoop_least (h : markLoop refs pending fuel marks = some marks') (hmarks : ∀ a ∈ marks, P a)
    (hrefs : ∀ a, P a → ∀ b ∈ refs a, P b)
    (hpending : ∀ marks : Finset A, (∀ a ∈ marks, P a) → ∀ a ∈ pending marks, P a) : ∀ a ∈ marks', P a := by
  induction fuel generalizing marks with
  | zero => simp [markLoop] at h
  | succ fuel ih =>
    rw [markLoop] at h
    split_ifs at h with hp
    · obtain rfl := Option.some.inj h
      exact hmarks
    · obtain ⟨marks₁, hmark, h⟩ := Option.bind_eq_some_iff.mp h
      exact ih h (markStack_least hmark hmarks (hpending marks hmarks) hrefs)

/-- The loop ends where only objects that are not marked are pending. -/
theorem markLoop_ends (refs : A → List A) (hnew : ∀ marks, ∀ a ∈ pending marks, a ∉ marks) (fuel : ℕ)
    {marks : Finset A} (hc : ClosedUpTo refs marks []) (hfuel : marksᶜ.card < fuel) :
    ∃ marks', markLoop refs pending fuel marks = some marks' := by
  induction fuel generalizing marks with
  | zero => omega
  | succ fuel ih =>
    rw [markLoop]
    split_ifs with hp
    · exact ⟨marks, rfl⟩
    · obtain ⟨marks₁, hmark⟩ := markStack_ends refs _ (le_refl ((pending marks).length + work refs marks))
      have hc' : ClosedUpTo refs marks (pending marks) := by
        intro a ha b hb
        rcases hc a ha b hb with hmem | hmem
        · exact .inl hmem
        · simp at hmem
      obtain ⟨hsub, hstack, hclosed⟩ := markStack_closed hmark hc'
      obtain ⟨a, ha⟩ := List.exists_mem_of_ne_nil _ hp
      have hless : marks₁ᶜ.card < marksᶜ.card := by
        apply Finset.card_lt_card
        refine ⟨Finset.compl_subset_compl.mpr hsub, fun hsub' => ?_⟩
        have hmem := hsub' (Finset.mem_compl.mpr (hnew marks a ha))
        exact Finset.mem_compl.mp hmem (hstack a ha)
      obtain ⟨marks', h⟩ := ih hclosed (by omega)
      exact ⟨marks', by rw [mark, hmark, Option.bind_some, h]⟩

end XEmacs.Lib.Marking
