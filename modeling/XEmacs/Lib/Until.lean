import Mathlib.Data.Int.Notation

/-! A function that is called on the items of a list until it returns a number that is not zero, with a
state that it may change. -/

namespace XEmacs.Lib

variable {α β σ : Type*}

/-- The calls on the items, up to the first that does not return zero; that is returned. -/
def untilNonzero (f : α → σ → ℤ × σ) : List α → σ → ℤ × σ
  | [], s => (0, s)
  | a :: l, s => if (f a s).1 ≠ 0 then f a s else untilNonzero f l (f a s).2

variable {f g : α → σ → ℤ × σ} {l l' : List α} {a : α} {s : σ}

@[simp] theorem untilNonzero_nil (f : α → σ → ℤ × σ) (s : σ) : untilNonzero f [] s = (0, s) := rfl

theorem untilNonzero_cons_of_ne (h : (f a s).1 ≠ 0) : untilNonzero f (a :: l) s = f a s := by
  rw [untilNonzero, if_pos h]

theorem untilNonzero_cons_of_eq (h : (f a s).1 = 0) : untilNonzero f (a :: l) s = untilNonzero f l (f a s).2 := by
  rw [untilNonzero, if_neg fun hne => hne h]

@[simp] theorem untilNonzero_singleton (f : α → σ → ℤ × σ) (a : α) (s : σ) : untilNonzero f [a] s = f a s := by
  by_cases h : (f a s).1 = 0
  · rw [untilNonzero_cons_of_eq h, untilNonzero_nil, ← h]
  · rw [untilNonzero_cons_of_ne h]

theorem untilNonzero_append : untilNonzero f (l ++ l') s =
    if (untilNonzero f l s).1 ≠ 0 then untilNonzero f l s else untilNonzero f l' (untilNonzero f l s).2 := by
  induction l generalizing s with
  | nil => rfl
  | cons a l ih =>
    rw [List.cons_append]
    by_cases h : (f a s).1 = 0
    · rw [untilNonzero_cons_of_eq h, untilNonzero_cons_of_eq h, ih]
    · rw [untilNonzero_cons_of_ne h, untilNonzero_cons_of_ne h, if_pos h]

theorem untilNonzero_flatMap (f : α → σ → ℤ × σ) (items : β → List α) (l : List β) (s : σ) :
    untilNonzero f (l.flatMap items) s = untilNonzero (fun b => untilNonzero f (items b)) l s := by
  induction l generalizing s with
  | nil => rfl
  | cons b l ih => rw [List.flatMap_cons, untilNonzero_append, ih, untilNonzero]

/-- Calls that each pass on an item or nothing. -/
theorem untilNonzero_filterMap (f : α → σ → ℤ × σ) (item : β → Option α) (l : List β) (s : σ) :
    untilNonzero f (l.filterMap item) s =
      untilNonzero (fun b s => ((item b).map fun a => f a s).getD (0, s)) l s := by
  induction l generalizing s with
  | nil => rfl
  | cons b l ih =>
    rw [List.filterMap_cons, untilNonzero]
    cases item b with
    | none => exact ih s
    | some a => simp only [untilNonzero, ih, Option.map_some, Option.getD_some]

/-- What each call keeps is kept by all of them. -/
theorem untilNonzero_invariant {P : σ → Prop} (hstep : ∀ a ∈ l, ∀ s, P s → P (f a s).2) (hs : P s) :
    P (untilNonzero f l s).2 := by
  induction l generalizing s with
  | nil => exact hs
  | cons a l ih =>
    have ha := hstep a List.mem_cons_self s hs
    by_cases h : (f a s).1 = 0
    · rw [untilNonzero_cons_of_eq h]
      exact ih (fun b hb => hstep b (List.mem_cons_of_mem a hb)) ha
    · rw [untilNonzero_cons_of_ne h]
      exact ha

def record (a : α) (items : List α) : ℤ × List α := (0, items ++ [a])

theorem untilNonzero_record (l items : List α) : untilNonzero record l items = (0, items ++ l) := by
  induction l generalizing items with
  | nil => rw [List.append_nil, untilNonzero_nil]
  | cons a l ih => rw [untilNonzero_cons_of_eq rfl, record, ih, List.append_assoc, List.singleton_append]

end XEmacs.Lib
