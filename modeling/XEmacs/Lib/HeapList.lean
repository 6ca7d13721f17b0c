import Mathlib.Data.List.Nodup

/-! Linked lists in a heap: `next` gives the successor of a node. A list is followed from
a first node until there is no successor. A doubly linked list is one that `prev` follows
the other way. Insertion at the front, removal and changes outside of a list are stated
for any new successor function that agrees with the old one where it has to. -/

namespace XEmacs.Lib

variable {κ : Type*} {next next' prev prev' : κ → Option κ} {p : Option κ} {x y : κ}
  {l l₁ l₂ : List κ}

/-- From `p`, `next` follows the nodes of `l` and stops. -/
def SList (next : κ → Option κ) : Option κ → List κ → Prop
  | p, [] => p = none
  | p, x :: l => p = some x ∧ SList next (next x) l

namespace SList

theorem head?_eq (h : SList next p l) : p = l.head? := by
  cases l with
  | nil => exact h
  | cons x l => exact h.1

theorem congr (h : SList next p l) (heq : ∀ x ∈ l, next' x = next x) : SList next' p l := by
  induction l generalizing p with
  | nil => exact h
  | cons x l ih =>
    refine ⟨h.1, ?_⟩
    rw [heq x List.mem_cons_self]
    exact ih h.2 fun y hy => heq y (List.mem_cons_of_mem x hy)

theorem cons (h : SList next p l) (hx : next x = p) : SList next (some x) (x :: l) :=
  ⟨rfl, hx ▸ h⟩

theorem drop (h : SList next p (l₁ ++ l₂)) : SList next l₂.head? l₂ := by
  induction l₁ generalizing p with
  | nil =>
    have hp := head?_eq (l := l₂) h
    exact hp ▸ h
  | cons x l₁ ih => exact ih h.2

theorem next_eq (h : SList next p (l₁ ++ x :: l₂)) : next x = l₂.head? :=
  head?_eq (drop h).2

theorem concat (h : SList next p l) (hx : next' x = none)
    (hlast : ∀ y, l.getLast? = some y → next' y = some x)
    (heq : ∀ y ∈ l, l.getLast? ≠ some y → next' y = next y) (hnodup : l.Nodup) :
    SList next' (l ++ [x]).head? (l ++ [x]) := by
  induction l generalizing p with
  | nil => exact ⟨rfl, hx⟩
  | cons y l ih =>
    refine ⟨rfl, ?_⟩
    obtain ⟨hy, hnodup⟩ := List.nodup_cons.mp hnodup
    have hrest := ih h.2 (fun z hz => hlast z (by cases l with
        | nil => contradiction
        | cons => exact hz))
      (fun z hz hne => heq z (List.mem_cons_of_mem y hz) (by cases l with
        | nil => contradiction
        | cons => exact hne)) hnodup
    cases l with
    | nil =>
      show SList next' (next' y) [x]
      rw [hlast y rfl]
      exact ⟨rfl, hx⟩
    | cons z l =>
      have hne : (y :: z :: l).getLast? ≠ some y := fun hc =>
        hy (List.mem_of_getLast? hc)
      show SList next' (next' y) (z :: (l ++ [x]))
      rw [heq y List.mem_cons_self hne, h.2.1]
      exact hrest

theorem remove (h : SList next p (l₁ ++ x :: l₂)) (hnodup : (l₁ ++ x :: l₂).Nodup)
    (hpred : ∀ y, l₁.getLast? = some y → next' y = next x)
    (heq : ∀ y ∈ l₁ ++ l₂, l₁.getLast? ≠ some y → next' y = next y) :
    SList next' (l₁ ++ l₂).head? (l₁ ++ l₂) := by
  induction l₁ generalizing p with
  | nil =>
    have hrest : SList next l₂.head? l₂ := drop (show SList next p ([x] ++ l₂) from h)
    exact congr hrest fun y hy => heq y hy (by simp)
  | cons y l₁ ih =>
    refine ⟨rfl, ?_⟩
    obtain ⟨hy, hnodup⟩ := List.nodup_cons.mp hnodup
    have hrest := ih h.2 hnodup
      (fun z hz => hpred z (by cases l₁ with
        | nil => contradiction
        | cons => exact hz))
      (fun z hz hne => heq z (List.mem_cons_of_mem y hz) (by cases l₁ with
        | nil =>
          intro hc
          obtain rfl : y = z := by simpa using hc
          exact hy (List.mem_cons_of_mem x hz)
        | cons => exact hne))
    cases l₁ with
    | nil =>
      show SList next' (next' y) l₂
      rw [hpred y rfl, head?_eq h.2.2]
      exact hrest
    | cons z l₁ =>
      have hne : (y :: z :: l₁).getLast? ≠ some y := fun hc =>
        hy (List.mem_append_left _ (List.mem_of_getLast? hc))
      show SList next' (next' y) (z :: (l₁ ++ l₂))
      rw [heq y List.mem_cons_self hne, h.2.1]
      exact hrest

end SList

/-- `next` follows `l` from its first node and `prev` follows it back from its last. -/
structure DList (next prev : κ → Option κ) (p : Option κ) (l : List κ) : Prop where
  forward : SList next p l
  backward : SList prev l.getLast? l.reverse

namespace DList

theorem congr (h : DList next prev p l) (hnext : ∀ x ∈ l, next' x = next x)
    (hprev : ∀ x ∈ l, prev' x = prev x) : DList next' prev' p l where
  forward := h.forward.congr hnext
  backward := h.backward.congr fun x hx => hprev x (List.mem_reverse.mp hx)

theorem next_eq (h : DList next prev p (l₁ ++ x :: l₂)) : next x = l₂.head? := h.forward.next_eq

theorem prev_eq (h : DList next prev p (l₁ ++ x :: l₂)) : prev x = l₁.getLast? := by
  have hback : SList prev (l₁ ++ x :: l₂).getLast? (l₂.reverse ++ x :: l₁.reverse) := by
    simpa using h.backward
  rw [hback.next_eq, List.head?_reverse]

theorem cons (h : DList next prev p l) (hnodup : l.Nodup) (hnext : next' x = p) (hprev : prev' x = none)
    (hback : ∀ y, p = some y → prev' y = some x) (heqn : ∀ y ∈ l, next' y = next y)
    (heqp : ∀ y ∈ l, p ≠ some y → prev' y = prev y) : DList next' prev' (some x) (x :: l) where
  forward := (h.forward.congr heqn).cons hnext
  backward := by
    have hp := h.forward.head?_eq
    have hlast : (x :: l).getLast? = (l.reverse ++ [x]).head? := by
      rw [← List.reverse_cons, List.head?_reverse]
    rw [hlast, List.reverse_cons]
    refine h.backward.concat hprev (fun y hy => hback y ?_) (fun y hy hne => heqp y (List.mem_reverse.mp hy) ?_)
      (List.nodup_reverse.mpr hnodup)
    · rwa [hp, ← List.getLast?_reverse]
    · rwa [hp, ← List.getLast?_reverse]

theorem remove (h : DList next prev p (l₁ ++ x :: l₂)) (hnodup : (l₁ ++ x :: l₂).Nodup)
    (hpred : ∀ y, prev x = some y → next' y = next x) (hsucc : ∀ y, next x = some y → prev' y = prev x)
    (heqn : ∀ y ∈ l₁ ++ l₂, prev x ≠ some y → next' y = next y)
    (heqp : ∀ y ∈ l₁ ++ l₂, next x ≠ some y → prev' y = prev y) :
    DList next' prev' (if prev x = none then next x else p) (l₁ ++ l₂) where
  forward := by
    rw [h.prev_eq] at hpred heqn
    have hp := h.forward.head?_eq
    have hstart : (if prev x = none then next x else p) = (l₁ ++ l₂).head? := by
      rw [h.prev_eq, h.next_eq, hp]
      cases l₁ with
      | nil => rfl
      | cons y l₁ => rw [if_neg (by simp)]; rfl
    rw [hstart]
    exact h.forward.remove hnodup hpred heqn
  backward := by
    rw [h.next_eq, ← List.getLast?_reverse] at hsucc heqp
    have hback : SList prev (l₁ ++ x :: l₂).getLast? (l₂.reverse ++ x :: l₁.reverse) := by
      simpa using h.backward
    have hnodup' : (l₂.reverse ++ x :: l₁.reverse).Nodup := by
      simpa using List.nodup_reverse.mpr hnodup
    have hdone : SList prev' _ _ := hback.remove hnodup' hsucc
      fun y hy => heqp y (by simpa [or_comm] using hy)
    rwa [← List.reverse_append, List.head?_reverse] at hdone

end DList

end XEmacs.Lib
