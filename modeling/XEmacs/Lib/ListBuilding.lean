import Mathlib.Data.List.Chain
import XEmacs.Lib.HeapList

/-! A linked list that is made by adding nodes behind its last one. The last node may point to
anything until the list is finished. -/

namespace XEmacs.Lib

variable {κ : Type*} {next next' : κ → Option κ} {p value tail : Option κ} {x : κ}
  {c l l' rest : List κ}

namespace SList

theorem unique (h : SList next p l) (h' : SList next p l') : l = l' := by
  induction l generalizing p l' with
  | nil =>
    cases l' with
    | nil => rfl
    | cons y l' => exact absurd (h.symm.trans h'.1) (Option.some_ne_none y).symm
  | cons x l ih =>
    cases l' with
    | nil => exact absurd (h'.symm.trans h.1) (Option.some_ne_none x).symm
    | cons y l' =>
      obtain rfl : x = y := Option.some_inj.mp (h.1.symm.trans h'.1)
      rw [ih h.2 h'.2]

theorem nodup (h : SList next p l) : l.Nodup := by
  induction l generalizing p with
  | nil => exact List.nodup_nil
  | cons x l ih =>
    apply List.nodup_cons.mpr ⟨fun hmem => ?_, ih h.2⟩
    obtain ⟨l₁, l₂, hl⟩ := List.append_of_mem hmem
    have hx : SList next (some x) (x :: l) := ⟨rfl, h.2⟩
    have hrest := h.2
    rw [hl] at hrest
    have hagain : SList next (some x) (x :: l₂) := hrest.drop
    have hlength := congrArg List.length (hx.unique hagain)
    rw [hl] at hlength
    simp only [List.length_cons, List.length_append] at hlength
    omega

theorem append (hlinked : c.IsChain fun x y => next x = some y)
    (hlast : ∀ y, c.getLast? = some y → next y = p) (hrest : SList next p rest) :
    SList next (c ++ rest).head? (c ++ rest) := by
  induction c with
  | nil =>
    rw [List.nil_append, ← hrest.head?_eq]
    exact hrest
  | cons x c ih =>
    refine ⟨rfl, ?_⟩
    cases c with
    | nil =>
      rw [hlast x rfl]
      exact hrest
    | cons y c =>
      obtain ⟨hxy, hlinked⟩ := List.isChain_cons_cons.mp hlinked
      rw [hxy]
      exact ih hlinked hlast

theorem next_getElem (h : SList next p l) {i : ℕ} (hi : i < l.length) : next l[i] = l[i + 1]? := by
  have hsplit : l = l.take i ++ l[i] :: l.drop (i + 1) := by
    rw [← List.drop_eq_getElem_cons hi, List.take_append_drop]
  rw [hsplit] at h
  rw [h.next_eq, List.head?_drop]

theorem cut (h : SList next p (l ++ x :: l')) (hx : next' x = none)
    (heq : ∀ y ∈ l, next' y = next y) : SList next' p (l ++ [x]) := by
  induction l generalizing p with
  | nil => exact ⟨h.1, hx⟩
  | cons y l ih =>
    refine ⟨h.1, ?_⟩
    rw [heq y List.mem_cons_self]
    exact ih h.2 fun z hz => heq z (List.mem_cons_of_mem y hz)

end SList

/-- The nodes `c` are linked, from `value` to `tail`. -/
structure Building (next : κ → Option κ) (value tail : Option κ) (c : List κ) : Prop where
  head : value = c.head?
  last : tail = c.getLast?
  linked : c.IsChain fun x y => next x = some y
  nodup : c.Nodup

namespace Building

theorem nil : Building next none none [] :=
  ⟨rfl, rfl, List.isChain_nil, List.nodup_nil⟩

theorem congr (h : Building next value tail c) (heq : ∀ y ∈ c, next' y = next y) :
    Building next' value tail c where
  head := h.head
  last := h.last
  linked := h.linked.imp_of_mem_imp fun x _ hx _ hxy => (heq x hx).trans hxy
  nodup := h.nodup

theorem next_getElem (h : Building next value tail c) {i : ℕ} (hi : i + 1 < c.length) :
    next (c)[i] = some (c)[i + 1] :=
  List.isChain_iff_getElem.mp h.linked i hi

theorem linked_congr (h : Building next value tail c)
    (heq : ∀ y ∈ c, tail ≠ some y → next' y = next y) : c.IsChain fun x y => next' x = some y := by
  apply List.isChain_iff_getElem.mpr
  intro i hi
  rw [heq (c)[i] (List.getElem_mem _), h.next_getElem hi]
  rw [h.last, List.getLast?_eq_getElem?, List.getElem?_eq_getElem (by omega)]
  intro hsame
  have := (List.Nodup.getElem_inj_iff h.nodup).mp (Option.some_inj.mp hsame)
  omega

theorem concat (h : Building next value tail c) (hx : x ∉ c)
    (hlast : ∀ y, tail = some y → next' y = some x)
    (heq : ∀ y ∈ c, tail ≠ some y → next' y = next y) :
    Building next' (if tail = none then some x else value) (some x) (c ++ [x]) where
  head := by
    cases c with
    | nil => exact if_pos h.last
    | cons y c =>
      rw [if_neg (by rw [h.last]; simp), h.head]
      rfl
  last := by simp
  linked := by
    apply List.IsChain.append (h.linked_congr heq) (List.isChain_singleton x)
    intro y hy z hz
    obtain rfl : x = z := by simpa using hz
    exact hlast y (h.last.trans hy)
  nodup := List.nodup_append.mpr ⟨h.nodup, List.nodup_singleton x, fun y hy z hz hyz => by
    obtain rfl : z = x := by simpa using hz
    exact hx (hyz ▸ hy)⟩

theorem finish (h : Building next value tail c) (hlast : ∀ y, tail = some y → next' y = p)
    (heq : ∀ y ∈ c, tail ≠ some y → next' y = next y) (hrest : SList next' p rest) :
    SList next' (c ++ rest).head? (c ++ rest) :=
  SList.append (h.linked_congr heq) (fun y hy => hlast y (h.last.trans hy)) hrest

end Building

end XEmacs.Lib
