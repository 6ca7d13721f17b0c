import Mathlib.Data.List.Basic
import Mathlib.Data.Set.Basic

/-! Stable merging and sorting by a strict weak order, given by its test. The order is asked for
on a set of elements only. Elements of one class keep their order, and in a merge those of the
first list come first. -/

namespace XEmacs.Lib

variable {α : Type*} (lt : α → α → Bool) (s : Set α)

structure StrictWeakOrderOn : Prop where
  asymm : ∀ x ∈ s, ∀ y ∈ s, lt x y = true → lt y x = false
  negTrans : ∀ x ∈ s, ∀ y ∈ s, ∀ z ∈ s, lt x y = false → lt y z = false → lt x z = false

variable {lt s} in
theorem StrictWeakOrderOn.irrefl (h : StrictWeakOrderOn lt s) {x : α} (hx : x ∈ s) :
    lt x x = false := by
  cases hxx : lt x x with
  | false => rfl
  | true => exact absurd (h.asymm x hx x hx hxx) (by rw [hxx]; exact Bool.false_ne_true.symm)

def Ordered (xs : List α) : Prop :=
  xs.Pairwise fun x y => lt y x = false

def equivalent (x y : α) : Bool :=
  !lt x y && !lt y x

/-- `zs` is the stable merge of two ordered lists. -/
structure Merges (xs ys zs : List α) : Prop where
  perm : zs.Perm (xs ++ ys)
  ordered : Ordered lt zs
  stable : ∀ x ∈ s, zs.filter (equivalent lt x) =
    xs.filter (equivalent lt x) ++ ys.filter (equivalent lt x)

/-- `zs` is the list `xs` sorted, by a stable sort. -/
structure Sorts (xs zs : List α) : Prop where
  perm : zs.Perm xs
  ordered : Ordered lt zs
  stable : ∀ x ∈ s, zs.filter (equivalent lt x) = xs.filter (equivalent lt x)

/-- An element of the second list is taken when it is before that of the first. -/
def stableMerge (xs ys : List α) : List α :=
  xs.merge ys fun x y => !lt y x

section

variable {x y : α} (xs ys : List α)

@[simp] theorem stableMerge_nil_left : stableMerge lt [] ys = ys := List.nil_merge ys

@[simp] theorem stableMerge_nil_right : stableMerge lt xs [] = xs := List.merge_right xs

variable {lt}

theorem stableMerge_cons_left (h : lt y x = false) :
    stableMerge lt (x :: xs) (y :: ys) = x :: stableMerge lt xs (y :: ys) := by
  rw [stableMerge, List.cons_merge_cons, h]
  rfl

theorem stableMerge_cons_right (h : lt y x = true) :
    stableMerge lt (x :: xs) (y :: ys) = y :: stableMerge lt (x :: xs) ys := by
  rw [stableMerge, List.cons_merge_cons, h]
  rfl

end

section

variable {lt s} {xs ys : List α}

theorem Ordered.tail {x : α} (h : Ordered lt (x :: xs)) : Ordered lt xs :=
  List.Pairwise.of_cons h

theorem Ordered.head {x y : α} (h : Ordered lt (x :: xs)) (hy : y ∈ xs) : lt y x = false :=
  List.rel_of_pairwise_cons h hy

theorem mem_stableMerge {z : α} : z ∈ stableMerge lt xs ys ↔ z ∈ xs ∨ z ∈ ys :=
  List.mem_merge

theorem ordered_stableMerge (h : StrictWeakOrderOn lt s) (hxs : ∀ x ∈ xs, x ∈ s)
    (hys : ∀ y ∈ ys, y ∈ s) (ox : Ordered lt xs) (oy : Ordered lt ys) :
    Ordered lt (stableMerge lt xs ys) := by
  induction xs generalizing ys with
  | nil => rwa [stableMerge_nil_left]
  | cons x xs ihx =>
    induction ys with
    | nil => rwa [stableMerge_nil_right]
    | cons y ys ihy =>
      have hx := hxs x List.mem_cons_self
      have hy := hys y List.mem_cons_self
      have hxs' := fun z hz => hxs z (List.mem_cons_of_mem x hz)
      have hys' := fun z hz => hys z (List.mem_cons_of_mem y hz)
      cases hyx : lt y x with
      | false =>
        rw [stableMerge_cons_left xs ys hyx]
        apply List.Pairwise.cons
        · intro z hz
          rcases mem_stableMerge.mp hz with hz | hz
          · exact ox.head hz
          · rcases List.mem_cons.mp hz with rfl | hz
            · exact hyx
            · exact h.negTrans z (hys' z hz) y hy x hx (oy.head hz) hyx
        · exact ihx hxs' hys ox.tail oy
      | true =>
        rw [stableMerge_cons_right xs ys hyx]
        have hxy := h.asymm y hy x hx hyx
        apply List.Pairwise.cons
        · intro z hz
          rcases mem_stableMerge.mp hz with hz | hz
          · rcases List.mem_cons.mp hz with rfl | hz
            · exact hxy
            · exact h.negTrans z (hxs' z hz) x hx y hy (ox.head hz) hxy
          · exact oy.head hz
        · exact ihy hys' oy.tail

theorem filter_equivalent_eq_nil (h : StrictWeakOrderOn lt s) {x y z : α} (hxs : ∀ w ∈ x :: xs, w ∈ s)
    (hy : y ∈ s) (hz : z ∈ s) (ox : Ordered lt (x :: xs)) (hyx : lt y x = true)
    (hzy : equivalent lt z y = true) : (x :: xs).filter (equivalent lt z) = [] := by
  apply List.filter_eq_nil_iff.mpr
  intro w hw hzw
  simp only [equivalent, Bool.and_eq_true, Bool.not_eq_true'] at hzy hzw
  have hxw : lt w x = false := by
    rcases List.mem_cons.mp hw with rfl | hw
    · exact h.irrefl (hxs w List.mem_cons_self)
    · exact ox.head hw
  have hyw := h.negTrans y hy z hz w (hxs w hw) hzy.2 hzw.1
  have hyx' := h.negTrans y hy w (hxs w hw) x (hxs x List.mem_cons_self) hyw hxw
  exact Bool.false_ne_true (hyx'.symm.trans hyx)

theorem filter_stableMerge (h : StrictWeakOrderOn lt s) (hxs : ∀ x ∈ xs, x ∈ s)
    (hys : ∀ y ∈ ys, y ∈ s) (ox : Ordered lt xs) {z : α} (hz : z ∈ s) :
    (stableMerge lt xs ys).filter (equivalent lt z) =
      xs.filter (equivalent lt z) ++ ys.filter (equivalent lt z) := by
  induction xs generalizing ys with
  | nil => rw [stableMerge_nil_left, List.filter_nil, List.nil_append]
  | cons x xs ihx =>
    induction ys with
    | nil => rw [stableMerge_nil_right, List.filter_nil, List.append_nil]
    | cons y ys ihy =>
      have hxs' := fun w hw => hxs w (List.mem_cons_of_mem x hw)
      have hys' := fun w hw => hys w (List.mem_cons_of_mem y hw)
      cases hyx : lt y x with
      | false =>
        rw [stableMerge_cons_left xs ys hyx, List.filter_cons, ihx hxs' hys ox.tail,
          @List.filter_cons _ x xs]
        split <;> rfl
      | true =>
        rw [stableMerge_cons_right xs ys hyx, List.filter_cons, ihy hys',
          @List.filter_cons _ y ys]
        split
        case isTrue hzy =>
          rw [filter_equivalent_eq_nil h hxs (hys y List.mem_cons_self) hz ox hyx hzy]
          rfl
        case isFalse => rfl

theorem merges_stableMerge (h : StrictWeakOrderOn lt s) (hxs : ∀ x ∈ xs, x ∈ s)
    (hys : ∀ y ∈ ys, y ∈ s) (ox : Ordered lt xs) (oy : Ordered lt ys) :
    Merges lt s xs ys (stableMerge lt xs ys) where
  perm := List.merge_perm_append _
  ordered := ordered_stableMerge h hxs hys ox oy
  stable _ hz := filter_stableMerge h hxs hys ox hz

theorem sorts_of_length_lt_two (h : xs.length < 2) : Sorts lt s xs xs where
  perm := List.Perm.refl xs
  ordered := by
    match xs, h with
    | [], _ => exact List.Pairwise.nil
    | [x], _ => exact List.pairwise_singleton _ x
  stable _ _ := rfl

theorem Sorts.merge {xs' ys' : List α} (h : StrictWeakOrderOn lt s) (hxs : ∀ x ∈ xs, x ∈ s)
    (hys : ∀ y ∈ ys, y ∈ s) (hx : Sorts lt s xs xs') (hy : Sorts lt s ys ys') :
    Sorts lt s (xs ++ ys) (stableMerge lt xs' ys') := by
  have hmerge := merges_stableMerge h (fun x hx' => hxs x (hx.perm.mem_iff.mp hx'))
    (fun y hy' => hys y (hy.perm.mem_iff.mp hy')) hx.ordered hy.ordered
  refine ⟨hmerge.perm.trans (hx.perm.append hy.perm), hmerge.ordered, fun z hz => ?_⟩
  rw [hmerge.stable z hz, hx.stable z hz, hy.stable z hz, List.filter_append]

end

end XEmacs.Lib
