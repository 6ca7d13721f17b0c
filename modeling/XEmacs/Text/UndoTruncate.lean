import Mathlib.Data.List.Induction
import Mathlib.Data.List.TakeWhile
import XEmacs.Text.UndoRestores

/-! How an undo list is made shorter at garbage collection (undo.c), and what `primitive-undo`
still finds in it. An element is nil at a boundary between change groups; any other one is
given by what the sizes depend on, and undone in whatever way the caller says. -/

namespace XEmacs.Text.UndoTruncate

/-- An element of an undo list, as far as its size goes. -/
inductive Shape
  | atom
  | cons
  /-- a cons whose car is a string of so many bytes -/
  | consString (length : ℕ)
  deriving DecidableEq

/-- The sizes of a cons and of a string object. -/
structure Sizes where
  lispCons : ℕ
  lispString : ℕ

/-- `undo-threshold` and `undo-high-threshold`. -/
structure Thresholds where
  minsize : ℤ
  maxsize : ℤ

variable {α β : Type*} (sizes : Sizes) (shape : α → Shape)

def elementSize : Option α → ℕ
  | none => sizes.lispCons
  | some x =>
    sizes.lispCons +
      match shape x with
      | .atom => 0
      | .cons => sizes.lispCons
      | .consString length => sizes.lispCons + (sizes.lispString - 1 + length)

/-- The loop that passes the most recent group: the size so far, the conses passed and what is
next. -/
def passGroup : List (Option α) → ℕ → ℕ → ℕ × ℕ × List (Option α)
  | some x :: next, sizeSoFar, prev =>
    passGroup next (sizeSoFar + elementSize sizes shape (some x)) (prev + 1)
  | next, sizeSoFar, prev => (sizeSoFar, prev, next)

/-- The loop over the other groups. A cons is given by its number in the list, `lastBoundary` with
0 for nil; the results are `lastBoundary` and what is next. -/
def passBoundaries (th : Thresholds) : List (Option α) → ℕ → ℕ → ℕ → ℕ × List (Option α)
  | [], _, _, lastBoundary => (lastBoundary, [])
  | none :: next, sizeSoFar, prev, lastBoundary =>
    if (sizeSoFar : ℤ) > th.maxsize ∧ th.maxsize > 0 then (lastBoundary, none :: next)
    else if (sizeSoFar : ℤ) > th.minsize ∧ th.minsize > 0 then (prev, none :: next)
    else passBoundaries th next (sizeSoFar + elementSize sizes shape none) (prev + 1) prev
  | some x :: next, sizeSoFar, prev, lastBoundary =>
    passBoundaries th next (sizeSoFar + elementSize sizes shape (some x)) (prev + 1) lastBoundary

/-- Past the most recent group and a boundary in front of it. -/
def passFirst : List (Option α) → ℕ × ℕ × List (Option α)
  | none :: next => passGroup sizes shape next (elementSize sizes shape (none : Option α)) 1
  | list => passGroup sizes shape list 0 0

def truncateUndoList (th : Thresholds) (list : List (Option α)) : List (Option α) :=
  if ¬ (th.minsize > 0 ∨ th.maxsize > 0) then list
  else
    let (sizeSoFar, prev, next) := passFirst sizes shape list
    let lastBoundary := if next = [] then 0 else prev
    let (lastBoundary, next) := passBoundaries sizes shape th next sizeSoFar prev lastBoundary
    if next = [] then list else list.take lastBoundary

/-- The inner loop of `Fprimitive_undo`. `undoOne` undoes one element and says whether the loop is
left after it; no result where an error is signalled. -/
def undoGroup (undoOne : α → β → Option (β × Bool)) :
    List (Option α) → β → Option (β × List (Option α))
  | [], b => some (b, [])
  | none :: list, b => some (b, list)
  | some x :: list, b =>
    match undoOne x b with
    | none => none
    | some (b, true) => some (b, list)
    | some (b, false) => undoGroup undoOne list b

/-- `Fprimitive_undo`. -/
def primitiveUndo (undoOne : α → β → Option (β × Bool)) :
    ℕ → List (Option α) → β → Option (β × List (Option α))
  | 0, list, b => some (b, list)
  | count + 1, list, b =>
    match undoGroup undoOne list b with
    | none => none
    | some (b, list) => primitiveUndo undoOne count list b

def listSize (list : List (Option α)) : ℕ := (list.map (elementSize sizes shape)).sum

def firstGroup : List (Option α) → List (Option α)
  | none :: next => none :: next.takeWhile Option.isSome
  | list => list.takeWhile Option.isSome

def boundaries (list : List (Option α)) : ℕ := list.countP Option.isNone

def NoBoundary (group : List (Option α)) : Prop := none ∉ group

variable {list kept next pre group p q tail : List (Option α)} {th : Thresholds}

theorem listSize_append :
    listSize sizes shape (p ++ q) = listSize sizes shape p + listSize sizes shape q := by
  simp [listSize]

theorem listSize_singleton (x : Option α) : listSize sizes shape [x] = elementSize sizes shape x := by
  simp [listSize]

theorem listSize_le (h : p <+: q) : listSize sizes shape p ≤ listSize sizes shape q := by
  obtain ⟨tail, rfl⟩ := h
  rw [listSize_append]
  exact Nat.le_add_right _ _

theorem firstGroup_isPrefix (list : List (Option α)) : firstGroup list <+: list := by
  cases list with
  | nil => exact List.prefix_refl _
  | cons x next =>
    cases x with
    | none => exact List.cons_prefix_cons.mpr ⟨rfl, List.takeWhile_prefix _⟩
    | some x => exact List.takeWhile_prefix _

theorem noBoundary_takeWhile (list : List (Option α)) : NoBoundary (list.takeWhile Option.isSome) := by
  intro h
  have := List.mem_takeWhile_imp h
  cases this

theorem firstGroup_boundary (h : firstGroup list = p ++ none :: q) : p = [] := by
  cases list with
  | nil => cases p <;> cases h
  | cons x next =>
    cases x with
    | none =>
      cases p with
      | nil => rfl
      | cons y p =>
        have htail : next.takeWhile Option.isSome = p ++ none :: q := (List.cons.inj h).2
        exact absurd (htail ▸ List.mem_append_right p List.mem_cons_self) (noBoundary_takeWhile next)
    | some x => exact absurd (h ▸ List.mem_append_right p List.mem_cons_self) (noBoundary_takeWhile _)

theorem firstGroup_ne_nil (h : list ≠ []) : firstGroup list ≠ [] := by
  cases list with
  | nil => exact absurd rfl h
  | cons x next => cases x <;> exact List.cons_ne_nil _ _

theorem passGroup_eq (next : List (Option α)) (sizeSoFar prev : ℕ) :
    passGroup sizes shape next sizeSoFar prev =
      (sizeSoFar + listSize sizes shape (next.takeWhile Option.isSome),
        prev + (next.takeWhile Option.isSome).length, next.dropWhile Option.isSome) := by
  induction next generalizing sizeSoFar prev with
  | nil => rfl
  | cons x next ih =>
    cases x with
    | none => rfl
    | some x =>
      rw [passGroup, ih, List.takeWhile_cons_of_pos rfl, List.dropWhile_cons_of_pos rfl, List.length_cons]
      simp only [listSize, List.map_cons, List.sum_cons]
      congr 1
      · omega
      · congr 1
        omega

theorem last_boundary_unique {p' group' : List (Option α)} (h : p ++ none :: group = p' ++ none :: group')
    (hgroup : NoBoundary group) (hgroup' : NoBoundary group') : p = p' := by
  rcases List.append_eq_append_iff.mp h with ⟨a, rfl, ha⟩ | ⟨a, rfl, ha⟩
  · cases a with
    | nil => rw [List.append_nil]
    | cons y a =>
      have htail : group = a ++ none :: group' := (List.cons.inj ha).2
      exact absurd (htail ▸ List.mem_append_right a List.mem_cons_self) hgroup
  · cases a with
    | nil => rw [List.append_nil]
    | cons y a =>
      have htail : group' = a ++ none :: group := (List.cons.inj ha).2
      exact absurd (htail ▸ List.mem_append_right a List.mem_cons_self) hgroup'

/-! ### Where the list is cut -/

def Fits (size : ℕ) (threshold : ℤ) : Prop := threshold > 0 → (size : ℤ) ≤ threshold

theorem fits_iff {size : ℕ} {threshold : ℤ} : ¬ ((size : ℤ) > threshold ∧ threshold > 0) ↔ Fits size threshold := by
  rw [Fits]
  omega

/-- The loop after `pre`, with the boundary after `kept` chosen: its size fits where another
boundary has been passed. -/
structure Passed (th : Thresholds) (list pre kept : List (Option α)) : Prop where
  first : firstGroup list <+: kept
  tail : pre = kept ∧ kept = firstGroup list ∨
    ∃ group, pre = kept ++ none :: group ∧ NoBoundary group ∧
      Fits (listSize sizes shape kept) th.minsize ∧ Fits (listSize sizes shape kept) th.maxsize

structure CutList (th : Thresholds) (list kept : List (Option α)) : Prop where
  split : ∃ q, list = kept ++ none :: q
  first : firstGroup list <+: kept
  low : ∀ p group, kept = p ++ none :: group → NoBoundary group → p ≠ [] → Fits (listSize sizes shape p) th.minsize
  high : ∀ p group, kept = p ++ none :: group → NoBoundary group → p ≠ [] →
    Fits (listSize sizes shape kept) th.maxsize

variable {sizes shape}

theorem Fits.mono {m n : ℕ} {threshold : ℤ} (h : Fits n threshold) (hle : m ≤ n) : Fits m threshold := by
  intro hpos
  have := h hpos
  omega

theorem Passed.cutBefore (h : Passed sizes shape th list pre kept) (hlist : list = pre ++ none :: next) :
    CutList sizes shape th list kept where
  split := by
    rcases h.tail with ⟨rfl, -⟩ | ⟨group, rfl, -⟩
    · exact ⟨next, hlist⟩
    · exact ⟨group ++ none :: next, by rw [hlist, List.append_assoc, List.cons_append]⟩
  first := h.first
  low p group heq _ hp := by
    rcases h.tail with ⟨-, hfirst⟩ | ⟨-, -, -, hfits, -⟩
    · exact absurd (firstGroup_boundary (hfirst ▸ heq)) hp
    · exact hfits.mono (listSize_le sizes shape ⟨none :: group, heq.symm⟩)
  high p group heq _ hp := by
    rcases h.tail with ⟨-, hfirst⟩ | ⟨-, -, -, -, hfits⟩
    · exact absurd (firstGroup_boundary (hfirst ▸ heq)) hp
    · exact hfits

theorem Passed.cutAfter (h : Passed sizes shape th list pre kept) (hlist : list = pre ++ none :: next)
    (hmax : Fits (listSize sizes shape pre) th.maxsize) : CutList sizes shape th list pre where
  split := ⟨next, hlist⟩
  first := by
    rcases h.tail with ⟨rfl, -⟩ | ⟨group, rfl, -⟩
    · exact h.first
    · exact h.first.trans (List.prefix_append _ _)
  low p group heq hgroup hp := by
    rcases h.tail with ⟨rfl, hfirst⟩ | ⟨group', rfl, hgroup', hfits, -⟩
    · exact absurd (firstGroup_boundary (hfirst ▸ heq)) hp
    · rw [← last_boundary_unique heq hgroup' hgroup]
      exact hfits
  high _ _ _ _ _ := hmax

theorem Passed.boundary (h : Passed sizes shape th list pre kept)
    (hmin : Fits (listSize sizes shape pre) th.minsize) (hmax : Fits (listSize sizes shape pre) th.maxsize) :
    Passed sizes shape th list (pre ++ [none]) pre where
  first := by
    rcases h.tail with ⟨rfl, -⟩ | ⟨group, rfl, -⟩
    · exact h.first
    · exact h.first.trans (List.prefix_append _ _)
  tail := Or.inr ⟨[], rfl, List.not_mem_nil, hmin, hmax⟩

theorem firstGroup_maximal {x : α} (h : firstGroup list = pre) (hlist : list = pre ++ some x :: next) : False := by
  have hsome : ∀ l : List (Option α), (l ++ some x :: next).takeWhile Option.isSome ≠ l := by
    intro l
    induction l with
    | nil => exact List.cons_ne_nil _ _
    | cons y l ih =>
      intro hl
      cases y with
      | none => cases hl
      | some y => exact ih (List.cons.inj hl).2
  subst hlist
  cases pre with
  | nil => exact firstGroup_ne_nil (List.cons_ne_nil _ _) h
  | cons y pre =>
    cases y with
    | none => exact hsome pre (List.cons.inj h).2
    | some y => exact hsome (some y :: pre) h

theorem Passed.element {x : α} (h : Passed sizes shape th list pre kept) (hlist : list = pre ++ some x :: next) :
    Passed sizes shape th list (pre ++ [some x]) kept where
  first := h.first
  tail := by
    rcases h.tail with ⟨rfl, hfirst⟩ | ⟨group, rfl, hgroup, hfits⟩
    · exact (firstGroup_maximal hfirst.symm hlist).elim
    · refine Or.inr ⟨group ++ [some x], by simp, ?_, hfits⟩
      rw [NoBoundary, List.mem_append, not_or]
      exact ⟨hgroup, by simp⟩

/-- Every boundary but one in front is at a size that fits. -/
def AllFit (sizes : Sizes) (shape : α → Shape) (th : Thresholds) (list : List (Option α)) : Prop :=
  ∀ p q, list = p ++ none :: q → p ≠ [] →
    Fits (listSize sizes shape p) th.minsize ∧ Fits (listSize sizes shape p) th.maxsize

theorem Passed.allFit (h : Passed sizes shape th list list kept) : AllFit sizes shape th list := by
  intro p q heq hp
  rcases h.tail with ⟨rfl, hfirst⟩ | ⟨group, hlist, hgroup, hmin, hmax⟩
  · exact absurd (firstGroup_boundary (hfirst ▸ heq)) hp
  · have hstart : p <+: kept := by
      rcases List.append_eq_append_iff.mp (heq.symm.trans hlist) with ⟨a, rfl, -⟩ | ⟨a, rfl, ha⟩
      · exact List.prefix_append _ _
      · cases a with
        | nil => simp
        | cons y a =>
          have htail : group = a ++ none :: q := (List.cons.inj ha).2
          exact absurd (htail ▸ List.mem_append_right a List.mem_cons_self) hgroup
    exact ⟨hmin.mono (listSize_le sizes shape hstart), hmax.mono (listSize_le sizes shape hstart)⟩

theorem passBoundaries_spec (hlist : list = pre ++ next) (h : Passed sizes shape th list pre kept) :
    ((passBoundaries sizes shape th next (listSize sizes shape pre) pre.length kept.length).2 = [] ∧
        AllFit sizes shape th list) ∨
      (passBoundaries sizes shape th next (listSize sizes shape pre) pre.length kept.length).2 ≠ [] ∧
        ¬ AllFit sizes shape th list ∧ CutList sizes shape th list
          (list.take (passBoundaries sizes shape th next (listSize sizes shape pre) pre.length kept.length).1) := by
  induction next generalizing pre kept with
  | nil =>
    rw [List.append_nil] at hlist
    subst hlist
    exact Or.inl ⟨rfl, h.allFit⟩
  | cons x next ih =>
    have hpass : list = (pre ++ [x]) ++ next := by rw [hlist, List.append_assoc, List.singleton_append]
    have hsize : listSize sizes shape (pre ++ [x]) = listSize sizes shape pre + elementSize sizes shape x := by
      rw [listSize_append, listSize_singleton]
    have hlength : (pre ++ [x]).length = pre.length + 1 := by rw [List.length_append, List.length_singleton]
    cases x with
    | some x =>
      have hrest := ih hpass (h.element hlist)
      rwa [hsize, hlength] at hrest
    | none =>
      have hne : pre ≠ [] := by
        have hfirst := h.first
        have hlistNe : list ≠ [] := by
          rw [hlist]
          exact List.append_ne_nil_of_right_ne_nil _ (List.cons_ne_nil _ _)
        rcases h.tail with ⟨rfl, hkept⟩ | ⟨group, rfl, -⟩
        · rw [hkept]
          exact firstGroup_ne_nil hlistNe
        · exact List.append_ne_nil_of_right_ne_nil _ (List.cons_ne_nil _ _)
      rw [passBoundaries]
      split_ifs with hmax hmin
      · refine Or.inr ⟨List.cons_ne_nil _ _, fun hall => ?_, ?_⟩
        · exact absurd hmax (fits_iff.mpr (hall pre next hlist hne).2)
        · have hcut := h.cutBefore hlist
          obtain ⟨q, hq⟩ := hcut.split
          have htake : list.take kept.length = kept := by rw [hq, List.take_left]
          rwa [htake]
      · refine Or.inr ⟨List.cons_ne_nil _ _, fun hall => ?_, ?_⟩
        · exact absurd hmin (fits_iff.mpr (hall pre next hlist hne).1)
        · have htake : list.take pre.length = pre := by rw [hlist, List.take_left]
          rw [htake]
          exact h.cutAfter hlist (fits_iff.mp hmax)
      · have hrest := ih hpass (h.boundary (fits_iff.mp hmin) (fits_iff.mp hmax))
        rwa [hsize, hlength] at hrest

theorem drop_takeWhile_length (q : α → Bool) (l : List α) : l.drop (l.takeWhile q).length = l.dropWhile q := by
  induction l with
  | nil => rfl
  | cons x l ih =>
    cases hx : q x with
    | true => rw [List.takeWhile_cons_of_pos hx, List.dropWhile_cons_of_pos hx, List.length_cons, List.drop_succ_cons, ih]
    | false =>
      have hneg : ¬ q x = true := by rw [hx]; exact Bool.false_ne_true
      rw [List.takeWhile_cons_of_neg hneg, List.dropWhile_cons_of_neg hneg, List.length_nil, List.drop_zero]

theorem passFirst_eq (list : List (Option α)) : passFirst sizes shape list =
    (listSize sizes shape (firstGroup list), (firstGroup list).length, list.drop (firstGroup list).length) := by
  cases list with
  | nil => rfl
  | cons x next =>
    cases x with
    | none =>
      rw [passFirst, passGroup_eq, firstGroup, List.length_cons, List.drop_succ_cons, drop_takeWhile_length,
        ← List.singleton_append, listSize_append, listSize_singleton, Nat.add_comm 1]
    | some x =>
      rw [passFirst, passGroup_eq, firstGroup, drop_takeWhile_length, Nat.zero_add, Nat.zero_add]
      · rintro _ ⟨⟩
      · rintro _ ⟨⟩

theorem firstGroup_append_drop (list : List (Option α)) :
    list = firstGroup list ++ list.drop (firstGroup list).length := by
  have htake : firstGroup list = list.take (firstGroup list).length :=
    List.prefix_iff_eq_take.mp (firstGroup_isPrefix list)
  calc list = list.take (firstGroup list).length ++ list.drop (firstGroup list).length :=
        (List.take_append_drop _ _).symm
    _ = firstGroup list ++ list.drop (firstGroup list).length := by rw [← htake]

theorem truncateUndoList_cases (th : Thresholds) (list : List (Option α)) :
    (truncateUndoList sizes shape th list = list ∧ AllFit sizes shape th list) ∨
      ¬ AllFit sizes shape th list ∧ CutList sizes shape th list (truncateUndoList sizes shape th list) := by
  by_cases hth : th.minsize > 0 ∨ th.maxsize > 0
  · have hsplit := firstGroup_append_drop list
    have hstart : Passed sizes shape th list (firstGroup list) (firstGroup list) :=
      ⟨List.prefix_refl _, Or.inl ⟨rfl, rfl⟩⟩
    rw [truncateUndoList, if_neg (not_not_intro hth), passFirst_eq]
    by_cases hnext : list.drop (firstGroup list).length = []
    · -- there is no other group
      refine Or.inl ⟨?_, ?_⟩
      · simp only [hnext, passBoundaries, if_true]
      · rw [hnext, List.append_nil] at hsplit
        rw [← hsplit] at hstart
        exact hstart.allFit
    · simp only [if_neg hnext]
      rcases passBoundaries_spec hsplit hstart with ⟨hall, hfit⟩ | ⟨hcut, hfit, hkept⟩
      · exact Or.inl ⟨if_pos hall, hfit⟩
      · rw [if_neg hcut]
        exact Or.inr ⟨hfit, hkept⟩
  · rw [truncateUndoList, if_pos hth]
    refine Or.inl ⟨rfl, fun p q _ _ => ⟨fun hpos => ?_, fun hpos => ?_⟩⟩
    · exact absurd (Or.inl hpos) hth
    · exact absurd (Or.inr hpos) hth

variable {undoOne : α → β → Option (β × Bool)}

theorem undoGroup_append (undoOne : α → β → Option (β × Bool)) (p q : List (Option α)) (b : β) :
    (undoGroup undoOne p b = none ∧ undoGroup undoOne (p ++ none :: q) b = none) ∨
      (∃ b' rest, undoGroup undoOne p b = some (b', rest) ∧
        undoGroup undoOne (p ++ none :: q) b = some (b', rest ++ none :: q) ∧
        boundaries p ≤ boundaries rest + 1) ∨
      ∃ b', undoGroup undoOne p b = some (b', []) ∧ undoGroup undoOne (p ++ none :: q) b = some (b', q) ∧
        boundaries p = 0 := by
  induction p generalizing b with
  | nil => exact Or.inr (Or.inr ⟨b, rfl, rfl, rfl⟩)
  | cons x p ih =>
    cases x with
    | none => exact Or.inr (Or.inl ⟨b, p, rfl, rfl, by rw [boundaries, List.countP_cons_of_pos rfl, boundaries]⟩)
    | some x =>
      have hcount : boundaries (some x :: p) = boundaries p := List.countP_cons_of_neg Bool.false_ne_true
      rw [hcount, List.cons_append, undoGroup, undoGroup]
      cases undoOne x b with
      | none => exact Or.inl ⟨rfl, rfl⟩
      | some r =>
        obtain ⟨b', stop⟩ := r
        cases stop with
        | false => exact ih b'
        | true => exact Or.inr (Or.inl ⟨b', p, rfl, rfl, Nat.le_succ _⟩)

theorem primitiveUndo_append (undoOne : α → β → Option (β × Bool)) (count : ℕ) (p q : List (Option α)) (b : β)
    (hcount : count ≤ boundaries p + 1) :
    (primitiveUndo undoOne count p b).map Prod.fst =
      (primitiveUndo undoOne count (p ++ none :: q) b).map Prod.fst := by
  induction count generalizing p b with
  | zero => rfl
  | succ count ih =>
    rw [primitiveUndo, primitiveUndo]
    rcases undoGroup_append undoOne p q b with ⟨hp, hpq⟩ | ⟨b', rest, hp, hpq, hrest⟩ | ⟨b', hp, hpq, hzero⟩
    · rw [hp, hpq]
    · rw [hp, hpq]
      exact ih rest b' (by omega)
    · rw [hp, hpq]
      have hlast : count = 0 := by omega
      subst hlast
      rfl

/-- What truncating `list` to `kept` is to keep to. The groups of `kept` are what its boundaries
separate. -/
structure CutsAtBoundary (sizes : Sizes) (shape : α → Shape) (th : Thresholds) (list kept : List (Option α)) :
    Prop where
  boundary : kept = list ∨ ∃ q, list = kept ++ none :: q
  first : firstGroup list <+: kept
  low : ∀ p group, kept = p ++ none :: group → NoBoundary group → p ≠ [] →
    Fits (listSize sizes shape p) th.minsize
  high : ∀ p group, kept = p ++ none :: group → NoBoundary group → p ≠ [] →
    Fits (listSize sizes shape kept) th.maxsize
  undo : ∀ {β : Type} (undoOne : α → β → Option (β × Bool)) (count : ℕ) (b : β), count ≤ boundaries kept + 1 →
    (primitiveUndo undoOne count kept b).map Prod.fst = (primitiveUndo undoOne count list b).map Prod.fst

theorem CutList.cutsAtBoundary (h : CutList sizes shape th list kept) :
    CutsAtBoundary sizes shape th list kept where
  boundary := Or.inr h.split
  first := h.first
  low := h.low
  high := h.high
  undo undoOne count b hcount := by
    obtain ⟨q, rfl⟩ := h.split
    exact primitiveUndo_append undoOne count kept q b hcount

theorem exists_last_boundary (p q : List (Option α)) (hp : p ≠ []) :
    ∃ p' group, p ++ none :: q = p' ++ none :: group ∧ NoBoundary group ∧ p' ≠ [] := by
  induction q using List.reverseRecOn with
  | nil => exact ⟨p, [], rfl, List.not_mem_nil, hp⟩
  | append_singleton q x ih =>
    cases x with
    | none =>
      refine ⟨p ++ none :: q, [], by simp, List.not_mem_nil, ?_⟩
      exact List.append_ne_nil_of_left_ne_nil hp _
    | some x =>
      obtain ⟨p', group, heq, hgroup, hp'⟩ := ih
      refine ⟨p', group ++ [some x], ?_, ?_, hp'⟩
      · rw [← List.cons_append, ← List.append_assoc, heq, List.append_assoc, List.cons_append]
      · rw [NoBoundary, List.mem_append, not_or]
        exact ⟨hgroup, by simp⟩

/-- A list that is kept whole fits the high threshold, unless it is one group. -/
def WholeFits (sizes : Sizes) (shape : α → Shape) (th : Thresholds) (list : List (Option α)) : Prop :=
  AllFit sizes shape th list → (∃ p q, list = p ++ none :: q ∧ p ≠ []) →
    Fits (listSize sizes shape list) th.maxsize

/-- The truncation keeps to all it promises exactly where a list that it keeps whole, though its
oldest group was not looked at, fits. -/
theorem truncateUndoList_cutsAtBoundary (sizes : Sizes) (shape : α → Shape) (th : Thresholds)
    (list : List (Option α)) :
    CutsAtBoundary sizes shape th list (truncateUndoList sizes shape th list) ↔
      WholeFits sizes shape th list := by
  rcases truncateUndoList_cases th list with ⟨hwhole, hall⟩ | ⟨hall, hcut⟩
  · rw [hwhole]
    constructor
    · rintro h - ⟨p, q, heq, hp⟩
      obtain ⟨p', group, hlast, hgroup, hp'⟩ := exists_last_boundary p q hp
      exact h.high p' group (heq.trans hlast) hgroup hp'
    · intro h
      exact {
        boundary := Or.inl rfl
        first := firstGroup_isPrefix list
        low := fun p group heq _ hp => (hall p group heq hp).1
        high := fun p group heq _ hp => h hall ⟨p, group, heq, hp⟩
        undo := fun _ _ _ _ => rfl }
  · exact ⟨fun _ hfit => absurd hfit hall, fun _ => hcut.cutsAtBoundary⟩

/-- The oldest group, of a deleted string of 1000 bytes, is kept although the high threshold is 100
bytes. -/
theorem oldestGroup_not_cutsAtBoundary :
    ¬ CutsAtBoundary ⟨16, 32⟩ id ⟨60, 100⟩ [some Shape.atom, none, some (.consString 1000)]
      (truncateUndoList ⟨16, 32⟩ id ⟨60, 100⟩ [some Shape.atom, none, some (.consString 1000)]) := by
  intro h
  have hwhole : truncateUndoList ⟨16, 32⟩ id ⟨60, 100⟩ [some Shape.atom, none, some (.consString 1000)] =
      [some Shape.atom, none, some (.consString 1000)] := by decide
  rw [hwhole] at h
  have hfits := h.high [some Shape.atom] [some (.consString 1000)] rfl (by simp [NoBoundary]) (List.cons_ne_nil _ _)
  exact absurd (hfits (by decide)) (by decide)

/-! ### The undo list of a buffer -/

variable {rep : UInt8 → ℕ} {entries : List (UndoEntry rep)}

/-- nil is a boundary. -/
def element : UndoEntry rep → Option (UndoEntry rep)
  | .boundary => none
  | .point pos => some (.point pos)
  | .unmodified high low => some (.unmodified high low)
  | .inserted start stop => some (.inserted start stop)
  | .deleted str pos => some (.deleted str pos)

/-- `(STRING . POS)` alone has a string as its car. -/
def entryShape : UndoEntry rep → Shape
  | .boundary => .atom
  | .point _ => .atom
  | .unmodified _ _ => .cons
  | .inserted _ _ => .cons
  | .deleted str _ => .consString (itextBytes str).length

def undoEntry (entry : UndoEntry rep) (b : UndoBuffer rep) : Option (UndoBuffer rep × Bool) :=
  match entry with
  | .boundary => some (b, true)
  | .point pos => some (b.setPt (b.text.clipPos pos), false)
  | .unmodified high low =>
    match lispToTime high low with
    | none => none
    | some modTime =>
      if modTime ≠ b.modtime then some (b, true)
      else some ({ b with ticks := b.ticks.setUnmodified }, false)
  | .inserted start stop => (UndoBuffer.undoGroup [.inserted start stop] b).map fun r => (r.1, false)
  | .deleted str pos => (UndoBuffer.undoGroup [.deleted str pos] b).map fun r => (r.1, false)

theorem undoGroup_map_element (entries : List (UndoEntry rep)) (b : UndoBuffer rep) :
    undoGroup undoEntry (entries.map element) b =
      (UndoBuffer.undoGroup entries b).map fun r => (r.1, r.2.map element) := by
  induction entries generalizing b with
  | nil => rfl
  | cons entry entries ih =>
    rw [List.map_cons]
    cases entry with
    | boundary => rfl
    | point pos => exact ih _
    | unmodified high low =>
      rw [element, undoGroup, undoEntry, UndoBuffer.undoGroup]
      cases lispToTime high low with
      | none => rfl
      | some modTime =>
        by_cases hmod : modTime ≠ b.modtime
        · simp only [if_pos hmod, Option.map_some]
        · simp only [if_neg hmod]
          exact ih _
    | inserted start stop =>
      rw [element, undoGroup, undoEntry, UndoBuffer.undoGroup, UndoBuffer.undoGroup]
      split_ifs
      · rfl
      · cases (b.setPt (b.text.clipPos start)).fdeleteRegion start stop with
        | none => rfl
        | some b' => exact ih b'
    | deleted str pos =>
      rw [element, undoGroup, undoEntry]
      simp only [UndoBuffer.undoGroup]
      split_ifs
      · rfl
      · exact ih _
      · rfl
      · exact ih _

theorem primitiveUndo_map_element (count : ℕ) (entries : List (UndoEntry rep)) (b : UndoBuffer rep) :
    primitiveUndo undoEntry count (entries.map element) b =
      (UndoBuffer.primitiveUndo count entries b).map fun r => (r.1, r.2.map element) := by
  induction count generalizing entries b with
  | zero => rfl
  | succ count ih =>
    rw [primitiveUndo, UndoBuffer.primitiveUndo, undoGroup_map_element]
    cases UndoBuffer.undoGroup entries b with
    | none => rfl
    | some r => exact ih r.2 r.1

theorem primitiveUndo_truncateUndoList (sizes : Sizes) (th : Thresholds) (entries : List (UndoEntry rep)) :
    ∃ n, truncateUndoList sizes entryShape th (entries.map element) = (entries.take n).map element ∧
      ∀ count (b : UndoBuffer rep), count ≤ boundaries ((entries.take n).map element) + 1 →
        (UndoBuffer.primitiveUndo count (entries.take n) b).map Prod.fst =
          (UndoBuffer.primitiveUndo count entries b).map Prod.fst := by
  have hcases := @truncateUndoList_cases _ sizes entryShape th (entries.map element)
  rcases hcases with ⟨hwhole, -⟩ | ⟨-, hcut⟩
  · exact ⟨entries.length, by rw [List.take_length, hwhole], fun _ _ _ => by rw [List.take_length]⟩
  · obtain ⟨q, hq⟩ := hcut.split
    have hkept := List.prefix_iff_eq_take.mp ⟨none :: q, hq.symm⟩
    rw [← List.map_take] at hkept
    refine ⟨_, hkept, fun count b hcount => ?_⟩
    rw [← hkept] at hcount
    have hundo := primitiveUndo_append undoEntry count _ q b hcount
    rw [← hq, hkept, primitiveUndo_map_element, primitiveUndo_map_element, Option.map_map, Option.map_map] at hundo
    exact hundo

open Lib UndoBuffer

end XEmacs.Text.UndoTruncate
