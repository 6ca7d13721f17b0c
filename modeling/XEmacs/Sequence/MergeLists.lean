import Mathlib.Data.Finset.Card
import XEmacs.Lib.Failure
import XEmacs.Lib.ListBuilding
import XEmacs.Lib.StableMerge
import XEmacs.Sequence.Merge

/-! `list_merge` and `list_sort`. The merged conses are a list under construction, in which a
tortoise stays far behind the last cons, so that it is never met. Lists that share a cons cannot
be merged, since there are not enough conses for the result. -/

namespace XEmacs.Sequences

open Lib

variable {Obj : Type}

namespace Conses

variable (h : Conses Obj) {tail value tem : Option ℕ} {x y : ℕ}

@[simp] theorem attach_car : (h.attach tail value tem).1.car = h.car := by
  cases tail <;> rfl

@[simp] theorem attach_next : (h.attach tail value tem).1.next = h.next := by
  cases tail <;> rfl

theorem attach_value : (h.attach tail value tem).2 = if tail = none then tem else value := by
  cases tail <;> rfl

theorem attach_cdr_of_ne (hy : tail ≠ some y) : (h.attach tail value tem).1.cdr y = h.cdr y := by
  cases tail with
  | none => rfl
  | some t => exact Function.update_of_ne (fun heq => hy (congrArg some heq.symm)) _ _

theorem attach_cdr_tail (hy : tail = some y) : (h.attach tail value tem).1.cdr y = tem := by
  subst hy
  exact Function.update_self _ _ _

end Conses

section Attach

variable {h : Conses Obj} {tail value p : Option ℕ} {c l rest : List ℕ} {x : ℕ}

theorem building_attach (hb : Building h.cdr value tail c) (hx : x ∉ c) :
    Building (h.attach tail value (some x)).1.cdr (h.attach tail value (some x)).2 (some x)
      (c ++ [x]) := by
  rw [Conses.attach_value]
  exact hb.concat hx (fun y hy => h.attach_cdr_tail hy) fun y _ hne => h.attach_cdr_of_ne hne

theorem slist_attach (hb : Building h.cdr value tail c) (hl : SList h.cdr p l)
    (hdisjoint : ∀ y ∈ l, y ∉ c) (tem : Option ℕ) :
    SList (h.attach tail value tem).1.cdr p l :=
  hl.congr fun y hy => h.attach_cdr_of_ne fun htail =>
    hdisjoint y hy (List.mem_of_getLast? (hb.last ▸ htail))

theorem finish_attach (hb : Building h.cdr value tail c) (hrest : SList h.cdr p rest)
    (hdisjoint : ∀ y ∈ rest, y ∉ c) :
    SList (h.attach tail value p).1.cdr (h.attach tail value p).2 (c ++ rest) := by
  have hfinish := hb.finish (fun y hy => h.attach_cdr_tail hy)
    (fun y _ hne => h.attach_cdr_of_ne hne) (slist_attach hb hrest hdisjoint p)
  have hvalue : (h.attach tail value p).2 = (c ++ rest).head? := by
    rw [Conses.attach_value]
    cases c with
    | nil =>
      rw [if_pos (show tail = none from hb.last)]
      exact hrest.head?_eq
    | cons y c =>
      rw [if_neg (by rw [hb.last]; simp), hb.head]
      rfl
  rw [hvalue]
  exact hfinish

end Attach

section

variable {h : Conses Obj} {count : ℕ} {onNil : MergeError} {list tortoise : Option ℕ}

theorem walkTortoise_even (hcount : count % 2 = 0) : walkTortoise h count onNil list tortoise =
    if list = tortoise then .error .circularList else .ok tortoise := by
  simp only [walkTortoise, hcount]
  rfl

theorem walkTortoise_nil (hcount : count % 2 = 1) :
    walkTortoise h count onNil list none = .error onNil := by
  simp only [walkTortoise, hcount]
  rfl

theorem walkTortoise_cons (hcount : count % 2 = 1) {t : ℕ} :
    walkTortoise h count onNil list (some t) =
      if list = h.cdr t then .error .circularList else .ok (h.cdr t) := by
  simp only [walkTortoise, hcount]
  rfl

end

theorem walkTortoise_linked {h : Conses Obj} {value tail list : Option ℕ} {c : List ℕ} {i : ℕ}
    (count : ℕ) (onNil : MergeError) (hb : Building h.cdr value tail c) (hi : i + 1 < c.length)
    (hlist : ∀ y, list = some y → y ∉ c) :
    ∃ hj : i + count % 2 < c.length,
      walkTortoise h count onNil list (some (c)[i]) = .ok (some ((c)[i + count % 2])) := by
  have hj : i + count % 2 < c.length := by omega
  have hne : list ≠ some (c)[i + count % 2] := fun heq => hlist _ heq (List.getElem_mem hj)
  refine ⟨hj, ?_⟩
  rcases Nat.mod_two_eq_zero_or_one count with hcount | hcount
  · rw [walkTortoise_even hcount]
    simp only [hcount, Nat.add_zero] at hne ⊢
    exact if_neg hne
  · rw [walkTortoise_cons hcount, hb.next_getElem hi]
    simp only [hcount] at hne ⊢
    exact if_neg hne

/-- After `count` conses of one list, the tortoise that started at its head. -/
def Behind (c : List ℕ) (count : ℕ) (list tortoise : Option ℕ) : Prop :=
  if count = 0 then tortoise = list
  else ∃ i, ∃ hi : i < c.length, i + min count 1025 ≤ c.length ∧ tortoise = some (c)[i]

namespace Behind

variable {c : List ℕ} {count x : ℕ} {list list' tortoise : Option ℕ}

theorem zero : Behind c 0 list list := by
  rw [Behind, if_pos rfl]

theorem other (hbehind : Behind c count list tortoise) : Behind (c ++ [x]) count list tortoise := by
  rw [Behind] at hbehind ⊢
  split at hbehind
  case isTrue hzero => rwa [if_pos hzero]
  case isFalse hzero =>
    rw [if_neg hzero]
    obtain ⟨i, hi, hle, heq⟩ := hbehind
    refine ⟨i, ?_, ?_, ?_⟩
    · rw [List.length_append]
      omega
    · rw [List.length_append]
      omega
    · rw [heq, List.getElem_append_left hi]

theorem own {h : Conses Obj} {value tail : Option ℕ} (hb : Building h.cdr value tail c)
    (hbehind : Behind c count (some x) tortoise) (hlist : ∀ y, list' = some y → y ∉ c) :
    ∃ tortoise', (if count > 1024 then
        walkTortoise h (count + 1) .mappingInteraction list' tortoise
      else .ok tortoise) = .ok tortoise' ∧ Behind (c ++ [x]) (count + 1) list' tortoise' := by
  rw [Behind] at hbehind
  by_cases hzero : count = 0
  · rw [if_pos hzero] at hbehind
    refine ⟨tortoise, if_neg (by omega), ?_⟩
    rw [Behind, if_neg (Nat.succ_ne_zero count)]
    refine ⟨c.length, by simp, ?_, ?_⟩
    · rw [List.length_append, List.length_singleton]
      omega
    · rw [hbehind, List.getElem_concat_length rfl]
  · rw [if_neg hzero] at hbehind
    obtain ⟨i, hi, hle, heq⟩ := hbehind
    by_cases hcount : count > 1024
    · obtain ⟨hj, hwalk⟩ := walkTortoise_linked (count + 1) .mappingInteraction hb (by omega : i + 1 < c.length) hlist
      refine ⟨some (c)[i + (count + 1) % 2], ?_, ?_⟩
      · rw [if_pos hcount, heq, hwalk]
      · rw [Behind, if_neg (Nat.succ_ne_zero count)]
        refine ⟨i + (count + 1) % 2, ?_, ?_, ?_⟩
        · rw [List.length_append]
          omega
        · rw [List.length_append, List.length_singleton]
          omega
        · rw [List.getElem_append_left hj]
    · refine ⟨tortoise, if_neg hcount, ?_⟩
      rw [Behind, if_neg (Nat.succ_ne_zero count)]
      refine ⟨i, ?_, ?_, ?_⟩
      · rw [List.length_append]
        omega
      · rw [List.length_append, List.length_singleton]
        omega
      · rw [heq, List.getElem_append_left hi]

end Behind

/-! ### Two lists -/

/-- A loop that has linked `c`, with `xs` and `ys` left of the lists. -/
structure Merging (h : Conses Obj) (s : ListMerge) (c xs ys : List ℕ) : Prop where
  building : Building h.cdr s.value s.tail c
  rest1 : SList h.cdr s.l1 xs
  rest2 : SList h.cdr s.l2 ys
  apart1 : ∀ x ∈ xs, x ∉ c
  apart2 : ∀ y ∈ ys, y ∉ c
  apart : ∀ x ∈ xs, x ∉ ys
  behind1 : Behind c s.l1Count s.l1 s.tortoise1
  behind2 : Behind c s.l2Count s.l2 s.tortoise2

/-- Outside of some conses, nothing has changed. -/
structure Frame (h h' : Conses Obj) (cells : List ℕ) : Prop where
  car : h'.car = h.car
  next : h'.next = h.next
  cdr : ∀ y, y ∉ cells → h'.cdr y = h.cdr y

namespace Frame

variable {h h' h'' : Conses Obj} {cells cells' : List ℕ}

theorem refl : Frame h h cells :=
  ⟨rfl, rfl, fun _ _ => rfl⟩

theorem trans (hf : Frame h h' cells) (hf' : Frame h' h'' cells') (hsub : ∀ y ∈ cells', y ∈ cells) :
    Frame h h'' cells :=
  ⟨hf'.car.trans hf.car, hf'.next.trans hf.next,
    fun y hy => (hf'.cdr y fun hmem => hy (hsub y hmem)).trans (hf.cdr y hy)⟩

theorem attach {tail value tem : Option ℕ} {c : List ℕ} (hb : Building h.cdr value tail c)
    (hsub : ∀ y ∈ c, y ∈ cells) : Frame h (h.attach tail value tem).1 cells :=
  ⟨h.attach_car, h.attach_next, fun y hy => h.attach_cdr_of_ne fun htail =>
    hy (hsub y (List.mem_of_getLast? (hb.last ▸ htail)))⟩

theorem slist (hf : Frame h h' cells) {p : Option ℕ} {l : List ℕ} (hl : SList h.cdr p l)
    (hapart : ∀ y ∈ l, y ∉ cells) : SList h'.cdr p l :=
  hl.congr fun y hy => hf.cdr y (hapart y hy)

end Frame

def byCar (check : Obj → Obj → Bool) (car : ℕ → Obj) (x y : ℕ) : Bool :=
  check (car x) (car y)

theorem map_stableMerge (check : Obj → Obj → Bool) (car : ℕ → Obj) (xs ys : List ℕ) :
    (stableMerge (byCar check car) xs ys).map car =
      stableMerge check (xs.map car) (ys.map car) :=
  List.map_merge fun _ _ _ _ => rfl

namespace Merging

variable {h : Conses Obj} {l1 l2 tail value tortoise1 tortoise2 : Option ℕ} {l1Count l2Count x : ℕ}
  {c xs ys : List ℕ}

theorem swap
    (hm : Merging h ⟨l1, l2, tail, value, tortoise1, tortoise2, l1Count, l2Count⟩ c xs ys) :
    Merging h ⟨l2, l1, tail, value, tortoise2, tortoise1, l2Count, l1Count⟩ c ys xs :=
  ⟨hm.building, hm.rest2, hm.rest1, hm.apart2, hm.apart1, fun y hy hx => hm.apart y hx hy,
    hm.behind2, hm.behind1⟩

theorem take
    (hm : Merging h ⟨some x, l2, tail, value, tortoise1, tortoise2, l1Count, l2Count⟩ c (x :: xs)
      ys) :
    ∃ tortoise1', (if l1Count > 1024 then
        walkTortoise h (l1Count + 1) .mappingInteraction (h.cdr x) tortoise1
      else .ok tortoise1) = .ok tortoise1' ∧
      Merging (h.attach tail value (some x)).1
        ⟨h.cdr x, l2, some x, (h.attach tail value (some x)).2, tortoise1', tortoise2, l1Count + 1,
          l2Count⟩ (c ++ [x]) xs ys := by
  have hx : x ∉ c := hm.apart1 x List.mem_cons_self
  have hnodup := List.nodup_cons.mp hm.rest1.nodup
  have hxs : ∀ y ∈ xs, y ∉ c := fun y hy => hm.apart1 y (List.mem_cons_of_mem x hy)
  have hrest : SList h.cdr (h.cdr x) xs := hm.rest1.2
  have hnext : ∀ y, h.cdr x = some y → y ∉ c := fun y hy => by
    rw [hrest.head?_eq] at hy
    exact hxs y (List.mem_of_mem_head? hy)
  obtain ⟨tortoise1', hwalk, hbehind⟩ := hm.behind1.own hm.building hnext
  refine ⟨tortoise1', hwalk, building_attach hm.building hx,
    slist_attach hm.building hrest hxs _, slist_attach hm.building hm.rest2 hm.apart2 _, ?_, ?_, ?_,
    hbehind, hm.behind2.other⟩
  · intro y hy hmem
    rcases List.mem_append.mp hmem with hmem | hmem
    · exact hxs y hy hmem
    · exact hnodup.1 (List.mem_singleton.mp hmem ▸ hy)
  · intro y hy hmem
    rcases List.mem_append.mp hmem with hmem | hmem
    · exact hm.apart2 y hy hmem
    · exact hm.apart x List.mem_cons_self (List.mem_singleton.mp hmem ▸ hy)
  · exact fun y hy => hm.apart y (List.mem_cons_of_mem x hy)

end Merging

theorem listMergeLoop_eq (check : Obj → Obj → Bool) {fuel : ℕ} {h : Conses Obj} {s : ListMerge}
    {c xs ys : List ℕ} (hm : Merging h s c xs ys) (hfuel : xs.length + ys.length < fuel) :
    ∃ h' p, listMergeLoop check fuel h s = .ok (h', p) ∧
      SList h'.cdr p (c ++ stableMerge (byCar check h.car) xs ys) ∧
      Frame h h' (c ++ xs ++ ys) := by
  induction fuel generalizing h s c xs ys with
  | zero => exact absurd hfuel (Nat.not_lt_zero _)
  | succ fuel ih =>
    obtain ⟨l1, l2, tail, value, tortoise1, tortoise2, l1Count, l2Count⟩ := s
    have hframe : ∀ tem, Frame h (h.attach tail value tem).1 (c ++ xs ++ ys) := fun tem =>
      Frame.attach hm.building fun y hy => by simp [hy]
    cases xs with
    | nil =>
      obtain rfl : l1 = none := hm.rest1
      refine ⟨_, _, rfl, ?_, hframe l2⟩
      rw [stableMerge_nil_left]
      exact finish_attach hm.building hm.rest2 hm.apart2
    | cons x xs =>
      obtain rfl : l1 = some x := hm.rest1.1
      cases ys with
      | nil =>
        obtain rfl : l2 = none := hm.rest2
        refine ⟨_, _, rfl, ?_, hframe (some x)⟩
        rw [stableMerge_nil_right]
        exact finish_attach hm.building hm.rest1 hm.apart1
      | cons y ys =>
        obtain rfl : l2 = some y := hm.rest2.1
        rw [listMergeLoop]
        simp only
        cases hcheck : check (h.car y) (h.car x) with
        | false =>
          obtain ⟨tortoise1', hwalk, hm'⟩ := hm.take
          obtain ⟨h', p, hloop, hlist, hframe'⟩ := ih hm'
            (by simp only [List.length_cons] at hfuel ⊢; omega)
          rw [Conses.attach_car] at hlist
          rw [if_pos rfl, hwalk]
          refine ⟨h', p, hloop, ?_, ?_⟩
          · rw [stableMerge_cons_left xs ys hcheck, List.append_cons]
            exact hlist
          · exact (hframe (some x)).trans hframe' fun z hz => by simpa [or_assoc] using hz
        | true =>
          obtain ⟨tortoise2', hwalk, hm'⟩ := hm.swap.take
          obtain ⟨h', p, hloop, hlist, hframe'⟩ := ih hm'.swap
            (by simp only [List.length_cons] at hfuel ⊢; omega)
          rw [Conses.attach_car] at hlist
          rw [if_neg Bool.false_ne_true.symm, hwalk]
          refine ⟨h', p, hloop, ?_, ?_⟩
          · rw [stableMerge_cons_right xs ys hcheck, List.append_cons]
            exact hlist
          · refine (hframe (some y)).trans hframe' fun z hz => ?_
            simp only [List.mem_append, List.mem_cons, List.not_mem_nil, or_false] at hz ⊢
            tauto

theorem listMerge_eq (check : Obj → Obj → Bool) {fuel : ℕ} {h : Conses Obj} {p q : Option ℕ}
    {xs ys : List ℕ} (hxs : SList h.cdr p xs) (hys : SList h.cdr q ys) (hapart : ∀ x ∈ xs, x ∉ ys)
    (hfuel : xs.length + ys.length < fuel) :
    ∃ h' r, listMerge check fuel h p q = .ok (h', r) ∧
      SList h'.cdr r (stableMerge (byCar check h.car) xs ys) ∧ Frame h h' (xs ++ ys) := by
  have hm : Merging h ⟨p, q, none, none, p, q, 0, 0⟩ [] xs ys :=
    ⟨Building.nil, hxs, hys, fun _ _ => List.not_mem_nil, fun _ _ => List.not_mem_nil, hapart,
      Behind.zero, Behind.zero⟩
  exact listMergeLoop_eq check hm hfuel

/-- The conses of `u` lead to each other only, and so does what the loop holds. -/
structure ClosedIn (u : Finset ℕ) (h : Conses Obj) (s : ListMerge) : Prop where
  cdr : ∀ x ∈ u, ∀ y ∈ h.cdr x, y ∈ u
  l1 : ∀ x ∈ s.l1, x ∈ u
  l2 : ∀ x ∈ s.l2, x ∈ u
  tail : ∀ x ∈ s.tail, x ∈ u
  value : ∀ x ∈ s.value, x ∈ u

theorem ClosedIn.attach {u : Finset ℕ} {h : Conses Obj} {value tem : Option ℕ} (tail : Option ℕ)
    (hcdr : ∀ x ∈ u, ∀ y ∈ h.cdr x, y ∈ u) (hvalue : ∀ x ∈ value, x ∈ u) (htem : ∀ x ∈ tem, x ∈ u) :
    (∀ x ∈ u, ∀ y ∈ (h.attach tail value tem).1.cdr x, y ∈ u) ∧
      ∀ x ∈ (h.attach tail value tem).2, x ∈ u := by
  constructor
  · intro x hx y hy
    by_cases hxt : tail = some x
    · rw [h.attach_cdr_tail hxt] at hy
      exact htem y hy
    · rw [h.attach_cdr_of_ne hxt] at hy
      exact hcdr x hx y hy
  · rw [Conses.attach_value]
    split
    · exact htem
    · exact hvalue

theorem listMergeLoop_closed (check : Obj → Obj → Bool) {u : Finset ℕ} {fuel : ℕ} {h h' : Conses Obj}
    {s : ListMerge} {p : Option ℕ} (hc : ClosedIn u h s)
    (hrun : listMergeLoop check fuel h s = .ok (h', p)) :
    (∀ x ∈ u, ∀ y ∈ h'.cdr x, y ∈ u) ∧ ∀ x ∈ p, x ∈ u := by
  induction fuel generalizing h s with
  | zero => exact absurd hrun (by simp [listMergeLoop])
  | succ fuel ih =>
    obtain ⟨l1, l2, tail, value, tortoise1, tortoise2, l1Count, l2Count⟩ := s
    cases l1 with
    | none =>
      obtain ⟨rfl, rfl⟩ := Prod.mk.inj (Except.ok.inj hrun)
      exact ClosedIn.attach tail hc.cdr hc.value hc.l2
    | some x =>
      cases l2 with
      | none =>
        obtain ⟨rfl, rfl⟩ := Prod.mk.inj (Except.ok.inj hrun)
        exact ClosedIn.attach tail hc.cdr hc.value hc.l1
      | some y =>
        have hx := hc.l1 x rfl
        have hy := hc.l2 y rfl
        rw [listMergeLoop] at hrun
        simp only at hrun
        split at hrun
        · obtain ⟨tortoise1', -, hrun⟩ := exists_of_bind_eq_ok hrun
          obtain ⟨hcdr, hvalue⟩ := ClosedIn.attach tail hc.cdr hc.value hc.l1
          exact ih (by exact ⟨hcdr, hc.cdr x hx, hc.l2, hc.l1, hvalue⟩) hrun
        · obtain ⟨tortoise2', -, hrun⟩ := exists_of_bind_eq_ok hrun
          obtain ⟨hcdr, hvalue⟩ := ClosedIn.attach tail hc.cdr hc.value hc.l2
          exact ih (by exact ⟨hcdr, hc.l1, hc.cdr y hy, hc.l2, hvalue⟩) hrun

theorem listMerge_shared (check : Obj → Obj → Bool) {fuel : ℕ} {h h' : Conses Obj} {p q r : Option ℕ}
    {xs ys zs : List ℕ} (hxs : SList h.cdr p xs) (hys : SList h.cdr q ys) {x : ℕ} (hx : x ∈ xs)
    (hy : x ∈ ys) (hrun : listMerge check fuel h p q = .ok (h', r)) (hzs : SList h'.cdr r zs) :
    zs.length < xs.length + ys.length := by
  have hmem : ∀ {p : Option ℕ} {l : List ℕ}, SList h.cdr p l → (∀ y ∈ p, y ∈ l) ∧
      ∀ y ∈ l, ∀ z ∈ h.cdr y, z ∈ l := by
    intro p l hl
    constructor
    · intro y hy
      rw [hl.head?_eq] at hy
      exact List.mem_of_mem_head? hy
    · intro y hy z hz
      obtain ⟨l₁, l₂, rfl⟩ := List.append_of_mem hy
      rw [hl.next_eq] at hz
      exact List.mem_append_right l₁ (List.mem_cons_of_mem y (List.mem_of_mem_head? hz))
  have hu : ∀ y, y ∈ xs.toFinset ∪ ys.toFinset ↔ y ∈ xs ∨ y ∈ ys := by simp
  have hc : ClosedIn (xs.toFinset ∪ ys.toFinset) h ⟨p, q, none, none, p, q, 0, 0⟩ :=
    ⟨fun y hy z hz => (hu z).mpr (((hu y).mp hy).imp (fun hy => (hmem hxs).2 y hy z hz)
        fun hy => (hmem hys).2 y hy z hz),
      fun y hy => (hu y).mpr (Or.inl ((hmem hxs).1 y hy)),
      fun y hy => (hu y).mpr (Or.inr ((hmem hys).1 y hy)),
      fun y hy => absurd hy (Option.not_mem_none y), fun y hy => absurd hy (Option.not_mem_none y)⟩
  obtain ⟨hclosed, hr⟩ := listMergeLoop_closed check hc hrun
  have hsub : ∀ {r : Option ℕ} {l : List ℕ}, SList h'.cdr r l →
      (∀ y ∈ r, y ∈ xs.toFinset ∪ ys.toFinset) → ∀ y ∈ l, y ∈ xs.toFinset ∪ ys.toFinset := by
    intro r l hl
    induction l generalizing r with
    | nil => exact fun _ y hy => absurd hy List.not_mem_nil
    | cons z l ih =>
      intro hr y hy
      have hz := hr z hl.1
      rcases List.mem_cons.mp hy with rfl | hy
      · exact hz
      · exact ih hl.2 (fun w hw => hclosed z hz w hw) y hy
  have hcard : zs.toFinset.card ≤ (xs.toFinset ∪ ys.toFinset).card :=
    Finset.card_le_card fun y hy => hsub hzs hr y (List.mem_toFinset.mp hy)
  have hinter : 0 < (xs.toFinset ∩ ys.toFinset).card :=
    Finset.card_pos.mpr ⟨x, Finset.mem_inter.mpr ⟨List.mem_toFinset.mpr hx, List.mem_toFinset.mpr hy⟩⟩
  have hsum := Finset.card_union_add_card_inter xs.toFinset ys.toFinset
  rw [List.toFinset_card_of_nodup hzs.nodup] at hcard
  rw [List.toFinset_card_of_nodup hxs.nodup, List.toFinset_card_of_nodup hys.nodup] at hsum
  omega

/-! ### Sorting a list -/

theorem length_eq {h : Conses Obj} {p : Option ℕ} {xs : List ℕ} (hxs : SList h.cdr p xs) {fuel : ℕ}
    (hfuel : xs.length ≤ fuel) : h.length fuel p = .ok xs.length := by
  induction xs generalizing p fuel with
  | nil =>
    obtain rfl : p = none := hxs
    cases fuel <;> rfl
  | cons x xs ih =>
    obtain rfl : p = some x := hxs.1
    cases fuel with
    | zero => exact absurd hfuel (Nat.not_succ_le_zero _)
    | succ fuel =>
      rw [Conses.length, ih hxs.2 (Nat.le_of_succ_le_succ hfuel)]
      rfl

theorem nthcdr_eq {h : Conses Obj} {p : Option ℕ} {xs : List ℕ} (hxs : SList h.cdr p xs) (n : ℕ) :
    h.nthcdr n p = (xs.drop n).head? := by
  induction n generalizing p xs with
  | zero =>
    rw [Conses.nthcdr, List.drop_zero, hxs.head?_eq]
    rintro _ _ ⟨⟩
  | succ n ih =>
    cases xs with
    | nil =>
      obtain rfl : p = none := hxs
      rfl
    | cons x xs =>
      obtain rfl : p = some x := hxs.1
      exact ih hxs.2

theorem listSort_succ {check : Obj → Obj → Bool} {fuel depth n : ℕ} {h : Conses Obj}
    {p : Option ℕ} {tem : ℕ} (hlength : h.length fuel p = .ok n) (hlong : ¬ n < 2)
    (hnth : h.nthcdr (n / 2 - 1) p = some tem) :
    listSort check fuel (depth + 1) h p =
      listSort check fuel depth (h.setcdr tem none) p >>= fun front =>
        listSort check fuel depth front.1 (h.cdr tem) >>= fun back =>
          listMerge check fuel back.1 front.2 back.2 := by
  rw [listSort, hlength]
  show (if n < 2 then (.ok (h, p) : Except _ _) else _) = _
  rw [if_neg hlong, hnth]

theorem listSort_eq {check : Obj → Obj → Bool} {set : Set Obj} (horder : StrictWeakOrderOn check set)
    {fuel depth : ℕ} {h : Conses Obj} {p : Option ℕ} {xs : List ℕ} (hxs : SList h.cdr p xs)
    (hset : ∀ x ∈ xs, h.car x ∈ set) (hfuel : xs.length < fuel) (hdepth : xs.length < depth) :
    ∃ h' r zs, listSort check fuel depth h p = .ok (h', r) ∧ SList h'.cdr r zs ∧
      zs.Perm xs ∧ Sorts check set (xs.map h.car) (zs.map h.car) ∧ Frame h h' xs := by
  induction depth generalizing h p xs with
  | zero => exact absurd hdepth (Nat.not_lt_zero _)
  | succ depth ih =>
    have hlength := length_eq hxs hfuel.le
    by_cases hshort : xs.length < 2
    · refine ⟨h, p, xs, ?_, hxs, List.Perm.refl xs,
        sorts_of_length_lt_two (by rwa [List.length_map]), Frame.refl⟩
      rw [listSort, hlength]
      exact if_pos hshort
    · have hn : xs.length / 2 - 1 < xs.length := by omega
      have hsplit := List.take_append_drop (xs.length / 2 - 1) xs
      rw [List.drop_eq_getElem_cons hn] at hsplit
      have hl : (xs.take (xs.length / 2 - 1)).length = xs.length / 2 - 1 := by
        rw [List.length_take, min_eq_left hn.le]
      have hr : (xs.drop (xs.length / 2 - 1 + 1)).length = xs.length - xs.length / 2 := by
        rw [List.length_drop]
        omega
      have hnth : h.nthcdr (xs.length / 2 - 1) p = some xs[xs.length / 2 - 1] := by
        rw [nthcdr_eq hxs, List.head?_drop, List.getElem?_eq_getElem hn]
      generalize xs.take (xs.length / 2 - 1) = l at hsplit hl
      generalize xs[xs.length / 2 - 1] = tem at hsplit hnth
      generalize xs.drop (xs.length / 2 - 1 + 1) = r at hsplit hr
      rw [listSort_succ hlength hshort hnth]
      -- the two halves, cut apart
      have hnodup := hxs.nodup
      rw [← hsplit] at hxs hnodup hset ⊢
      have hparts := List.nodup_append.mp hnodup
      have htem := List.nodup_cons.mp hparts.2.1
      have hfront : SList (h.setcdr tem none).cdr p (l ++ [tem]) :=
        hxs.cut (Function.update_self _ _ _) fun y hy => Function.update_of_ne
          (fun heq => hparts.2.2 y hy tem List.mem_cons_self heq) _ _
      have hback : SList (h.setcdr tem none).cdr (h.cdr tem) r :=
        hxs.drop.2.congr fun y hy => Function.update_of_ne
          (fun heq : y = tem => htem.1 (heq ▸ hy)) _ _
      have hapart : ∀ y ∈ r, y ∉ l ++ [tem] := by
        intro y hy hmem
        rcases List.mem_append.mp hmem with hmem | hmem
        · exact hparts.2.2 y hmem y (List.mem_cons_of_mem tem hy) rfl
        · exact htem.1 (List.mem_singleton.mp hmem ▸ hy)
      obtain ⟨h₁, front, zs₁, hrun₁, hlist₁, hperm₁, hsorts₁, hframe₁⟩ := ih hfront
        (fun y hy => hset y (by
          rw [List.append_cons]
          exact List.mem_append_left r hy))
        (by rw [List.length_append, List.length_singleton]; omega)
        (by rw [List.length_append, List.length_singleton]; omega)
      obtain ⟨h₂, back, zs₂, hrun₂, hlist₂, hperm₂, hsorts₂, hframe₂⟩ :=
        ih (hframe₁.slist hback hapart)
          (fun y hy => by
            rw [hframe₁.car]
            exact hset y (List.mem_append_right l (List.mem_cons_of_mem tem hy)))
          (by omega) (by omega)
      have hfront₂ : SList h₂.cdr front zs₁ := hframe₂.slist hlist₁ fun y hy hmem =>
        hapart y hmem (hperm₁.mem_iff.mp hy)
      obtain ⟨h₃, p₃, hrun₃, hlist₃, hframe₃⟩ := listMerge_eq check hfront₂ hlist₂
        (fun y hy hmem => hapart y (hperm₂.mem_iff.mp hmem) (hperm₁.mem_iff.mp hy))
        (show zs₁.length + zs₂.length < fuel by
          rw [hperm₁.length_eq, hperm₂.length_eq, List.length_append, List.length_singleton]
          omega)
      have hcar₂ : h₂.car = h.car := hframe₂.car.trans hframe₁.car
      rw [hcar₂] at hlist₃
      refine ⟨h₃, p₃, _, ?_, hlist₃, ?_, ?_, ?_⟩
      · rw [hrun₁]
        show listSort _ _ _ _ _ >>= _ = _
        rw [hrun₂]
        exact hrun₃
      · rw [List.append_cons]
        exact (List.merge_perm_append _).trans (hperm₁.append hperm₂)
      · rw [hframe₁.car] at hsorts₂
        rw [map_stableMerge, List.append_cons, List.map_append]
        apply Sorts.merge horder _ _ hsorts₁ hsorts₂
        · intro x hx
          obtain ⟨y, hy, rfl⟩ := List.mem_map.mp hx
          exact hset y (by
            rw [List.append_cons]
            exact List.mem_append_left r hy)
        · intro x hx
          obtain ⟨y, hy, rfl⟩ := List.mem_map.mp hx
          exact hset y (List.mem_append_right l (List.mem_cons_of_mem tem hy))
      · have hcut : Frame h (h.setcdr tem none) (l ++ tem :: r) :=
          ⟨rfl, rfl, fun y hy => Function.update_of_ne
            (fun heq : y = tem => hy (heq ▸ List.mem_append_right l List.mem_cons_self)) _ _⟩
        refine ((hcut.trans hframe₁ ?_).trans hframe₂ ?_).trans hframe₃ ?_
        · intro y hy
          rw [List.append_cons]
          exact List.mem_append_left r hy
        · exact fun y hy => List.mem_append_right l (List.mem_cons_of_mem tem hy)
        · intro y hy
          rw [List.append_cons]
          rcases List.mem_append.mp hy with hy | hy
          · exact List.mem_append_left r (hperm₁.mem_iff.mp hy)
          · exact List.mem_append_right _ (hperm₂.mem_iff.mp hy)

end XEmacs.Sequences
