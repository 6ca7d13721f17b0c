import Mathlib.Algebra.Ring.Parity
import XEmacs.Lib.Tortoise
import XEmacs.Lisp.Plist

/-! The loops over property lists end in every heap, however its conses are linked. The tortoise is
where the list is after as many cdrs as there have been iterations and the hare is twice as far; what
the tortoise comes to, the hare has passed and checked. -/

namespace XEmacs.Plists

open Lib

variable {α : Type}

namespace Heap

def tail (h : Heap α) : Obj α → Obj α
  | .cons x => h.cdr x
  | .atom a => .atom a

def ValidPlist (h : Heap α) (o : Obj α) : Prop := ∃ cells, Leads h.cdr o cells nil ∧ Even cells.length

def PairAt (h : Heap α) (o : Obj α) : Prop := o = nil ∨ ∃ x y, o = .cons x ∧ h.cdr x = .cons y

/-- What the loops find wrong with a list: after an even number of conses there is no pair, or the
hare is where the tortoise is. -/
def Bad (h : Heap α) (o : Obj α) : Prop :=
  (∃ k, ¬ h.PairAt (h.tail^[2 * k] o)) ∨ ∃ k, 1 ≤ k ∧ h.tail^[2 * k] o ≠ nil ∧ h.tail^[k] o = h.tail^[2 * k] o

variable {h : Heap α} {o : Obj α} {n : ℕ}

theorem tail_iterate_atom (a : Option α) (n : ℕ) : h.tail^[n] (.atom a) = .atom a := by
  induction n with
  | zero => rfl
  | succ n ih => rw [Function.iterate_succ_apply, tail, ih]

theorem tail_iterate_of_atom {a : Option α} (hatom : h.tail^[n] o = .atom a) {k : ℕ} (hk : n ≤ k) :
    h.tail^[k] o = .atom a := by
  obtain ⟨d, rfl⟩ := Nat.exists_eq_add_of_le' hk
  rw [Function.iterate_add_apply, hatom, tail_iterate_atom]

theorem tail_iterate_lt {cells : List ℕ} {o' : Obj α} (hl : Leads h.cdr o cells o') (hn : n < cells.length) :
    h.tail^[n] o = .cons cells[n] := by
  induction cells generalizing o n with
  | nil => exact absurd hn (Nat.not_lt_zero n)
  | cons x cells ih =>
    obtain ⟨rfl, hl⟩ := hl
    cases n with
    | zero => rfl
    | succ n =>
      rw [Function.iterate_succ_apply]
      exact ih hl (Nat.lt_of_succ_lt_succ hn)

theorem tail_iterate_length {cells : List ℕ} {o' : Obj α} (hl : Leads h.cdr o cells o') :
    h.tail^[cells.length] o = o' := by
  induction cells generalizing o with
  | nil => exact hl
  | cons x cells ih =>
    obtain ⟨rfl, hl⟩ := hl
    rw [List.length_cons, Function.iterate_succ_apply]
    exact ih hl

theorem exists_leads {a : Option α} (hatom : h.tail^[n] o = .atom a) : ∃ cells, Leads h.cdr o cells (.atom a) := by
  induction n generalizing o with
  | zero => exact ⟨[], hatom⟩
  | succ n ih =>
    cases o with
    | atom b =>
      rw [tail_iterate_atom] at hatom
      exact ⟨[], hatom⟩
    | cons x =>
      rw [Function.iterate_succ_apply] at hatom
      obtain ⟨cells, hl⟩ := ih hatom
      exact ⟨x :: cells, rfl, hl⟩

theorem allocated_iterate (hclosed : h.Closed) (ho : h.Allocated o) (n : ℕ) : h.Allocated (h.tail^[n] o) := by
  induction n generalizing o with
  | zero => exact ho
  | succ n ih =>
    rw [Function.iterate_succ_apply]
    refine ih ?_
    cases o with
    | atom a => exact ho
    | cons x => exact hclosed x (ho x rfl)

theorem exists_tail_meet (hclosed : h.Closed) (ho : h.Allocated o) :
    ∃ k, 1 ≤ k ∧ k ≤ h.next + 1 ∧ h.tail^[2 * k] o = h.tail^[k] o := by
  classical
  by_cases hatom : ∃ n a, h.tail^[n] o = .atom a
  · -- all the atoms of the list are the one at its end
    obtain ⟨n, a, hn⟩ := hatom
    have hmem (k : ℕ) : h.tail^[k] o ∈ insert (.atom a) ((Finset.range h.next).image Ref.cons) := by
      cases hk : h.tail^[k] o with
      | cons x =>
        refine Finset.mem_insert_of_mem (Finset.mem_image_of_mem _ (Finset.mem_range.mpr ?_))
        exact allocated_iterate hclosed ho k x hk
      | atom b =>
        have hsame := tail_iterate_of_atom hk (Nat.le_max_left k n)
        rw [tail_iterate_of_atom hn (Nat.le_max_right k n)] at hsame
        rw [hsame]
        exact Finset.mem_insert_self _ _
    obtain ⟨k, hpos, hle, hmeet⟩ := exists_meet hmem
    refine ⟨k, hpos, hle.trans ((Finset.card_insert_le _ _).trans ?_), hmeet⟩
    exact Nat.succ_le_succ (Finset.card_image_le.trans_eq (Finset.card_range _))
  · have hmem (k : ℕ) : h.tail^[k] o ∈ (Finset.range h.next).image Ref.cons := by
      cases hk : h.tail^[k] o with
      | cons x => exact Finset.mem_image_of_mem _ (Finset.mem_range.mpr (allocated_iterate hclosed ho k x hk))
      | atom b => exact absurd ⟨k, b, hk⟩ hatom
    obtain ⟨k, hpos, hle, hmeet⟩ := exists_meet hmem
    exact ⟨k, hpos, (hle.trans (Finset.card_image_le.trans_eq (Finset.card_range _))).trans (Nat.le_succ _), hmeet⟩

theorem not_bad_of_valid (hvalid : h.ValidPlist o) : ¬ h.Bad o := by
  obtain ⟨cells, hl, m, hm⟩ := hvalid
  have hend := tail_iterate_length hl
  rintro (⟨k, hpair⟩ | ⟨k, hpos, hne, hmeet⟩)
  · by_cases hk : 2 * k < cells.length
    · have hk' : 2 * k + 1 < cells.length := by omega
      refine hpair (.inr ⟨cells[2 * k], cells[2 * k + 1], tail_iterate_lt hl hk, ?_⟩)
      have hnext := tail_iterate_lt hl hk'
      rwa [Function.iterate_succ_apply', tail_iterate_lt hl hk] at hnext
    · exact hpair (.inl (tail_iterate_of_atom hend (not_lt.mp hk)))
  · -- what they meet at would come again after the end
    have hagain := iterate_of_meet hmeet.symm cells.length
    have hlong : cells.length ≤ k + cells.length * k :=
      (Nat.le_mul_of_pos_right _ hpos).trans (Nat.le_add_left _ _)
    rw [tail_iterate_of_atom hend hlong] at hagain
    exact hne (hmeet.symm.trans hagain.symm)

theorem bad_iff (hclosed : h.Closed) (ho : h.Allocated o) : h.Bad o ↔ ¬ h.ValidPlist o := by
  constructor
  · exact fun hbad hvalid => not_bad_of_valid hvalid hbad
  · intro hvalid
    by_contra hgood
    rw [Bad, not_or, not_exists, not_exists] at hgood
    obtain ⟨k, hpos, -, hmeet⟩ := exists_tail_meet hclosed ho
    have hnil : h.tail^[2 * k] o = nil := by
      by_contra hne
      exact hgood.2 k ⟨hpos, hne, hmeet.symm⟩
    obtain ⟨cells, hl⟩ := exists_leads hnil
    refine hvalid ⟨cells, hl, ?_⟩
    by_contra hodd
    obtain ⟨j, hj⟩ := Nat.not_even_iff_odd.mp hodd
    have hlast := tail_iterate_lt hl (show 2 * j < cells.length by omega)
    rcases not_not.mp (hgood.1 j) with hend | ⟨x, y, hx, hy⟩
    · exact atom_ne_cons none _ (hend.symm.trans hlast)
    · have hend : h.tail^[2 * j + 1] o = nil := hj ▸ tail_iterate_length hl
      rw [Function.iterate_succ_apply', hx, tail, hy] at hend
      exact atom_ne_cons none y hend.symm

end Heap

/-! ### The pointers -/

namespace Memory

variable {m : Memory α} {plist tortoise hare tortsave : Place} {errb : ErrorBehavior} {n : ℕ}

/-- The pointers after `n` iterations, and what has been checked. -/
structure Ahead (m : Memory α) (plist : Place) (n : ℕ) (tortoise hare : Place) : Prop where
  tortoise : m.read tortoise = m.heap.tail^[n] (m.read plist)
  hare : m.read hare = m.heap.tail^[2 * n] (m.read plist)
  pairs : ∀ k < n, m.heap.PairAt (m.heap.tail^[2 * k] (m.read plist))
  apart : ∀ k, 1 ≤ k → k ≤ n → m.heap.tail^[2 * k] (m.read plist) ≠ nil →
    m.heap.tail^[k] (m.read plist) ≠ m.heap.tail^[2 * k] (m.read plist)

theorem ahead_start (m : Memory α) (plist : Place) : Ahead m plist 0 plist plist :=
  ⟨rfl, rfl, fun _ hk => absurd hk (Nat.not_lt_zero _), fun _ hpos hk => absurd (hpos.trans hk) (by decide)⟩

def IsFailure (m : Memory α) (plist : Place) (errb : ErrorBehavior) (r : Returned α (Option (Obj α))) : Prop :=
  ∃ badplace, r = m.badBadBunny plist badplace errb ∨ r = m.badBadTurtle plist badplace errb

theorem advanceHare_some {hare' : Place} (h : m.advanceHare hare = some hare') :
    m.read hare' = m.heap.tail (m.heap.tail (m.read hare)) ∧ m.heap.PairAt (m.read hare) := by
  rw [advanceHare] at h
  cases hr : m.read hare with
  | atom a =>
    rw [hr] at h
    cases a with
    | none =>
      obtain rfl := Option.some.inj h
      exact ⟨hr, .inl rfl⟩
    | some a => exact absurd h (Option.some_ne_none _).symm
  | cons x =>
    rw [hr] at h
    simp only at h
    cases hx : m.heap.cdr x with
    | atom a =>
      rw [hx] at h
      exact absurd h (Option.some_ne_none _).symm
    | cons y =>
      rw [hx] at h
      obtain rfl := Option.some.inj h
      refine ⟨?_, .inr ⟨x, y, rfl, hx⟩⟩
      rw [Heap.tail, hx]
      rfl

theorem advanceHare_none (h : m.advanceHare hare = none) : ¬ m.heap.PairAt (m.read hare) := by
  rw [advanceHare] at h
  rintro (hnil | ⟨x, y, hx, hy⟩)
  · rw [hnil] at h
    exact Option.some_ne_none _ h
  · rw [hx] at h
    simp only [hy] at h
    exact Option.some_ne_none _ h

theorem exists_tortoise {o : Obj α} {h : Heap α} (hpairs : ∀ k ≤ n, h.PairAt (h.tail^[2 * k] o))
    (hne : h.tail^[2 * (n / 2)] o ≠ nil) : ∃ x, h.tail^[n] o = .cons x := by
  obtain ⟨x, y, hx, hy⟩ := (hpairs (n / 2) (Nat.div_le_self n 2)).resolve_left hne
  rcases Nat.mod_two_eq_zero_or_one n with heven | hodd
  · rw [show 2 * (n / 2) = n by omega] at hx
    exact ⟨x, hx⟩
  · refine ⟨y, ?_⟩
    rw [show n = 2 * (n / 2) + 1 by omega, Function.iterate_succ_apply', hx]
    exact hy

theorem Ahead.ended (h : Ahead m plist n tortoise hare) (hclosed : m.heap.Closed)
    (hplist : m.heap.Allocated (m.read plist)) (hn : m.heap.next < n) : m.read tortoise = nil := by
  obtain ⟨k, hpos, hle, hmeet⟩ := Heap.exists_tail_meet hclosed hplist
  have hnil : m.heap.tail^[k] (m.read plist) = nil := by
    by_contra hne
    exact h.apart k hpos (hle.trans hn) (hmeet ▸ hne) hmeet.symm
  rw [h.tortoise]
  exact Heap.tail_iterate_of_atom hnil (hle.trans hn)

theorem Ahead.good {i : ℕ} (h : Ahead m plist (2 * i) tortoise hare) (hnil : m.read tortoise = nil) :
    ¬ m.heap.Bad (m.read plist) := by
  have hend {k : ℕ} (hk : 2 * i ≤ k) : m.heap.tail^[k] (m.read plist) = nil :=
    Heap.tail_iterate_of_atom (h.tortoise.symm.trans hnil) hk
  rintro (⟨k, hpair⟩ | ⟨k, hpos, hne, hmeet⟩)
  · rcases Nat.lt_or_ge k (2 * i) with hlt | hge
    · exact hpair (h.pairs k hlt)
    · exact hpair (.inl (hend (by omega)))
  · rcases Nat.lt_or_ge (2 * i) k with hlt | hge
    · exact hne (hend (by omega))
    · exact h.apart k hpos hge hne hmeet

variable [DecidableEq α]

theorem advanceOnce_spec (h : Ahead m plist n tortoise hare) (hne : m.heap.tail^[2 * (n / 2)] (m.read plist) ≠ nil) :
    (∃ x hare', m.advanceOnce plist tortsave errb tortoise hare = some (.inr (.cdr x, hare')) ∧
      m.read tortoise = .cons x ∧ Ahead m plist (n + 1) (.cdr x) hare') ∨
    ∃ r, m.advanceOnce plist tortsave errb tortoise hare = some (.inl r) ∧ m.heap.Bad (m.read plist) ∧
      IsFailure m plist errb r := by
  rw [advanceOnce]
  cases hhare : m.advanceHare hare with
  | none =>
    refine .inr ⟨_, rfl, .inl ⟨n, ?_⟩, hare, .inl rfl⟩
    rw [← h.hare]
    exact advanceHare_none hhare
  | some hare' =>
    obtain ⟨hread, hpair⟩ := advanceHare_some hhare
    have hpairs : ∀ k ≤ n, m.heap.PairAt (m.heap.tail^[2 * k] (m.read plist)) := by
      intro k hk
      rcases hk.lt_or_eq with hlt | rfl
      · exact h.pairs k hlt
      · exact h.hare ▸ hpair
    obtain ⟨x, hx⟩ := exists_tortoise hpairs hne
    have hnext : m.heap.tail^[n + 1] (m.read plist) = m.heap.cdr x := by
      rw [Function.iterate_succ_apply', hx]
      rfl
    have hhare' : m.read hare' = m.heap.tail^[2 * (n + 1)] (m.read plist) := by
      rw [hread, h.hare, show 2 * (n + 1) = 2 * n + 1 + 1 by omega, Function.iterate_succ_apply', Function.iterate_succ_apply']
    simp only [h.tortoise, hx]
    split_ifs with hmeet
    · refine .inr ⟨_, rfl, .inr ⟨n + 1, Nat.succ_pos n, ?_, ?_⟩, tortsave, .inr rfl⟩
      · rw [← hhare']
        exact hmeet.1
      · rw [hnext, ← hhare']
        exact hmeet.2
    · refine .inl ⟨x, hare', rfl, rfl, hnext.symm, hhare', fun k hk => hpairs k (Nat.le_of_lt_succ hk), fun k hpos hk => ?_⟩
      rcases hk.lt_or_eq with hlt | rfl
      · exact h.apart k hpos (Nat.le_of_lt_succ hlt)
      · rw [hnext, ← hhare']
        exact fun hne' heq => hmeet ⟨hne', heq⟩

theorem advancePlistPointers_spec {i : ℕ} (h : Ahead m plist (2 * i) tortoise hare) (hne : m.read tortoise ≠ nil) :
    (∃ x y hare', m.advancePlistPointers plist errb tortoise hare = some (.inr (.cdr y, hare')) ∧
      m.read tortoise = .cons x ∧ m.heap.cdr x = .cons y ∧ Ahead m plist (2 * (i + 1)) (.cdr y) hare') ∨
    ∃ r, m.advancePlistPointers plist errb tortoise hare = some (.inl r) ∧ m.heap.Bad (m.read plist) ∧
      IsFailure m plist errb r := by
  rw [h.tortoise] at hne
  rw [advancePlistPointers]
  rcases @advanceOnce_spec _ m plist tortoise hare tortoise errb _ _ h (by rwa [show 2 * (2 * i / 2) = 2 * i by omega]) with
    ⟨x, hare₁, honce, hx, h₁⟩ | ⟨r, honce, hbad, hr⟩
  · rw [honce, Option.bind_some]
    rcases @advanceOnce_spec _ m plist (.cdr x) hare₁ tortoise errb _ _ h₁
      (by rwa [show 2 * ((2 * i + 1) / 2) = 2 * i by omega]) with ⟨y, hare₂, htwice, hy, h₂⟩ | ⟨r, htwice, hbad, hr⟩
    · exact .inl ⟨x, y, hare₂, htwice, hx, hy, h₂⟩
    · exact .inr ⟨r, htwice, hbad, hr⟩
  · rw [honce]
    exact .inr ⟨r, rfl, hbad, hr⟩

/-- What a loop over a list comes to. -/
inductive Ends (m : Memory α) (plist : Place) (test : Obj α → Bool) (errb : ErrorBehavior) : LoopEnd α → Prop
  | ended (hvalid : ¬ m.heap.Bad (m.read plist)) : Ends m plist test errb .ended
  | found {tortsave : Place} {x y : ℕ} (hread : m.read tortsave = .cons x) (hnext : m.heap.cdr x = .cons y)
      (hproperty : test (m.heap.car x) = true) : Ends m plist test errb (.found tortsave)
  | failed {r : Returned α (Option (Obj α))} (hbad : m.heap.Bad (m.read plist)) (hr : IsFailure m plist errb r) :
      Ends m plist test errb (.failed r)

theorem plistLoop_ends (hclosed : m.heap.Closed) (hplist : m.heap.Allocated (m.read plist)) (test : Obj α → Bool)
    (errb : ErrorBehavior) {i fuel : ℕ} (h : Ahead m plist (2 * i) tortoise hare) (hi : i ≤ m.heap.next + 1)
    (hfuel : m.heap.next + 1 < i + fuel) :
    ∃ e, m.plistLoop plist test errb fuel tortoise hare = some e ∧ Ends m plist test errb e := by
  induction fuel generalizing i tortoise hare with
  | zero => exact absurd hfuel (not_lt.mpr hi)
  | succ fuel ih =>
    rw [plistLoop]
    by_cases hnil : m.read tortoise = nil
    · rw [if_pos hnil]
      exact ⟨_, rfl, .ended (h.good hnil)⟩
    rw [if_neg hnil]
    rcases @advancePlistPointers_spec _ m plist tortoise hare errb _ _ h hnil with ⟨x, y, hare', hadvance, hx, hy, h'⟩ | ⟨r, hadvance, hbad, hr⟩
    · rw [hadvance, Option.bind_some]
      simp only [hx, Heap.xcar, Option.bind_some]
      by_cases htest : test (m.heap.car x) = true
      · rw [if_pos htest]
        exact ⟨_, rfl, .found hx hy htest⟩
      · rw [if_neg htest]
        have hi' : 2 * i ≤ m.heap.next := not_lt.mp fun hlt => hnil (h.ended hclosed hplist hlt)
        exact ih h' (by omega) (by omega)
    · rw [hadvance]
      exact ⟨_, rfl, .failed hbad hr⟩

/-! ### What is found -/

section Found

variable {test : Obj α → Bool} {fuel x y : ℕ} (hloop : m.plistLoop plist test errb fuel plist plist = some (.found tortsave))
  (hread : m.read tortsave = .cons x) (hnext : m.heap.cdr x = .cons y)
include hloop hread hnext

theorem externalPlistGet_found : m.externalPlistGet plist fuel test errb = some (m, .ok (some (m.heap.car y))) := by
  rw [externalPlistGet, hloop, Option.bind_some]
  simp only [hread, Heap.xcdr, hnext, Option.bind_some, Heap.xcar, Option.map_some]

theorem externalPlistPut_found (property value : Obj α) : m.externalPlistPut plist fuel test property value errb =
    some ({ m with heap := { m.heap with car := Function.update m.heap.car y value } }, .ok ()) := by
  rw [externalPlistPut, hloop, Option.bind_some]
  simp only [hread, Heap.xcdr, hnext, Option.bind_some]

theorem externalRemprop_found :
    m.externalRemprop plist fuel test errb = some (m.write (m.heap.cdr y) tortsave, .ok true) := by
  rw [externalRemprop, hloop, Option.bind_some]
  simp only [hread, Heap.xcdr, hnext, Option.bind_some, Option.map_some]

end Found

end Memory

namespace Heap

variable {h : Heap α} {fuel : ℕ} {plist : Obj α}

theorem heap_of_failure {r : Returned α (Option (Obj α))} (hr : Memory.IsFailure ⟨h, plist⟩ .field .errorMe r) :
    r.1.heap = h ∧ ∃ e, r.2 = .error e := by
  obtain ⟨badplace, rfl | rfl⟩ := hr
  · exact ⟨rfl, _, rfl⟩
  · exact ⟨rfl, _, rfl⟩

variable [DecidableEq α]

theorem plistLoop_ends (hclosed : h.Closed) (hplist : h.Allocated plist) (hfuel : h.next + 1 < fuel) (test : Obj α → Bool)
    (errb : ErrorBehavior) : ∃ e, Memory.plistLoop ⟨h, plist⟩ .field test errb fuel .field .field = some e ∧
      Memory.Ends ⟨h, plist⟩ .field test errb e :=
  @Memory.plistLoop_ends _ ⟨h, plist⟩ .field .field .field _ hclosed hplist test errb 0 fuel (Memory.ahead_start _ _)
    (Nat.zero_le _) (hfuel.trans_eq (Nat.zero_add _).symm)

theorem validPlistP_spec (hclosed : h.Closed) (hplist : h.Allocated plist) (hfuel : h.next + 1 < fuel) :
    ∃ valid, h.validPlistP fuel plist = some valid ∧ (valid = true ↔ h.ValidPlist plist) := by
  obtain ⟨e, he, hends⟩ := plistLoop_ends hclosed hplist hfuel (fun _ => false) .errorMeNot
  rw [validPlistP, he]
  have hbad := bad_iff hclosed hplist
  cases hends with
  | ended hvalid => exact ⟨true, rfl, iff_of_true rfl (not_not.mp (mt hbad.mpr hvalid))⟩
  | found hread hnext hproperty => exact absurd hproperty Bool.false_ne_true
  | failed hfailed hr => exact ⟨false, rfl, iff_of_false Bool.false_ne_true (hbad.mp hfailed)⟩

theorem checkValidPlist_spec (hclosed : h.Closed) (hplist : h.Allocated plist) (hfuel : h.next + 1 < fuel) :
    ∃ r, h.checkValidPlist fuel plist = some r ∧ r.1.heap = h ∧ ((∃ e, r.2 = .error e) ↔ ¬ h.ValidPlist plist) := by
  obtain ⟨e, he, hends⟩ := plistLoop_ends hclosed hplist hfuel (fun _ => false) .errorMe
  rw [checkValidPlist, he]
  have hbad := bad_iff hclosed hplist
  cases hends with
  | ended hvalid =>
    refine ⟨_, rfl, rfl, iff_of_false ?_ (mt hbad.mpr hvalid)⟩
    rintro ⟨e, h⟩
    cases h
  | found hread hnext hproperty => exact absurd hproperty Bool.false_ne_true
  | failed hfailed hr =>
    obtain ⟨hheap, e, hr⟩ := heap_of_failure hr
    refine ⟨_, rfl, hheap, iff_of_true ⟨e, ?_⟩ (hbad.mp hfailed)⟩
    simp only
    rw [hr]
    rfl

theorem plistGet_safe (hclosed : h.Closed) (hplist : h.Allocated plist) (hfuel : h.next + 1 < fuel) (property default_ : Obj α) :
    ∃ r, h.plistGet fuel plist property default_ = some r ∧ r.1.heap = h := by
  obtain ⟨e, he, hends⟩ := plistLoop_ends hclosed hplist hfuel (· = property) .errorMe
  rw [plistGet]
  cases hends with
  | ended hvalid =>
    rw [Memory.externalPlistGet, he]
    exact ⟨_, rfl, rfl⟩
  | found hread hnext hproperty =>
    rw [Memory.externalPlistGet_found he hread hnext]
    exact ⟨_, rfl, rfl⟩
  | failed hfailed hr =>
    rw [Memory.externalPlistGet, he]
    exact ⟨_, rfl, (heap_of_failure hr).1⟩

theorem plistPut_safe (hclosed : h.Closed) (hplist : h.Allocated plist) (hfuel : h.next + 1 < fuel) (property value : Obj α) :
    ∃ r, h.plistPut fuel plist property value = some r ∧ ∀ e, r.2 = .error e → r.1.heap = h := by
  obtain ⟨e, he, hends⟩ := plistLoop_ends hclosed hplist hfuel (· = property) .errorMe
  rw [plistPut]
  cases hends with
  | ended hvalid =>
    rw [Memory.externalPlistPut, he]
    exact ⟨_, rfl, fun e he => by cases he⟩
  | found hread hnext hproperty =>
    rw [Memory.externalPlistPut_found he hread hnext]
    exact ⟨_, rfl, fun e he => by cases he⟩
  | failed hfailed hr =>
    rw [Memory.externalPlistPut, he]
    exact ⟨_, rfl, fun _ _ => (heap_of_failure hr).1⟩

theorem plistRemprop_safe (hclosed : h.Closed) (hplist : h.Allocated plist) (hfuel : h.next + 1 < fuel) (property : Obj α) :
    ∃ r, h.plistRemprop fuel plist property = some r ∧ ∀ e, r.2 = .error e → r.1.heap = h := by
  obtain ⟨e, he, hends⟩ := plistLoop_ends hclosed hplist hfuel (· = property) .errorMe
  rw [plistRemprop]
  cases hends with
  | ended hvalid =>
    rw [Memory.externalRemprop, he]
    exact ⟨_, rfl, fun e he => by cases he⟩
  | found hread hnext hproperty =>
    rw [Memory.externalRemprop_found he hread hnext]
    exact ⟨_, rfl, fun e he => by cases he⟩
  | failed hfailed hr =>
    rw [Memory.externalRemprop, he]
    exact ⟨_, rfl, fun _ _ => (heap_of_failure hr).1⟩

/-- In every heap the functions on property lists return or signal, a list is valid if it is finite,
even and ends in nil, and an error leaves the heap. -/
theorem plists_safe (hclosed : h.Closed) (hplist : h.Allocated plist) (hfuel : h.next + 1 < fuel) (property value default_ : Obj α) :
    (∃ valid, h.validPlistP fuel plist = some valid ∧ (valid = true ↔ h.ValidPlist plist)) ∧
    (∃ r, h.checkValidPlist fuel plist = some r ∧ r.1.heap = h ∧ ((∃ e, r.2 = .error e) ↔ ¬ h.ValidPlist plist)) ∧
    (∃ r, h.plistGet fuel plist property default_ = some r ∧ r.1.heap = h) ∧
    (∃ r, h.plistPut fuel plist property value = some r ∧ ∀ e, r.2 = .error e → r.1.heap = h) ∧
    ∃ r, h.plistRemprop fuel plist property = some r ∧ ∀ e, r.2 = .error e → r.1.heap = h := by
  refine ⟨validPlistP_spec hclosed hplist hfuel, checkValidPlist_spec hclosed hplist hfuel, ?_, ?_, ?_⟩
  · exact plistGet_safe hclosed hplist hfuel property default_
  · exact plistPut_safe hclosed hplist hfuel property value
  · exact plistRemprop_safe hclosed hplist hfuel property

def circle : Heap ℕ where
  car x := .atom (some x)
  cdr x := .cons (1 - x)
  next := 2

theorem plists_safe_circle :
    (∃ valid, circle.validPlistP 4 (.cons 0) = some valid ∧ (valid = true ↔ circle.ValidPlist (.cons 0))) ∧
    (∃ r, circle.checkValidPlist 4 (.cons 0) = some r ∧ r.1.heap = circle ∧
      ((∃ e, r.2 = .error e) ↔ ¬ circle.ValidPlist (.cons 0))) ∧
    (∃ r, circle.plistGet 4 (.cons 0) (.atom (some 7)) nil = some r ∧ r.1.heap = circle) ∧
    (∃ r, circle.plistPut 4 (.cons 0) (.atom (some 7)) nil = some r ∧ ∀ e, r.2 = .error e → r.1.heap = circle) ∧
    ∃ r, circle.plistRemprop 4 (.cons 0) (.atom (some 7)) = some r ∧ ∀ e, r.2 = .error e → r.1.heap = circle := by
  refine plists_safe (fun x hx y hy => ?_) (fun y hy => ?_) (by decide) _ _ _
  · rw [← Ref.cons.inj hy]
    exact Nat.lt_succ_of_le (Nat.sub_le 1 x)
  · rw [← Ref.cons.inj hy]
    exact Nat.zero_lt_two

end Heap

end XEmacs.Plists
