import Mathlib.Data.Prod.Lex
import XEmacs.Extent.ExtentList

/-! The orders of an extent list. Extents with the same endpoints are ordered by when they
were attached, the one way in display order and the other way in e-order, so that each of the
two lists is determined by the extents in it. -/

namespace XEmacs.Extents

open Lib Text

variable {ext ext' : Heap} {stamp stamp' : ℕ → ℤ} {endp : Bool} {e a b : ℕ} {st nd pos : ℤ}

/-- The place of an extent in one of the orders; `stamp` says when it was attached. -/
def key (ext : Heap) (stamp : ℕ → ℤ) (endp : Bool) (e : ℕ) : ℤ ×ₗ ℤ ×ₗ ℤ :=
  if endp then toLex ((ext e).stop, toLex (-(ext e).start, -stamp e))
  else toLex ((ext e).start, toLex (-(ext e).stop, stamp e))

theorem key_lt_iff : key ext stamp endp a < key ext stamp endp b ↔
    (ext a).less endp (ext b) = true ∨ (ext a).equalVals (ext b).start (ext b).stop = true ∧
      if endp then stamp b < stamp a else stamp a < stamp b := by
  cases endp <;>
    simp [key, Prod.Lex.toLex_lt_toLex, Extent.less, Extent.lessVals, Extent.equalVals] <;> omega

theorem endpoint_le_of_key_lt (hlt : key ext stamp endp a < key ext stamp endp b) :
    (ext a).endpoint endp ≤ (ext b).endpoint endp := by
  rw [key_lt_iff] at hlt
  cases endp <;> simp [Extent.less, Extent.lessVals, Extent.equalVals, Extent.endpoint] at hlt ⊢ <;> omega

theorem key_congr (hext : ext' e = ext e) (hstamp : stamp' e = stamp e) :
    key ext' stamp' endp e = key ext stamp endp e := by
  rw [key, key, hext, hstamp]

/-- An extent before the place of a new one from `st` to `nd`. -/
def Extent.below (endp : Bool) (x : Extent) (st nd : ℤ) : Bool :=
  x.lessVals endp st nd || (!endp && x.equalVals st nd)

/-! ### Finding a place -/

theorem equalRun_of_not_is {is : ℕ → Bool} {l : List ℕ} (h : ∀ e ∈ l, is e = false) :
    ExtentList.equalRun ext is st nd l = ((l.takeWhile fun e => (ext e).equalVals st nd).length, false) := by
  induction l with
  | nil => rfl
  | cons e l ih =>
    rw [ExtentList.equalRun, if_neg (by rw [h e List.mem_cons_self]; exact Bool.false_ne_true)]
    by_cases heq : (ext e).equalVals st nd = true
    · rw [if_pos heq, List.takeWhile_cons_of_pos (p := fun e => (ext e).equalVals st nd) heq, ih fun e he => h e (List.mem_cons_of_mem _ he)]
      rfl
    · rw [if_neg heq, List.takeWhile_cons_of_neg (p := fun e => (ext e).equalVals st nd) heq]
      rfl

theorem equalRun_found {is : ℕ → Bool} {l l' : List ℕ} (hl : ∀ e ∈ l, is e = false)
    (heq : ∀ e ∈ l, (ext e).equalVals st nd = true) (he : is e = true) :
    ExtentList.equalRun ext is st nd (l ++ e :: l') = (l.length, true) := by
  induction l with
  | nil => exact if_pos he
  | cons a l ih =>
    rw [List.cons_append, ExtentList.equalRun,
      if_neg (by rw [hl a List.mem_cons_self]; exact Bool.false_ne_true), if_pos (heq a List.mem_cons_self),
      ih (fun e he => hl e (List.mem_cons_of_mem _ he)) fun e he => heq e (List.mem_cons_of_mem _ he)]
    rfl

theorem less_of_key_lt (hlt : key ext stamp endp a < key ext stamp endp b)
    (h : (ext b).lessVals endp st nd = true) : (ext a).lessVals endp st nd = true := by
  rw [key_lt_iff] at hlt
  cases endp <;> simp [Extent.less, Extent.lessVals, Extent.equalVals] at * <;> omega

theorem below_of_key_lt (hlt : key ext stamp endp a < key ext stamp endp b)
    (h : (ext b).below endp st nd = true) : (ext a).below endp st nd = true := by
  rw [key_lt_iff] at hlt
  cases endp <;> simp [Extent.below, Extent.less, Extent.lessVals, Extent.equalVals] at * <;> omega

theorem locateVals_of_not_is {el : ExtentList} {is : ℕ → Bool}
    (hsorted : SortedBy (key ext stamp endp) (el.ga endp).els) (his : ∀ e ∈ (el.ga endp).els, is e = false) :
    el.locateVals ext endp is st nd = ((el.ga endp).els.countP fun e => (ext e).below endp st nd, false) := by
  have hless : Divides (fun e => (ext e).lessVals endp st nd) (el.ga endp).els :=
    hsorted.divides fun a _ b _ hlt => less_of_key_lt hlt
  have hbelow : Divides (fun e => (ext e).below endp st nd) (el.ga endp).els :=
    hsorted.divides fun a _ b _ hlt => below_of_key_lt hlt
  set l := (el.ga endp).els with hl
  set left := l.countP fun e => (ext e).lessVals endp st nd with hleft
  have hrun : ExtentList.equalRun ext is st nd (l.drop left) =
      (((l.drop left).takeWhile fun e => (ext e).equalVals st nd).length, false) :=
    equalRun_of_not_is fun e he => his e (List.mem_of_mem_drop he)
  rw [ExtentList.locateVals]
  simp only [← hl, hless.bisect_eq, ← hleft, hrun]
  cases endp with
  | true =>
    have hsame : (fun e => (ext e).below true st nd) = fun e => (ext e).lessVals true st nd := by
      funext e
      simp [Extent.below]
    rw [hsame]
    simp [hleft]
  | false =>
    obtain ⟨htake, hdrop⟩ := hless.take_drop
    -- what is left of the equal ones comes first in the rest of the list
    have hrest : Divides (fun e => (ext e).equalVals st nd) (l.drop left) := by
      have hsub : Divides (fun e => (ext e).below false st nd) (l.drop left) :=
        List.Pairwise.sublist (List.drop_sublist _ _) hbelow
      refine List.Pairwise.imp_of_mem (fun {a b} ha hb himp heq => ?_) hsub
      rw [hdrop, List.mem_filter] at ha
      have hb' := himp (by simp [Extent.below, heq])
      simp only [Extent.below, Bool.not_false, Bool.true_and, Bool.or_eq_true] at hb'
      exact hb'.resolve_left (by simpa using ha.2)
    have hcount : l.countP (fun e => (ext e).below false st nd) =
        left + (l.drop left).countP fun e => (ext e).equalVals st nd := by
      conv_lhs => rw [← List.take_append_drop left l]
      rw [List.countP_append]
      congr 1
      · have hall : ∀ e ∈ l.take left, (ext e).below false st nd = true := fun e he => by
          rw [htake, List.mem_filter] at he
          simp [Extent.below, he.2]
        rw [List.countP_eq_length.mpr hall, List.length_take, min_eq_left List.countP_le_length]
      · refine List.countP_congr fun e he => ?_
        rw [hdrop, List.mem_filter] at he
        simp only [Extent.below, Bool.not_false, Bool.true_and, Bool.or_eq_true]
        exact ⟨fun h => h.resolve_left (by simpa using he.2), .inr⟩
    rw [hcount, hrest.length_takeWhile]
    simp

theorem locate_of_mem {el : ExtentList} {l l' : List ℕ} (hsorted : SortedBy (key ext stamp endp) (el.ga endp).els)
    (hels : (el.ga endp).els = l ++ e :: l') : el.locate ext e endp = (l.length, true) := by
  have hless : Divides (fun a => (ext a).less endp (ext e)) (el.ga endp).els :=
    hsorted.divides fun a _ b _ hlt => less_of_key_lt hlt
  have hsplit := hsorted
  rw [hels, SortedBy, List.pairwise_append] at hsplit
  obtain ⟨hl, hl', hcross⟩ := hsplit
  have hnone : l'.countP (fun a => (ext a).less endp (ext e)) = 0 := by
    refine List.countP_eq_zero.mpr fun a ha hlt => ?_
    have hkey := (List.pairwise_cons.mp hl').1 a ha
    exact absurd (key_lt_iff.mpr (.inl hlt)) hkey.asymm
  have hself : (ext e).less endp (ext e) = false := by
    cases endp <;> simp [Extent.less, Extent.lessVals]
  have hleft : (el.ga endp).els.countP (fun a => (ext a).less endp (ext e)) =
      l.countP fun a => (ext a).less endp (ext e) := by
    rw [hels, List.countP_append, List.countP_cons_of_neg (by simp [hself]), hnone, add_zero]
  have hdivl : Divides (fun a => (ext a).less endp (ext e)) l := by
    rw [hels, Divides, List.pairwise_append] at hless
    exact hless.1
  have hle : l.countP (fun a => (ext a).less endp (ext e)) ≤ l.length := List.countP_le_length
  have hdrop : (el.ga endp).els.drop (l.countP fun a => (ext a).less endp (ext e)) =
      l.filter (fun a => !(ext a).less endp (ext e)) ++ e :: l' := by
    rw [hels, List.drop_append_of_le_length hle, hdivl.take_drop.2]
  have hrun : ExtentList.equalRun ext (· = e) (ext e).start (ext e).stop
      (l.filter (fun a => !(ext a).less endp (ext e)) ++ e :: l') =
        ((l.filter fun a => !(ext a).less endp (ext e)).length, true) := by
    refine equalRun_found (fun a ha => ?_) (fun a ha => ?_) (decide_eq_true rfl)
    · have hkey := hcross a (List.mem_of_mem_filter ha) e List.mem_cons_self
      rw [decide_eq_false_iff_not]
      rintro rfl
      exact absurd hkey (lt_irrefl _)
    · obtain ⟨hmem, hnot⟩ := List.mem_filter.mp ha
      have hkey := key_lt_iff.mp (hcross a hmem e List.mem_cons_self)
      exact (hkey.resolve_left (by simpa using hnot)).1
  have hlen : l.countP (fun a => (ext a).less endp (ext e)) +
      (l.filter fun a => !(ext a).less endp (ext e)).length = l.length := by
    rw [← hdivl.take_drop.2, List.length_drop]
    omega
  have hsearch : bisect (fun i => (ext ((el.ga endp).els.getD i default)).lessVals endp (ext e).start (ext e).stop)
      (el.ga endp).els.length 0 (el.ga endp).els.length = l.countP fun a => (ext a).less endp (ext e) :=
    hless.bisect_eq.trans hleft
  rw [ExtentList.locate, ExtentList.locateVals]
  simp only [hsearch, hdrop, hrun, hlen]
  simp

/-! ### The extents of a list -/

namespace ExtentList

variable {el el' : ExtentList} {S : Set ℕ}

/-- The list has the extents of `S`, in both orders. -/
structure Holds (el : ExtentList) (ext : Heap) (stamp : ℕ → ℤ) (S : Set ℕ) : Prop where
  sorted : ∀ endp, SortedBy (key ext stamp endp) (el.ga endp).els
  mem : ∀ endp e, e ∈ (el.ga endp).els ↔ e ∈ S

theorem ga_setGa_self (el : ExtentList) (endp : Bool) (ga : MarkedList ℕ) : (el.setGa endp ga).ga endp = ga := by
  cases endp <;> rfl

theorem ga_setGa_not (el : ExtentList) (endp : Bool) (ga : MarkedList ℕ) :
    (el.setGa endp ga).ga (!endp) = el.ga (!endp) := by
  cases endp <;> rfl

def placeOf (el : ExtentList) (ext : Heap) (stamp : ℕ → ℤ) (endp : Bool) (e : ℕ) : ℕ :=
  (el.ga endp).els.countP fun a => decide (key ext stamp endp a < key ext stamp endp e)

theorem placeOf_le (el : ExtentList) (ext : Heap) (stamp : ℕ → ℤ) (endp : Bool) (e : ℕ) :
    el.placeOf ext stamp endp e ≤ (el.ga endp).els.length := List.countP_le_length

def Inserted (el el' : ExtentList) (ext : Heap) (stamp : ℕ → ℤ) (e : ℕ) : Prop :=
  ∀ endp, (el.ga endp).step (.insertEls (el.placeOf ext stamp endp e) [e]) = some (el'.ga endp)

def Deleted (el el' : ExtentList) (e : ℕ) : Prop :=
  ∀ endp, (el.ga endp).step (.deleteEls ((el.ga endp).els.idxOf e) 1) = some (el'.ga endp)

theorem Inserted.els (h : el.Inserted el' ext stamp e) (endp : Bool) : (el'.ga endp).els =
    (el.ga endp).els.take (el.placeOf ext stamp endp e) ++ e ::
      (el.ga endp).els.drop (el.placeOf ext stamp endp e) := by
  obtain ⟨-, hstep⟩ := Option.ite_none_right_eq_some.mp (h endp)
  rw [← Option.some.inj hstep, Int.toNat_natCast, List.append_assoc]
  rfl

theorem Deleted.els (h : el.Deleted el' e) (endp : Bool) :
    (el'.ga endp).els = (el.ga endp).els.eraseIdx ((el.ga endp).els.idxOf e) := by
  obtain ⟨-, hstep⟩ := Option.ite_none_right_eq_some.mp (h endp)
  rw [← Option.some.inj hstep, List.eraseIdx_eq_take_drop_succ, Int.toNat_natCast]
  rfl

theorem locate_of_not_mem (hsorted : SortedBy (key ext stamp endp) (el.ga endp).els)
    (he : e ∉ (el.ga endp).els)
    (hnew : ∀ a ∈ (el.ga endp).els, (ext a).equalVals (ext e).start (ext e).stop = true → stamp a < stamp e) :
    el.locate ext e endp = (el.placeOf ext stamp endp e, false) := by
  have hcount : (el.ga endp).els.countP (fun a => (ext a).below endp (ext e).start (ext e).stop) =
      el.placeOf ext stamp endp e := by
    refine List.countP_congr fun a ha => ?_
    rw [decide_eq_true_eq, key_lt_iff, Extent.below, Bool.or_eq_true, Bool.and_eq_true]
    refine or_congr_right ?_
    have hstamp := hnew a ha
    cases endp with
    | false => simpa using hstamp
    | true =>
      simp only [Bool.not_true, Bool.false_eq_true, false_and, if_true, false_iff, not_and, not_lt]
      exact fun heq => (hstamp heq).le
  rw [locate, locateVals_of_not_is hsorted fun a ha => decide_eq_false (ne_of_mem_of_not_mem ha he),
    hcount]

theorem insertInto_spec (hsorted : SortedBy (key ext stamp endp) (el.ga endp).els)
    (he : e ∉ (el.ga endp).els)
    (hnew : ∀ a ∈ (el.ga endp).els, (ext a).equalVals (ext e).start (ext e).stop = true → stamp a < stamp e) :
    ∃ ga', (el.ga endp).step (.insertEls (el.placeOf ext stamp endp e) [e]) = some ga' ∧
      el.insertInto ext e endp = some (el.setGa endp ga') := by
  have hle := el.placeOf_le ext stamp endp e
  refine ⟨_, if_pos ⟨Int.natCast_nonneg _, by exact_mod_cast hle⟩, ?_⟩
  rw [insertInto, locate_of_not_mem hsorted he hnew]
  simp only [Bool.false_eq_true, if_false]
  rw [MarkedList.step, if_pos ⟨Int.natCast_nonneg _, by exact_mod_cast hle⟩, Option.map_some]

theorem deleteFrom_spec (hsorted : SortedBy (key ext stamp endp) (el.ga endp).els)
    (he : e ∈ (el.ga endp).els) :
    ∃ ga', (el.ga endp).step (.deleteEls ((el.ga endp).els.idxOf e) 1) = some ga' ∧
      el.deleteFrom ext e endp = some (el.setGa endp ga') := by
  have hlt := List.idxOf_lt_length_of_mem he
  have hlocate : el.locate ext e endp = ((el.ga endp).els.idxOf e, true) := by
    obtain ⟨l, l', hels⟩ := List.append_of_mem he
    have hnodup := hsorted.nodup
    rw [hels] at hnodup
    have hnot : e ∉ l := fun hmem => List.disjoint_of_nodup_append hnodup hmem List.mem_cons_self
    rw [locate_of_mem hsorted hels, hels, List.idxOf_append_of_notMem hnot, List.idxOf_cons_self, add_zero]
  refine ⟨_, if_pos ⟨Int.natCast_nonneg _, by decide, by omega⟩, ?_⟩
  rw [deleteFrom, hlocate]
  simp only [if_true]
  rw [MarkedList.step, if_pos ⟨Int.natCast_nonneg _, by decide, by omega⟩, Option.map_some]

theorem Holds.insert (h : el.Holds ext stamp S) (he : e ∉ S)
    (hnew : ∀ a ∈ S, (ext a).equalVals (ext e).start (ext e).stop = true → stamp a < stamp e) :
    ∃ el', el.insert ext e = some el' ∧ el'.Holds ext stamp (Insert.insert e S) ∧ el.Inserted el' ext stamp e := by
  have hnot (endp : Bool) : e ∉ (el.ga endp).els := mt (h.mem endp e).mp he
  have hold (endp : Bool) : ∀ a ∈ (el.ga endp).els, (ext a).equalVals (ext e).start (ext e).stop = true →
      stamp a < stamp e := fun a ha => hnew a ((h.mem endp a).mp ha)
  obtain ⟨start, hstart, hinsert⟩ := insertInto_spec (h.sorted false) (hnot false) (hold false)
  have hsorted : SortedBy (key ext stamp true) ((el.setGa false start).ga true).els := h.sorted true
  obtain ⟨stop, hstop, hinsert'⟩ := insertInto_spec hsorted (hnot true) (hold true)
  have hinserted : el.Inserted ((el.setGa false start).setGa true stop) ext stamp e := by
    intro endp
    cases endp with
    | false => exact hstart
    | true => exact hstop
  refine ⟨_, by rw [ExtentList.insert, hinsert, Option.bind_some, hinsert'], ⟨fun endp => ?_, fun endp a => ?_⟩,
    hinserted⟩
  · rw [hinserted.els endp]
    refine (h.sorted endp).insert rfl fun a ha heq => ?_
    obtain rfl | hne := eq_or_ne a e
    · exact hnot endp ha
    · have hvals : (ext a).equalVals (ext e).start (ext e).stop = true ∧ stamp a = stamp e := by
        cases endp <;> simp [key, Extent.equalVals] at heq ⊢ <;> omega
      exact absurd hvals.2 (hold endp a ha hvals.1).ne
  · rw [hinserted.els endp, List.mem_append, List.mem_cons, Set.mem_insert_iff, ← h.mem endp]
    conv_rhs => rw [← List.take_append_drop (el.placeOf ext stamp endp e) (el.ga endp).els, List.mem_append]
    exact or_left_comm

theorem Holds.delete (h : el.Holds ext stamp S) (he : e ∈ S) :
    ∃ el', el.delete ext e = some el' ∧ el'.Holds ext stamp (S \ {e}) ∧ el.Deleted el' e := by
  have hmem (endp : Bool) : e ∈ (el.ga endp).els := (h.mem endp e).mpr he
  obtain ⟨start, hstart, hdelete⟩ := deleteFrom_spec (h.sorted false) (hmem false)
  have hsorted : SortedBy (key ext stamp true) ((el.setGa false start).ga true).els := h.sorted true
  obtain ⟨stop, hstop, hdelete'⟩ := deleteFrom_spec hsorted (hmem true)
  have hdeleted : el.Deleted ((el.setGa false start).setGa true stop) e := by
    intro endp
    cases endp with
    | false => exact hstart
    | true => exact hstop
  refine ⟨_, by rw [ExtentList.delete, hdelete, Option.bind_some, hdelete'], ⟨fun endp => ?_, fun endp a => ?_⟩,
    hdeleted⟩
  · rw [hdeleted.els endp]
    exact List.Pairwise.sublist (List.eraseIdx_sublist _ _) (h.sorted endp)
  · have hnodup := (h.sorted endp).nodup
    rw [hdeleted.els endp, ← List.erase_eq_eraseIdx_of_idxOf rfl, hnodup.mem_erase_iff, h.mem endp,
      Set.mem_sdiff, Set.mem_singleton_iff]
    exact and_comm

theorem Holds.congr (h : el.Holds ext stamp S) (hext : ∀ a ∈ S, ext' a = ext a) (hstamp : ∀ a ∈ S, stamp' a = stamp a) :
    el.Holds ext' stamp' S where
  sorted endp := (h.sorted endp).congr fun a ha =>
    key_congr (hext a ((h.mem endp a).mp ha)) (hstamp a ((h.mem endp a).mp ha))
  mem := h.mem

theorem Holds.of_ga (h : el.Holds ext stamp S) (hga : ∀ endp, (el'.ga endp).els = (el.ga endp).els) :
    el'.Holds ext stamp S where
  sorted endp := by
    rw [hga endp]
    exact h.sorted endp
  mem endp e := by
    rw [hga endp]
    exact h.mem endp e

theorem holds_empty (ext : Heap) (stamp : ℕ → ℤ) : empty.Holds ext stamp ∅ where
  sorted endp := by cases endp <;> exact List.Pairwise.nil
  mem endp e := by cases endp <;> simp [ga, empty]

theorem Holds.length_eq (h : el.Holds ext stamp S) (endp : Bool) : (el.ga endp).els.length = el.numEls :=
  ((List.perm_ext_iff_of_nodup (h.sorted endp).nodup (h.sorted false).nodup).mpr fun e =>
    (h.mem endp e).trans (h.mem false e).symm).length_eq

theorem locateFromPos_eq (hsorted : SortedBy (key ext stamp endp) (el.ga endp).els)
    (hproper : ∀ e ∈ (el.ga endp).els, (ext e).start ≤ (ext e).stop) (pos : ℤ) :
    el.locateFromPos ext pos endp = (el.ga endp).els.countP fun e => decide ((ext e).endpoint endp < pos) := by
  rw [locateFromPos, locateVals_of_not_is hsorted fun _ _ => rfl]
  refine List.countP_congr fun e he => ?_
  have hle := hproper e he
  cases endp <;> simp [Extent.below, Extent.lessVals, Extent.equalVals, Extent.endpoint] <;> omega

theorem divides_endpoint (hsorted : SortedBy (key ext stamp endp) (el.ga endp).els) (pos : ℤ) :
    Divides (fun e => decide ((ext e).endpoint endp < pos)) (el.ga endp).els := by
  refine hsorted.divides fun a _ b _ hlt hb => ?_
  rw [decide_eq_true_eq] at hb ⊢
  exact (endpoint_le_of_key_lt hlt).trans_lt hb

end ExtentList

/-! ### Moving the stack of extents -/

def Extent.Overlaps (x : Extent) (pos : ℤ) : Prop := x.start ≤ pos ∧ pos ≤ x.stop

instance (x : Extent) (pos : ℤ) : Decidable (x.Overlaps pos) := inferInstanceAs (Decidable (_ ∧ _))

namespace ExtentInfo

variable {sel : ExtentList} {S : Set ℕ}

theorem deleteRun_spec (h : sel.Holds ext stamp S) (l l' l'' : List ℕ)
    (hels : (sel.ga endp).els = l ++ (l' ++ l'')) : ∃ sel', deleteRun ext l.length endp l'.length sel = some sel' ∧
      sel'.Holds ext stamp (S \ {e | e ∈ l'}) := by
  induction l' generalizing sel S with
  | nil => exact ⟨sel, rfl, by simpa using h⟩
  | cons e l' ih =>
    have hmem : e ∈ (sel.ga endp).els := by
      rw [hels]
      exact List.mem_append_right _ List.mem_cons_self
    have hnodup := (h.sorted endp).nodup
    rw [hels] at hnodup
    have hnot : e ∉ l := fun hl => List.disjoint_of_nodup_append hnodup hl List.mem_cons_self
    obtain ⟨sel', hdelete, h', hdeleted⟩ := h.delete ((h.mem endp e).mp hmem)
    have hels' : (sel'.ga endp).els = l ++ (l' ++ l'') := by
      rw [hdeleted.els endp, ← List.erase_eq_eraseIdx_of_idxOf rfl, hels, List.erase_append_right _ hnot,
        List.cons_append, List.erase_cons_head]
    obtain ⟨sel'', hrun, h''⟩ := ih h' hels'
    have hat : sel.at' l.length endp = some e := by
      rw [ExtentList.at', if_pos (Int.natCast_nonneg _), Int.toNat_natCast, hels, List.getElem?_append_right le_rfl,
        Nat.sub_self]
      rfl
    refine ⟨sel'', ?_, ?_⟩
    · rw [List.length_cons, deleteRun, hat, Option.bind_some, hdelete, Option.bind_some, hrun]
    · have hset : S \ {a | a ∈ e :: l'} = (S \ {e}) \ {a | a ∈ l'} := by
        ext a
        simp only [Set.mem_sdiff, Set.mem_ofPred_eq, List.mem_cons, Set.mem_singleton_iff]
        tauto
      rw [hset]
      exact h''

theorem soeMoveDelete_spec {old : ℤ} (h : sel.Holds ext stamp S) (pos : ℤ) (hproper : ∀ e ∈ S, (ext e).start ≤ (ext e).stop)
    (hover : ∀ e ∈ S, (ext e).Overlaps old) :
    ∃ sel', soeMoveDelete ext (decide (old < pos)) pos sel = some sel' ∧
      sel'.Holds ext stamp {e ∈ S | (ext e).Overlaps pos} := by
  have hproper' (endp : Bool) : ∀ e ∈ (sel.ga endp).els, (ext e).start ≤ (ext e).stop := fun e he =>
    hproper e ((h.mem endp e).mp he)
  rw [soeMoveDelete]
  by_cases hempty : sel.numEls > 0
  swap
  · rw [if_neg hempty]
    refine ⟨sel, rfl, ?_⟩
    have hnone : ∀ e, e ∉ S := fun e he => by
      have hlen := List.length_pos_of_mem ((h.mem false e).mpr he)
      exact hempty hlen
    have hset : {e ∈ S | (ext e).Overlaps pos} = S := Set.ext fun e => ⟨fun he => he.1, fun he => absurd he (hnone e)⟩
    rwa [hset]
  rw [if_pos hempty]
  by_cases hforward : old < pos
  · -- those that end before the position
    simp only [hforward, decide_true, if_true]
    have hstop := ExtentList.locateFromPos_eq (h.sorted true) (hproper' true) pos
    have hdiv := (ExtentList.divides_endpoint (h.sorted true) pos).take_drop
    rw [hstop]
    set n := (sel.ga true).els.countP fun e => decide ((ext e).endpoint true < pos) with hn
    have hlen : ((sel.ga true).els.take n).length = n := by
      rw [List.length_take, min_eq_left List.countP_le_length]
    obtain ⟨sel', hrun, h'⟩ := deleteRun_spec h [] ((sel.ga true).els.take n) ((sel.ga true).els.drop n)
      (List.take_append_drop n _).symm
    rw [hlen] at hrun
    refine ⟨sel', hrun, ?_⟩
    have hset : {e ∈ S | (ext e).Overlaps pos} = S \ {e | e ∈ (sel.ga true).els.take n} := by
      ext e
      rw [Set.mem_ofPred_eq, Set.mem_sdiff, Set.mem_ofPred_eq, hdiv.1, List.mem_filter, h.mem true, decide_eq_true_eq]
      refine and_congr_right fun he => ?_
      have hold := hover e he
      simp only [Extent.Overlaps, Extent.endpoint, if_true] at hold ⊢
      constructor
      · exact fun hpos hlt => absurd hlt.2 (by omega)
      · exact fun hnot => ⟨by omega, not_lt.mp fun hlt => hnot ⟨he, hlt⟩⟩
    rwa [hset]
  · -- those that start after the position
    simp only [hforward, decide_false, Bool.false_eq_true, if_false]
    have hstart := ExtentList.locateFromPos_eq (h.sorted false) (hproper' false) (pos + 1)
    have hdiv := (ExtentList.divides_endpoint (h.sorted false) (pos + 1)).take_drop
    rw [hstart]
    set n := (sel.ga false).els.countP fun e => decide ((ext e).endpoint false < pos + 1) with hn
    have hlen : ((sel.ga false).els.take n).length = n := by
      rw [List.length_take, min_eq_left List.countP_le_length]
    have hlen' : ((sel.ga false).els.drop n).length = sel.numEls - n := List.length_drop
    obtain ⟨sel', hrun, h'⟩ := deleteRun_spec h ((sel.ga false).els.take n) ((sel.ga false).els.drop n) []
      (by rw [List.append_nil, List.take_append_drop])
    rw [hlen, hlen'] at hrun
    refine ⟨sel', hrun, ?_⟩
    have hset : {e ∈ S | (ext e).Overlaps pos} = S \ {e | e ∈ (sel.ga false).els.drop n} := by
      ext e
      rw [Set.mem_ofPred_eq, Set.mem_sdiff, Set.mem_ofPred_eq, hdiv.2, List.mem_filter, h.mem false,
        Bool.not_eq_true', decide_eq_false_iff_not]
      refine and_congr_right fun he => ?_
      have hold := hover e he
      simp only [Extent.Overlaps, Extent.endpoint, Bool.false_eq_true, if_false] at hold ⊢
      constructor
      · exact fun hpos hlt => hlt.2 (by omega)
      · intro hnot
        have hlt : (ext e).start < pos + 1 := not_not.mp fun hge => hnot ⟨he, hge⟩
        omega
    rwa [hset]

theorem insertRun_spec {forward : Bool} {l : List ℕ} (h : sel.Holds ext stamp S)
    (hbeyond : l.Pairwise fun a b => (if forward then (ext a).start > pos else (ext a).stop < pos) →
      if forward then (ext b).start > pos else (ext b).stop < pos)
    (hties : l.Pairwise fun a b => (ext b).equalVals (ext a).start (ext a).stop = true → stamp a < stamp b)
    (hnot : ∀ e ∈ l, e ∉ S)
    (hnew : ∀ e ∈ l, ∀ a ∈ S, (ext a).equalVals (ext e).start (ext e).stop = true → stamp a < stamp e)
    (hnodup : l.Nodup) :
    ∃ sel', insertRun ext forward pos l sel = some sel' ∧
      sel'.Holds ext stamp (S ∪ {e | e ∈ l ∧ (ext e).Overlaps pos}) := by
  induction l generalizing sel S with
  | nil => exact ⟨sel, rfl, by simpa using h⟩
  | cons e l ih =>
    obtain ⟨hbeyond₁, hbeyond⟩ := List.pairwise_cons.mp hbeyond
    obtain ⟨hties₁, hties⟩ := List.pairwise_cons.mp hties
    obtain ⟨hne, hnodup⟩ := List.nodup_cons.mp hnodup
    have hnot' : ∀ a ∈ l, a ∉ S := fun a ha => hnot a (List.mem_cons_of_mem _ ha)
    have hnew' := fun b hb => hnew b (List.mem_cons_of_mem _ hb)
    rw [insertRun]
    by_cases hstop : if forward then (ext e).start > pos else (ext e).stop < pos
    · rw [if_pos hstop]
      refine ⟨sel, rfl, ?_⟩
      have hnone : ∀ a ∈ e :: l, ¬ (ext a).Overlaps pos := fun a ha hover => by
        have hfar : if forward then (ext a).start > pos else (ext a).stop < pos :=
          (List.mem_cons.mp ha).elim (fun heq => heq ▸ hstop) fun ha => hbeyond₁ a ha hstop
        obtain ⟨hover1, hover2⟩ := hover
        split at hfar <;> omega
      have hset : S ∪ {a | a ∈ e :: l ∧ (ext a).Overlaps pos} = S := Set.union_eq_left.mpr fun a ha =>
        absurd ha.2 (hnone a ha.1)
      rwa [hset]
    · rw [if_neg hstop]
      by_cases hover : if forward then (ext e).stop ≥ pos else (ext e).start ≤ pos
      · rw [if_pos hover]
        obtain ⟨sel', hinsert, h', -⟩ := h.insert (hnot e List.mem_cons_self) (hnew e List.mem_cons_self)
        obtain ⟨sel'', hrun, h''⟩ := ih h' hbeyond hties
          (fun a ha hmem => (Set.mem_insert_iff.mp hmem).elim (fun heq => hne (heq ▸ ha)) (hnot' a ha))
          (fun b hb a ha heq => (Set.mem_insert_iff.mp ha).elim
            (fun hae => by
              subst hae
              refine hties₁ b hb ?_
              simp only [Extent.equalVals, decide_eq_true_eq] at heq ⊢
              exact ⟨heq.1.symm, heq.2.symm⟩)
            fun ha => hnew' b hb a ha heq) hnodup
        refine ⟨sel'', by rw [hinsert, Option.bind_some, hrun], ?_⟩
        have hin : (ext e).Overlaps pos := by
          unfold Extent.Overlaps
          split at hstop <;> split at hover <;> simp_all
        have hset : S ∪ {a | a ∈ e :: l ∧ (ext a).Overlaps pos} =
            Insert.insert e S ∪ {a | a ∈ l ∧ (ext a).Overlaps pos} := by
          ext a
          simp only [Set.mem_union, Set.mem_ofPred_eq, List.mem_cons, Set.mem_insert_iff]
          constructor
          · rintro (hS | ⟨rfl | hl, ha⟩)
            · exact .inl (.inr hS)
            · exact .inl (.inl rfl)
            · exact .inr ⟨hl, ha⟩
          · rintro ((rfl | hS) | ⟨hl, ha⟩)
            · exact .inr ⟨.inl rfl, hin⟩
            · exact .inl hS
            · exact .inr ⟨.inr hl, ha⟩
        rw [hset]
        exact h''
      · rw [if_neg hover]
        obtain ⟨sel', hrun, h'⟩ := ih h hbeyond hties hnot' hnew' hnodup
        refine ⟨sel', hrun, ?_⟩
        have hout : ¬ (ext e).Overlaps pos := fun hin => hover (by
          obtain ⟨hin1, hin2⟩ := hin
          split
          · exact hin2
          · exact hin1)
        have hset : S ∪ {a | a ∈ e :: l ∧ (ext a).Overlaps pos} = S ∪ {a | a ∈ l ∧ (ext a).Overlaps pos} := by
          ext a
          simp only [Set.mem_union, Set.mem_ofPred_eq, List.mem_cons]
          refine or_congr_right ⟨?_, fun ha => ⟨.inr ha.1, ha.2⟩⟩
          rintro ⟨rfl | hl, ha⟩
          · exact absurd ha hout
          · exact ⟨hl, ha⟩
        rw [hset]
        exact h'

end ExtentInfo

end XEmacs.Extents
