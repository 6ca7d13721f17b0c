import Mathlib.Data.Set.Finite.Lattice
import Mathlib.Order.Bounds.Basic
import XEmacs.Extent.ExtentOrder

/-! What attaching, detaching and moving an extent, and moving the stack of extents, do to
well-ordered extents: both lists have the attached extents in order, and the stack has those
that overlap its position. -/

namespace XEmacs.Extents

open Lib Text

namespace ExtentInfo

variable {s s' : ExtentInfo} {stamp : ℕ → ℤ} {e : ℕ} {pos start stop : ℤ}

def attached (s : ExtentInfo) : Set ℕ := {e | 0 ≤ (s.ext e).start}

structure Ordered (s : ExtentInfo) (stamp : ℕ → ℤ) : Prop where
  list : s.extents.Holds s.ext stamp s.attached
  proper : ∀ e ∈ s.attached, (s.ext e).start ≤ (s.ext e).stop
  soe : ∀ soe, s.soe = some soe →
    soe.extents.Holds s.ext stamp {e ∈ s.attached | (s.ext e).Overlaps soe.pos}
  used : ∀ e ∈ s.attached, e < s.next

theorem detachedP_iff : (s.ext e).detachedP = true ↔ e ∉ s.attached := by
  rw [Extent.detachedP, decide_eq_true_eq]
  exact not_le.symm

theorem ordered_allocate (stamp : ℕ → ℤ) : allocate.Ordered stamp where
  list := by
    have hset : allocate.attached = ∅ := Set.eq_empty_of_forall_notMem fun e (he : (0 : ℤ) ≤ -1) => absurd he (by decide)
    rw [hset]
    exact ExtentList.holds_empty _ _
  proper e he := absurd (show (0 : ℤ) ≤ -1 from he) (by decide)
  soe soe h := nomatch h
  used e he := absurd (show (0 : ℤ) ≤ -1 from he) (by decide)

theorem Ordered.soeForce (h : s.Ordered stamp) :
    s.soeForce.extents.Holds s.ext stamp {e ∈ s.attached | (s.ext e).Overlaps s.soeForce.pos} := by
  rw [ExtentInfo.soeForce]
  cases hsoe : s.soe with
  | some soe => exact h.soe soe hsoe
  | none =>
    have hset : {e ∈ s.attached | (s.ext e).Overlaps StackOfExtents.allocate.pos} = ∅ :=
      Set.eq_empty_of_forall_notMem fun e ⟨he, hover⟩ => by
        have h1 : (0 : ℤ) ≤ (s.ext e).start := he
        have h2 : (s.ext e).start ≤ -1 := hover.1
        omega
    rw [Option.getD_none, hset]
    exact ExtentList.holds_empty _ _

theorem Ordered.onTheWay (h : s.Ordered stamp) (forward : Bool) (old : ℤ) :
    (∀ e, e ∈ s.onTheWay forward old ↔ e ∈ s.attached ∧ if forward then old < (s.ext e).start else (s.ext e).stop < old) ∧
      (s.onTheWay forward old).Pairwise (fun a b =>
        (if forward then (s.ext a).start ≤ (s.ext b).start else (s.ext b).stop ≤ (s.ext a).stop) ∧
        ((s.ext b).equalVals (s.ext a).start (s.ext a).stop = true → stamp a < stamp b)) ∧
      (s.onTheWay forward old).Nodup := by
  have hproper (endp : Bool) : ∀ e ∈ (s.extents.ga endp).els, (s.ext e).start ≤ (s.ext e).stop := fun e he =>
    h.proper e ((h.list.mem endp e).mp he)
  cases forward with
  | true =>
    have hplace := ExtentList.locateFromPos_eq (h.list.sorted false) (hproper false) (old + 1)
    have hdiv := (ExtentList.divides_endpoint (h.list.sorted false) (old + 1)).take_drop.2
    have hway : s.onTheWay true old = (s.extents.ga false).els.filter
        fun e => !decide ((s.ext e).endpoint false < old + 1) := by
      rw [← hdiv, ← hplace]
      rfl
    refine ⟨fun e => ?_, ?_, ?_⟩
    · rw [hway, List.mem_filter, h.list.mem false]
      simp [Extent.endpoint, Int.add_one_le_iff]
    · rw [hway]
      refine (List.Pairwise.filter _ (h.list.sorted false)).imp fun hlt => ?_
      rw [key_lt_iff] at hlt
      simp [Extent.less, Extent.lessVals, Extent.equalVals] at hlt ⊢
      omega
    · rw [hway]
      exact (h.list.sorted false).nodup.filter _
  | false =>
    have hplace := ExtentList.locateFromPos_eq (h.list.sorted true) (hproper true) old
    have hdiv := (ExtentList.divides_endpoint (h.list.sorted true) old).take_drop.1
    have hway : s.onTheWay false old = ((s.extents.ga true).els.filter
        fun e => decide ((s.ext e).endpoint true < old)).reverse := by
      rw [← hdiv, ← hplace]
      rfl
    refine ⟨fun e => ?_, ?_, ?_⟩
    · rw [hway, List.mem_reverse, List.mem_filter, h.list.mem true]
      simp [Extent.endpoint]
    · rw [hway, List.pairwise_reverse]
      refine (List.Pairwise.filter _ (h.list.sorted true)).imp fun hlt => ?_
      rw [key_lt_iff] at hlt
      simp [Extent.less, Extent.lessVals, Extent.equalVals] at hlt ⊢
      omega
    · rw [hway, List.nodup_reverse]
      exact (h.list.sorted true).nodup.filter _

theorem Ordered.soeMove (h : s.Ordered stamp) (pos : ℤ) : ∃ sel, s.soeMove pos = some { s with soe := some ⟨sel, pos⟩ } ∧
    ({ s with soe := some ⟨sel, pos⟩ } : ExtentInfo).Ordered stamp := by
  have hforce := h.soeForce
  rw [ExtentInfo.soeMove]
  by_cases hsame : s.soeForce.pos = pos
  · rw [if_pos hsame]
    refine ⟨s.soeForce.extents, by rw [← hsame], { h with soe := ?_ }⟩
    rintro soe ⟨⟩
    rw [hsame] at hforce
    exact hforce
  · rw [if_neg hsame]
    simp only
    set old := s.soeForce.pos with hold
    obtain ⟨sel, hdelete, hsel⟩ := soeMoveDelete_spec hforce pos
      (fun e he => h.proper e he.1) (fun e he => he.2)
    obtain ⟨hmem, hpair, hnodup⟩ := h.onTheWay (decide (old < pos)) old
    have hbeyond (forward : Bool) (x y : Extent) (hxy : if forward then x.start ≤ y.start else y.stop ≤ x.stop) :
        (if forward then x.start > pos else x.stop < pos) → if forward then y.start > pos else y.stop < pos := by
      cases forward <;> simp at hxy ⊢ <;> omega
    obtain ⟨sel', hinsert, hsel'⟩ := insertRun_spec hsel
      (hpair.imp fun hab => hbeyond _ _ _ hab.1) (hpair.imp fun hab => hab.2)
      (fun e he hin => by
        have hway := ((hmem e).mp he).2
        have hover := hin.1.2
        simp only [Extent.Overlaps] at hover
        split at hway <;> omega)
      (fun e he a ha heq => by
        have hway := ((hmem e).mp he).2
        have hover := ha.1.2
        simp only [Extent.Overlaps] at hover
        simp only [Extent.equalVals, decide_eq_true_eq] at heq
        split at hway <;> omega)
      hnodup
    refine ⟨sel', by rw [hdelete, Option.bind_some, hinsert, Option.map_some], { h with soe := ?_ }⟩
    rintro soe ⟨⟩
    have hset : {e ∈ s.attached | (s.ext e).Overlaps pos} =
        {e ∈ {e ∈ s.attached | (s.ext e).Overlaps old} | (s.ext e).Overlaps pos} ∪
          {e | e ∈ s.onTheWay (decide (old < pos)) old ∧ (s.ext e).Overlaps pos} := by
      ext e
      simp only [Set.mem_ofPred_eq, Set.mem_union, hmem e]
      by_cases hlt : old < pos <;> simp only [hlt, decide_true, decide_false, if_true, Bool.false_eq_true, if_false] <;>
        simp only [Extent.Overlaps] <;> constructor <;> grind
    show sel'.Holds s.ext stamp {e ∈ s.attached | (s.ext e).Overlaps pos}
    rw [hset]
    exact hsel'

/-- The stack of extents stays at its position, and its list is changed if `x` is over it. -/
def SoeChanges (s s' : ExtentInfo) (x : Extent) (changed : ExtentList → ExtentList → Prop) : Prop :=
  (s.soe = none ∧ s'.soe = none) ∨ ∃ soe el, s.soe = some soe ∧ s'.soe = some ⟨el, soe.pos⟩ ∧
    if x.Overlaps soe.pos then changed soe.extents el else el = soe.extents

theorem SoeChanges.pos_eq {x : Extent} {changed : ExtentList → ExtentList → Prop} (h : SoeChanges s s' x changed) :
    s'.soe.map (·.pos) = s.soe.map (·.pos) := by
  rcases h with ⟨h, h'⟩ | ⟨soe, el, h, h', -⟩
  · rw [h, h']
  · rw [h, h']
    rfl

theorem attached_setExtent (s : ExtentInfo) (e : ℕ) (x : Extent) :
    (s.setExtent e x).attached = {a | if a = e then 0 ≤ x.start else a ∈ s.attached} := by
  ext a
  simp only [attached, setExtent, Set.mem_ofPred_eq, Function.update_apply]
  split_ifs <;> rfl

theorem Ordered.exists_stamp (h : s.Ordered stamp) : ∃ m, ∀ a ∈ s.attached, stamp a < m := by
  have hfinite : s.attached.Finite :=
    (List.finite_toSet (s.extents.ga false).els).subset fun e he => (h.list.mem false e).mpr he
  obtain ⟨m, hm⟩ := (hfinite.image stamp).bddAbove
  exact ⟨m + 1, fun a ha => Int.lt_add_one_of_le (hm (Set.mem_image_of_mem _ ha))⟩

theorem Ordered.detach (h : s.Ordered stamp) (he : e ∈ s.attached) : ∃ s', s.detach e = some s' ∧ s'.Ordered stamp ∧
    s'.ext = (s.setStartEnd e (-1) (-1)).ext ∧ s'.next = s.next ∧ s.extents.Deleted s'.extents e ∧
    SoeChanges s s' (s.ext e) fun el el' => el.Deleted el' e := by
  obtain ⟨el, hdelete, hel, hdeleted⟩ := h.list.delete he
  have hattached (t : ExtentInfo) (ht : t.ext = (s.setStartEnd e (-1) (-1)).ext) : t.attached = s.attached \ {e} := by
    have hset := attached_setExtent s e { s.ext e with start := -1, stop := -1 }
    rw [attached, ht]
    refine hset.trans (Set.ext fun a => ?_)
    simp only [Set.mem_ofPred_eq, Set.mem_sdiff, Set.mem_singleton_iff]
    by_cases hae : a = e <;> simp [hae]
  have hsame : ∀ a ∈ s.attached \ {e}, (s.setStartEnd e (-1) (-1)).ext a = s.ext a := fun a ha =>
    Function.update_of_ne ha.2 _ _
  -- what remains after the lists are changed
  have hordered (soe : Option StackOfExtents) (hsoe : ∀ so, soe = some so →
      so.extents.Holds s.ext stamp ({a ∈ s.attached | (s.ext a).Overlaps so.pos} \ {e})) :
      (setStartEnd { s with extents := el, soe := soe } e (-1) (-1)).Ordered stamp := by
    have hatt := hattached (setStartEnd { s with extents := el, soe := soe } e (-1) (-1)) rfl
    constructor
    · rw [hatt]
      exact hel.congr hsame fun _ _ => rfl
    · rw [hatt]
      intro a ha
      have hproper := h.proper a ha.1
      rwa [← hsame a ha] at hproper
    · intro so hso
      have hset : {a ∈ (setStartEnd { s with extents := el, soe := soe } e (-1) (-1)).attached |
          ((setStartEnd { s with extents := el, soe := soe } e (-1) (-1)).ext a).Overlaps so.pos} =
            {a ∈ s.attached | (s.ext a).Overlaps so.pos} \ {e} := by
        rw [hatt]
        refine Set.ext fun a => ⟨fun ⟨ha, hover⟩ => ⟨⟨ha.1, ?_⟩, ha.2⟩, fun ⟨⟨ha, hover⟩, hne⟩ => ⟨⟨ha, hne⟩, ?_⟩⟩
        · rwa [← hsame a ha]
        · have heq := hsame a ⟨ha, hne⟩
          rwa [← heq] at hover
      rw [hset]
      exact (hsoe so hso).congr (fun a ha => hsame a ⟨ha.1.1, ha.2⟩) fun _ _ => rfl
    · rw [hatt]
      exact fun a ha => h.used a ha.1
  have hdetach : s.detach e = (soeDelete { s with extents := el } e).map (setStartEnd · e (-1) (-1)) := by
    rw [ExtentInfo.detach, if_neg (fun hd => detachedP_iff.mp hd he), hdelete, Option.bind_some]
  rw [hdetach, soeDelete]
  cases hsoe : s.soe with
  | none =>
    exact ⟨_, rfl, hordered none fun so hso => (nomatch hso), rfl, rfl, hdeleted, .inl ⟨hsoe, rfl⟩⟩
  | some soe =>
    have hold := h.soe soe hsoe
    simp only
    by_cases hover : (s.ext e).Overlaps soe.pos
    · rw [if_neg (by unfold Extent.Overlaps at hover; omega)]
      obtain ⟨sel, hdelete', hsel, hdeleted'⟩ := hold.delete ⟨he, hover⟩
      rw [hdelete', Option.map_some, Option.map_some]
      refine ⟨_, rfl, hordered (some ⟨sel, soe.pos⟩) ?_, rfl, rfl, hdeleted,
        .inr ⟨soe, sel, hsoe, rfl, (if_pos hover).symm ▸ hdeleted'⟩⟩
      rintro so ⟨⟩
      exact hsel
    · rw [if_pos (by unfold Extent.Overlaps at hover; omega), Option.map_some]
      have hset : {a ∈ s.attached | (s.ext a).Overlaps soe.pos} \ {e} = {a ∈ s.attached | (s.ext a).Overlaps soe.pos} :=
        Set.sdiff_singleton_eq_self fun hmem => hover hmem.2
      refine ⟨_, rfl, hordered (some soe) ?_, rfl, rfl, hdeleted,
        .inr ⟨soe, soe.extents, hsoe, rfl, (if_neg hover).symm ▸ rfl⟩⟩
      rintro so ⟨⟩
      rw [hset]
      exact hold

theorem Ordered.attach (h : s.Ordered stamp) (he : e ∉ s.attached) (h0 : 0 ≤ start) (hle : start ≤ stop)
    (hused : e < s.next) : ∃ s' stamp', (s.setStartEnd e start stop).attach e = some s' ∧ s'.Ordered stamp' ∧
    s'.ext = (s.setStartEnd e start stop).ext ∧ s'.next = s.next ∧
    (∀ a ∈ s.attached, stamp' a = stamp a ∧ stamp' a < stamp' e) ∧
    s.extents.Inserted s'.extents s'.ext stamp' e ∧
    SoeChanges s s' (s'.ext e) fun el el' => el.Inserted el' s'.ext stamp' e := by
  obtain ⟨m, hm⟩ := h.exists_stamp
  set stamp' := Function.update stamp e m with hstamp'
  have hself : stamp' e = m := Function.update_self ..
  have hstamp : ∀ a ∈ s.attached, stamp' a = stamp a := fun a ha =>
    Function.update_of_ne (ne_of_mem_of_not_mem ha he) _ _
  have hlater : ∀ a ∈ s.attached, stamp' a < stamp' e := fun a ha => by
    rw [hself, hstamp a ha]
    exact hm a ha
  set ext' := (s.setStartEnd e start stop).ext with hext'
  have hnew : ext' e = { s.ext e with start := start, stop := stop } := Function.update_self ..
  have hsame : ∀ a ∈ s.attached, ext' a = s.ext a := fun a ha =>
    Function.update_of_ne (ne_of_mem_of_not_mem ha he) _ _
  have hattached (t : ExtentInfo) (ht : t.ext = ext') : t.attached = insert e s.attached := by
    have hset := attached_setExtent s e { s.ext e with start := start, stop := stop }
    rw [attached, ht]
    refine hset.trans (Set.ext fun a => ?_)
    simp only [Set.mem_ofPred_eq, Set.mem_insert_iff]
    by_cases hae : a = e <;> simp [hae, h0]
  obtain ⟨el, hinsert, hel, hinserted⟩ := (h.list.congr hsame hstamp).insert he fun a ha _ => hlater a ha
  -- what remains after the lists are changed
  have hordered (soe : Option StackOfExtents) (hsoe : ∀ so, soe = some so →
      so.extents.Holds ext' stamp' {a ∈ insert e s.attached | (ext' a).Overlaps so.pos}) :
      ({ s with ext := ext', extents := el, soe := soe } : ExtentInfo).Ordered stamp' := by
    have hatt := hattached { s with ext := ext', extents := el, soe := soe } rfl
    constructor
    · rw [hatt]
      exact hel
    · rw [hatt]
      rintro a (rfl | ha)
      · rw [show ({ s with ext := ext', extents := el, soe := soe } : ExtentInfo).ext a = _ from hnew]
        exact hle
      · have hproper := h.proper a ha
        rwa [← hsame a ha] at hproper
    · rw [hatt]
      exact hsoe
    · rw [hatt]
      rintro a (rfl | ha)
      · exact hused
      · exact h.used a ha
  have hattach : (s.setStartEnd e start stop).attach e =
      soeInsert { s with ext := ext', extents := el } e := by
    rw [ExtentInfo.attach]
    exact (congrArg (Option.bind · _) hinsert).trans rfl
  rw [hattach, soeInsert]
  cases hsoe : s.soe with
  | none =>
    exact ⟨_, stamp', rfl, hordered none fun so hso => (nomatch hso), rfl, rfl, fun a ha => ⟨hstamp a ha, hlater a ha⟩,
      hinserted, .inl ⟨hsoe, rfl⟩⟩
  | some soe =>
    have hold := (h.soe soe hsoe).congr (fun a ha => hsame a ha.1) fun a ha => hstamp a ha.1
    have hset : {a ∈ s.attached | (s.ext a).Overlaps soe.pos} = {a ∈ s.attached | (ext' a).Overlaps soe.pos} :=
      Set.ext fun a => and_congr_right fun ha => by rw [hsame a ha]
    rw [hset] at hold
    simp only
    by_cases hover : (ext' e).Overlaps soe.pos
    · rw [if_neg (by unfold Extent.Overlaps at hover; omega)]
      obtain ⟨sel, hinsert', hsel, hinserted'⟩ := hold.insert (fun hmem => he hmem.1) fun a ha _ => hlater a ha.1
      rw [hinsert', Option.map_some]
      refine ⟨_, stamp', rfl, hordered (some ⟨sel, soe.pos⟩) ?_, rfl, rfl, fun a ha => ⟨hstamp a ha, hlater a ha⟩,
        hinserted, .inr ⟨soe, sel, hsoe, rfl, (if_pos hover).symm ▸ hinserted'⟩⟩
      rintro so ⟨⟩
      have hset' : {a ∈ insert e s.attached | (ext' a).Overlaps soe.pos} =
          insert e {a ∈ s.attached | (ext' a).Overlaps soe.pos} := by
        ext a
        simp only [Set.mem_ofPred_eq, Set.mem_insert_iff]
        by_cases hae : a = e <;> simp [hae, hover]
      rw [hset']
      exact hsel
    · rw [if_pos (by unfold Extent.Overlaps at hover; omega)]
      refine ⟨_, stamp', rfl, hordered (some soe) ?_, rfl, rfl, fun a ha => ⟨hstamp a ha, hlater a ha⟩,
        hinserted, .inr ⟨soe, soe.extents, hsoe, rfl, (if_neg hover).symm ▸ rfl⟩⟩
      rintro so ⟨⟩
      have hset' : {a ∈ insert e s.attached | (ext' a).Overlaps soe.pos} =
          {a ∈ s.attached | (ext' a).Overlaps soe.pos} := by
        ext a
        simp only [Set.mem_ofPred_eq, Set.mem_insert_iff]
        by_cases hae : a = e <;> simp [hae, hover]
      rw [hset']
      exact hold

theorem Ordered.makeExtentDetached (h : s.Ordered stamp) (x : Extent) :
    (s.makeExtentDetached x).1.Ordered stamp ∧ (s.makeExtentDetached x).1.attached = s.attached := by
  have hnext : s.next ∉ s.attached := fun hmem => lt_irrefl _ (h.used _ hmem)
  have hatt : (s.makeExtentDetached x).1.attached = s.attached := by
    refine (attached_setExtent s s.next _).trans (Set.ext fun a => ?_)
    by_cases ha : a = s.next
    · simp [ha, hnext]
    · simp [ha]
  have hsame : ∀ a ∈ s.attached, (s.makeExtentDetached x).1.ext a = s.ext a := fun a ha =>
    Function.update_of_ne (ne_of_mem_of_not_mem ha hnext) _ _
  refine ⟨⟨?_, ?_, fun soe hsoe => ?_, ?_⟩, hatt⟩
  · rw [hatt]
    exact h.list.congr hsame fun _ _ => rfl
  · rw [hatt]
    intro a ha
    rw [hsame a ha]
    exact h.proper a ha
  · have hset : {e ∈ (s.makeExtentDetached x).1.attached | ((s.makeExtentDetached x).1.ext e).Overlaps soe.pos} =
        {e ∈ s.attached | (s.ext e).Overlaps soe.pos} := by
      rw [hatt]
      exact Set.ext fun a => and_congr_right fun ha => by rw [hsame a ha]
    rw [hset]
    exact (h.soe soe hsoe).congr (fun a ha => hsame a ha.1) fun _ _ => rfl
  · rw [hatt]
    exact fun a ha => Nat.lt_succ_of_lt (h.used a ha)

theorem setStartEnd_ext (s : ExtentInfo) (e : ℕ) (start stop : ℤ) :
    (s.setStartEnd e start stop).ext = Function.update s.ext e { s.ext e with start := start, stop := stop } := rfl

theorem setStartEnd_setStartEnd (h : s'.ext = (s.setStartEnd e (-1) (-1)).ext) (start stop : ℤ) :
    (s'.setStartEnd e start stop).ext = (s.setStartEnd e start stop).ext := by
  rw [setStartEnd_ext, setStartEnd_ext, h, setStartEnd_ext, Function.update_idem, Function.update_self]

variable (start stop) in
theorem Ordered.setExtentEndpoints1 (h : s.Ordered stamp) (hused : e < s.next) (h0 : 0 ≤ start) (hle : start ≤ stop) :
    ∃ s' stamp', s.setExtentEndpoints1 e start stop = some s' ∧ s'.Ordered stamp' ∧
      s'.ext = (s.setStartEnd e start stop).ext ∧ s'.next = s.next ∧ s'.soe.map (·.pos) = s.soe.map (·.pos) := by
  rw [ExtentInfo.setExtentEndpoints1]
  split_ifs with hsame
  · obtain ⟨-, hstart, hstop⟩ := hsame
    refine ⟨s, stamp, rfl, h, ?_, rfl, rfl⟩
    rw [setStartEnd_ext, ← hstart, ← hstop, Function.update_eq_self]
  by_cases he : e ∈ s.attached
  · obtain ⟨s₁, hdetach, hord₁, hext₁, hnext₁, -, hsoe₁⟩ := h.detach he
    have hnot : e ∉ s₁.attached := by
      rw [attached, hext₁, setStartEnd_ext, Set.mem_ofPred_eq, Function.update_self]
      exact (by decide : ¬(0 : ℤ) ≤ -1)
    obtain ⟨s', stamp', hattach, hord', hext', hnext', -, -, hsoe'⟩ := hord₁.attach hnot h0 hle (hnext₁ ▸ hused)
    rw [hdetach, Option.bind_some]
    exact ⟨s', stamp', hattach, hord', hext'.trans (setStartEnd_setStartEnd hext₁ _ _), hnext'.trans hnext₁,
      hsoe'.pos_eq.trans hsoe₁.pos_eq⟩
  · obtain ⟨s', stamp', hattach, hord', hext', hnext', -, -, hsoe'⟩ := h.attach he h0 hle hused
    rw [ExtentInfo.detach, if_pos (detachedP_iff.mpr he), Option.bind_some]
    exact ⟨s', stamp', hattach, hord', hext', hnext', hsoe'.pos_eq⟩

end ExtentInfo

end XEmacs.Extents
