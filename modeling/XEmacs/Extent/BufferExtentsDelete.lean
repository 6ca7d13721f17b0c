import XEmacs.Extent.BufferExtentsInsert
import XEmacs.Extent.MapDetach

/-! Buffers with extents when text is deleted. The stack of extents is at the start of what is
deleted, where `map_extents` has moved it, and stays there; every extent with an endpoint in the
deleted text is taken out of the lists, and put back with its endpoints moved to the start. -/

namespace XEmacs.Extents

open Lib Lib.Gap Text

variable {rep : UInt8 → ℕ} {s s' : ExtentInfo} {stamp : ℕ → ℤ} {b : Buffer} {t : EditedText rep}
  {start stop st adjustTo amount : ℤ} {fuel : ℕ} {α : Type}

theorem mapSeq_collect (l l' : List ℕ) : mapSeq (fun (l : List ℕ) e => (l ++ [e], false)) l l' = (l' ++ l, false) := by
  induction l generalizing l' with
  | nil => rw [mapSeq, List.append_nil]
  | cons e l ih =>
    rw [mapSeq, if_neg Bool.false_ne_true, ih, List.append_assoc]
    rfl

theorem in_region_of_endpoint {x : Extent} (hst : Indexable (b.bytebposToMembpos start))
    (hen : Indexable (b.bytebposToMembpos stop)) (hx : Indexable x.start ∧ Indexable x.stop) (hle : x.start ≤ x.stop)
    {endp : Bool} (hin : b.bytebposToMembpos start ≤ x.endpoint endp ∧ x.endpoint endp ≤ b.bytebposToMembpos stop) :
    extentInRegionP b x start stop adjustFlags = true := by
  have hclosed : x.openness adjustFlags.allExtents = (false, false) := by
    rw [Extent.openness.eq_def]
    split_ifs <;> rfl
  have hopen : (if start = stop then false else adjustFlags.startOpen) = false := by split_ifs <;> rfl
  have hendClosed : (if start = stop then true else adjustFlags.endClosed) = true := by split_ifs <;> rfl
  rw [extentInRegionP, hclosed, hopen, hendClosed]
  simp only [memxposToStartind_eq hst.1 hst.2, memxposToEndind_eq hen.1 hen.2, memxposToStartind_eq hx.1.1 hx.1.2,
    memxposToEndind_eq hx.2.1 hx.2.2, Bool.not_true, Bool.false_eq_true, if_false, add_zero, sub_zero]
  have hover : x.start ≤ b.bytebposToMembpos stop ∧ b.bytebposToMembpos start ≤ x.stop := by
    cases endp with
    | false =>
      rw [Extent.endpoint, if_neg Bool.false_ne_true] at hin
      omega
    | true =>
      rw [Extent.endpoint, if_pos rfl] at hin
      omega
  rw [if_neg (by omega)]
  cases endp with
  | false =>
    rw [Extent.endpoint, if_neg Bool.false_ne_true] at hin
    simp [adjustFlags, MapFlags.zero, hin]
  | true =>
    rw [Extent.endpoint, if_pos rfl] at hin
    simp [adjustFlags, MapFlags.zero, hin]

theorem planMap_adjust (h : s.Ordered stamp) {soe : Option StackOfExtents} {p : MapPlan}
    (hplan : s.planMap false st adjustFlags = some ({ s with soe := soe }, p)) : ∃ sel, soe = some ⟨sel, st⟩ := by
  obtain ⟨sel, hmove, -⟩ := h.soeMove st
  rw [ExtentInfo.planMap, if_neg (by decide), if_neg (by decide), if_neg (by decide), hmove, Option.bind_some] at hplan
  refine ⟨sel, ?_⟩
  split_ifs at hplan with hnum hmoves
  · exact absurd hmoves (by decide)
  · exact (congrArg ExtentInfo.soe (Prod.mk.inj (Option.some.inj hplan)).1).symm
  · exact (congrArg ExtentInfo.soe (Prod.mk.inj (Option.some.inj hplan)).1).symm

theorem mapExtents_adjust (h : s.Ordered stamp) (hle : start ≤ stop) (hin : InRange b s start stop)
    (hne : s.extents.numEls ≠ 0) (hfuel : s.extents.numEls < fuel) :
    ∃ s', mapExtents false b fuel start stop adjustForDeletionMapper [] none adjustFlags s =
      some (s', visited b adjustFlags start stop s) ∧ s'.Ordered stamp ∧ s'.ext = s.ext ∧ s'.next = s.next ∧
        s'.soeForce.pos = b.bytebposToMembpos start := by
  rw [mapExtents, Option.any_none, if_neg Bool.false_ne_true, if_neg hne, if_neg (by decide)]
  obtain ⟨soe, p, c', m', hplan, hstages, harg, hhas, hkept⟩ := @stages_planned _ stamp b adjustForDeletionMapper _
    adjustFlags start stop ⟨s, [], none, b.bytebposToMembpos start, b.bytebposToMembpos stop⟩ none false fuel (collect_quiet false) h hle hin
    rfl rfl rfl (fun r hr => absurd hr.symm (Option.some_ne_none r)) hfuel
  obtain ⟨sel, rfl⟩ := planMap_adjust h hplan
  obtain ⟨s', hdelete, hsame⟩ := hhas.deletePosm
  have hvisited : visited b adjustFlags start stop s = (s.extents.ga adjustFlags.orderEndp).els.filter
      (toVisit b adjustFlags none start stop s.ext) := List.filter_congr fun e _ => (toVisit_none _ _ _).symm
  rw [mapSeq_collect, List.nil_append, ← hvisited] at harg
  refine ⟨s', ?_, hkept.ordered.of_sameLists hsame, hsame.ext.trans hkept.ext, hsame.next.trans hkept.next,
    hsame.soePos.trans (hkept.soePos rfl)⟩
  rw [mapRange, hplan, Option.bind_some]
  simp only
  rw [hstages, Option.bind_some]
  simp only
  rw [Option.bind_some, hdelete, Option.map_some, harg]

namespace ExtentInfo

/-- Where `adjust_extents_for_deletion` puts an extent. -/
def collapsed (adjustTo amount : ℤ) (x : Extent) : Extent :=
  { x with
    start := doMarkerAdjustment x.start adjustTo adjustTo amount
    stop := doMarkerAdjustment x.stop adjustTo adjustTo amount }

theorem setSoePos_self {pos : ℤ} (h : s.soeForce.pos = pos) : s.setSoePos pos = s := by
  rw [setSoePos]
  rw [soeForce] at h
  cases hsoe : s.soe with
  | none =>
    rw [Option.map_none, ← hsoe]
  | some soe =>
    rw [hsoe, Option.getD_some] at h
    rw [Option.map_some, ← h, ← hsoe]

theorem Ordered.setSoePos (h : s.Ordered stamp) (hnone : s.attached = ∅) (pos : ℤ) : (s.setSoePos pos).Ordered stamp := by
  refine { h with soe := fun soe hsoe => ?_ }
  obtain ⟨soe', hsoe', rfl⟩ := Option.map_eq_some_iff.mp hsoe
  have hold := h.soe soe' hsoe'
  have hnowhere (x : ℤ) : {e ∈ s.attached | (s.ext e).Overlaps x} = ∅ := by simp [hnone]
  rw [hnowhere] at hold
  exact (hnowhere pos).symm ▸ hold

theorem soeForce_pos_congr (h : s'.soe.map (·.pos) = s.soe.map (·.pos)) : s'.soeForce.pos = s.soeForce.pos := by
  have hpos (r : ExtentInfo) : r.soeForce.pos = (r.soe.map (·.pos)).getD (-1) := by
    rw [soeForce]
    cases r.soe <;> rfl
  rw [hpos, hpos, h]

theorem Ordered.adjustEach (h : s.Ordered stamp) {soe : Option (ℤ × ℤ)} (hsoe : soe = none ∨ soe = some (st, st))
    (hpos : s.soeForce.pos = st) {l : List ℕ} (hnodup : l.Nodup) (hatt : ∀ e ∈ l, e ∈ s.attached)
    (hends : ∀ e ∈ l, 0 ≤ (collapsed adjustTo amount (s.ext e)).start ∧
      (collapsed adjustTo amount (s.ext e)).start ≤ (collapsed adjustTo amount (s.ext e)).stop) :
    ∃ s' stamp', s.adjustEach adjustTo amount soe l = some s' ∧ s'.Ordered stamp' ∧ s'.soeForce.pos = st ∧
      s'.next = s.next ∧ s'.ext = fun e => if e ∈ l then collapsed adjustTo amount (s.ext e) else s.ext e := by
  induction l generalizing s stamp with
  | nil => exact ⟨s, stamp, rfl, h, hpos, rfl, funext fun e => (if_neg List.not_mem_nil).symm⟩
  | cons e l ih =>
    obtain ⟨hnew, hnodup'⟩ := List.nodup_cons.mp hnodup
    have he := hatt e List.mem_cons_self
    obtain ⟨h0, hle⟩ := hends e List.mem_cons_self
    have hkeep (t : ExtentInfo) (ht : t.soeForce.pos = st) :
        ((soe.map fun p => t.setSoePos p.2).getD t = t) ∧ ((soe.map fun p => t.setSoePos p.1).getD t = t) := by
      rcases hsoe with rfl | rfl
      · exact ⟨rfl, rfl⟩
      · exact ⟨setSoePos_self ht, setSoePos_self ht⟩
    -- what is done to the rest does not depend on how `e` is put back
    have hrest (r : ExtentInfo) (stamp' : ℕ → ℤ) (hr : r.Ordered stamp') (hrpos : r.soeForce.pos = st)
        (hrnext : r.next = s.next) (hrext : r.ext = Function.update s.ext e (collapsed adjustTo amount (s.ext e))) :
        ∃ s' stamp', r.adjustEach adjustTo amount soe l = some s' ∧ s'.Ordered stamp' ∧ s'.soeForce.pos = st ∧
          s'.next = s.next ∧
            s'.ext = fun a => if a ∈ e :: l then collapsed adjustTo amount (s.ext a) else s.ext a := by
      have hother : ∀ a ∈ l, r.ext a = s.ext a := fun a ha => by
        rw [hrext]
        exact Function.update_of_ne (ne_of_mem_of_not_mem ha hnew) _ _
      obtain ⟨s', stamp'', hs', hord', hpos', hnext', hext'⟩ := ih hr hrpos hnodup'
        (fun a ha => by
          rw [attached, Set.mem_ofPred_eq, hother a ha]
          exact hatt a (List.mem_cons_of_mem _ ha))
        (fun a ha => by
          rw [hother a ha]
          exact hends a (List.mem_cons_of_mem _ ha))
      refine ⟨s', stamp'', hs', hord', hpos', hnext'.trans hrnext, ?_⟩
      rw [hext']
      funext a
      by_cases hae : a = e
      · rw [hae, if_neg hnew, if_pos List.mem_cons_self, hrext, Function.update_self]
      · rw [hrext, Function.update_of_ne hae]
        simp only [List.mem_cons, hae, false_or]
    rw [ExtentInfo.adjustEach]
    by_cases hmoves : doMarkerAdjustment (s.ext e).start adjustTo adjustTo amount ≠ (s.ext e).start ∨
        doMarkerAdjustment (s.ext e).stop adjustTo adjustTo amount ≠ (s.ext e).stop
    · obtain ⟨s₁, hdetach, hord₁, hext₁, hnext₁, -, hsoe₁⟩ := h.detach he
      have hnot : e ∉ s₁.attached := by
        rw [attached, hext₁, setStartEnd_ext, Set.mem_ofPred_eq, Function.update_self]
        exact (by decide : ¬(0 : ℤ) ≤ -1)
      obtain ⟨s₂, stamp₂, hattach, hord₂, hext₂, hnext₂, -, -, hsoe₂⟩ :=
        hord₁.attach hnot h0 hle (hnext₁ ▸ h.used e he)
      have hpos₁ : s₁.soeForce.pos = st := (soeForce_pos_congr hsoe₁.pos_eq).trans hpos
      have hpos₂ : s₂.soeForce.pos = st := (soeForce_pos_congr hsoe₂.pos_eq).trans hpos₁
      simp only
      rw [if_pos hmoves, hdetach, Option.bind_some, (hkeep _ (show (s₁.setStartEnd e _ _).soeForce.pos = st from hpos₁)).1]
      rw [show (s₁.setStartEnd e (doMarkerAdjustment (s.ext e).start adjustTo adjustTo amount)
        (doMarkerAdjustment (s.ext e).stop adjustTo adjustTo amount)).attach e = some s₂ from hattach, Option.bind_some,
        (hkeep _ hpos₂).2]
      exact hrest s₂ stamp₂ hord₂ hpos₂ (hnext₂.trans hnext₁) (hext₂.trans (setStartEnd_setStartEnd hext₁ _ _))
    · simp only
      rw [if_neg hmoves]
      obtain ⟨hstart, hstop⟩ := not_or.mp hmoves
      refine hrest s stamp h hpos rfl ?_
      rw [collapsed, not_ne_iff.mp hstart, not_ne_iff.mp hstop, Function.update_eq_self]

end ExtentInfo

/-- What is deleted is next to the gap, or behind it and up to the end of the text. -/
structure Deletable (b : Buffer) (byteFrom byteTo : ℤ) (doMoveGap : Bool) : Prop where
  layout : b.Layout
  fit : b.allocated < 2 ^ 30
  one_le : 1 ≤ byteFrom
  le : byteFrom ≤ byteTo
  le_z : byteTo ≤ b.z
  gap : if doMoveGap then byteFrom ≤ b.gpt ∧ b.gpt ≤ byteTo else byteTo = b.z ∧ b.gpt < byteFrom

def deletionAmount (b : Buffer) (byteFrom byteTo : ℤ) (doMoveGap : Bool) : ℤ :=
  -(byteTo - byteFrom) - if doMoveGap then b.gapSize else 0

namespace Deletable

variable {byteFrom byteTo : ℤ} {doMoveGap : Bool}

theorem amount_eq (h : Deletable b byteFrom byteTo doMoveGap) : toInt b.gapSize = b.gapSize ∧
    toInt (-toInt (byteTo - byteFrom) - toInt (if doMoveGap then b.gapSize else 0)) = deletionAmount b byteFrom byteTo doMoveGap ∧
      byteTo + b.gapSize + deletionAmount b byteFrom byteTo doMoveGap = b.bytebposToMembpos byteFrom := by
  obtain ⟨hlayout, hfit, h1, hle, hz, hgap⟩ := h
  have hpos := hlayout.gap_pos
  have hall := BufferExtents.le_allocated hlayout
  rw [toInt_eq (n := b.gapSize) (by omega) (by omega), toInt_eq (n := byteTo - byteFrom) (by omega) (by omega), deletionAmount,
    Buffer.bytebposToMembpos]
  cases doMoveGap with
  | true =>
    rw [if_pos rfl] at hgap
    rw [if_pos rfl, toInt_eq (n := b.gapSize) (by omega) (by omega), if_neg (by omega)]
    exact ⟨rfl, toInt_eq (by omega) (by omega), by omega⟩
  | false =>
    rw [if_neg Bool.false_ne_true] at hgap
    rw [if_neg Bool.false_ne_true, toInt_eq (n := 0) (by decide) (by decide), if_pos (by omega)]
    exact ⟨rfl, toInt_eq (by omega) (by omega), by omega⟩

theorem indexable (h : Deletable b byteFrom byteTo doMoveGap) {p : ℤ} (h1 : 1 ≤ p) (hz : p ≤ b.z) :
    Indexable (b.bytebposToMembpos p) := by
  have hpos := h.layout.gap_pos
  have hall := BufferExtents.le_allocated h.layout
  have hfit := h.fit
  rw [Indexable, Buffer.bytebposToMembpos]
  split_ifs <;> omega

theorem indexable_of_valid (h : Deletable b byteFrom byteTo doMoveGap) {m : ℤ} (hm : b.validMembposP m) : Indexable m := by
  have hgz := h.layout.gpt_le_z
  have hpos := h.layout.gap_pos
  have hall := BufferExtents.le_allocated h.layout
  have hfit := h.fit
  have h1 := h.layout.one_le_gpt
  unfold Buffer.validMembposP at hm
  rw [Indexable]
  omega

theorem adjust_eq (h : Deletable b byteFrom byteTo doMoveGap) {m : ℤ} (hm : b.validMembposP m) :
    doMarkerAdjustment m (byteTo + b.gapSize) (byteTo + b.gapSize) (deletionAmount b byteFrom byteTo doMoveGap) =
      if b.bytebposToMembpos byteFrom < m ∧ m ≤ b.bytebposToMembpos byteTo then b.bytebposToMembpos byteFrom else m := by
  obtain ⟨-, -, hst⟩ := h.amount_eq
  obtain ⟨hlayout, -, h1, hle, hz, hgap⟩ := h
  have hpos := hlayout.gap_pos
  have hneg : ¬ deletionAmount b byteFrom byteTo doMoveGap > 0 := by
    rw [deletionAmount]
    split_ifs <;> omega
  rw [doMarkerAdjustment, if_neg hneg, hst]
  unfold Buffer.validMembposP at hm
  unfold Buffer.bytebposToMembpos
  cases doMoveGap <;> simp only [if_true, if_false, Bool.false_eq_true] at hgap <;> split_ifs <;> omega

end Deletable

namespace ExtentInfo

variable {byteFrom byteTo : ℤ} {doMoveGap : Bool}

theorem Ordered.adjustExtentsForDeletion (h : s.Ordered stamp) (hd : Deletable b byteFrom byteTo doMoveGap)
    (hvalid : ∀ e ∈ s.attached, b.validMembposP (s.ext e).start ∧ b.validMembposP (s.ext e).stop)
    (hfuel : s.extents.numEls < fuel) :
    ∃ s' stamp', s.adjustExtentsForDeletion b fuel byteFrom byteTo b.gapSize (byteTo - byteFrom)
        (if doMoveGap then b.gapSize else 0) = some s' ∧ s'.Ordered stamp' ∧ s'.next = s.next ∧
      s'.ext = fun e =>
        if e ∈ (s.extents.ga false).els then
          collapsed (byteTo + b.gapSize) (deletionAmount b byteFrom byteTo doMoveGap) (s.ext e)
        else s.ext e := by
  obtain ⟨hgap, hamount, hst⟩ := hd.amount_eq
  set adjustTo := byteTo + b.gapSize with hadjustTo
  set amount := deletionAmount b byteFrom byteTo doMoveGap
  rw [ExtentInfo.adjustExtentsForDeletion, hgap, hamount]
  by_cases hnum : s.extents.numEls = 0
  · have hnone : (s.extents.ga false).els = [] := List.length_eq_zero_iff.mp hnum
    have hatt := (numEls_eq_zero_iff h).mp hnum
    rw [mapExtents, Option.any_none, if_neg Bool.false_ne_true, if_pos hnum, Option.bind_some]
    simp only [ExtentInfo.adjustEach, Option.map_some, hnone, List.not_mem_nil, if_false]
    cases s.soe.isSome with
    | false => exact ⟨s, stamp, rfl, h, rfl, rfl⟩
    | true => exact ⟨_, stamp, rfl, h.setSoePos hatt _, rfl, rfl⟩
  have hin : InRange b s byteFrom byteTo :=
    ⟨hd.layout, hd.indexable hd.one_le (hd.le.trans hd.le_z), hd.indexable (hd.one_le.trans hd.le) hd.le_z,
      fun e he => ⟨hd.indexable_of_valid (hvalid e he).1, hd.indexable_of_valid (hvalid e he).2⟩⟩
  obtain ⟨s₁, hmap, hord₁, hext₁, hnext₁, hpos₁⟩ := mapExtents_adjust h hd.le hin hnum hfuel
  have hself : doMarkerAdjustment (b.bytebposToMembpos byteFrom) adjustTo adjustTo amount = b.bytebposToMembpos byteFrom := by
    have hneg : ¬ amount > 0 := by
      have hpos := hd.layout.gap_pos
      have hle := hd.le
      show ¬ -(byteTo - byteFrom) - (if doMoveGap then b.gapSize else 0) > 0
      split_ifs <;> omega
    rw [doMarkerAdjustment, if_neg hneg, hst]
    split_ifs <;> omega
  have hends : ∀ e ∈ s.attached, 0 ≤ (collapsed adjustTo amount (s.ext e)).start ∧
      (collapsed adjustTo amount (s.ext e)).start ≤ (collapsed adjustTo amount (s.ext e)).stop := fun e he => by
    obtain ⟨hstart, hstop⟩ := hvalid e he
    have h0 := hin.start.1
    have hle := h.proper e he
    have hnonneg := (hd.indexable_of_valid hstart).1
    simp only [collapsed]
    rw [hd.adjust_eq hstart, hd.adjust_eq hstop]
    split_ifs <;> omega
  -- what is not visited does not move
  have hrest : ∀ e ∈ s.attached, e ∉ visited b adjustFlags byteFrom byteTo s → collapsed adjustTo amount (s.ext e) = s.ext e := by
    intro e he hnot
    obtain ⟨hstart, hstop⟩ := hvalid e he
    have hout (endp : Bool) : ¬ (b.bytebposToMembpos byteFrom ≤ (s.ext e).endpoint endp ∧
        (s.ext e).endpoint endp ≤ b.bytebposToMembpos byteTo) := fun hmem => hnot <| by
      have hregion := in_region_of_endpoint hin.start hin.stop (hin.extents e he) (h.proper e he) hmem
      rw [visited, List.mem_filter, h.list.mem]
      exact ⟨he, by rw [hregion]; simp [adjustFlags]⟩
    have hstart' := hout false
    have hstop' := hout true
    simp only [Extent.endpoint, Bool.false_eq_true, if_false, if_true] at hstart' hstop'
    rw [collapsed, hd.adjust_eq hstart, hd.adjust_eq hstop, if_neg (by omega), if_neg (by omega)]
  obtain ⟨s', stamp', hs', hord', hpos', hnext', hext'⟩ := @Ordered.adjustEach _ _ _ _ _ hord₁
    (if s.soe.isSome then some (b.bytebposToMembpos byteFrom, b.bytebposToMembpos byteFrom) else none)
    (by split_ifs <;> simp) hpos₁ (visited b adjustFlags byteFrom byteTo s)
    ((h.list.sorted _).nodup.filter _)
    (fun e he => by
      rw [attached, hext₁]
      exact (h.list.mem _ e).mp (List.mem_of_mem_filter he))
    (fun e he => by
      rw [hext₁]
      exact hends e ((h.list.mem _ e).mp (List.mem_of_mem_filter he)))
  rw [hmap, Option.bind_some]
  simp only
  rw [hpos₁, if_pos hin.start.1, hself, hs', Option.map_some]
  refine ⟨s', stamp', ?_, hord', hnext'.trans hnext₁, ?_⟩
  · split_ifs
    · rw [setSoePos_self hpos']
    · rfl
  · rw [hext', hext₁]
    funext e
    by_cases he : e ∈ visited b adjustFlags byteFrom byteTo s
    · rw [if_pos he, if_pos ((h.list.mem false e).mpr ((h.list.mem _ e).mp (List.mem_of_mem_filter he)))]
    · rw [if_neg he]
      split_ifs with hmem
      · exact (hrest e ((h.list.mem false e).mp hmem) he).symm
      · rfl

end ExtentInfo

/-- What `process_extents_for_deletion_mapper` detaches. -/
def detachedBy (st en : ℤ) (x : Extent) : Bool := decide (st ≤ x.start ∧ x.stop ≤ en) && x.detachable

theorem processForDeletionMapper_detaches (st en : ℤ) : (processForDeletionMapper st en).Detaches (detachedBy st en) := by
  intro s a e
  rw [processForDeletionMapper, detachedBy]
  by_cases hin : st ≤ (s.ext e).start ∧ (s.ext e).stop ≤ en
  · rw [if_pos hin, decide_eq_true hin, Bool.true_and]
  · rw [if_neg hin, decide_eq_false hin, Bool.false_and, if_neg Bool.false_ne_true]

theorem mapExtents_mono {fn : Mapper α} {flags : MapFlags} {fuel' : ℕ} (hle : fuel ≤ fuel') {dontUseSoe : Bool} {arg : α}
    {after : Option ℕ} {r : ExtentInfo × α} (h : mapExtents dontUseSoe b fuel start stop fn arg after flags s = some r) :
    mapExtents dontUseSoe b fuel' start stop fn arg after flags s = some r := by
  rw [mapExtents] at h ⊢
  split_ifs at h ⊢ with hafter hnum htext
  · exact h
  · obtain ⟨s₁, hattach, h⟩ := Option.bind_eq_some_iff.mp h
    exact Option.bind_eq_some_iff.mpr ⟨s₁, hattach, mapRange_mono hle h⟩
  · exact mapRange_mono hle h

namespace ExtentInfo

variable {byteFrom byteTo : ℤ}

theorem Ordered.processExtentsForDeletion (h : s.Ordered stamp) (hle : byteFrom ≤ byteTo)
    (hin : InRange b s byteFrom byteTo) (hfuel : s.extents.numEls < fuel) :
    ∃ s', s.processExtentsForDeletion b fuel byteFrom byteTo = some s' ∧
      DetachedFrom (detachedBy (b.bytebposToMembpos byteFrom) (b.bytebposToMembpos byteTo))
        (visited b processFlags byteFrom byteTo s) stamp s s' := by
  obtain ⟨s', hmap, hdone⟩ := @mapExtents_detaches _ s stamp b _ _ processFlags _ _
    (processForDeletionMapper_detaches (b.bytebposToMembpos byteFrom) (b.bytebposToMembpos byteTo)) rfl rfl rfl rfl h hle hin
    () fuel hfuel
  rw [ExtentInfo.processExtentsForDeletion, hmap, Option.map_some]
  exact ⟨s', rfl, hdone⟩

end ExtentInfo

namespace BufferExtents

variable {s s' : BufferExtents} {byteFrom byteTo : ℤ} {doMoveGap : Bool}

theorem deleteAtGap_mono {fuel' : ℕ} (hle : fuel ≤ fuel') (h : s.deleteAtGap fuel start stop byteFrom byteTo doMoveGap = some s') :
    s.deleteAtGap fuel' start stop byteFrom byteTo doMoveGap = some s' := by
  rw [BufferExtents.deleteAtGap] at h ⊢
  obtain ⟨info, hprocess, h⟩ := Option.bind_eq_some_iff.mp h
  obtain ⟨info', hadjust, rfl⟩ := Option.map_eq_some_iff.mp h
  rw [ExtentInfo.processExtentsForDeletion] at hprocess ⊢
  obtain ⟨r, hmap, rfl⟩ := Option.map_eq_some_iff.mp hprocess
  rw [ExtentInfo.adjustExtentsForDeletion] at hadjust
  obtain ⟨r', hmap', h⟩ := Option.bind_eq_some_iff.mp hadjust
  rw [mapExtents_mono hle hmap, Option.map_some, Option.bind_some, ExtentInfo.adjustExtentsForDeletion, mapExtents_mono hle hmap',
    Option.bind_some]
  exact congrArg (Option.map _) h

theorem deleteAtGap_info (hord : s.info.Ordered stamp) (hd : Deletable s.buf byteFrom byteTo doMoveGap)
    (hvalid : ∀ e ∈ s.info.attached, s.buf.validMembposP (s.info.ext e).start ∧ s.buf.validMembposP (s.info.ext e).stop)
    (hfuel : s.info.extents.numEls < fuel) :
    ∃ info info' stamp', s.deleteAtGap fuel start stop byteFrom byteTo doMoveGap =
        some ⟨s.buf.deleteAtGap start stop byteFrom byteTo doMoveGap, info'⟩ ∧
      DetachedFrom (detachedBy (s.buf.bytebposToMembpos byteFrom) (s.buf.bytebposToMembpos byteTo))
        (visited s.buf processFlags byteFrom byteTo s.info) stamp s.info info ∧
      info'.Ordered stamp' ∧ info'.next = info.next ∧ info'.attached = info.attached ∧
      ∀ e ∈ info.attached, info'.ext e =
        ExtentInfo.collapsed (byteTo + s.buf.gapSize) (deletionAmount s.buf byteFrom byteTo doMoveGap) (s.info.ext e) := by
  have hin : InRange s.buf s.info byteFrom byteTo :=
    ⟨hd.layout, hd.indexable hd.one_le (hd.le.trans hd.le_z), hd.indexable (hd.one_le.trans hd.le) hd.le_z,
      fun e he => ⟨hd.indexable_of_valid (hvalid e he).1, hd.indexable_of_valid (hvalid e he).2⟩⟩
  obtain ⟨info, hprocess, hdone⟩ := hord.processExtentsForDeletion hd.le hin hfuel
  have hvalid' : ∀ e ∈ info.attached, s.buf.validMembposP (info.ext e).start ∧ s.buf.validMembposP (info.ext e).stop := fun e he => by
    rw [hdone.ext_of_attached he]
    exact hvalid e (hdone.attached_subset he)
  have hnum : info.extents.numEls < fuel := by
    have hsubset : (info.extents.ga false).els ⊆ (s.info.extents.ga false).els := fun a ha =>
      (hord.list.mem false a).mpr (hdone.attached_subset ((hdone.ordered.list.mem false a).mp ha))
    exact lt_of_le_of_lt ((hdone.ordered.list.sorted false).nodup.subperm hsubset).length_le hfuel
  obtain ⟨info', stamp', hadjust, hord', hnext', hext'⟩ := hdone.ordered.adjustExtentsForDeletion hd hvalid' hnum
  have hmoved : ∀ e ∈ info.attached, info'.ext e =
      ExtentInfo.collapsed (byteTo + s.buf.gapSize) (deletionAmount s.buf byteFrom byteTo doMoveGap) (s.info.ext e) := fun e he => by
    rw [hext', ← hdone.ext_of_attached he]
    exact if_pos ((hdone.ordered.list.mem false e).mpr he)
  refine ⟨info, info', stamp', ?_, hdone, hord', hnext', ?_, hmoved⟩
  · rw [BufferExtents.deleteAtGap, hprocess, Option.bind_some, hadjust, Option.map_some]
  · refine Set.ext fun e => ?_
    by_cases he : e ∈ info.attached
    · refine iff_of_true ?_ he
      have h0 := hin.start.1
      rw [ExtentInfo.attached, Set.mem_ofPred_eq, hmoved e he, ← hdone.ext_of_attached he]
      simp only [ExtentInfo.collapsed, hd.adjust_eq (hvalid' e he).1]
      split_ifs
      · exact h0
      · exact he
    · refine iff_of_false ?_ he
      rw [ExtentInfo.attached, Set.mem_ofPred_eq, hext']
      simp only [if_neg (mt (hdone.ordered.list.mem false e).mp he)]
      exact he

variable {cfrom cto : ℤ}

theorem AtChar.delete {m : ℤ} (hb : b.Layout) (hm : AtChar b t m) (h1 : 1 ≤ cfrom) (hle : cfrom ≤ cto)
    (hz : cto ≤ t.z) (hbz : b.z = bytePos t.chars t.z)
    (hgap : if doMoveGap then bytePos t.chars cfrom ≤ b.gpt ∧ b.gpt ≤ bytePos t.chars cto
      else bytePos t.chars cto = b.z ∧ b.gpt < bytePos t.chars cfrom) :
    AtChar (b.deleteAtGap cfrom cto (bytePos t.chars cfrom) (bytePos t.chars cto) doMoveGap) (t.deleteAt cfrom cto)
      (doMarkerAdjustment m (bytePos t.chars cto + b.gapSize) (bytePos t.chars cto + b.gapSize)
        (deletionAmount b (bytePos t.chars cfrom) (bytePos t.chars cto) doMoveGap)) := by
  have hgs := hb.gap_pos
  have hbytes : bytePos t.chars cfrom ≤ bytePos t.chars cto := bytePos_le_of_le hle
  obtain ⟨hoff, c, hc1, hcz, hdec⟩ := hm
  have hbound := deletePos_bounds h1 hz hc1 hcz
  have hlen : (t.deleteAt cfrom cto).z = t.z - (cto - cfrom) := by
    show 1 + ((cutOut t.chars cfrom cto).length : ℤ) = _
    rw [length_cutOut hle h1 hz, EditedText.z]
    omega
  have hpos : bytePos (t.deleteAt cfrom cto).chars (deletePos cfrom cto c) =
      deletePos (bytePos t.chars cfrom) (bytePos t.chars cto) (decode b.gpt b.gapSize m) := by
    rw [hdec]
    exact bytePos_cutOut h1 hle hz hcz
  rw [AtChar, Buffer.deleteAtGap_eq, hlen, deletionAmount]
  cases doMoveGap with
  | true =>
    simp only [if_true] at hgap ⊢
    exact ⟨beforeGapEnd_adjust_delete _, deletePos cfrom cto c, hbound.1, hbound.2,
      (decode_adjust_delete hgap.1 hgap.2 (by omega) _).trans hpos.symm⟩
  | false =>
    simp only [Bool.false_eq_true, if_false, sub_zero] at hgap ⊢
    have hend : decode b.gpt b.gapSize m ≤ bytePos t.chars cto := by
      rw [hgap.1, hbz, hdec]
      exact bytePos_le_of_le hcz
    exact ⟨beforeGapEnd_adjust_delete_end hgap.2 hbytes hoff, deletePos cfrom cto c, hbound.1, hbound.2,
      (decode_adjust_delete_end hgap.2 hbytes (by omega) hend).trans hpos.symm⟩

theorem Holds.deleteAtGap (h : s.Holds t stamp) (hfit : s.buf.allocated < 2 ^ 30) (hstart : t.begv ≤ cfrom) (hle : cfrom ≤ cto)
    (hstop : cto ≤ t.zv)
    (hgap : if doMoveGap then bytePos t.chars cfrom ≤ s.buf.gpt ∧ s.buf.gpt ≤ bytePos t.chars cto
      else bytePos t.chars cto = s.buf.z ∧ s.buf.gpt < bytePos t.chars cfrom)
    (hs : s.deleteAtGap fuel cfrom cto (bytePos t.chars cfrom) (bytePos t.chars cto) doMoveGap = some s') :
    (∃ stamp', s'.Holds (t.deleteAt cfrom cto) stamp') ∧
      s'.buf = s.buf.deleteAtGap cfrom cto (bytePos t.chars cfrom) (bytePos t.chars cto) doMoveGap := by
  obtain ⟨hr1, hr2, hr3, hr4⟩ := h.text.inRange
  have hb := h.text.layout
  have hd : Deletable s.buf (bytePos t.chars cfrom) (bytePos t.chars cto) doMoveGap :=
    ⟨hb, hfit, one_le_bytePos, bytePos_le_of_le hle, (h.text.bytePos_mem (hstop.trans hr4)).2, hgap⟩
  obtain ⟨info, info', stamp', hdelete, hdone, hord', -, hatt, hext⟩ := @deleteAtGap_info _ cfrom cto _ _ _ _ _ h.ordered hd
    (fun e he => ⟨(h.atChar e he).1.valid h.text, (h.atChar e he).2.valid h.text⟩)
    (lt_of_lt_of_le (Nat.lt_succ_self s.info.extents.numEls) (le_max_right fuel _))
  obtain rfl := Option.some.inj ((deleteAtGap_mono (le_max_left _ _) hs).symm.trans hdelete)
  have hchar {m : ℤ} (hm : AtChar s.buf t m) :=
    hm.delete hb (hr1.trans hstart) hle (hstop.trans hr4) h.text.z hgap
  refine ⟨⟨stamp', Buffer.deleteAtGap_text h.text hstart hle hstop hgap, hord', fun e he => ?_⟩, rfl⟩
  · simp only [hatt] at he
    have hold := hdone.attached_subset he
    simp only [hext e he]
    exact ⟨hchar (h.atChar e hold).1, hchar (h.atChar e hold).2⟩

theorem moveGapNextTo_allocated (b : Buffer) (start stop byteFrom byteTo : ℤ) :
    (b.moveGapNextTo rep start stop byteFrom byteTo).allocated = b.allocated := by
  have hright (b : Buffer) (cpos bpos : ℤ) : (b.gapRight rep Buffer.inhibitQuit cpos bpos).allocated = b.allocated := by
    obtain ⟨cpos', heq⟩ := Buffer.gapRight_eq rep b Buffer.inhibitQuit cpos bpos
    rw [heq]
    simp only
    split_ifs <;> rfl
  rw [Buffer.moveGapNextTo]
  split_ifs
  · exact (hright _ _ _).trans rfl
  · rfl
  · exact hright _ _ _
  · rfl

theorem Holds.bufferDeleteRange (h : s.Holds t stamp) (hsoe : s.SoeInText) (hfit : s.buf.allocated < 2 ^ 30)
    (hs : s.bufferDeleteRange rep fuel start stop = some s') :
    (∃ stamp', s'.Holds (t.delete start stop) stamp') ∧ s'.buf = s.buf.bufferDeleteRange rep start stop := by
  obtain ⟨hr1, hr2, hr3, hr4⟩ := h.text.inRange
  rw [BufferExtents.bufferDeleteRange, h.text.bufbegv, h.text.bufzv] at hs
  rw [Buffer.bufferDeleteRange, h.text.bufbegv, h.text.bufzv, EditedText.delete]
  simp only [h.text.charbposToBytebpos] at hs ⊢
  set cfrom := if start < t.begv then t.begv else start with hcfrom
  set cto := if stop > t.zv then t.zv else stop with hcto
  have hstart : t.begv ≤ cfrom := by
    rw [hcfrom]
    split_ifs <;> omega
  have hstop : cto ≤ t.zv := by
    rw [hcto]
    split_ifs <;> omega
  by_cases hempty : cto - cfrom ≤ 0
  · rw [if_pos hempty, Option.some.injEq] at hs
    rw [if_pos hempty, if_pos hempty, ← hs]
    exact ⟨⟨stamp, h⟩, rfl⟩
  rw [if_neg hempty] at hs
  rw [if_neg hempty, if_neg hempty]
  have hle : cfrom ≤ cto := by omega
  by_cases hbottom : s.buf.deletesFromBottom cto (bytePos t.chars cfrom)
  · rw [if_pos hbottom] at hs
    rw [if_pos hbottom]
    have hend : bytePos t.chars cto = s.buf.z := by rw [hbottom.1, h.text.bufz, h.text.z]
    exact h.deleteAtGap hfit hstart hle hstop ⟨hend, hbottom.2⟩ hs
  · rw [if_neg hbottom] at hs
    rw [if_neg hbottom]
    have hbz := h.text.bytePos_mem (hstop.trans hr4)
    have hbytes : bytePos t.chars cfrom ≤ bytePos t.chars cto := bytePos_le_of_le hle
    obtain ⟨hmoved, hbuf⟩ := @Holds.moveGapNextTo _ _ _ _ cfrom cto h hsoe hfit _ _ one_le_bytePos hbytes hbz.2
    obtain ⟨-, -, hg1, hg2⟩ := Buffer.moveGapNextTo_spec rep h.text.layout cfrom cto one_le_bytePos hbytes hbz.2
    rw [← hbuf] at hg1 hg2 ⊢
    have hfit' : (s.moveGapNextTo rep cfrom cto (bytePos t.chars cfrom) (bytePos t.chars cto)).buf.allocated < 2 ^ 30 := by
      rw [hbuf, moveGapNextTo_allocated]
      exact hfit
    exact hmoved.holds.deleteAtGap hfit' hstart hle hstop ⟨hg1, hg2⟩ hs

end BufferExtents

end XEmacs.Extents
