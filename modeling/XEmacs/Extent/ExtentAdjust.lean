import Mathlib
import XEmacs.Extent.BufferExtents
import XEmacs.Extent.MapComplete

/-! What moving the gap does to the extents: every endpoint is adjusted like a marker, where the
extents are, and since this keeps their order the lists need no change. -/

namespace XEmacs.Extents

open Lib Text

variable {s s' : ExtentInfo} {stamp : ℕ → ℤ} {ext ext' : Heap} {start stop amount : ℤ} {f : ℤ → ℤ} {V : Set ℤ}

theorem ExtentList.Holds.relocate {el : ExtentList} {S : Set ℕ} (h : el.Holds ext stamp S)
    (hmono : StrictMonoOn f V) (hV : ∀ e ∈ S, (ext e).start ∈ V ∧ (ext e).stop ∈ V)
    (hext : ∀ e ∈ S, (ext' e).start = f (ext e).start ∧ (ext' e).stop = f (ext e).stop) : el.Holds ext' stamp S where
  sorted endp := by
    apply (h.sorted endp).mono
    intro a ha b hb hlt
    have hSa := (h.mem endp a).mp ha
    have hSb := (h.mem endp b).mp hb
    obtain ⟨hVa, hVa'⟩ := hV a hSa
    obtain ⟨hVb, hVb'⟩ := hV b hSb
    obtain ⟨hstart, hstop⟩ := hext a hSa
    obtain ⟨hstart', hstop'⟩ := hext b hSb
    rw [key_lt_iff] at hlt ⊢
    cases endp <;>
      simpa [Extent.less, Extent.lessVals, Extent.equalVals, hstart, hstop, hstart', hstop', hmono.lt_iff_lt,
        hmono.injOn.eq_iff, hVa, hVa', hVb, hVb'] using hlt
  mem := h.mem

theorem Extent.overlaps_relocate {x x' : Extent} {pos : ℤ} (hmono : StrictMonoOn f V)
    (hV : x.start ∈ V ∧ x.stop ∈ V) (hpos : pos ∈ V) (hx : x'.start = f x.start ∧ x'.stop = f x.stop) :
    x'.Overlaps (f pos) ↔ x.Overlaps pos := by
  rw [Extent.Overlaps, Extent.Overlaps, hx.1, hx.2, hmono.le_iff_le hV.1 hpos, hmono.le_iff_le hpos hV.2]

theorem adjustRun_eq {endp : Bool} {l : List ℕ}
    (hsorted : l.Pairwise fun a b => (ext a).endpoint endp ≤ (ext b).endpoint endp) (hnodup : l.Nodup) :
    adjustRun start stop amount endp l ext = fun e =>
      if e ∈ l ∧ (ext e).endpoint endp ≤ stop then
        (ext e).setEndpoint (doMarkerAdjustment ((ext e).endpoint endp) start stop amount) endp
      else ext e := by
  induction l generalizing ext with
  | nil =>
    funext e
    exact (if_neg fun h => List.not_mem_nil h.1).symm
  | cons a l ih =>
    obtain ⟨hfirst, hrest⟩ := List.pairwise_cons.mp hsorted
    obtain ⟨hnew, hnodup'⟩ := List.nodup_cons.mp hnodup
    rw [adjustRun]
    by_cases hbeyond : (ext a).endpoint endp > stop
    · rw [if_pos hbeyond]
      funext e
      -- all that follow are beyond `stop` too
      refine (if_neg fun h => ?_).symm
      rcases List.mem_cons.mp h.1 with rfl | he
      · exact absurd h.2 (not_le.mpr hbeyond)
      · exact absurd (hbeyond.trans_le (hfirst e he)) (not_lt.mpr h.2)
    · rw [if_neg hbeyond]
      simp only
      set x := (ext a).setEndpoint (doMarkerAdjustment ((ext a).endpoint endp) start stop amount) endp with hx
      have hother : ∀ e ∈ l, Function.update ext a x e = ext e := fun e he =>
        Function.update_of_ne (ne_of_mem_of_not_mem he hnew) _ _
      rw [ih (hrest.imp_of_mem fun ha hb hle => by rwa [hother _ ha, hother _ hb]) hnodup']
      funext e
      by_cases hea : e = a
      · rw [hea, if_neg fun h => hnew h.1, Function.update_self, if_pos ⟨List.mem_cons_self, not_lt.mp hbeyond⟩]
      · simp only [Function.update_of_ne hea, List.mem_cons, hea, false_or]

namespace ExtentInfo

theorem numEls_eq_zero_iff (h : s.Ordered stamp) : s.extents.numEls = 0 ↔ s.attached = ∅ := by
  rw [ExtentList.numEls, List.length_eq_zero_iff, List.eq_nil_iff_forall_not_mem, Set.eq_empty_iff_forall_notMem]
  exact forall_congr' fun e => not_congr (h.list.mem false e)

/-- Where `adjust_extents` puts an endpoint. -/
def adjusted (start stop amount m : ℤ) : ℤ :=
  if start < m ∧ m ≤ stop then doMarkerAdjustment m start stop amount else m

theorem adjustExtents_ext (h : s.Ordered stamp) (hfit : toInt amount = amount) (hnum : s.extents.numEls ≠ 0) :
    (s.adjustExtents start stop amount).ext = fun e =>
      if e ∈ (s.extents.ga false).els then
        { s.ext e with
          start := adjusted start stop amount (s.ext e).start
          stop := adjusted start stop amount (s.ext e).stop }
      else s.ext e := by
  have hsorted (ext' : Heap) (endp : Bool) (hext : ∀ e, (ext' e).endpoint endp = (s.ext e).endpoint endp) :
      ((s.extents.ga endp).els.drop (s.extents.locateFromPos s.ext (start + 1) endp)).Pairwise
        fun a b => (ext' a).endpoint endp ≤ (ext' b).endpoint endp := by
    apply List.Pairwise.drop
    refine (h.list.sorted endp).imp fun hlt => ?_
    rw [hext, hext]
    exact endpoint_le_of_key_lt hlt
  have hmem (endp : Bool) (e : ℕ) :
      e ∈ (s.extents.ga endp).els.drop (s.extents.locateFromPos s.ext (start + 1) endp) ↔
        e ∈ (s.extents.ga false).els ∧ start < (s.ext e).endpoint endp := by
    rw [h.drop_locateFromPos, List.mem_filter, h.list.mem endp, h.list.mem false]
    simp [Int.add_one_le_iff]
  have hnodup (endp : Bool) := (h.list.sorted endp).nodup.drop (i := s.extents.locateFromPos s.ext (start + 1) endp)
  rw [adjustExtents, if_neg hnum]
  simp only [hfit]
  rw [adjustRun_eq (hsorted s.ext false fun _ => rfl) (hnodup false)]
  simp only [hmem]
  rw [adjustRun_eq (hsorted _ true ?_) (hnodup true)]
  · funext e
    simp only [hmem, adjusted, Extent.endpoint, Extent.setEndpoint, Bool.false_eq_true, if_false, if_true]
    by_cases he : e ∈ (s.extents.ga false).els <;> by_cases hstart : start < (s.ext e).start ∧ (s.ext e).start ≤ stop <;>
      by_cases hstop : start < (s.ext e).stop ∧ (s.ext e).stop ≤ stop <;> simp [he, hstart, hstop]
  · intro e
    simp only [Extent.endpoint, Extent.setEndpoint, Bool.false_eq_true, if_false, if_true]
    split_ifs <;> rfl

/-- The extents of `s'` are those of `s`, moved by `f`. -/
structure Moved (s s' : ExtentInfo) (f : ℤ → ℤ) : Prop where
  attached : s'.attached = s.attached
  next : s'.next = s.next
  ext : ∀ e ∈ s.attached, s'.ext e = { s.ext e with start := f (s.ext e).start, stop := f (s.ext e).stop }
  soe : ∀ soe', s'.soe = some soe' → s.attached.Nonempty →
    ∃ soe, s.soe = some soe ∧ soe'.pos = if soe.pos ≥ 0 then f soe.pos else soe.pos

theorem Ordered.adjustExtents (h : s.Ordered stamp) (hfit : toInt amount = amount)
    (hmono : StrictMonoOn (doMarkerAdjustment · start stop amount) V)
    (hin : ∀ m ∈ V, adjusted start stop amount m = doMarkerAdjustment m start stop amount)
    (hnonneg : ∀ m ∈ V, 0 ≤ doMarkerAdjustment m start stop amount)
    (hV : ∀ e ∈ s.attached, (s.ext e).start ∈ V ∧ (s.ext e).stop ∈ V)
    (hsoe : s.attached.Nonempty → ∀ soe, s.soe = some soe → 0 ≤ soe.pos → soe.pos ∈ V) :
    (s.adjustExtents start stop amount).Ordered stamp ∧
      s.Moved (s.adjustExtents start stop amount) (doMarkerAdjustment · start stop amount) := by
  by_cases hnum : s.extents.numEls = 0
  · have hempty := (numEls_eq_zero_iff h).mp hnum
    rw [ExtentInfo.adjustExtents, if_pos hnum]
    refine ⟨h, rfl, rfl, fun e he => absurd he ?_, fun soe _ hne => absurd hempty hne.ne_empty⟩
    rw [hempty]
    exact Set.notMem_empty e
  have hne : s.attached.Nonempty := Set.nonempty_iff_ne_empty.mpr fun hempty => hnum ((numEls_eq_zero_iff h).mpr hempty)
  have hext := @adjustExtents_ext s stamp start stop amount h hfit hnum
  have hother : ∀ e, e ∉ s.attached → (s.adjustExtents start stop amount).ext e = s.ext e := fun e he => by
    rw [hext]
    exact if_neg (mt (h.list.mem false e).mp he)
  have hmoved : ∀ e ∈ s.attached, (s.adjustExtents start stop amount).ext e =
      { s.ext e with
        start := doMarkerAdjustment (s.ext e).start start stop amount
        stop := doMarkerAdjustment (s.ext e).stop start stop amount } := fun e he => by
    rw [hext]
    simp only [if_pos ((h.list.mem false e).mpr he), hin _ (hV e he).1, hin _ (hV e he).2]
  have hatt : (s.adjustExtents start stop amount).attached = s.attached := Set.ext fun e => by
    by_cases he : e ∈ s.attached
    · refine iff_of_true ?_ he
      rw [attached, Set.mem_ofPred_eq, hmoved e he]
      exact hnonneg _ (hV e he).1
    · refine iff_of_false ?_ he
      rw [attached, Set.mem_ofPred_eq, hother e he]
      exact he
  have hends : ∀ e ∈ s.attached, ((s.adjustExtents start stop amount).ext e).start =
      doMarkerAdjustment (s.ext e).start start stop amount ∧
        ((s.adjustExtents start stop amount).ext e).stop = doMarkerAdjustment (s.ext e).stop start stop amount :=
    fun e he => by rw [hmoved e he]; exact ⟨rfl, rfl⟩
  have hlists : (s.adjustExtents start stop amount).extents = s.extents := by
    rw [ExtentInfo.adjustExtents, if_neg hnum]
  have hstack : (s.adjustExtents start stop amount).soe = s.soe.map fun soe =>
      if soe.pos ≥ 0 then { soe with pos := doMarkerAdjustment soe.pos start stop amount } else soe := by
    rw [ExtentInfo.adjustExtents, if_neg hnum, hfit]
  have hnext : (s.adjustExtents start stop amount).next = s.next := by
    rw [ExtentInfo.adjustExtents, if_neg hnum]
  refine ⟨⟨?_, ?_, ?_, ?_⟩, ⟨hatt, hnext, hmoved, fun soe' hsoe' _ => ?_⟩⟩
  · rw [hatt, hlists]
    exact h.list.relocate hmono hV hends
  · rw [hatt]
    intro e he
    rw [(hends e he).1, (hends e he).2]
    exact (hmono.le_iff_le (hV e he).1 (hV e he).2).mpr (h.proper e he)
  · intro soe' hsoe'
    rw [hstack] at hsoe'
    obtain ⟨soe, hold, rfl⟩ := Option.map_eq_some_iff.mp hsoe'
    have hholds := h.soe soe hold
    rw [hatt]
    by_cases hpos : soe.pos ≥ 0
    · rw [if_pos hpos]
      have hset : {e ∈ s.attached | ((s.adjustExtents start stop amount).ext e).Overlaps
          (doMarkerAdjustment soe.pos start stop amount)} = {e ∈ s.attached | (s.ext e).Overlaps soe.pos} :=
        Set.ext fun e => and_congr_right fun he =>
          Extent.overlaps_relocate hmono (hV e he) (hsoe hne soe hold hpos) (hends e he)
      rw [hset]
      exact hholds.relocate hmono (fun e he => hV e he.1) fun e he => hends e he.1
    · rw [if_neg hpos]
      -- a stack that is nowhere has no extents
      have hset (t : ExtentInfo) (ht : ∀ e ∈ s.attached, 0 ≤ (t.ext e).start) :
          {e ∈ s.attached | (t.ext e).Overlaps soe.pos} = ∅ := Set.eq_empty_of_forall_notMem fun e he => by
        have h0 := ht e he.1
        have hle := he.2.1
        omega
      rw [hset s fun e he => he] at hholds
      rw [hset _ fun e he => by rw [(hends e he).1]; exact hnonneg _ (hV e he).1]
      exact hholds.congr (fun e he => absurd he (Set.notMem_empty e)) fun e he => absurd he (Set.notMem_empty e)
  · rw [hatt, hnext]
    exact h.used
  · rw [hstack] at hsoe'
    obtain ⟨soe, hold, rfl⟩ := Option.map_eq_some_iff.mp hsoe'
    refine ⟨soe, hold, ?_⟩
    split_ifs <;> rfl

theorem Ordered.setFlags (h : s.Ordered stamp) (e : ℕ) (startOpen endOpen detachable : Bool) :
    let x := { s.ext e with startOpen := startOpen, endOpen := endOpen, detachable := detachable }
    (s.setExtent e x).Ordered stamp ∧ (s.setExtent e x).attached = s.attached := by
  intro x
  have hends : ∀ a, ((s.setExtent e x).ext a).start = (s.ext a).start ∧ ((s.setExtent e x).ext a).stop = (s.ext a).stop := by
    intro a
    have hupdate : (s.setExtent e x).ext = Function.update s.ext e x := rfl
    rw [hupdate]
    by_cases ha : a = e
    · rw [ha, Function.update_self]
      exact ⟨rfl, rfl⟩
    · rw [Function.update_of_ne ha]
      exact ⟨rfl, rfl⟩
  have hatt : (s.setExtent e x).attached = s.attached := Set.ext fun a => by
    rw [attached, Set.mem_ofPred_eq, (hends a).1]
    rfl
  have hsame {el : ExtentList} {S : Set ℕ} (hel : el.Holds s.ext stamp S) : el.Holds (s.setExtent e x).ext stamp S :=
    hel.relocate (f := id) (V := Set.univ) strictMonoOn_id (fun _ _ => ⟨trivial, trivial⟩) fun a _ => hends a
  refine ⟨⟨?_, ?_, fun soe hsoe => ?_, ?_⟩, hatt⟩
  · rw [hatt]
    exact hsame h.list
  · rw [hatt]
    intro a ha
    rw [(hends a).1, (hends a).2]
    exact h.proper a ha
  · have hset : {a ∈ s.attached | ((s.setExtent e x).ext a).Overlaps soe.pos} =
        {a ∈ s.attached | (s.ext a).Overlaps soe.pos} := Set.ext fun a => and_congr_right fun _ => by
      rw [Extent.Overlaps, Extent.Overlaps, (hends a).1, (hends a).2]
    rw [hatt, hset]
    exact hsame (h.soe soe hsoe)
  · rw [hatt]
    exact h.used

theorem Ordered.flushSoe (h : s.Ordered stamp) : s.flushSoe.Ordered stamp :=
  { h with soe := fun _ hsoe => absurd hsoe.symm (Option.some_ne_none _) }

theorem deleteAll_spec (el : ExtentList) : ∃ el', el.deleteAll = some el' ∧ ∀ endp, (el'.ga endp).els = [] := by
  have hall (ga : MarkedList ℕ) : ∃ ga', ga.step (.deleteEls 0 ga.els.length) = some ga' ∧ ga'.els = [] := by
    refine ⟨_, if_pos ⟨le_rfl, Int.natCast_nonneg _, by omega⟩, ?_⟩
    simp
  obtain ⟨start, hstart, hnil⟩ := hall el.start
  obtain ⟨stop, hstop, hnil'⟩ := hall el.stop
  refine ⟨⟨start, stop⟩, by rw [ExtentList.deleteAll, hstart, Option.bind_some, hstop, Option.map_some], fun endp => ?_⟩
  cases endp with
  | false => exact hnil
  | true => exact hnil'

theorem Ordered.detachAllExtents (h : s.Ordered stamp) (hs : s.detachAllExtents = some s') :
    s'.Ordered stamp ∧ s'.attached = ∅ := by
  obtain ⟨el, hel, hnil⟩ := deleteAll_spec s.extents
  rw [ExtentInfo.detachAllExtents, hel, Option.bind_some] at hs
  -- nothing is attached any more, in whatever state the stack of extents is left
  have hout : ∀ t : ExtentInfo, (t.ext = fun e =>
      if e ∈ s.extents.start.els then { s.ext e with start := -1, stop := -1 } else s.ext e) → t.attached = ∅ := by
    intro t ht
    apply Set.eq_empty_of_forall_notMem
    intro e he
    rw [attached, Set.mem_ofPred_eq, ht] at he
    by_cases hmem : e ∈ s.extents.start.els
    · simp only [if_pos hmem] at he
      omega
    · simp only [if_neg hmem] at he
      exact hmem ((h.list.mem false e).mpr he)
  have hempty (t : ExtentInfo) (htext : t.attached = ∅) (hlist : t.extents = el)
      (hsoe : ∀ soe, t.soe = some soe → ∀ endp, (soe.extents.ga endp).els = []) : t.Ordered stamp := by
    have hholds {el : ExtentList} (hnil : ∀ endp, (el.ga endp).els = []) : el.Holds t.ext stamp ∅ :=
      (ExtentList.holds_empty _ _).of_ga fun endp => by
        rw [hnil]
        cases endp <;> rfl
    refine ⟨?_, fun e he => ?_, fun soe hso => ?_, fun e he => ?_⟩
    · rw [htext, hlist]
      exact hholds hnil
    · exact absurd he (htext ▸ Set.notMem_empty e)
    · have hset : {e ∈ t.attached | (t.ext e).Overlaps soe.pos} = ∅ :=
        Set.eq_empty_of_forall_notMem fun e he => absurd he.1 (htext ▸ Set.notMem_empty e)
      rw [hset]
      exact hholds (hsoe soe hso)
    · exact absurd he (htext ▸ Set.notMem_empty e)
  rw [ExtentInfo.soeInvalidate] at hs
  split at hs
  case h_1 hnone =>
    obtain rfl := Option.some.inj hs
    exact ⟨hempty _ (hout _ rfl) rfl fun soe hsoe => absurd (hnone.symm.trans hsoe) (Option.some_ne_none _).symm, hout _ rfl⟩
  case h_2 soe hsoe =>
    obtain ⟨sel, hsel, hnil'⟩ := deleteAll_spec soe.extents
    rw [hsel, Option.map_some, Option.some.injEq] at hs
    subst hs
    refine ⟨hempty _ (hout _ rfl) rfl ?_, hout _ rfl⟩
    rintro so ⟨⟩
    exact hnil'

end ExtentInfo

end XEmacs.Extents
