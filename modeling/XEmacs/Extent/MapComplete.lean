import XEmacs.Extent.MapSequence
import XEmacs.Text.BufferGap

/-! `map_extents` visits every extent that meets the range, once, and no other; and the same
ones in the same order, whether the stack of extents is used or not and wherever it was. -/

namespace XEmacs.Extents

open Lib Text

variable {α : Type} {s s' : ExtentInfo} {stamp : ℕ → ℤ} {b : Buffer} {fn : Mapper α}
  {g : Heap → α → ℕ → α × Bool} {flags : MapFlags} {start stop st en : ℤ} {x : Extent}

theorem toInt_eq {n : ℤ} (h0 : -2 ^ 31 ≤ n) (h : n < 2 ^ 31) : toInt n = n := by
  unfold toInt
  omega

theorem membposToBytebpos_bytebposToMembpos (hb : b.Layout) (p : ℤ) :
    b.membposToBytebpos (b.bytebposToMembpos p) = p := by
  have hgap := hb.gap_pos
  rw [Buffer.membposToBytebpos, Buffer.bytebposToMembpos]
  split_ifs <;> omega

theorem bytebposToMembpos_mono (hb : b.Layout) (hle : start ≤ stop) :
    b.bytebposToMembpos start ≤ b.bytebposToMembpos stop := by
  have hgap := hb.gap_pos
  rw [Buffer.bytebposToMembpos, Buffer.bytebposToMembpos]
  split_ifs <;> omega

theorem memxposToStartind_eq {p : ℤ} (h0 : 0 ≤ p) (hp : p < 2 ^ 30) (isOpen : Bool) :
    memxposToStartind p isOpen = 2 * p + if isOpen then 1 else 0 := by
  cases isOpen <;> exact toInt_eq (by simp; omega) (by simp; omega)

theorem memxposToEndind_eq {p : ℤ} (h0 : 0 ≤ p) (hp : p < 2 ^ 30) (isOpen : Bool) :
    memxposToEndind p isOpen = 2 * p - if isOpen then 1 else 0 := by
  cases isOpen <;> exact toInt_eq (by simp; omega) (by simp; omega)

def Indexable (p : ℤ) : Prop := 0 ≤ p ∧ p < 2 ^ 30

theorem in_region_bounds (hst : Indexable (b.bytebposToMembpos start)) (hen : Indexable (b.bytebposToMembpos stop))
    (hstart : Indexable x.start) (hstop : Indexable x.stop) (hin : extentInRegionP b x start stop flags = true) :
    x.start ≤ b.bytebposToMembpos stop ∧ b.bytebposToMembpos start ≤ x.stop ∧
      ((flags.inRegion = some .start ∨ flags.inRegion = some .startAndEnd) ∧ ¬ flags.negateInRegion →
        b.bytebposToMembpos start ≤ x.start) ∧
      (flags.inRegion = some .stop ∧ ¬ flags.negateInRegion → x.stop ≤ b.bytebposToMembpos stop) := by
  have hbit (isOpen : Bool) : (0 : ℤ) ≤ (if isOpen then 1 else 0) ∧ (if isOpen then 1 else 0 : ℤ) ≤ 1 := by
    cases isOpen <;> decide
  unfold extentInRegionP at hin
  simp only [memxposToStartind_eq hst.1 hst.2, memxposToEndind_eq hen.1 hen.2, memxposToStartind_eq hstart.1 hstart.2,
    memxposToEndind_eq hstop.1 hstop.2] at hin
  have hso := hbit (if start = stop then false else flags.startOpen)
  have heo := hbit (!(if start = stop then true else flags.endClosed))
  have hxs := hbit (x.openness flags.allExtents).1
  have hxe := hbit (x.openness flags.allExtents).2
  generalize (if (if start = stop then false else flags.startOpen) = true then 1 else 0 : ℤ) = so at hin hso
  generalize (if (!(if start = stop then true else flags.endClosed)) = true then 1 else 0 : ℤ) = eo at hin heo
  generalize (if (x.openness flags.allExtents).1 = true then 1 else 0 : ℤ) = xs at hin hxs
  generalize (if (x.openness flags.allExtents).2 = true then 1 else 0 : ℤ) = xe at hin hxe
  split at hin
  · exact absurd hin Bool.false_ne_true
  next hmeets =>
    refine ⟨by omega, by omega, fun ⟨hflags, hneg⟩ => ?_, fun ⟨hflags, hneg⟩ => ?_⟩
    · rw [if_neg hneg] at hin
      rcases hflags with hflags | hflags <;> rw [hflags] at hin <;> simp only [decide_eq_true_eq] at hin <;> omega
    · rw [if_neg hneg, hflags] at hin
      simp only [decide_eq_true_eq] at hin
      omega

/-! ### The plan -/

/-- The order in which the list is mapped over: by end, for extents that end in the region. -/
def MapFlags.orderEndp (flags : MapFlags) : Bool := flags.inRegion = some .stop ∧ ¬ flags.negateInRegion

/-- The stages meet, one after the other, the extents of the list that `P` holds of. -/
structure MapPlan.Covers (p : MapPlan) (s : ExtentInfo) (st : ℤ) (P : ℕ → Bool) : Prop where
  le : p.rangeStart.pos s st p.rangeEndp ≤ (s.extents.ga p.rangeEndp).els.length
  soe : p.doSoeStage = true → ∀ e ∈ (s.soeForce.extents.ga p.rangeEndp).els, (s.ext e).endpoint p.rangeEndp ≤ st
  split : (if p.doSoeStage then (s.soeForce.extents.ga p.rangeEndp).els.filter P else []) ++
    ((s.extents.ga p.rangeEndp).els.drop (p.rangeStart.pos s st p.rangeEndp)).filter P =
      (s.extents.ga p.rangeEndp).els.filter P

namespace ExtentInfo

variable {P : ℕ → Bool}

theorem Ordered.proper_els (h : s.Ordered stamp) (endp : Bool) :
    ∀ e ∈ (s.extents.ga endp).els, (s.ext e).start ≤ (s.ext e).stop :=
  fun e he => h.proper e ((h.list.mem endp e).mp he)

theorem Ordered.locateFromPos_le (h : s.Ordered stamp) (endp : Bool) (pos : ℤ) :
    s.extents.locateFromPos s.ext pos endp ≤ (s.extents.ga endp).els.length := by
  rw [ExtentList.locateFromPos_eq (h.list.sorted endp) (h.proper_els endp)]
  exact List.countP_le_length

theorem Ordered.drop_locateFromPos (h : s.Ordered stamp) (endp : Bool) (pos : ℤ) :
    (s.extents.ga endp).els.drop (s.extents.locateFromPos s.ext pos endp) =
      (s.extents.ga endp).els.filter fun e => !decide ((s.ext e).endpoint endp < pos) := by
  rw [ExtentList.locateFromPos_eq (h.list.sorted endp) (h.proper_els endp)]
  exact (ExtentList.divides_endpoint (h.list.sorted endp) pos).take_drop.2

theorem Ordered.covers_including (h : s.Ordered stamp) {endp : Bool}
    (hP : ∀ e ∈ s.attached, P e = true → st ≤ (s.ext e).endpoint endp) :
    MapPlan.Covers ⟨false, endp, .including⟩ s st P where
  le := h.locateFromPos_le endp st
  soe hsoe := nomatch hsoe
  split := by
    simp only [Bool.false_eq_true, if_false, List.nil_append]
    rw [RangeStart.pos, h.drop_locateFromPos, List.filter_filter]
    refine List.filter_congr fun e he => ?_
    cases hPe : P e with
    | false => rfl
    | true =>
      have hle := hP e ((h.list.mem endp e).mp he) hPe
      rw [Bool.true_and, Bool.not_eq_true', decide_eq_false_iff_not]
      exact not_lt.mpr hle

theorem Ordered.soeForce_els (h : s.Ordered stamp) (endp : Bool) : (s.soeForce.extents.ga endp).els =
    (s.extents.ga endp).els.filter fun e => decide ((s.ext e).Overlaps s.soeForce.pos) := by
  refine (h.soeForce.sorted endp).ext ((h.list.sorted endp).filter _) fun e => ?_
  rw [h.soeForce.mem endp, List.mem_filter, h.list.mem endp, decide_eq_true_eq]
  rfl

theorem Ordered.covers_excluding (h : s.Ordered stamp) (hpos : s.soeForce.pos = st)
    (hP : ∀ e ∈ s.attached, P e = true → st ≤ (s.ext e).stop) :
    MapPlan.Covers ⟨true, false, .excluding⟩ s st P where
  le := h.locateFromPos_le false (st + 1)
  soe _ e he := by
    have hover := ((h.soeForce.mem false e).mp he).2
    rw [hpos] at hover
    exact hover.1
  split := by
    simp only [if_true]
    have hdiv := ExtentList.divides_endpoint (h.list.sorted false) (st + 1)
    have htake := hdiv.take_drop.1
    rw [RangeStart.pos, ExtentList.locateFromPos_eq (h.list.sorted false) (h.proper_els false), h.soeForce_els false, hpos]
    have hfirst : ((s.extents.ga false).els.filter fun e => decide ((s.ext e).Overlaps st)).filter P =
        ((s.extents.ga false).els.take ((s.extents.ga false).els.countP
          fun e => decide ((s.ext e).endpoint false < st + 1))).filter P := by
      rw [htake, List.filter_filter, List.filter_filter]
      refine List.filter_congr fun e he => ?_
      cases hPe : P e with
      | false => rfl
      | true =>
        have hle := hP e ((h.list.mem false e).mp he) hPe
        simp [Extent.Overlaps, Extent.endpoint, hle, Int.lt_add_one_iff]
    rw [hfirst, ← List.filter_append, List.take_append_drop]

theorem Ordered.covers_first (h : s.Ordered stamp) (hpos : s.soeForce.pos = st)
    (hP : ∀ e ∈ s.attached, P e = true → st ≤ (s.ext e).stop) {e : ℕ} {l : List ℕ}
    (hfirst : (s.soeForce.extents.ga false).els = e :: l) : ∃ pos, s.extents.locate s.ext e false = (pos, true) ∧
      MapPlan.Covers ⟨false, false, .at' pos⟩ s st P := by
  have hover : e ∈ s.attached ∧ (s.ext e).Overlaps st := by
    rw [← hpos]
    exact (h.soeForce.mem false e).mp (hfirst ▸ List.mem_cons_self)
  obtain ⟨l₁, l₂, hels⟩ := List.mem_iff_append.mp ((h.list.mem false e).mpr hover.1)
  refine ⟨l₁.length, locate_of_mem (h.list.sorted false) hels, ?_, fun hsoe => absurd hsoe Bool.false_ne_true, ?_⟩
  · show l₁.length ≤ (s.extents.ga false).els.length
    rw [hels, List.length_append]
    exact Nat.le_add_right _ _
  · simp only [Bool.false_eq_true, if_false, List.nil_append, RangeStart.pos]
    have hnone : l₁.filter P = [] := by
      rw [List.filter_eq_nil_iff]
      intro a ha hPa
      have hsorted := h.list.sorted false
      rw [hels] at hsorted
      have hlt : key s.ext stamp false a < key s.ext stamp false e :=
        (List.pairwise_append.mp hsorted).2.2 a ha e List.mem_cons_self
      have hatt : a ∈ s.attached := (h.list.mem false a).mp (hels ▸ List.mem_append_left _ ha)
      have hstart : (s.ext a).start ≤ (s.ext e).start := by
        rw [key_lt_iff] at hlt
        simp [Extent.less, Extent.lessVals, Extent.equalVals] at hlt
        omega
      -- an extent before the first one of the stack would be in the stack
      have hmem : a ∈ (s.soeForce.extents.ga false).els :=
        (h.soeForce.mem false a).mpr ⟨hatt, by rw [hpos]; exact ⟨hstart.trans hover.2.1, hP a hatt hPa⟩⟩
      have hstack := h.soeForce.sorted false
      rw [hfirst] at hmem hstack
      rcases List.mem_cons.mp hmem with rfl | hmem
      · exact lt_irrefl _ hlt
      · exact hlt.asymm ((List.pairwise_cons.mp hstack).1 a hmem)
    rw [hels, List.drop_left, List.filter_append, hnone, List.nil_append]

theorem Ordered.planMap (h : s.Ordered stamp) (dontUseSoe : Bool) (flags : MapFlags)
    (hstop : ∀ e ∈ s.attached, P e = true → st ≤ (s.ext e).stop)
    (hstart : (flags.inRegion = some .start ∨ flags.inRegion = some .startAndEnd) ∧ ¬ flags.negateInRegion →
      ∀ e ∈ s.attached, P e = true → st ≤ (s.ext e).start) :
    ∃ soe p, s.planMap dontUseSoe st flags = some ({ s with soe := soe }, p) ∧
      ({ s with soe := soe } : ExtentInfo).Ordered stamp ∧ p.Covers { s with soe := soe } st P ∧
      p.rangeEndp = flags.orderEndp ∧ (p.doSoeStage = true → flags.mightMoveSoe = false) := by
  rw [ExtentInfo.planMap]
  by_cases hfirst : (flags.inRegion = some .start ∨ flags.inRegion = some .startAndEnd) ∧ ¬ flags.negateInRegion
  · rw [if_pos hfirst]
    refine ⟨s.soe, _, rfl, h, h.covers_including (hstart hfirst), ?_, fun hsoe => absurd hsoe Bool.false_ne_true⟩
    obtain ⟨hflag | hflag, -⟩ := hfirst <;> simp [MapFlags.orderEndp, hflag]
  rw [if_neg hfirst]
  by_cases hsecond : flags.inRegion = some .stop ∧ ¬ flags.negateInRegion
  · rw [if_pos hsecond]
    exact ⟨s.soe, _, rfl, h, h.covers_including hstop, (decide_eq_true hsecond).symm, fun hsoe => absurd hsoe Bool.false_ne_true⟩
  rw [if_neg hsecond]
  have horder : false = flags.orderEndp := (decide_eq_false hsecond).symm
  cases dontUseSoe with
  | true =>
    refine ⟨s.soe, _, rfl, h, ⟨Nat.zero_le _, fun hsoe => absurd hsoe Bool.false_ne_true, ?_⟩, horder, fun hsoe => absurd hsoe Bool.false_ne_true⟩
    rw [RangeStart.pos, List.drop_zero]
    rfl
  | false =>
    obtain ⟨sel, hmove, hord⟩ := h.soeMove st
    rw [if_neg Bool.false_ne_true, hmove, Option.bind_some]
    simp only [ExtentInfo.soeForce, Option.getD_some]
    by_cases hnum : sel.numEls > 0
    · rw [if_pos hnum]
      by_cases hmoves : flags.mightMoveSoe = true
      · obtain ⟨e, l, hels⟩ := List.exists_cons_of_length_pos hnum
        obtain ⟨pos, hlocate, hcovers⟩ := hord.covers_first rfl hstop (e := e) (l := l) hels
        have hat : sel.at' 0 false = some e := by
          rw [ExtentList.at', if_pos le_rfl]
          exact congrArg (·[0]?) hels
        rw [if_pos hmoves, hat, Option.bind_some, hlocate, if_pos rfl]
        exact ⟨_, _, rfl, hord, hcovers, horder, fun hsoe => absurd hsoe Bool.false_ne_true⟩
      · rw [if_neg hmoves]
        exact ⟨_, _, rfl, hord, hord.covers_excluding rfl hstop, horder, fun _ => Bool.eq_false_iff.mpr hmoves⟩
    · rw [if_neg hnum]
      refine ⟨_, _, rfl, hord, hord.covers_including fun e he hPe => ?_, horder, fun hsoe => absurd hsoe Bool.false_ne_true⟩
      by_contra hbefore
      have hmem : e ∈ (sel.ga false).els :=
        ((hord.soe _ rfl).mem false e).mpr ⟨he, (not_le.mp hbefore).le, hstop e he hPe⟩
      exact hnum (List.length_pos_of_mem hmem)

end ExtentInfo

namespace MapLoop

variable {c : MapLoop} {m : MapState α} {movesSoe : Bool} {rangeStart : RangeStart} {fuel : ℕ}

theorem pos_congr {endp : Bool} (hext : s'.ext = s.ext) (hels : (s'.extents.ga endp).els = (s.extents.ga endp).els) :
    rangeStart.pos s' st endp = rangeStart.pos s st endp := by
  cases rangeStart <;> simp only [RangeStart.pos, ExtentList.locateFromPos, ExtentList.locateVals, hext, hels]

structure KeepsExtents (movesSoe : Bool) (stamp : ℕ → ℤ) (s s' : ExtentInfo) : Prop where
  ordered : s'.Ordered stamp
  ext : s'.ext = s.ext
  next : s'.next = s.next
  els : ∀ endp, (s'.extents.ga endp).els = (s.extents.ga endp).els
  soePos : movesSoe = false → s'.soeForce.pos = s.soeForce.pos

theorem Keeps.keepsExtents (h : c.Keeps movesSoe stamp s s') : KeepsExtents movesSoe stamp s s' :=
  ⟨h.ordered, h.ext, h.next, h.els, h.soePos⟩

theorem KeepsExtents.trans {s'' : ExtentInfo} (h : KeepsExtents movesSoe stamp s s')
    (h' : KeepsExtents movesSoe stamp s' s'') : KeepsExtents movesSoe stamp s s'' :=
  ⟨h'.ordered, h'.ext.trans h.ext, h'.next.trans h.next, fun endp => (h'.els endp).trans (h.els endp),
    fun hstays => (h'.soePos hstays).trans (h.soePos hstays)⟩

variable (rangeStart fuel) in
theorem rangeStage_quiet (hfn : fn.Quiet g movesSoe) (hord : m.info.Ordered stamp) (h : c.Ready movesSoe m)
    (hover : c.overSoe = false) (hposm : c.posm = none)
    (hpos : rangeStart.pos m.info m.st c.rangeEndp ≤ (m.info.extents.ga c.rangeEndp).els.length)
    (hen : ∀ e ∈ m.info.attached, c.called b m.info.ext m.st m.en e = true → (m.info.ext e).endpoint c.rangeEndp ≤ m.en)
    (hfuel : m.info.extents.numEls < fuel) : ∃ c' m' stopped, c.rangeStage b fn fuel rangeStart m = some (c', m', stopped) ∧
      m'.arg = (mapSeq (g m.info.ext) (((m.info.extents.ga c.rangeEndp).els.drop
        (rangeStart.pos m.info m.st c.rangeEndp)).filter (c.called b m.info.ext m.st m.en)) m.arg).1 ∧
      c'.HasPosm m'.info ∧ KeepsExtents movesSoe stamp m.info m'.info := by
  have hmapped : m.info.mapped c.overSoe = m.info.extents := by
    rw [hover]
    rfl
  set l := (m.info.extents.ga c.rangeEndp).els.drop (rangeStart.pos m.info m.st c.rangeEndp) with hl
  have hlen : l.length < fuel := by
    have hnum := hord.list.length_eq c.rangeEndp
    rw [hl, List.length_drop]
    omega
  have hsorted : l.Pairwise fun a d => (m.info.ext a).endpoint c.rangeEndp ≤ (m.info.ext d).endpoint c.rangeEndp :=
    ((hord.list.sorted c.rangeEndp).sublist (List.drop_sublist _ _)).imp endpoint_le_of_key_lt
  have hseen : c.seen b m.info.ext m.st m.en l = l.filter (c.called b m.info.ext m.st m.en) :=
    seen_eq hsorted fun e he => hen e ((hord.list.mem c.rangeEndp e).mp (List.mem_of_mem_drop he))
  have hdrop : ((m.info.mapped c.overSoe).ga c.rangeEndp).els.drop (rangeStart.pos m.info m.st c.rangeEndp) = l := by
    rw [hmapped]
  obtain ⟨posm, m', stopped, hstage, harg, -, hhas, hkeeps, -, -, -⟩ :=
    stage_quiet (b := b) hfn hord h hposm (by rw [hmapped]; exact hpos) hdrop hlen
  rw [hseen] at harg
  exact ⟨_, m', stopped, hstage, harg, hhas, hkeeps.keepsExtents⟩

theorem stages_quiet (hfn : fn.Quiet g movesSoe) (hord : m.info.Ordered stamp) (h : c.Ready movesSoe m)
    (hposm : c.posm = none)
    (hcovers : MapPlan.Covers ⟨c.overSoe, c.rangeEndp, rangeStart⟩ m.info m.st (c.called b m.info.ext m.st m.en))
    (hen : ∀ e ∈ m.info.attached, c.called b m.info.ext m.st m.en e = true → (m.info.ext e).endpoint c.rangeEndp ≤ m.en)
    (hfuel : m.info.extents.numEls < fuel) : ∃ c' m', c.stages b fn fuel rangeStart m = some (c', m') ∧
      m'.arg = (mapSeq (g m.info.ext)
        ((m.info.extents.ga c.rangeEndp).els.filter (c.called b m.info.ext m.st m.en)) m.arg).1 ∧
      c'.HasPosm m'.info ∧ KeepsExtents movesSoe stamp m.info m'.info := by
  have hsplit := hcovers.split
  rw [stages]
  simp only at hsplit
  cases hover : c.overSoe with
  | false =>
    rw [hover, if_neg Bool.false_ne_true, List.nil_append] at hsplit
    obtain ⟨c', m', stopped, hstage, harg, hkept⟩ :=
      rangeStage_quiet rangeStart fuel (b := b) hfn hord h hover hposm hcovers.le hen hfuel
    rw [hsplit] at harg
    rw [if_neg Bool.false_ne_true, hstage, Option.map_some]
    exact ⟨c', m', rfl, harg, hkept⟩
  | true =>
    have hmapped : m.info.mapped c.overSoe = m.info.soeForce.extents := by
      rw [hover]
      rfl
    rw [hover, if_pos rfl] at hsplit
    set l := (m.info.soeForce.extents.ga c.rangeEndp).els with hl
    have hlen : l.length < fuel := by
      rw [hl, hord.soeForce_els]
      have hnum := hord.list.length_eq c.rangeEndp
      exact lt_of_le_of_lt ((List.length_filter_le _ _).trans hnum.le) hfuel
    have hseen : c.seen b m.info.ext m.st m.en l = l.filter (c.called b m.info.ext m.st m.en) := by
      have hsorted : l.Pairwise fun a d => (m.info.ext a).endpoint c.rangeEndp ≤ (m.info.ext d).endpoint c.rangeEndp :=
        (hord.soeForce.sorted c.rangeEndp).imp endpoint_le_of_key_lt
      exact seen_eq hsorted fun e he => hen e ((hord.soeForce.mem c.rangeEndp e).mp he).1
    have hdrop : ((m.info.mapped c.overSoe).ga c.rangeEndp).els.drop 0 = l := by
      rw [hmapped, List.drop_zero]
    obtain ⟨posm, m₁, stopped, hstage, harg, hstop, hhas, hkeeps, hafter, hst, hen₁⟩ :=
      stage_quiet (b := b) hfn hord h hposm (Nat.zero_le _) hdrop hlen
    rw [hseen] at harg hstop
    rw [if_pos rfl, hstage, Option.bind_some, ← hsplit]
    by_cases hstopped : stopped = true
    · have hstop' := (hstop hover).symm.trans hstopped
      rw [if_pos hstopped]
      refine ⟨_, m₁, rfl, ?_, hhas, hkeeps.keepsExtents⟩
      rw [harg, mapSeq_append, if_pos hstop']
    · have hstop' : (mapSeq (g m.info.ext) (l.filter (c.called b m.info.ext m.st m.en)) m.arg).2 ≠ true :=
        fun htrue => hstopped ((hstop hover).trans htrue)
      rw [if_neg hstopped]
      obtain ⟨info, hdelete, hsame⟩ := hhas.deletePosm
      simp only [hover] at hdelete
      simp only [hdelete, Option.bind_some]
      have hkeeps₂ : c.Keeps movesSoe stamp m.info info := hkeeps.trans (.of_sameLists hkeeps.ordered hsame)
      have hready : Ready { c with overSoe := false } movesSoe { m₁ with info := info } := by
        refine ⟨hafter, fun r hr => ?_, fun hsoe => absurd hsoe Bool.false_ne_true, fun hsoe => absurd hsoe Bool.false_ne_true⟩
        simp only [hkeeps₂.ext, hst, hen₁]
        exact h.range r hr
      have hpos : rangeStart.pos info m.st c.rangeEndp = rangeStart.pos m.info m.st c.rangeEndp :=
        pos_congr hkeeps₂.ext (hkeeps₂.els c.rangeEndp)
      have hatt : info.attached = m.info.attached := by
        rw [ExtentInfo.attached, hkeeps₂.ext]
        rfl
      have hnum : info.extents.numEls = m.info.extents.numEls := congrArg List.length (hkeeps₂.els false)
      obtain ⟨c', m', stopped', hrange, harg', hhas', hkept'⟩ :=
        rangeStage_quiet rangeStart fuel (b := b) (c := { c with overSoe := false }) (m := { m₁ with info := info }) hfn hkeeps₂.ordered hready rfl hposm
          (by simp only [hst, hpos, hkeeps₂.els]; exact hcovers.le)
          (by simp only [hatt, hkeeps₂.ext, hst, hen₁]; exact hen) (by simp only [hnum]; exact hfuel)
      rw [hrange, Option.map_some]
      simp only [hpos, hkeeps₂.ext, hkeeps₂.els, hst, hen₁, harg] at harg'
      refine ⟨c', m', rfl, ?_, hhas', hkeeps₂.keepsExtents.trans hkept'⟩
      rw [mapSeq_append, if_neg hstop']
      exact harg'

end MapLoop

/-! ### The whole of it -/

variable {m : MapState α} {range : Option ℕ} {dontUseSoe : Bool} {fuel : ℕ}

/-- The extents that are to be visited, when `range` is mapped over. -/
def toVisit (b : Buffer) (flags : MapFlags) (range : Option ℕ) (start stop : ℤ) (ext : Heap) (e : ℕ) : Bool :=
  !((ext e).internal && (!flags.includeInternal || range = some e)) && extentInRegionP b (ext e) start stop flags

/-- The positions of all that is attached, and those of the range, have exact indices. -/
structure InRange (b : Buffer) (s : ExtentInfo) (start stop : ℤ) : Prop where
  layout : b.Layout
  start : Indexable (b.bytebposToMembpos start)
  stop : Indexable (b.bytebposToMembpos stop)
  extents : ∀ e ∈ s.attached, Indexable (s.ext e).start ∧ Indexable (s.ext e).stop

variable (range dontUseSoe) in
theorem stages_planned (hfn : fn.Quiet g flags.mightMoveSoe) (hord : m.info.Ordered stamp) (hle : start ≤ stop)
    (hin : InRange b m.info start stop) (hst : m.st = b.bytebposToMembpos start) (hen : m.en = b.bytebposToMembpos stop)
    (hafter : m.after = none) (hrange : ∀ r, range = some r → (m.info.ext r).start = m.st ∧ (m.info.ext r).stop = m.en)
    (hfuel : m.info.extents.numEls < fuel) :
    ∃ soe p c' m', m.info.planMap dontUseSoe m.st flags = some ({ m.info with soe := soe }, p) ∧
      MapLoop.stages ⟨flags, range, p.doSoeStage, p.rangeEndp, none⟩ b fn fuel p.rangeStart
        { m with info := { m.info with soe := soe } } = some (c', m') ∧
      m'.arg = (mapSeq (g m.info.ext) ((m.info.extents.ga flags.orderEndp).els.filter
        (toVisit b flags range start stop m.info.ext)) m.arg).1 ∧
      c'.HasPosm m'.info ∧ MapLoop.KeepsExtents flags.mightMoveSoe stamp { m.info with soe := soe } m'.info := by
  have hbounds (e : ℕ) (he : e ∈ m.info.attached) (hvisit : toVisit b flags range start stop m.info.ext e = true) :=
    in_region_bounds hin.start hin.stop (hin.extents e he).1 (hin.extents e he).2 (Bool.and_eq_true_iff.mp hvisit).2
  rw [← hst, ← hen] at hbounds
  obtain ⟨soe, p, hplan, hord', hcovers, hendp, hmoves⟩ := hord.planMap dontUseSoe flags
    (fun e he hvisit => (hbounds e he hvisit).2.1) (fun hflags e he hvisit => (hbounds e he hvisit).2.2.1 hflags)
  set info : ExtentInfo := { m.info with soe := soe } with hinfo
  set c : MapLoop := ⟨flags, range, p.doSoeStage, p.rangeEndp, none⟩ with hc
  have hcalled : c.called b info.ext m.st m.en = toVisit b flags range start stop m.info.ext := by
    funext e
    rw [MapLoop.called, hst, hen, membposToBytebpos_bytebposToMembpos hin.layout,
      membposToBytebpos_bytebposToMembpos hin.layout]
    rfl
  have hready : c.Ready flags.mightMoveSoe { m with info := info } := by
    refine ⟨hafter, hrange, hmoves, fun hsoe e he => (hcovers.soe hsoe e ?_).trans ?_⟩
    · rwa [ExtentInfo.mapped, if_pos hsoe] at he
    · show m.st ≤ m.en
      rw [hst, hen]
      exact bytebposToMembpos_mono hin.layout hle
  obtain ⟨c', m', hstages, harg, hhas, hkept⟩ := MapLoop.stages_quiet (b := b) (m := { m with info := info }) (c := c)
    hfn hord' hready rfl (by rw [hcalled]; exact hcovers)
    (fun e he hvisit => by
      rw [hcalled] at hvisit
      cases horder : c.rangeEndp with
      | false => exact (hbounds e he hvisit).1
      | true => exact (hbounds e he hvisit).2.2.2 (of_decide_eq_true (hendp.symm.trans horder)))
    hfuel
  rw [hcalled] at harg
  refine ⟨soe, p, c', m', hplan, hstages, ?_, hhas, hkept⟩
  rw [← hendp]
  exact harg

def visited (b : Buffer) (flags : MapFlags) (start stop : ℤ) (s : ExtentInfo) : List ℕ :=
  (s.extents.ga flags.orderEndp).els.filter fun e =>
    (!(s.ext e).internal || flags.includeInternal) && extentInRegionP b (s.ext e) start stop flags

/-- The extents while they are mapped over, with the one for the range. -/
def heapDuring (b : Buffer) (flags : MapFlags) (start stop : ℤ) (s : ExtentInfo) : Heap :=
  if flags.mightModifyText then
    Function.update s.ext s.next
      ⟨b.bytebposToMembpos start, b.bytebposToMembpos stop, false, !flags.endClosed, false, true⟩
  else s.ext

theorem toVisit_none (flags : MapFlags) (ext : Heap) (e : ℕ) : toVisit b flags none start stop ext e =
    ((!(ext e).internal || flags.includeInternal) && extentInRegionP b (ext e) start stop flags) := by
  rw [toVisit]
  cases (ext e).internal <;> cases flags.includeInternal <;> rfl

variable (dontUseSoe) in
theorem mapRange_none (hfn : fn.Quiet g flags.mightMoveSoe) (hord : m.info.Ordered stamp) (hle : start ≤ stop)
    (hin : InRange b m.info start stop) (hst : m.st = b.bytebposToMembpos start) (hen : m.en = b.bytebposToMembpos stop)
    (hafter : m.after = none) (hfuel : m.info.extents.numEls < fuel) :
    ∃ s', mapRange dontUseSoe b fuel fn flags none m =
      some (s', (mapSeq (g m.info.ext) (visited b flags start stop m.info) m.arg).1) ∧ s'.Ordered stamp ∧
        s'.ext = m.info.ext ∧ s'.next = m.info.next := by
  obtain ⟨soe, p, c', m', hplan, hstages, harg, hhas, hkept⟩ := stages_planned none dontUseSoe hfn hord hle hin hst hen
    hafter (fun r hr => (nomatch hr)) hfuel
  obtain ⟨s', hdelete, hsame⟩ := hhas.deletePosm
  have hvisited : visited b flags start stop m.info = (m.info.extents.ga flags.orderEndp).els.filter
      (toVisit b flags none start stop m.info.ext) := List.filter_congr fun e _ => (toVisit_none _ _ _).symm
  rw [mapRange, hplan, Option.bind_some]
  simp only
  rw [hstages, Option.bind_some]
  simp only
  rw [Option.bind_some, hdelete, Option.map_some, harg, hvisited]
  exact ⟨s', rfl, hkept.ordered.of_sameLists hsame, hsame.ext.trans hkept.ext, hsame.next.trans hkept.next⟩

variable (dontUseSoe) in
theorem mapRange_some (hfn : fn.Quiet g flags.mightMoveSoe) (hord : m.info.Ordered stamp) (hle : start ≤ stop)
    (hin : InRange b m.info start stop) (hst : m.st = b.bytebposToMembpos start) (hen : m.en = b.bytebposToMembpos stop)
    (hafter : m.after = none) {r : ℕ} (hr : r ∈ m.info.attached) (hrst : (m.info.ext r).start = m.st)
    (hren : (m.info.ext r).stop = m.en) (hfuel : m.info.extents.numEls < fuel) :
    ∃ s', mapRange dontUseSoe b fuel fn flags (some r) m = some (s', (mapSeq (g m.info.ext)
      ((m.info.extents.ga flags.orderEndp).els.filter (toVisit b flags (some r) start stop m.info.ext)) m.arg).1) := by
  obtain ⟨soe, p, c', m', hplan, hstages, harg, hhas, hkept⟩ := stages_planned (some r) dontUseSoe hfn hord hle hin hst
    hen hafter (fun r' hr' => by rw [← Option.some.inj hr']; exact ⟨hrst, hren⟩) hfuel
  have hatt : r ∈ m'.info.attached := by
    rw [ExtentInfo.attached, hkept.ext]
    exact hr
  obtain ⟨s', hdetach, -, -, -, hdeleted, hsoe⟩ := hkept.ordered.detach hatt
  obtain ⟨s'', hdelete, -⟩ := (hhas.of_detach hdeleted hsoe).deletePosm
  rw [mapRange, hplan, Option.bind_some]
  simp only
  rw [hstages, Option.bind_some]
  simp only
  rw [hdetach, Option.bind_some, hdelete, Option.map_some, harg]
  exact ⟨s'', rfl⟩

theorem filter_inserted {el el' : ExtentList} {ext ext' : Heap} {r : ℕ} {endp : Bool}
    (hinserted : el.Inserted el' ext' stamp r) (hinternal : (ext' r).internal = true) (hr : r ∉ (el.ga endp).els)
    (hext : ∀ e ∈ (el.ga endp).els, ext' e = ext e) :
    (el'.ga endp).els.filter (toVisit b flags (some r) start stop ext') =
      (el.ga endp).els.filter (toVisit b flags none start stop ext) := by
  have hself : toVisit b flags (some r) start stop ext' r = false := by
    simp [toVisit, hinternal]
  rw [hinserted.els, List.filter_append, List.filter_cons_of_neg (by simp [hself]), ← List.filter_append,
    List.take_append_drop]
  refine List.filter_congr fun e he => ?_
  have hne : r ≠ e := (ne_of_mem_of_not_mem he hr).symm
  simp [toVisit, hext e he, hne]

theorem attach_range (hord : s.Ordered stamp) (hle : start ≤ stop) (hin : InRange b s start stop) (flags : MapFlags)
    (hmodify : flags.mightModifyText = true) :
    let made := s.makeExtentDetached ⟨-1, -1, false, !flags.endClosed, false, true⟩
    ∃ s₁ stamp₁, (made.1.setStartEnd made.2 (b.bytebposToMembpos start) (b.bytebposToMembpos stop)).attach made.2 = some s₁ ∧
      s₁.Ordered stamp₁ ∧ s₁.ext = heapDuring b flags start stop s ∧
      s.extents.Inserted s₁.extents s₁.ext stamp₁ s.next ∧ ∀ e, e ∈ s₁.attached ↔ e = s.next ∨ e ∈ s.attached := by
  intro made
  obtain ⟨hmade, hatt⟩ := hord.makeExtentDetached ⟨-1, -1, false, !flags.endClosed, false, true⟩
  have hnew : s.next ∉ s.attached := fun hmem => lt_irrefl _ (hord.used _ hmem)
  obtain ⟨s₁, stamp₁, hattach, hord₁, hext₁, -, -, hinserted, -⟩ := hmade.attach (e := s.next) (hatt.symm ▸ hnew)
    hin.start.1 (bytebposToMembpos_mono hin.layout hle) (Nat.lt_succ_self _)
  have hheap : s₁.ext = heapDuring b flags start stop s := by
    rw [hext₁, heapDuring, if_pos hmodify]
    funext e
    by_cases he : e = s.next <;> simp [ExtentInfo.setStartEnd, ExtentInfo.setExtent, ExtentInfo.makeExtentDetached, he]
  refine ⟨s₁, stamp₁, hattach, hord₁, hheap, hinserted, fun e => ?_⟩
  rw [ExtentInfo.attached, hheap, heapDuring, if_pos hmodify, Set.mem_ofPred_eq]
  by_cases he : e = s.next
  · simp [he, hin.start.1]
  · rw [Function.update_of_ne he]
    exact (or_iff_right he).symm

theorem mapExtents_quiet (hfn : fn.Quiet g flags.mightMoveSoe) (hord : s.Ordered stamp) (hle : start ≤ stop)
    (hin : InRange b s start stop) (arg : α) (hfuel : s.extents.numEls + 1 < fuel) :
    ∃ s', mapExtents dontUseSoe b fuel start stop fn arg none flags s =
      some (s', (mapSeq (g (heapDuring b flags start stop s)) (visited b flags start stop s) arg).1) := by
  rw [mapExtents, Option.any_none, if_neg Bool.false_ne_true]
  by_cases hempty : s.extents.numEls = 0
  · have hnil : (s.extents.ga flags.orderEndp).els = [] :=
      List.length_eq_zero_iff.mp ((hord.list.length_eq _).trans hempty)
    rw [if_pos hempty, visited, hnil]
    exact ⟨s, rfl⟩
  rw [if_neg hempty]
  by_cases hmodify : flags.mightModifyText = true
  · obtain ⟨s₁, stamp₁, hattach, hord₁, hheap, hinserted, hatt⟩ := attach_range hord hle hin flags hmodify
    have hnew : s.next ∉ s.attached := fun hmem => lt_irrefl _ (hord.used _ hmem)
    have hself : s₁.ext s.next =
        ⟨b.bytebposToMembpos start, b.bytebposToMembpos stop, false, !flags.endClosed, false, true⟩ := by
      rw [hheap, heapDuring, if_pos hmodify, Function.update_self]
    have hother : ∀ e ∈ s.attached, s₁.ext e = s.ext e := fun e he => by
      rw [hheap, heapDuring, if_pos hmodify, Function.update_of_ne (ne_of_mem_of_not_mem he hnew)]
    have hin₁ : InRange b s₁ start stop := by
      refine ⟨hin.layout, hin.start, hin.stop, fun e he => ?_⟩
      rcases (hatt e).mp he with rfl | he
      · rw [hself]
        exact ⟨hin.start, hin.stop⟩
      · rw [hother e he]
        exact hin.extents e he
    have hnum : s₁.extents.numEls = s.extents.numEls + 1 := by
      have hlen := congrArg List.length (hinserted.els false)
      rw [List.length_append, List.length_cons, ← Nat.add_assoc, ← List.length_append, List.take_append_drop] at hlen
      exact hlen
    obtain ⟨s', hmap⟩ := mapRange_some dontUseSoe (r := s.next)
      (m := ⟨s₁, arg, none, b.bytebposToMembpos start, b.bytebposToMembpos stop⟩) hfn hord₁ hle hin₁ rfl rfl rfl ((hatt _).mpr (.inl rfl))
      (congrArg Extent.start hself) (congrArg Extent.stop hself) (by simp only [hnum]; exact hfuel)
    have hvisit : (s₁.extents.ga flags.orderEndp).els.filter (toVisit b flags (some s.next) start stop s₁.ext) =
        (s.extents.ga flags.orderEndp).els.filter (toVisit b flags none start stop s.ext) :=
      filter_inserted hinserted (congrArg Extent.internal hself)
        (fun hmem => hnew ((hord.list.mem _ _).mp hmem)) fun e he => hother e ((hord.list.mem _ _).mp he)
    have hvisited : visited b flags start stop s = (s.extents.ga flags.orderEndp).els.filter
        (toVisit b flags none start stop s.ext) := List.filter_congr fun e _ => (toVisit_none _ _ _).symm
    rw [if_pos hmodify, hvisited, ← hheap, ← hvisit]
    exact ⟨s', (congrArg (Option.bind · _) hattach).trans hmap⟩
  · obtain ⟨s', hmap, -⟩ := mapRange_none dontUseSoe
      (m := ⟨s, arg, none, b.bytebposToMembpos start, b.bytebposToMembpos stop⟩) hfn hord hle hin rfl rfl rfl (Nat.lt_of_succ_lt hfuel)
    rw [if_neg hmodify, heapDuring, if_neg hmodify]
    exact ⟨s', hmap⟩

def collect : Mapper (List ℕ) := fun s l e => some (s, l ++ [e], false)

theorem collect_quiet (movesSoe : Bool) : collect.Quiet (fun _ l e => (l ++ [e], false)) movesSoe :=
  fun s _ _ _ hord => ⟨s, rfl, hord, rfl, rfl, rfl, fun _ => rfl⟩

def sixLetters : Buffer :=
  { Buffer.init fun _ => 97 with
    gpt := 7, bufgpt := 7, z := 7, bufz := 7, gapSize := 14, zv := 7, bufzv := 7 }

def nested : Option ExtentInfo :=
  let whole := ExtentInfo.allocate.makeExtentDetached ⟨-1, -1, false, true, false, false⟩
  (whole.1.setExtentEndpoints1 whole.2 1 7).bind fun s =>
    let inner := s.makeExtentDetached ⟨-1, -1, false, true, false, false⟩
    inner.1.setExtentEndpoints1 inner.2 2 4

/-- Extents that end in the range are visited by end. -/
theorem mapExtents_by_end : nested.any (fun s =>
    (mapExtents false sixLetters 4 1 7 collect [] none { MapFlags.zero with inRegion := some .stop } s).map (·.2) =
        some [1, 0] ∧
      extentInRegionP sixLetters (s.ext 0) 1 7 { MapFlags.zero with inRegion := some .stop } ∧
      extentInRegionP sixLetters (s.ext 1) 1 7 { MapFlags.zero with inRegion := some .stop } ∧
      (s.ext 0).less false (s.ext 1)) = true := by
  decide

/-- `map_extents` calls the function on the extents in the region, once each and in order, wherever
the stack of extents is. -/
theorem mapExtents_complete (hord : s.Ordered stamp) (hle : start ≤ stop) (hin : InRange b s start stop)
    (flags : MapFlags) : (visited b flags start stop s).Nodup ∧
    (∀ e, e ∈ visited b flags start stop s ↔ e ∈ s.attached ∧
      ((s.ext e).internal = true → flags.includeInternal = true) ∧ extentInRegionP b (s.ext e) start stop flags = true) ∧
    (visited b flags start stop s).Pairwise (fun e e' => (s.ext e').less flags.orderEndp (s.ext e) = false) ∧
    ∀ (α : Type) (fn : Mapper α) (g : Heap → α → ℕ → α × Bool) (movesSoe dontUseSoe : Bool)
      (soe : Option StackOfExtents) (arg : α) (fuel : ℕ), ({ s with soe := soe } : ExtentInfo).Ordered stamp →
      fn.Quiet g movesSoe → s.extents.numEls + 1 < fuel →
      ∃ s', mapExtents dontUseSoe b fuel start stop fn arg none { flags with mightMoveSoe := movesSoe }
        { s with soe := soe } =
          some (s', (mapSeq (g (heapDuring b flags start stop s)) (visited b flags start stop s) arg).1) := by
  have hsorted := (hord.list.sorted flags.orderEndp).filter fun e =>
    (!(s.ext e).internal || flags.includeInternal) && extentInRegionP b (s.ext e) start stop flags
  refine ⟨hsorted.nodup, fun e => ?_, hsorted.imp fun hlt => ?_, ?_⟩
  · rw [visited, List.mem_filter, hord.list.mem, Bool.and_eq_true]
    refine and_congr_right fun _ => and_congr_left fun _ => ?_
    cases (s.ext e).internal <;> simp
  · rw [Bool.eq_false_iff]
    exact fun hless => hlt.asymm (key_lt_iff.mpr (.inl hless))
  · intro α fn g movesSoe dontUseSoe soe arg fuel hord' hfn hfuel
    have hin' : InRange b { s with soe := soe } start stop := ⟨hin.layout, hin.start, hin.stop, hin.extents⟩
    have hquiet : fn.Quiet g ({ flags with mightMoveSoe := movesSoe } : MapFlags).mightMoveSoe := hfn
    exact mapExtents_quiet hquiet hord' hle hin' arg hfuel

theorem nested_ordered : ∃ s stamp, nested = some s ∧ s.Ordered stamp ∧ InRange sixLetters s 1 7 := by
  have hwhole := ((ExtentInfo.ordered_allocate 0).makeExtentDetached ⟨-1, -1, false, true, false, false⟩).1
  obtain ⟨s, stamp, hs, hord, hext, hnext, -⟩ := hwhole.setExtentEndpoints1 (e := 0) 1 7
    (by decide) (by decide) (by decide)
  have hinner := (hord.makeExtentDetached ⟨-1, -1, false, true, false, false⟩).1
  have hnew : s.next = 1 := hnext
  obtain ⟨s', stamp', hs', hord', hext', -⟩ := hinner.setExtentEndpoints1 (e := s.next) 2 4
    (Nat.lt_succ_self _) (by decide) (by decide)
  refine ⟨s', stamp', ?_, hord', ⟨?_, ?_, ?_, fun e he => ?_⟩⟩
  · rw [nested]
    exact Option.bind_eq_some_iff.mpr ⟨s, hs, hs'⟩
  · exact ⟨by decide, by decide, by decide, by decide, by decide⟩
  · exact ⟨by decide, by decide⟩
  · exact ⟨by decide, by decide⟩
  · rw [ExtentInfo.attached, hext', Set.mem_ofPred_eq] at he
    rw [hext']
    simp only [ExtentInfo.setStartEnd, ExtentInfo.setExtent, ExtentInfo.makeExtentDetached, hnew, hext] at he ⊢
    by_cases h1 : e = 1
    · simp [h1, Indexable]
    by_cases h0 : e = 0
    · simp [h0, Indexable, ExtentInfo.allocate]
    · simp [h0, h1, ExtentInfo.allocate] at he

theorem mapExtents_complete_nested : ∃ s, nested = some s ∧
    (visited sixLetters MapFlags.zero 1 7 s).Nodup ∧
    ∃ s', mapExtents true sixLetters (s.extents.numEls + 2) 1 7 collect [] none
      { MapFlags.zero with mightMoveSoe := true } { s with soe := none } =
        some (s', (mapSeq (fun l e => (l ++ [e], false)) (visited sixLetters MapFlags.zero 1 7 s) []).1) := by
  obtain ⟨s, stamp, hs, hord, hin⟩ := nested_ordered
  obtain ⟨hnodup, -, -, hrun⟩ := mapExtents_complete hord (by decide) hin MapFlags.zero
  exact ⟨s, hs, hnodup, hrun _ _ _ true true none [] _ { hord with soe := fun _ h => nomatch h } (collect_quiet true)
    (Nat.lt_succ_self _)⟩

end XEmacs.Extents
