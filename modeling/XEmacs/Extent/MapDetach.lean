import XEmacs.Extent.MapComplete

/-! Mapping over extents with a function that detaches some of those it is called on. An extent
that is detached leaves the list mapped over, where the marker for the next one is then moved
back, so none is passed over; and nothing happens to the extents that are not called on. -/

namespace XEmacs.Extents

open Lib Text

variable {α : Type} {s s' : ExtentInfo} {stamp : ℕ → ℤ} {b : Buffer} {fn : Mapper α} {P : Extent → Bool}
  {l l' : List ℕ} {e : ℕ}

/-- A function that detaches the extents which `P` holds of, and does nothing else. -/
def Mapper.Detaches (fn : Mapper α) (P : Extent → Bool) : Prop :=
  ∀ s a e, fn s a e = if P (s.ext e) then (s.detach e).map (·, a, false) else some (s, a, false)

def detachFrom (P : Extent → Bool) (l : List ℕ) (ext : Heap) : Heap := fun e =>
  if e ∈ l ∧ P (ext e) then { ext e with start := -1, stop := -1 } else ext e

/-- What has happened after the extents of a list have been called on. -/
structure DetachedFrom (P : Extent → Bool) (l : List ℕ) (stamp : ℕ → ℤ) (s s' : ExtentInfo) : Prop where
  ordered : s'.Ordered stamp
  next : s'.next = s.next
  ext : s'.ext = detachFrom P l s.ext

namespace DetachedFrom

theorem nil (h : s.Ordered stamp) : DetachedFrom P [] stamp s s :=
  ⟨h, rfl, funext fun _ => (if_neg fun hmem => List.not_mem_nil hmem.1).symm⟩

theorem of_sameLists (h : s.Ordered stamp) (hsame : s.SameLists s') : DetachedFrom P [] stamp s s' :=
  ⟨h.of_sameLists hsame, hsame.next, hsame.ext.trans (nil h).ext⟩

theorem append {s'' : ExtentInfo} (h : DetachedFrom P l stamp s s') (h' : DetachedFrom P l' stamp s' s'') :
    DetachedFrom P (l ++ l') stamp s s'' := by
  refine ⟨h'.ordered, h'.next.trans h.next, ?_⟩
  rw [h'.ext, h.ext]
  funext e
  simp only [detachFrom, List.mem_append]
  by_cases hP : P (s.ext e) = true <;> by_cases hl : e ∈ l <;> by_cases hl' : e ∈ l' <;> simp [hP, hl, hl']

theorem detach (hs' : s'.Ordered stamp) (hnext : s'.next = s.next)
    (hext : s'.ext = (s.setStartEnd e (-1) (-1)).ext) (hP : P (s.ext e) = true) : DetachedFrom P [e] stamp s s' := by
  refine ⟨hs', hnext, ?_⟩
  rw [hext, ExtentInfo.setStartEnd_ext]
  funext a
  simp only [detachFrom, List.mem_singleton]
  by_cases hae : a = e
  · rw [hae, Function.update_self, if_pos ⟨rfl, hP⟩]
  · rw [Function.update_of_ne hae, if_neg fun hmem => hae hmem.1]

theorem keep (h : s.Ordered stamp) (hP : P (s.ext e) = false) : DetachedFrom P [e] stamp s s := by
  refine ⟨h, rfl, funext fun a => (if_neg ?_).symm⟩
  rintro ⟨hmem, hPa⟩
  rw [List.mem_singleton.mp hmem, hP] at hPa
  exact Bool.false_ne_true hPa

theorem ext_of_notMem (h : DetachedFrom P l stamp s s') (he : e ∉ l) : s'.ext e = s.ext e := by
  rw [h.ext]
  exact if_neg fun hmem => he hmem.1

theorem ext_of_attached (h : DetachedFrom P l stamp s s') (he : e ∈ s'.attached) : s'.ext e = s.ext e := by
  rw [ExtentInfo.attached, h.ext, Set.mem_ofPred_eq] at he
  rw [h.ext]
  simp only [detachFrom] at he ⊢
  split_ifs with hmem
  · rw [if_pos hmem] at he
    exact absurd (show (0 : ℤ) ≤ -1 from he) (by decide)
  · rfl

theorem mem_attached (h : DetachedFrom P l stamp s s') (e : ℕ) :
    e ∈ s'.attached ↔ e ∈ s.attached ∧ ¬ (e ∈ l ∧ P (s.ext e) = true) := by
  rw [ExtentInfo.attached, h.ext, Set.mem_ofPred_eq]
  simp only [detachFrom]
  split_ifs with hmem
  · exact iff_of_false (show ¬ (0 : ℤ) ≤ -1 by decide) fun hkept => hkept.2 hmem
  · exact (and_iff_left hmem).symm

theorem attached_subset (h : DetachedFrom P l stamp s s') : s'.attached ⊆ s.attached := fun e he => by
  have hsame := h.ext_of_attached he
  rw [ExtentInfo.attached, Set.mem_ofPred_eq, hsame] at he
  exact he

end DetachedFrom

/-! ### The loop -/

namespace MapLoop

variable {c : MapLoop} {m : MapState α}

theorem seen_congr {ext ext' : Heap} {st en : ℤ} (h : ∀ e ∈ l, ext' e = ext e) :
    c.seen b ext' st en l = c.seen b ext st en l := by
  induction l with
  | nil => rfl
  | cons e l ih =>
    have he := h e List.mem_cons_self
    have ih := ih fun a ha => h a (List.mem_cons_of_mem _ ha)
    have hskip : c.skipped ext' e = c.skipped ext e := by rw [skipped, skipped, he]
    cases hs : c.skipped ext e with
    | true => rw [seen_cons_of_skipped _ hs, seen_cons_of_skipped _ (hskip.trans hs), ih]
    | false =>
      by_cases hen : (ext e).endpoint c.rangeEndp ≤ en
      · rw [seen_cons _ hs hen, seen_cons _ (hskip.trans hs) (he.symm ▸ hen), ih, he]
      · rw [seen_cons_of_beyond _ hs (not_le.mp hen), seen_cons_of_beyond _ (hskip.trans hs) (he.symm ▸ not_le.mp hen)]

theorem mapped_deleted (hord : s.Ordered stamp) (he : e ∈ ((s.mapped c.overSoe).ga c.rangeEndp).els)
    (hdeleted : s.extents.Deleted s'.extents e)
    (hsoe : s.SoeChanges s' (s.ext e) fun el el' => el.Deleted el' e) :
    (s.mapped c.overSoe).Deleted (s'.mapped c.overSoe) e := by
  cases hover : c.overSoe with
  | false => exact hdeleted
  | true =>
    rw [hover] at he
    have hin := ((hord.soeForce.mem c.rangeEndp e).mp he).2
    simp only [ExtentInfo.mapped, if_true, ExtentInfo.soeForce] at hin ⊢
    rcases hsoe with ⟨hnone, -⟩ | ⟨soe, el, hsome, hsome', hchange⟩
    · rw [ExtentInfo.mapped, if_pos rfl, ExtentInfo.soeForce, hnone] at he
      cases hendp : c.rangeEndp <;> rw [hendp] at he <;> exact absurd he List.not_mem_nil
    · rw [hsome, Option.getD_some] at hin
      rw [if_pos hin] at hchange
      rw [hsome, hsome', Option.getD_some, Option.getD_some]
      exact hchange

theorem markerPos_mapPos {ga ga' : MarkedList ℕ} {f : ℤ → ℤ} {a : ℕ} {pos : ℤ} (hga : ga'.markers = ga.mapPos f)
    (h : markerPos ga a = some pos) : markerPos ga' a = some (f pos) := by
  rw [markerPos, hga, MarkedList.mapPos, List.find?_map]
  rw [markerPos] at h
  obtain ⟨m, hm, rfl⟩ := Option.map_eq_some_iff.mp h
  have hname : ((fun m : ℕ × ℤ => decide (m.1 = a)) ∘ fun m : ℕ × ℤ => (m.1, f m.2)) = fun m => decide (m.1 = a) := rfl
  rw [hname, hm]
  rfl

theorem deleted_at {el el' : ExtentList} {endp : Bool} {pos : ℕ} {a : ℕ} (h : el.Deleted el' e)
    (hidx : (el.ga endp).els.idxOf e = pos) (hmarker : markerPos (el.ga endp) a = some ((pos + 1 : ℕ) : ℤ)) :
    (el'.ga endp).els.drop pos = (el.ga endp).els.drop (pos + 1) ∧ markerPos (el'.ga endp) a = some (pos : ℤ) := by
  obtain ⟨⟨-, -, hle⟩, hstep⟩ := Option.ite_none_right_eq_some.mp (h endp)
  have hga := Option.some.inj hstep
  rw [hidx] at hga hle
  constructor
  · have hlen : ((el.ga endp).els.take pos).length = pos := by
      rw [List.length_take]
      omega
    rw [← hga]
    simp only [Int.toNat_natCast]
    rw [List.drop_left' hlen]
    rfl
  · have hpos := markerPos_mapPos (congrArg MarkedList.markers hga.symm) hmarker
    rw [hpos, deletePos, if_neg (by omega), if_pos (by omega)]

theorem run_detaches (hfn : fn.Detaches P) {fuel pos : ℕ} (hord : m.info.Ordered stamp) (h : c.Ready false m)
    (hrange : c.range = none) {a : ℕ} (hposm : c.posm = some a) (hat : c.At m.info pos) {l : List ℕ}
    (hl : ((m.info.mapped c.overSoe).ga c.rangeEndp).els.drop pos = l) (hfuel : l.length < fuel) :
    ∃ m' stopped, c.run b fn fuel pos m = some (m', stopped) ∧ m'.arg = m.arg ∧ (c.overSoe = true → stopped = false) ∧
      c.HasPosm m'.info ∧ DetachedFrom P (c.seen b m.info.ext m.st m.en l) stamp m.info m'.info ∧ m'.after = none ∧
      m'.st = m.st ∧ m'.en = m.en := by
  induction fuel generalizing m pos l with
  | zero => exact absurd hfuel (Nat.not_lt_zero _)
  | succ fuel ih =>
    have hnum := numEls_mapped hord c.overSoe c.rangeEndp
    rw [run, hat.fetchPos, Option.bind_some, ← hnum]
    by_cases hend : (pos : ℤ) ≥ ((m.info.mapped c.overSoe).ga c.rangeEndp).els.length
    · rw [if_pos hend]
      obtain rfl : l = [] := hl.symm.trans (List.drop_eq_nil_of_le (by exact_mod_cast hend))
      exact ⟨m, false, rfl, rfl, fun _ => rfl, hat.hasPosm, .nil hord, h.after, rfl, rfl⟩
    rw [if_neg hend]
    have hlt : pos < ((m.info.mapped c.overSoe).ga c.rangeEndp).els.length := by exact_mod_cast not_le.mp hend
    obtain ⟨e, l', rfl⟩ : ∃ e l', l = e :: l' := ⟨_, _, hl.symm.trans (List.drop_eq_getElem_cons hlt)⟩
    have hat' : (m.info.mapped c.overSoe).at' pos c.rangeEndp = some e := by
      rw [ExtentList.at', if_pos (Int.natCast_nonneg _), Int.toNat_natCast, ← List.head?_drop, hl]
      rfl
    have htail : ((m.info.mapped c.overSoe).ga c.rangeEndp).els.drop (pos + 1) = l' := by
      rw [← List.drop_drop, hl]
      rfl
    have hmem : e ∈ ((m.info.mapped c.overSoe).ga c.rangeEndp).els := List.mem_of_mem_drop (hl ▸ List.mem_cons_self)
    obtain ⟨info, hmove, hatnext, hsame⟩ := hat.movePosm (show (0 : ℤ) ≤ pos + 1 by omega) (by omega)
    have hord₁ := hord.of_sameLists hsame
    have hels := hsame.mapped c.overSoe c.rangeEndp
    have hready : c.Ready false { m with info := info } := h.keeps m.arg (.of_sameLists hord hsame)
    have hnodup : ((m.info.mapped c.overSoe).ga c.rangeEndp).els.Nodup := by
      cases hover : c.overSoe with
      | false => exact (hord.list.sorted _).nodup
      | true => exact (hord.soeForce.sorted _).nodup
    have he : e ∉ l' := by
      have hdrop := hnodup.sublist (List.drop_sublist pos _)
      rw [hl] at hdrop
      exact (List.nodup_cons.mp hdrop).1
    rw [hat', Option.bind_some, hmove, Option.bind_some, visit_eq hready]
    simp only [hsame.ext]
    -- the rest of the loop, with the marker at the extents that follow
    have hrec (info' : ExtentInfo) (pos' : ℕ) (seen : List ℕ) (hdone : DetachedFrom P seen stamp m.info info')
        (hseen : ∀ a ∈ seen, a = e) (hels' : ((info'.mapped c.overSoe).ga c.rangeEndp).els.drop pos' = l')
        (hsub : ∀ a ∈ ((info'.mapped c.overSoe).ga c.rangeEndp).els, a ∈ ((m.info.mapped c.overSoe).ga c.rangeEndp).els ∧
          info'.ext a = m.info.ext a)
        (hnext : c.At info' pos') :
        ∃ m' stopped, c.run b fn fuel (pos + 1 : ℕ) { m with info := info' } = some (m', stopped) ∧ m'.arg = m.arg ∧
          (c.overSoe = true → stopped = false) ∧ c.HasPosm m'.info ∧
          DetachedFrom P (seen ++ c.seen b m.info.ext m.st m.en l') stamp m.info m'.info ∧ m'.after = none ∧
          m'.st = m.st ∧ m'.en = m.en := by
      have hready' : c.Ready false { m with info := info' } := by
        refine ⟨h.after, fun r hr => ?_, h.stays, fun hover a ha => ?_⟩
        · exact absurd (hrange.symm.trans hr) (Option.some_ne_none r).symm
        · obtain ⟨hmem', hsame'⟩ := hsub a ha
          simp only [hsame']
          exact h.within hover a hmem'
      have hfuel' : l'.length < fuel := by
        rw [List.length_cons] at hfuel
        omega
      have hsame' : ∀ a ∈ l', info'.ext a = m.info.ext a := fun a ha => hdone.ext_of_notMem fun hin => he (hseen a hin ▸ ha)
      have hrun : c.run b fn fuel (pos + 1 : ℕ) { m with info := info' } = c.run b fn fuel pos' { m with info := info' } := by
        cases fuel with
        | zero => rfl
        | succ fuel => rw [run, run, fetchPos, fetchPos, hposm]
      obtain ⟨m', stopped, hrest, harg, hstop, hhas, hdone', hafter, hst, hen⟩ :=
        ih (m := { m with info := info' }) hdone.ordered hready' hnext hels' hfuel'
      simp only [seen_congr hsame'] at hdone'
      exact ⟨m', stopped, hrun.trans hrest, harg, hstop, hhas, hdone.append hdone', hafter, hst, hen⟩
    -- what comes after an extent that stays
    have hstays (seen : List ℕ) (hdone : DetachedFrom P seen stamp m.info info) (hseen : ∀ a ∈ seen, a = e) :=
      hrec info (pos + 1) seen hdone hseen (by rw [hels]; exact htail) (fun a ha => ⟨hels ▸ ha, by rw [hsame.ext]⟩) hatnext
    have hnone : DetachedFrom P [] stamp m.info info := .of_sameLists hord hsame
    by_cases hskip : c.skipped m.info.ext e = true
    · rw [if_pos hskip, Option.bind_some, seen_cons_of_skipped _ hskip]
      exact hstays [] hnone (fun a ha => absurd ha List.not_mem_nil)
    rw [if_neg hskip]
    rw [Bool.not_eq_true] at hskip
    by_cases hbeyond : (m.info.ext e).endpoint c.rangeEndp > m.en
    · have hnot : c.overSoe = false := by
        rw [Bool.eq_false_iff]
        exact fun hover => absurd (h.within hover e hmem) (not_le.mpr hbeyond)
      rw [if_pos hbeyond, if_neg (by rw [hnot]; exact Bool.false_ne_true), Option.bind_some,
        seen_cons_of_beyond _ hskip hbeyond]
      exact ⟨_, true, rfl, rfl, fun hover => absurd (hnot.symm.trans hover) Bool.false_ne_true, hatnext.hasPosm, hnone,
        h.after, rfl, rfl⟩
    rw [if_neg hbeyond, seen_cons _ hskip (not_lt.mp hbeyond)]
    by_cases hregion : extentInRegionP b (m.info.ext e) (b.membposToBytebpos m.st) (b.membposToBytebpos m.en) c.flags = true
    swap
    · rw [if_neg hregion, if_neg hregion, Option.bind_some]
      exact hstays [] hnone (fun a ha => absurd ha List.not_mem_nil)
    rw [if_pos hregion, if_pos hregion, hfn, hsame.ext]
    cases hP : P (m.info.ext e) with
    | false =>
      have hkeep : P (info.ext e) = false := by rw [hsame.ext, hP]
      rw [if_neg Bool.false_ne_true, Option.map_some, Option.bind_some]
      exact hstays [e] (hnone.append (.keep hord₁ hkeep)) (fun a => List.mem_singleton.mp)
    | true =>
      have hkeep : P (info.ext e) = true := by rw [hsame.ext, hP]
      have hatt : e ∈ info.attached := by
        rw [hsame.attached]
        cases hover : c.overSoe with
        | false =>
          rw [hover] at hmem
          exact (hord.list.mem _ e).mp hmem
        | true =>
          rw [hover] at hmem
          exact ((hord.soeForce.mem _ e).mp hmem).1
      obtain ⟨s₁, hdetach, hord', hext', hnext', hdeleted, hsoe⟩ := hord₁.detach hatt
      have hmapped := mapped_deleted hord₁ (hels.symm ▸ hmem) hdeleted hsoe
      have hidx : ((info.mapped c.overSoe).ga c.rangeEndp).els.idxOf e = pos := by
        have hget : ((m.info.mapped c.overSoe).ga c.rangeEndp).els[pos] = e := by
          rw [List.drop_eq_getElem_cons hlt] at hl
          exact (List.cons.inj hl).1
        rw [hels, ← hget]
        exact hnodup.idxOf_getElem pos hlt
      have hmarker := deleted_at hmapped hidx (hatnext a hposm)
      rw [if_pos rfl, hdetach, Option.map_some, Option.map_some, Option.bind_some]
      refine hrec s₁ pos [e] (hnone.append (.detach hord' hnext' hext' hkeep)) (fun a => List.mem_singleton.mp) ?_ ?_ ?_
      · rw [hmarker.1, hels]
        exact htail
      · intro d hd
        have herase : d ∈ ((info.mapped c.overSoe).ga c.rangeEndp).els ∧ d ≠ e := by
          have hnodup' : ((info.mapped c.overSoe).ga c.rangeEndp).els.Nodup := hels.symm ▸ hnodup
          rw [hmapped.els, ← List.erase_eq_eraseIdx_of_idxOf rfl, hnodup'.mem_erase_iff] at hd
          exact hd.symm
        refine ⟨hels ▸ herase.1, ?_⟩
        rw [hext', ExtentInfo.setStartEnd_ext, Function.update_of_ne herase.2, hsame.ext]
      · intro a' ha'
        obtain rfl := Option.some.inj (hposm.symm.trans ha')
        exact hmarker.2

theorem mem_seen {ext : Heap} {st en : ℤ} (hl : SortedBy (key ext stamp c.rangeEndp) l)
    (hen : ∀ e ∈ l, c.called b ext st en e = true → (ext e).endpoint c.rangeEndp ≤ en) :
    e ∈ c.seen b ext st en l ↔ e ∈ l ∧ c.called b ext st en e = true := by
  rw [seen_eq (hl.imp endpoint_le_of_key_lt) hen, List.mem_filter]

theorem stage_detaches (hfn : fn.Detaches P) (hflags : c.flags.mightModifyExtents = true) {fuel pos : ℕ}
    (hord : m.info.Ordered stamp) (h : c.Ready false m) (hrange : c.range = none)
    (hpos : pos ≤ ((m.info.mapped c.overSoe).ga c.rangeEndp).els.length) {l : List ℕ}
    (hl : ((m.info.mapped c.overSoe).ga c.rangeEndp).els.drop pos = l) (hfuel : l.length < fuel) :
    ∃ posm m' stopped, c.stage b fn fuel pos m = some ({ c with posm := posm }, m', stopped) ∧ m'.arg = m.arg ∧
      (c.overSoe = true → stopped = false) ∧ HasPosm { c with posm := posm } m'.info ∧
      DetachedFrom P (c.seen b m.info.ext m.st m.en l) stamp m.info m'.info ∧ m'.after = none ∧ m'.st = m.st ∧
      m'.en = m.en := by
  obtain ⟨info, a, hmake, hsame, hat⟩ := makePosm_spec c.overSoe c.rangeEndp (Int.natCast_nonneg pos)
    (by exact_mod_cast hpos)
  have hkeeps : c.Keeps false stamp m.info info := .of_sameLists hord hsame
  obtain ⟨h1, h2, h3, h4⟩ := h.keeps m.arg hkeeps
  have hready : Ready { c with posm := some a } false { m with info := info } := ⟨h1, h2, h3, h4⟩
  have hat' : At { c with posm := some a } info pos := fun a' ha' => by
    obtain rfl := Option.some.inj ha'
    exact hat
  obtain ⟨m', stopped, hrun, harg, hstop, hhas, hdone, hafter, hst, hen⟩ :=
    run_detaches (b := b) hfn (hord.of_sameLists hsame) hready hrange (a := a) rfl hat' (l := l)
      (by rw [← hl]; exact congrArg (List.drop pos) hkeeps.mapped) hfuel
  simp only [hsame.ext] at hdone
  rw [stage, if_pos hflags, hmake, Option.bind_some]
  simp only
  rw [hrun, Option.map_some]
  exact ⟨some a, m', stopped, rfl, harg, hstop, hhas, (DetachedFrom.of_sameLists hord hsame).append hdone, hafter, hst, hen⟩

end MapLoop

/-! ### The whole of it -/

variable {flags : MapFlags} {start stop : ℤ}

theorem called_eq_toVisit (hb : b.Layout) (overSoe endp : Bool) (posm : Option ℕ) (ext : Heap) (e : ℕ) :
    MapLoop.called ⟨flags, none, overSoe, endp, posm⟩ b ext (b.bytebposToMembpos start) (b.bytebposToMembpos stop) e =
      toVisit b flags none start stop ext e := by
  rw [MapLoop.called, membposToBytebpos_bytebposToMembpos hb, membposToBytebpos_bytebposToMembpos hb]
  rfl

theorem toVisit_congr {ext ext' : Heap} (h : ext' e = ext e) :
    toVisit b flags none start stop ext' e = toVisit b flags none start stop ext e := by
  rw [toVisit, toVisit, h]

theorem DetachedFrom.congr (h : DetachedFrom P l stamp s s') (hl : ∀ e, e ∈ l ↔ e ∈ l') : DetachedFrom P l' stamp s s' := by
  refine ⟨h.ordered, h.next, h.ext.trans (funext fun e => ?_)⟩
  simp only [detachFrom, hl]

theorem rangeStage_detaches (hfn : fn.Detaches P) {c : MapLoop} {m : MapState α} {fuel : ℕ} (hc : c = ⟨flags, none, false, false, none⟩)
    (hmodify : flags.mightModifyExtents = true) (hord : m.info.Ordered stamp) (hst : m.st = b.bytebposToMembpos start)
    (hen : m.en = b.bytebposToMembpos stop) (hafter : m.after = none) (hin : InRange b m.info start stop)
    {rangeStart : RangeStart} {from' : ℤ}
    (hpos : rangeStart.pos m.info m.st false = m.info.extents.locateFromPos m.info.ext from' false)
    (hfuel : m.info.extents.numEls < fuel) :
    ∃ c' m' stopped l, c.rangeStage b fn fuel rangeStart m = some (c', m', stopped) ∧ m'.arg = m.arg ∧ c'.HasPosm m'.info ∧
      DetachedFrom P l stamp m.info m'.info ∧ ∀ e, e ∈ l ↔ e ∈ m.info.attached ∧ from' ≤ (m.info.ext e).start ∧
        toVisit b flags none start stop m.info.ext e = true := by
  subst hc
  set c : MapLoop := ⟨flags, none, false, false, none⟩ with hc
  have hready : c.Ready false m := ⟨hafter, fun r hr => absurd hr.symm (Option.some_ne_none r), fun _ => rfl,
    fun hover => absurd hover Bool.false_ne_true⟩
  set l := (m.info.extents.ga false).els.drop (m.info.extents.locateFromPos m.info.ext from' false) with hl
  have hlen : l.length < fuel := by
    rw [hl, List.length_drop]
    exact lt_of_le_of_lt (Nat.sub_le _ _) hfuel
  have hsorted : SortedBy (key m.info.ext stamp false) l :=
    List.Pairwise.sublist (List.drop_sublist _ _) (hord.list.sorted false)
  have hcalled : c.called b m.info.ext m.st m.en = toVisit b flags none start stop m.info.ext := by
    funext e
    rw [hst, hen]
    exact called_eq_toVisit hin.layout _ _ _ _ _
  obtain ⟨posm, m', stopped, hstage, harg, -, hhas, hdone, -⟩ := MapLoop.stage_detaches (b := b) (c := c) hfn hmodify hord hready rfl
    (hord.locateFromPos_le false from') (l := l) rfl hlen
  rw [MapLoop.rangeStage, show c.rangeEndp = false from rfl, hpos]
  refine ⟨_, m', stopped, _, hstage, harg, hhas, hdone, fun e => ?_⟩
  have hdrop : e ∈ l ↔ e ∈ m.info.attached ∧ from' ≤ (m.info.ext e).start := by
    rw [hl, hord.drop_locateFromPos, List.mem_filter, hord.list.mem]
    simp [Extent.endpoint]
  rw [MapLoop.mem_seen (c := c) hsorted, hcalled, hdrop, and_assoc]
  intro a ha hvisit
  have hatt : a ∈ m.info.attached := (hord.list.mem false a).mp (List.mem_of_mem_drop ha)
  rw [hcalled] at hvisit
  rw [hen]
  exact (in_region_bounds hin.start hin.stop (hin.extents a hatt).1 (hin.extents a hatt).2
    (Bool.and_eq_true_iff.mp hvisit).2).1

theorem mem_visited (hord : s.Ordered stamp) :
    e ∈ visited b flags start stop s ↔ e ∈ s.attached ∧ toVisit b flags none start stop s.ext e = true := by
  rw [visited, List.mem_filter, hord.list.mem, toVisit_none]

theorem mapExtents_detaches (hfn : fn.Detaches P) (hregion : flags.inRegion = none) (htext : flags.mightModifyText = false)
    (hmodify : flags.mightModifyExtents = true) (hmoves : flags.mightMoveSoe = false) (hord : s.Ordered stamp)
    (hle : start ≤ stop) (hin : InRange b s start stop) (arg : α) {fuel : ℕ} (hfuel : s.extents.numEls < fuel) :
    ∃ s', mapExtents false b fuel start stop fn arg none flags s = some (s', arg) ∧
      DetachedFrom P (visited b flags start stop s) stamp s s' := by
  rw [mapExtents, Option.any_none, if_neg Bool.false_ne_true]
  by_cases hempty : s.extents.numEls = 0
  · have hnil : (s.extents.ga flags.orderEndp).els = [] :=
      List.length_eq_zero_iff.mp ((hord.list.length_eq _).trans hempty)
    rw [if_pos hempty, visited, hnil]
    exact ⟨s, rfl, .nil hord⟩
  obtain ⟨sel, hmove, hord₀⟩ := hord.soeMove (b.bytebposToMembpos start)
  set s₀ : ExtentInfo := { s with soe := some ⟨sel, b.bytebposToMembpos start⟩ } with hs₀
  have hsel := hord₀.soe _ rfl
  have hin₀ : InRange b s₀ start stop := ⟨hin.layout, hin.start, hin.stop, hin.extents⟩
  have hnot : flags.inRegion ≠ some .start ∧ flags.inRegion ≠ some .startAndEnd ∧ flags.inRegion ≠ some .stop := by
    rw [hregion]
    decide
  have hbounds (a : ℕ) (ha : a ∈ s.attached) (hvisit : toVisit b flags none start stop s.ext a = true) :
      (s.ext a).start ≤ b.bytebposToMembpos stop ∧ b.bytebposToMembpos start ≤ (s.ext a).stop :=
    have hmeets := in_region_bounds hin.start hin.stop (hin.extents a ha).1 (hin.extents a ha).2
      (Bool.and_eq_true_iff.mp hvisit).2
    ⟨hmeets.1, hmeets.2.1⟩
  have hplan : s.planMap false (b.bytebposToMembpos start) flags =
      some (s₀, if sel.numEls > 0 then ⟨true, false, .excluding⟩ else ⟨false, false, .including⟩) := by
    rw [ExtentInfo.planMap, if_neg fun h => h.1.elim hnot.1 hnot.2.1, if_neg fun h => hnot.2.2 h.1,
      if_neg Bool.false_ne_true, hmove, Option.bind_some, hmoves]
    simp only [Bool.false_eq_true, if_false]
    show (if sel.numEls > 0 then _ else _) = _
    split_ifs <;> rfl
  set m₀ : MapState α := ⟨s₀, arg, none, b.bytebposToMembpos start, b.bytebposToMembpos stop⟩ with hm₀
  -- it remains to go through the stages
  have hfinish {p : MapPlan} {c : MapLoop} {m : MapState α} {l : List ℕ}
      (hplan : s.planMap false (b.bytebposToMembpos start) flags = some (s₀, p))
      (hstages : MapLoop.stages ⟨flags, none, p.doSoeStage, p.rangeEndp, none⟩ b fn fuel p.rangeStart m₀ = some (c, m))
      (hhas : c.HasPosm m.info) (harg : m.arg = arg) (hdone : DetachedFrom P l stamp s m.info)
      (hl : ∀ a, a ∈ l ↔ a ∈ visited b flags start stop s) :
      ∃ s', mapRange false b fuel fn flags none ⟨s, arg, none, b.bytebposToMembpos start, b.bytebposToMembpos stop⟩ =
        some (s', arg) ∧ DetachedFrom P (visited b flags start stop s) stamp s s' := by
    obtain ⟨s', hdelete, hsame⟩ := hhas.deletePosm
    rw [mapRange, hplan, Option.bind_some]
    simp only
    rw [hstages, Option.bind_some]
    simp only
    rw [Option.bind_some, hdelete, Option.map_some, harg]
    refine ⟨s', rfl, (hdone.append (.of_sameLists hdone.ordered hsame)).congr fun a => ?_⟩
    rw [List.append_nil]
    exact hl a
  rw [if_neg hempty, if_neg (by rw [htext]; exact Bool.false_ne_true)]
  by_cases hnum : sel.numEls > 0
  · rw [if_pos hnum] at hplan
    set c : MapLoop := ⟨flags, none, true, false, none⟩ with hc
    have hready : c.Ready false m₀ := by
      refine ⟨rfl, fun r hr => absurd hr.symm (Option.some_ne_none r), fun _ => rfl, fun _ a ha => ?_⟩
      have hover := ((hsel.mem false a).mp ha).2
      exact hover.1.trans (bytebposToMembpos_mono hin.layout hle)
    have hlen : (sel.ga false).els.length < fuel := by
      have hels := hord₀.soeForce_els false
      have hfilter := List.length_filter_le (fun a => decide ((s₀.ext a).Overlaps s₀.soeForce.pos)) (s₀.extents.ga false).els
      rw [← hels] at hfilter
      exact lt_of_le_of_lt hfilter hfuel
    obtain ⟨posm, m₁, stopped, hstage, harg₁, hstop, hhas₁, hdone₁, hafter₁, hst₁, hen₁⟩ :=
      @MapLoop.stage_detaches _ stamp b fn P c m₀ hfn hmodify fuel 0 hord₀ hready rfl (Nat.zero_le _) (sel.ga false).els rfl hlen
    obtain ⟨info, hdelete, hsame⟩ := hhas₁.deletePosm
    have hdone₂ := hdone₁.append (.of_sameLists hdone₁.ordered hsame)
    rw [List.append_nil] at hdone₂
    have hin₂ : InRange b info start stop := by
      refine ⟨hin.layout, hin.start, hin.stop, fun a ha => ?_⟩
      rw [hdone₂.ext_of_attached ha]
      exact hin.extents a (hdone₂.attached_subset ha)
    have hnum₂ : info.extents.numEls < fuel := by
      have hsubset : (info.extents.ga false).els ⊆ (s.extents.ga false).els := fun a ha =>
        (hord.list.mem false a).mpr (hdone₂.attached_subset ((hdone₂.ordered.list.mem false a).mp ha))
      exact lt_of_le_of_lt ((hdone₂.ordered.list.sorted false).nodup.subperm hsubset).length_le hfuel
    obtain ⟨c', m', stopped', l, hrange, harg, hhas, hdone, hl⟩ := @rangeStage_detaches _ stamp b fn P flags start stop hfn _
      { m₁ with info := info } fuel rfl hmodify hdone₂.ordered hst₁ hen₁ hafter₁ hin₂ .excluding (m₁.st + 1) rfl hnum₂
    have hall := hdone₂.append hdone
    refine hfinish hplan ?_ hhas (harg.trans harg₁) ⟨hall.ordered, hall.next, hall.ext⟩ fun a => ?_
    · rw [MapLoop.stages, if_pos rfl, hstage, Option.bind_some]
      simp only [hstop rfl, Bool.false_eq_true, if_false]
      rw [hdelete, Option.bind_some, hrange, Option.map_some]
    · have hcalled : c.called b m₀.info.ext m₀.st m₀.en = toVisit b flags none start stop s.ext :=
        funext fun e => called_eq_toVisit hin.layout _ _ _ _ _
      have hseen (d : ℕ) : d ∈ c.seen b m₀.info.ext m₀.st m₀.en (sel.ga false).els ↔
          (d ∈ s.attached ∧ (s.ext d).Overlaps (b.bytebposToMembpos start)) ∧ toVisit b flags none start stop s.ext d = true := by
        rw [MapLoop.mem_seen (c := c) (hsel.sorted false) fun e he hvisit => ?_, hcalled]
        · exact and_congr_left' (hsel.mem false d)
        · rw [hcalled] at hvisit
          exact (hbounds e ((hsel.mem false e).mp he).1 hvisit).1
      rw [List.mem_append, hseen, hl, mem_visited hord]
      simp only [hst₁]
      constructor
      · rintro (⟨⟨ha, -⟩, hvisit⟩ | ⟨ha, -, hvisit⟩)
        · exact ⟨ha, hvisit⟩
        · rw [toVisit_congr (hdone₂.ext_of_attached ha)] at hvisit
          exact ⟨hdone₂.attached_subset ha, hvisit⟩
      · rintro ⟨ha, hvisit⟩
        by_cases hstart : (s.ext a).start ≤ b.bytebposToMembpos start
        · exact .inl ⟨⟨ha, hstart, (hbounds a ha hvisit).2⟩, hvisit⟩
        · -- an extent that starts later is not in the stack of extents
          have hkept : info.ext a = s.ext a := hdone₂.ext_of_notMem fun hmem => hstart ((hseen a).mp hmem).1.2.1
          refine .inr ⟨?_, ?_, (toVisit_congr hkept).trans hvisit⟩
          · rw [ExtentInfo.attached, Set.mem_ofPred_eq, hkept]
            exact ha
          · rw [hkept]
            exact not_le.mp hstart
  · -- nothing overlaps the start
    rw [if_neg hnum] at hplan
    have hafter (a : ℕ) (ha : a ∈ s.attached) (hvisit : toVisit b flags none start stop s.ext a = true) :
        b.bytebposToMembpos start ≤ (s.ext a).start := by
      by_contra hbefore
      exact hnum (List.length_pos_of_mem ((hsel.mem false a).mpr ⟨ha, (not_le.mp hbefore).le, (hbounds a ha hvisit).2⟩))
    obtain ⟨c', m', stopped, l, hstage, harg, hhas, hdone, hl⟩ := @rangeStage_detaches _ stamp b fn P flags start stop hfn _
      m₀ fuel rfl hmodify hord₀ rfl rfl rfl hin₀ .including (b.bytebposToMembpos start) rfl hfuel
    refine hfinish hplan ?_ hhas harg ⟨hdone.ordered, hdone.next, hdone.ext⟩ fun a => ?_
    · rw [MapLoop.stages, if_neg Bool.false_ne_true, hstage, Option.map_some]
    · rw [hl, mem_visited hord]
      exact and_congr_right fun ha => and_iff_right_of_imp fun hvisit => hafter a ha hvisit

end XEmacs.Extents
