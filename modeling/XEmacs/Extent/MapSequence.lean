import XEmacs.Extent.ExtentOps
import XEmacs.Extent.MapExtents

/-! What a mapping visits, for a function that leaves the extents as they are: the extents of the
list mapped over that meet the range, whether the position is kept in a marker or not. -/

namespace XEmacs.Extents

open Lib Text

variable {α : Type} {s s' : ExtentInfo} {stamp : ℕ → ℤ} {b : Buffer} {fn : Mapper α} {g : Heap → α → ℕ → α × Bool}
  {overSoe endp : Bool} {pos : ℤ}

/-- A function that leaves the extents as they are and does `g` to its argument. -/
def Mapper.Quiet (fn : Mapper α) (g : Heap → α → ℕ → α × Bool) (movesSoe : Bool) : Prop :=
  ∀ s a e stamp, s.Ordered stamp → ∃ s', fn s a e = some (s', g s.ext a e) ∧ s'.Ordered stamp ∧ s'.ext = s.ext ∧
    s'.next = s.next ∧ s'.extents = s.extents ∧ (movesSoe = false → s'.soe = s.soe)

/-- Call the function on the extents of a list, until it says to stop. -/
def mapSeq (g : α → ℕ → α × Bool) : List ℕ → α → α × Bool
  | [], a => (a, false)
  | e :: l, a => if (g a e).2 then g a e else mapSeq g l (g a e).1

theorem mapSeq_append (g : α → ℕ → α × Bool) (l l' : List ℕ) (a : α) :
    mapSeq g (l ++ l') a = if (mapSeq g l a).2 then mapSeq g l a else mapSeq g l' (mapSeq g l a).1 := by
  induction l generalizing a with
  | nil => rfl
  | cons e l ih =>
    rw [List.cons_append, mapSeq, mapSeq]
    by_cases hstop : (g a e).2 = true
    · rw [if_pos hstop, if_pos hstop, if_pos hstop]
    · rw [if_neg hstop, if_neg hstop, ih]

/-! ### What moving a marker leaves alone -/

namespace ExtentInfo

structure SameLists (s s' : ExtentInfo) : Prop where
  ext : s'.ext = s.ext
  next : s'.next = s.next
  els : ∀ endp, (s'.extents.ga endp).els = (s.extents.ga endp).els
  soePos : s'.soeForce.pos = s.soeForce.pos
  soeEls : ∀ endp, (s'.soeForce.extents.ga endp).els = (s.soeForce.extents.ga endp).els

theorem SameLists.refl (s : ExtentInfo) : SameLists s s := ⟨rfl, rfl, fun _ => rfl, rfl, fun _ => rfl⟩

theorem SameLists.attached (h : SameLists s s') : s'.attached = s.attached := by
  rw [ExtentInfo.attached, h.ext]
  rfl

theorem Ordered.of_sameLists (h : s.Ordered stamp) (hsame : SameLists s s') : s'.Ordered stamp := by
  have hatt := hsame.attached
  constructor
  · rw [hatt, hsame.ext]
    exact h.list.of_ga hsame.els
  · rw [hatt, hsame.ext]
    exact h.proper
  · intro soe hsoe
    have hforce : s'.soeForce = soe := by
      unfold ExtentInfo.soeForce
      rw [hsoe, Option.getD_some]
    rw [hatt, hsame.ext, ← hforce, hsame.soePos]
    exact (Ordered.soeForce h).of_ga hsame.soeEls
  · rw [hatt, hsame.next]
    exact h.used

theorem SameLists.mapped (h : SameLists s s') (overSoe endp : Bool) :
    ((s'.mapped overSoe).ga endp).els = ((s.mapped overSoe).ga endp).els := by
  cases overSoe with
  | false => exact h.els endp
  | true => exact h.soeEls endp

theorem mapped_setMapped (s : ExtentInfo) (overSoe : Bool) (el : ExtentList) :
    (s.setMapped overSoe el).mapped overSoe = el := by
  cases overSoe <;> rfl

theorem sameLists_setMapped {ga : MarkedList ℕ} (hels : ga.els = ((s.mapped overSoe).ga endp).els) :
    SameLists s (s.setMapped overSoe ((s.mapped overSoe).setGa endp ga)) := by
  have hga (endp' : Bool) : (((s.mapped overSoe).setGa endp ga).ga endp').els = ((s.mapped overSoe).ga endp').els := by
    by_cases hendp : endp' = endp
    · rw [hendp, ExtentList.ga_setGa_self, hels]
    · rw [Bool.eq_not_of_ne hendp, ExtentList.ga_setGa_not]
  cases overSoe with
  | false => exact ⟨rfl, rfl, hga, rfl, fun _ => rfl⟩
  | true => exact ⟨rfl, rfl, fun _ => rfl, rfl, hga⟩

end ExtentInfo

namespace MapLoop

variable {c : MapLoop}

/-- The marker, if there is one, is at `pos`. -/
def At (c : MapLoop) (s : ExtentInfo) (pos : ℤ) : Prop :=
  ∀ a, c.posm = some a → markerPos ((s.mapped c.overSoe).ga c.rangeEndp) a = some pos

theorem At.fetchPos (h : c.At s pos) : c.fetchPos s pos = some pos := by
  rw [MapLoop.fetchPos]
  cases hposm : c.posm with
  | none => rfl
  | some a => exact h a hposm

theorem markerPos_move {ga : MarkedList ℕ} {a : ℕ} {pos : ℤ} (h : ga.markers.any (·.1 = a) = true) :
    markerPos { ga with markers := ga.markers.map fun m => if m.1 = a then (m.1, pos) else m } a = some pos := by
  rw [markerPos]
  simp only
  generalize ga.markers = l at h
  induction l with
  | nil => contradiction
  | cons m l ih =>
    rw [List.map_cons, List.find?_cons]
    by_cases hm : m.1 = a
    · simp [hm]
    · rw [List.any_cons] at h
      simp only [hm, decide_false, Bool.false_or, if_false] at h ⊢
      exact ih h

theorem At.any {a : ℕ} (h : c.At s pos) (hposm : c.posm = some a) :
    ((s.mapped c.overSoe).ga c.rangeEndp).markers.any (·.1 = a) = true := by
  obtain ⟨m, hm, -⟩ := Option.map_eq_some_iff.mp (h a hposm)
  rw [List.any_eq_true]
  exact ⟨m, List.mem_of_find?_eq_some hm, by simpa using List.find?_some hm⟩

theorem At.movePosm (h : c.At s pos) {pos' : ℤ} (h0 : 0 ≤ pos')
    (hle : pos' ≤ ((s.mapped c.overSoe).ga c.rangeEndp).els.length) :
    ∃ s', c.movePosm s pos' = some s' ∧ c.At s' pos' ∧ s.SameLists s' := by
  rw [MapLoop.movePosm]
  cases hposm : c.posm with
  | none => exact ⟨s, rfl, fun a ha => absurd (hposm.symm.trans ha) (Option.some_ne_none a).symm, .refl s⟩
  | some a =>
    have hany := h.any hposm
    simp only
    rw [ExtentInfo.stepMapped, MarkedList.step, if_pos ⟨⟨h0, hle⟩, hany⟩, Option.map_some]
    refine ⟨_, rfl, fun a' ha' => ?_, ExtentInfo.sameLists_setMapped rfl⟩
    obtain rfl := Option.some.inj (hposm.symm.trans ha')
    rw [ExtentInfo.mapped_setMapped, ExtentList.ga_setGa_self]
    exact markerPos_move hany

def HasPosm (c : MapLoop) (s : ExtentInfo) : Prop :=
  ∀ a, c.posm = some a → ((s.mapped c.overSoe).ga c.rangeEndp).markers.any (·.1 = a) = true

theorem At.hasPosm (h : c.At s pos) : c.HasPosm s := fun _ => h.any

theorem HasPosm.deletePosm (h : c.HasPosm s) :
    ∃ s', s.deletePosm c.overSoe c.rangeEndp c.posm = some s' ∧ s.SameLists s' := by
  rw [ExtentInfo.deletePosm.eq_def]
  cases hposm : c.posm with
  | none => exact ⟨s, rfl, .refl s⟩
  | some a =>
    simp only
    rw [ExtentInfo.stepMapped, MarkedList.step, if_pos (h a hposm), Option.map_some]
    exact ⟨_, rfl, ExtentInfo.sameLists_setMapped rfl⟩

theorem any_mapPos (ga : MarkedList ℕ) (f : ℤ → ℤ) (a : ℕ) :
    (ga.mapPos f).any (·.1 = a) = ga.markers.any (·.1 = a) := by
  rw [MarkedList.mapPos, List.any_map]
  rfl

theorem HasPosm.detach {el el' : ExtentList} {e : ℕ} {endp : Bool} {a : ℕ} (h : el.Deleted el' e) :
    (el'.ga endp).markers.any (·.1 = a) = (el.ga endp).markers.any (·.1 = a) := by
  obtain ⟨-, hstep⟩ := Option.ite_none_right_eq_some.mp (h endp)
  rw [← Option.some.inj hstep]
  exact any_mapPos _ _ _

theorem HasPosm.of_detach {e : ℕ} (h : c.HasPosm s) (hdeleted : s.extents.Deleted s'.extents e)
    (hsoe : s.SoeChanges s' (s.ext e) fun el el' => el.Deleted el' e) : c.HasPosm s' := by
  intro a ha
  have hold := h a ha
  cases hover : c.overSoe with
  | false =>
    rw [hover] at hold
    exact (detach hdeleted).trans hold
  | true =>
    rw [hover] at hold
    simp only [ExtentInfo.mapped, if_true, ExtentInfo.soeForce] at hold ⊢
    rcases hsoe with ⟨hnone, hnone'⟩ | ⟨soe, el, hsome, hsome', hchange⟩
    · rwa [hnone', ← hnone]
    · rw [hsome, Option.getD_some] at hold
      rw [hsome', Option.getD_some]
      split_ifs at hchange
      · exact (detach hchange).trans hold
      · rw [hchange]
        exact hold

theorem makePosm_spec (overSoe endp : Bool) (h0 : 0 ≤ pos) (hle : pos ≤ ((s.mapped overSoe).ga endp).els.length) :
    ∃ s' a, s.makePosm overSoe endp pos = some (s', a) ∧ s.SameLists s' ∧
      markerPos ((s'.mapped overSoe).ga endp) a = some pos := by
  rw [ExtentInfo.makePosm, ExtentInfo.stepMapped, MarkedList.step, if_pos ⟨h0, hle⟩]
  refine ⟨_, _, rfl, ExtentInfo.sameLists_setMapped rfl, ?_⟩
  rw [ExtentInfo.mapped_setMapped, ExtentList.ga_setGa_self, markerPos]
  simp

/-! ### The loop -/

variable {m : MapState α} {movesSoe : Bool} {e : ℕ}

structure Keeps (c : MapLoop) (movesSoe : Bool) (stamp : ℕ → ℤ) (s s' : ExtentInfo) : Prop where
  ordered : s'.Ordered stamp
  ext : s'.ext = s.ext
  next : s'.next = s.next
  els : ∀ endp, (s'.extents.ga endp).els = (s.extents.ga endp).els
  mapped : ((s'.mapped c.overSoe).ga c.rangeEndp).els = ((s.mapped c.overSoe).ga c.rangeEndp).els
  soePos : movesSoe = false → s'.soeForce.pos = s.soeForce.pos

theorem Keeps.trans {s'' : ExtentInfo} (h : c.Keeps movesSoe stamp s s') (h' : c.Keeps movesSoe stamp s' s'') : c.Keeps movesSoe stamp s s'' :=
  ⟨h'.ordered, h'.ext.trans h.ext, h'.next.trans h.next, fun endp => (h'.els endp).trans (h.els endp), h'.mapped.trans h.mapped,
    fun hstays => (h'.soePos hstays).trans (h.soePos hstays)⟩

theorem Keeps.of_sameLists (hord : s.Ordered stamp) (h : s.SameLists s') : c.Keeps movesSoe stamp s s' :=
  ⟨hord.of_sameLists h, h.ext, h.next, h.els, h.mapped c.overSoe c.rangeEndp, fun _ => h.soePos⟩

def called (c : MapLoop) (b : Buffer) (ext : Heap) (st en : ℤ) (e : ℕ) : Bool :=
  !c.skipped ext e && extentInRegionP b (ext e) (b.membposToBytebpos st) (b.membposToBytebpos en) c.flags

def seen (c : MapLoop) (b : Buffer) (ext : Heap) (st en : ℤ) (l : List ℕ) : List ℕ :=
  (l.takeWhile fun e => c.skipped ext e || decide ((ext e).endpoint c.rangeEndp ≤ en)).filter (c.called b ext st en)

theorem numEls_mapped (h : s.Ordered stamp) (overSoe endp : Bool) :
    ((s.mapped overSoe).ga endp).els.length = (s.mapped overSoe).numEls := by
  cases overSoe with
  | false => exact h.list.length_eq endp
  | true => exact h.soeForce.length_eq endp

/-- What a loop relies on, besides the order of the extents. -/
structure Ready (c : MapLoop) (movesSoe : Bool) (m : MapState α) : Prop where
  after : m.after = none
  range : ∀ r, c.range = some r → (m.info.ext r).start = m.st ∧ (m.info.ext r).stop = m.en
  stays : c.overSoe = true → movesSoe = false
  within : c.overSoe = true →
    ∀ e ∈ ((m.info.mapped c.overSoe).ga c.rangeEndp).els, (m.info.ext e).endpoint c.rangeEndp ≤ m.en

theorem Ready.keeps (h : c.Ready movesSoe m) {info : ExtentInfo} (arg : α) (hkeeps : c.Keeps movesSoe stamp m.info info) :
    c.Ready movesSoe { m with info := info, arg := arg } where
  after := h.after
  range r hr := by
    simp only [hkeeps.ext]
    exact h.range r hr
  stays := h.stays
  within hover := by
    simp only [hkeeps.ext, hkeeps.mapped]
    exact h.within hover

theorem visit_eq (h : c.Ready movesSoe m) :
    c.visit b fn m e =
      if c.skipped m.info.ext e then some (m, false)
      else if (m.info.ext e).endpoint c.rangeEndp > m.en then if c.overSoe then none else some (m, true)
      else if extentInRegionP b (m.info.ext e) (b.membposToBytebpos m.st) (b.membposToBytebpos m.en) c.flags then
        (fn m.info m.arg e).map fun r => ({ m with info := r.1, arg := r.2.1 }, r.2.2)
      else some (m, false) := by
  have hst : (c.range.map fun r => (m.info.ext r).start).getD m.st = m.st := by
    cases hrange : c.range with
    | none => rfl
    | some r => exact (h.range r hrange).1
  have hen : (c.range.map fun r => (m.info.ext r).stop).getD m.en = m.en := by
    cases hrange : c.range with
    | none => rfl
    | some r => exact (h.range r hrange).2
  obtain ⟨info, arg, after, st, en⟩ := m
  obtain rfl : after = none := h.after
  simp only at hst hen
  rw [visit]
  simp only [hst, hen, Option.any_none, Bool.false_eq_true, if_false]

theorem At.congr (h : c.At s pos) (hmapped : s'.mapped c.overSoe = s.mapped c.overSoe) : c.At s' pos := by
  rw [At, hmapped]
  exact h

theorem Keeps.of_quiet (hfn : fn.Quiet g movesSoe) (hstays : c.overSoe = true → movesSoe = false)
    (hord : s.Ordered stamp) (a : α) (e : ℕ) : ∃ s', fn s a e = some (s', g s.ext a e) ∧ c.Keeps movesSoe stamp s s' ∧
      (s'.mapped c.overSoe = s.mapped c.overSoe) := by
  obtain ⟨s', hs', hord', hext, hnext, hextents, hsoe⟩ := hfn s a e stamp hord
  have hmapped : s'.mapped c.overSoe = s.mapped c.overSoe := by
    rw [ExtentInfo.mapped, ExtentInfo.mapped, hextents]
    split_ifs with hover
    · rw [ExtentInfo.soeForce, ExtentInfo.soeForce, hsoe (hstays hover)]
    · rfl
  refine ⟨s', hs', ⟨hord', hext, hnext, fun endp => by rw [hextents], by rw [hmapped], fun h => ?_⟩, hmapped⟩
  rw [ExtentInfo.soeForce, ExtentInfo.soeForce, hsoe h]

theorem seen_cons_of_skipped {ext : Heap} {st en : ℤ} (l : List ℕ) (he : c.skipped ext e = true) :
    c.seen b ext st en (e :: l) = c.seen b ext st en l := by
  simp [seen, called, he]

theorem seen_cons_of_beyond {ext : Heap} {st en : ℤ} (l : List ℕ) (he : c.skipped ext e = false)
    (hen : (ext e).endpoint c.rangeEndp > en) : c.seen b ext st en (e :: l) = [] := by
  simp [seen, he, hen]

theorem seen_cons {ext : Heap} {st en : ℤ} (l : List ℕ) (he : c.skipped ext e = false)
    (hen : (ext e).endpoint c.rangeEndp ≤ en) : c.seen b ext st en (e :: l) =
      if extentInRegionP b (ext e) (b.membposToBytebpos st) (b.membposToBytebpos en) c.flags then
        e :: c.seen b ext st en l
      else c.seen b ext st en l := by
  simp [seen, called, he, hen, List.filter_cons]

theorem seen_eq {ext : Heap} {st en : ℤ} {l : List ℕ}
    (hl : l.Pairwise fun a d => (ext a).endpoint c.rangeEndp ≤ (ext d).endpoint c.rangeEndp)
    (hen : ∀ e ∈ l, c.called b ext st en e = true → (ext e).endpoint c.rangeEndp ≤ en) :
    c.seen b ext st en l = l.filter (c.called b ext st en) := by
  induction l with
  | nil => rfl
  | cons e l ih =>
    obtain ⟨hhead, htail⟩ := List.pairwise_cons.mp hl
    have ih := ih htail fun a ha => hen a (List.mem_cons_of_mem _ ha)
    by_cases hskip : c.skipped ext e = true
    · rw [seen_cons_of_skipped _ hskip, ih, List.filter_cons_of_neg (by simp [called, hskip])]
    rw [Bool.not_eq_true] at hskip
    by_cases hbeyond : (ext e).endpoint c.rangeEndp > en
    · rw [seen_cons_of_beyond _ hskip hbeyond, eq_comm, List.filter_eq_nil_iff]
      intro a ha hcalled
      have hle := hen a ha hcalled
      rcases List.mem_cons.mp ha with rfl | ha
      · exact absurd hbeyond (not_lt.mpr hle)
      · exact absurd (lt_of_lt_of_le hbeyond (hhead a ha)) (not_lt.mpr hle)
    · rw [seen_cons _ hskip (not_lt.mp hbeyond), ih, List.filter_cons]
      simp [called, hskip]

theorem run_quiet (hfn : fn.Quiet g movesSoe) {fuel pos : ℕ} (hord : m.info.Ordered stamp) (h : c.Ready movesSoe m)
    (hat : c.At m.info pos) {l : List ℕ} (hl : ((m.info.mapped c.overSoe).ga c.rangeEndp).els.drop pos = l)
    (hfuel : l.length < fuel) :
    ∃ m' stopped pos', c.run b fn fuel pos m = some (m', stopped) ∧
      m'.arg = (mapSeq (g m.info.ext) (c.seen b m.info.ext m.st m.en l) m.arg).1 ∧
      (c.overSoe = true → stopped = (mapSeq (g m.info.ext) (c.seen b m.info.ext m.st m.en l) m.arg).2) ∧
      c.At m'.info pos' ∧ c.Keeps movesSoe stamp m.info m'.info ∧ m'.after = none ∧ m'.st = m.st ∧ m'.en = m.en := by
  induction fuel generalizing m pos l with
  | zero => exact absurd hfuel (Nat.not_lt_zero _)
  | succ fuel ih =>
    have hkeeps₀ : c.Keeps movesSoe stamp m.info m.info := .of_sameLists hord (.refl _)
    have hnum := numEls_mapped hord c.overSoe c.rangeEndp
    rw [run, hat.fetchPos, Option.bind_some, ← hnum]
    by_cases hend : (pos : ℤ) ≥ ((m.info.mapped c.overSoe).ga c.rangeEndp).els.length
    · rw [if_pos hend]
      obtain rfl : l = [] := hl.symm.trans (List.drop_eq_nil_of_le (by exact_mod_cast hend))
      exact ⟨m, false, pos, rfl, rfl, fun _ => rfl, hat, hkeeps₀, h.after, rfl, rfl⟩
    rw [if_neg hend]
    have hlt : pos < ((m.info.mapped c.overSoe).ga c.rangeEndp).els.length := by exact_mod_cast not_le.mp hend
    obtain ⟨e, l', rfl⟩ : ∃ e l', l = e :: l' := ⟨_, _, hl.symm.trans (List.drop_eq_getElem_cons hlt)⟩
    have hat' : (m.info.mapped c.overSoe).at' pos c.rangeEndp = some e := by
      rw [ExtentList.at', if_pos (Int.natCast_nonneg _), Int.toNat_natCast, ← List.head?_drop, hl]
      rfl
    have htail : ((m.info.mapped c.overSoe).ga c.rangeEndp).els.drop (pos + 1) = l' := by
      rw [← List.drop_drop, hl]
      rfl
    obtain ⟨info, hmove, hatnext, hsame⟩ := hat.movePosm (show (0 : ℤ) ≤ pos + 1 by omega) (by omega)
    have hkeeps₁ : c.Keeps movesSoe stamp m.info info := .of_sameLists hord hsame
    have hready : c.Ready movesSoe { m with info := info } := h.keeps m.arg hkeeps₁
    rw [hat', Option.bind_some, hmove, Option.bind_some, visit_eq hready]
    simp only [hsame.ext]
    -- the rest of the loop, from any state that keeps the lists
    have hrec (info' : ExtentInfo) (arg : α) (hkeeps : c.Keeps movesSoe stamp m.info info') (hnext : c.At info' (pos + 1 : ℕ)) :
        ∃ m' stopped pos', c.run b fn fuel (pos + 1 : ℕ) { m with info := info', arg := arg } = some (m', stopped) ∧
          m'.arg = (mapSeq (g m.info.ext) (c.seen b m.info.ext m.st m.en l') arg).1 ∧
          (c.overSoe = true → stopped = (mapSeq (g m.info.ext) (c.seen b m.info.ext m.st m.en l') arg).2) ∧
          c.At m'.info pos' ∧ c.Keeps movesSoe stamp m.info m'.info ∧ m'.after = none ∧ m'.st = m.st ∧ m'.en = m.en := by
      obtain ⟨m', stopped, pos', hrun, harg, hstop, hatm, hkeeps', hafter, hst, hen⟩ :=
        ih (m := { m with info := info', arg := arg }) (l := l') hkeeps.ordered (h.keeps arg hkeeps) hnext
          (by rw [hkeeps.mapped]; exact htail) (by rw [List.length_cons] at hfuel; omega)
      simp only [hkeeps.ext] at harg hstop
      exact ⟨m', stopped, pos', hrun, harg, hstop, hatm, hkeeps.trans hkeeps', hafter, hst, hen⟩
    by_cases hskip : c.skipped m.info.ext e = true
    · rw [if_pos hskip, Option.bind_some, seen_cons_of_skipped _ hskip]
      exact hrec info m.arg hkeeps₁ hatnext
    rw [if_neg hskip]
    rw [Bool.not_eq_true] at hskip
    by_cases hbeyond : (m.info.ext e).endpoint c.rangeEndp > m.en
    · have hnot : c.overSoe = false := by
        rw [Bool.eq_false_iff]
        intro hover
        have hmem : e ∈ ((m.info.mapped c.overSoe).ga c.rangeEndp).els :=
          List.mem_of_mem_drop (hl ▸ List.mem_cons_self)
        exact absurd (h.within hover e hmem) (not_le.mpr hbeyond)
      rw [if_pos hbeyond, if_neg (by rw [hnot]; exact Bool.false_ne_true), Option.bind_some,
        seen_cons_of_beyond _ hskip hbeyond]
      exact ⟨_, true, _, rfl, rfl, fun hover => absurd (hnot.symm.trans hover) Bool.false_ne_true, hatnext, hkeeps₁,
        h.after, rfl, rfl⟩
    rw [if_neg hbeyond, seen_cons _ hskip (not_lt.mp hbeyond)]
    by_cases hregion : extentInRegionP b (m.info.ext e) (b.membposToBytebpos m.st) (b.membposToBytebpos m.en) c.flags = true
    · obtain ⟨info', hinfo', hkeeps', hmapped⟩ := Keeps.of_quiet hfn h.stays hkeeps₁.ordered m.arg e
      rw [hsame.ext] at hinfo'
      rw [if_pos hregion, if_pos hregion, hinfo', Option.map_some, Option.bind_some, mapSeq]
      by_cases hstop : (g m.info.ext m.arg e).2 = true
      · rw [if_pos hstop, if_pos hstop]
        exact ⟨_, _, _, rfl, rfl, fun _ => rfl, hatnext.congr hmapped, hkeeps₁.trans hkeeps', h.after, rfl, rfl⟩
      · rw [if_neg hstop, if_neg hstop]
        exact hrec info' (g m.info.ext m.arg e).1 (hkeeps₁.trans hkeeps') (hatnext.congr hmapped)
    · rw [if_neg hregion, if_neg hregion, Option.bind_some]
      exact hrec info m.arg hkeeps₁ hatnext

theorem stage_quiet (hfn : fn.Quiet g movesSoe) {fuel pos : ℕ} (hord : m.info.Ordered stamp) (h : c.Ready movesSoe m)
    (hposm : c.posm = none) (hpos : pos ≤ ((m.info.mapped c.overSoe).ga c.rangeEndp).els.length) {l : List ℕ}
    (hl : ((m.info.mapped c.overSoe).ga c.rangeEndp).els.drop pos = l) (hfuel : l.length < fuel) :
    ∃ posm m' stopped, c.stage b fn fuel pos m = some ({ c with posm := posm }, m', stopped) ∧
      m'.arg = (mapSeq (g m.info.ext) (c.seen b m.info.ext m.st m.en l) m.arg).1 ∧
      (c.overSoe = true → stopped = (mapSeq (g m.info.ext) (c.seen b m.info.ext m.st m.en l) m.arg).2) ∧
      HasPosm { c with posm := posm } m'.info ∧ c.Keeps movesSoe stamp m.info m'.info ∧ m'.after = none ∧ m'.st = m.st ∧
      m'.en = m.en := by
  rw [stage]
  split_ifs
  · obtain ⟨info, a, hmake, hsame, hat⟩ := makePosm_spec c.overSoe c.rangeEndp (Int.natCast_nonneg pos)
      (by exact_mod_cast hpos)
    have hkeeps : c.Keeps movesSoe stamp m.info info := .of_sameLists hord hsame
    obtain ⟨h1, h2, h3, h4⟩ := h.keeps m.arg hkeeps
    have hready : Ready { c with posm := some a } movesSoe { m with info := info } := ⟨h1, h2, h3, h4⟩
    have hat' : At { c with posm := some a } info pos := fun a' ha' => by
      obtain rfl := Option.some.inj ha'
      exact hat
    obtain ⟨m', stopped, pos', hrun, harg, hstop, hatm, ⟨hk1, hk2, hk3, hk4, hk5, hk6⟩, hafter, hst, hen⟩ :=
      run_quiet (b := b) hfn (hord.of_sameLists hsame) hready hat' (l := l)
        (by rw [← hl]; exact congrArg (List.drop pos) hkeeps.mapped) hfuel
    simp only [hsame.ext] at harg hstop
    rw [hmake, Option.bind_some]
    simp only
    rw [hrun, Option.map_some]
    exact ⟨some a, m', stopped, rfl, harg, hstop, hatm.hasPosm, hkeeps.trans ⟨hk1, hk2, hk3, hk4, hk5, hk6⟩, hafter, hst, hen⟩
  · have hat : c.At m.info pos := fun a ha => absurd (hposm.symm.trans ha) (Option.some_ne_none a).symm
    obtain ⟨m', stopped, pos', hrun, harg, hstop, hatm, hkeeps, hafter, hst, hen⟩ :=
      run_quiet (b := b) hfn hord h hat hl hfuel
    rw [hrun, Option.map_some]
    refine ⟨none, m', stopped, ?_, harg, hstop, ?_, hkeeps, hafter, hst, hen⟩
    · rw [← hposm]
    · rw [← hposm]
      exact hatm.hasPosm

end MapLoop

end XEmacs.Extents
