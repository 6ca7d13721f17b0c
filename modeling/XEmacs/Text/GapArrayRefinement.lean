import XEmacs.Text.GapArray

/-! The gap array refines a list with markers. A marker that making the gap larger leaves inside it
is less than the inserted length away from its start, so the adjustment that ends the insertion puts
it right. -/

namespace XEmacs.Text

open Lib Lib.Gap

variable {α : Type*}

namespace GapArray

def marks (ga : GapArray α) : List (ℕ × ℤ) :=
  ga.markers.map fun m => (m.addr, decode ga.gap ga.gapsize m.pos)

/-- The gap lies in the array, and markers stand for positions `0 .. numels`, each one
at most `l` cells inside the gap. -/
structure Near (l : ℤ) (ga : GapArray α) : Prop where
  gap_nonneg : 0 ≤ ga.gap
  gap_le : ga.gap ≤ ga.numels
  gapsize_nonneg : 0 ≤ ga.gapsize
  near : ∀ m ∈ ga.markers, m.pos ≤ ga.gap + l ∨ ga.gap + ga.gapsize ≤ m.pos
  bound : ∀ m ∈ ga.markers,
    0 ≤ decode ga.gap ga.gapsize m.pos ∧ decode ga.gap ga.gapsize m.pos ≤ ga.numels

/-- Between operations no marker is strictly inside the gap. -/
abbrev WF (ga : GapArray α) : Prop := Near 0 ga

structure Same (ga ga' : GapArray α) : Prop where
  numels : ga'.numels = ga.numels
  elements : ∀ p, 0 ≤ p → p < ga.numels → ga'.at' p = ga.at' p
  marks : ga'.marks = ga.marks

theorem at'_eq (ga : GapArray α) (p : ℤ) : ga.at' p = view ga.array ga.gap ga.gapsize p := by
  unfold at' arrayToMemoryPos view; split_ifs <;> rfl

theorem Near.mono {l l' : ℤ} {ga : GapArray α} (h : ga.Near l) (hl : l ≤ l') : ga.Near l' :=
  { h with near := fun m hm => (h.near m hm).imp_left (by omega) }

theorem WF.offGap {ga : GapArray α} (h : ga.WF) : ∀ m ∈ ga.markers, OffGap ga.gap ga.gapsize m.pos :=
  fun m hm => by simpa [OffGap] using h.near m hm

theorem WF.markerPos_eq {ga : GapArray α} (h : ga.WF) {m : GapArrayMarker} (hm : m ∈ ga.markers) :
    ga.markerPos m = decode ga.gap ga.gapsize m.pos := by
  have := h.offGap m hm
  unfold markerPos memoryToArrayPos decode OffGap at *
  split_ifs <;> omega

theorem WF.map_markerPos {ga : GapArray α} (h : ga.WF) :
    (ga.markers.map fun m => (m.addr, ga.markerPos m)) = ga.marks :=
  List.map_congr_left fun m hm => by rw [h.markerPos_eq hm]

theorem Same.refl (ga : GapArray α) : Same ga ga := ⟨rfl, fun _ _ _ => rfl, rfl⟩

theorem Same.trans {ga₁ ga₂ ga₃ : GapArray α} (h : Same ga₁ ga₂) (h' : Same ga₂ ga₃) :
    Same ga₁ ga₃ where
  numels := h'.numels.trans h.numels
  elements p h0 h1 := (h'.elements p h0 (h.numels ▸ h1)).trans (h.elements p h0 h1)
  marks := h'.marks.trans h.marks

theorem Same.toList {ga ga' : GapArray α} (h : Same ga ga') : ga'.toList = ga.toList := by
  rw [GapArray.toList, h.numels]
  exact slice_congr h.elements

theorem bound_of_marks {ga ga' : GapArray α} (h : ga'.marks = ga.marks) {n : ℤ}
    (hb : ∀ m ∈ ga.markers, 0 ≤ decode ga.gap ga.gapsize m.pos ∧
      decode ga.gap ga.gapsize m.pos ≤ n) :
    ∀ m ∈ ga'.markers, 0 ≤ decode ga'.gap ga'.gapsize m.pos ∧
      decode ga'.gap ga'.gapsize m.pos ≤ n := by
  intro m hm
  have hmem : (m.addr, decode ga'.gap ga'.gapsize m.pos) ∈ ga.marks :=
    h ▸ List.mem_map_of_mem hm
  obtain ⟨m', hm', heq⟩ := List.mem_map.mp hmem
  simp only [Prod.mk.injEq] at heq
  rw [← heq.2]
  exact hb m' hm'

@[simp] theorem adjustMarkers_gap (ga : GapArray α) (a b c : ℤ) :
    (ga.adjustMarkers a b c).gap = ga.gap := rfl
@[simp] theorem adjustMarkers_gapsize (ga : GapArray α) (a b c : ℤ) :
    (ga.adjustMarkers a b c).gapsize = ga.gapsize := rfl
@[simp] theorem adjustMarkers_numels (ga : GapArray α) (a b c : ℤ) :
    (ga.adjustMarkers a b c).numels = ga.numels := rfl
@[simp] theorem adjustMarkers_array (ga : GapArray α) (a b c : ℤ) :
    (ga.adjustMarkers a b c).array = ga.array := rfl

@[simp] theorem moveGap_gap (ga : GapArray α) (pos : ℤ) : (ga.moveGap pos).gap = pos := rfl

@[simp] theorem moveGap_gapsize (ga : GapArray α) (pos : ℤ) :
    (ga.moveGap pos).gapsize = ga.gapsize := by
  simp only [moveGap]; split_ifs <;> rfl

@[simp] theorem moveGap_numels (ga : GapArray α) (pos : ℤ) :
    (ga.moveGap pos).numels = ga.numels := by
  simp only [moveGap]; split_ifs <;> rfl

theorem view_moveGap (ga : GapArray α) (pos : ℤ) (hk : 0 ≤ ga.gapsize) (p : ℤ) :
    view (ga.moveGap pos).array pos ga.gapsize p = view ga.array ga.gap ga.gapsize p := by
  simp only [moveGap]
  split_ifs with h1 h2
  · exact view_move_left _ h1.le hk p
  · exact view_move_right _ (by omega) hk p
  · rw [show pos = ga.gap by omega]

theorem moveGap_markers (ga : GapArray α) {pos : ℤ} (hk : 0 ≤ ga.gapsize) (hne : pos ≠ ga.gap) :
    ∃ f : ℤ → ℤ, (ga.moveGap pos).markers = ga.markers.map (fun m => { m with pos := f m.pos }) ∧
      ∀ m, decode pos ga.gapsize (f m) = decode ga.gap ga.gapsize m ∧ OffGap pos ga.gapsize (f m) := by
  simp only [moveGap]
  split_ifs with h1 h2
  · exact ⟨_, rfl, fun m => ⟨decode_adjust_left h1.le hk m, offGap_adjust_left h1 hk m⟩⟩
  · exact ⟨_, rfl, fun m => ⟨decode_adjust_right (by omega) hk m, offGap_adjust_right (by omega) hk m⟩⟩
  · omega

theorem moveGap_same (ga : GapArray α) (pos : ℤ) (hk : 0 ≤ ga.gapsize) : Same ga (ga.moveGap pos) where
  numels := moveGap_numels ga pos
  elements p _ _ := by
    rw [at'_eq, at'_eq, moveGap_gap, moveGap_gapsize, view_moveGap ga pos hk]
  marks := by
    by_cases hne : pos = ga.gap
    · subst hne; simp [moveGap]
    · obtain ⟨f, hf, hd⟩ := moveGap_markers ga hk hne
      simp [marks, hf, hd]

theorem moveGap_wf {l pos : ℤ} {ga : GapArray α} (h : ga.Near l) (h0 : 0 ≤ pos)
    (hle : pos ≤ ga.numels) (hne : pos ≠ ga.gap) : (ga.moveGap pos).WF where
  gap_nonneg := h0
  gap_le := by simpa using hle
  gapsize_nonneg := by simpa using h.gapsize_nonneg
  near m hm := by
    obtain ⟨f, hf, hd⟩ := moveGap_markers ga h.gapsize_nonneg hne
    rw [hf, List.mem_map] at hm
    obtain ⟨m', _, rfl⟩ := hm
    simpa [OffGap] using (hd m'.pos).2
  bound := by
    have := bound_of_marks (moveGap_same ga pos h.gapsize_nonneg).marks h.bound
    simpa using this

theorem makeGap_gap (ga : GapArray α) (i : ℤ) : (ga.makeGap i).gap = ga.gap := rfl

theorem makeGap_gapsize (ga : GapArray α) (i : ℤ) :
    (ga.makeGap i).gapsize = ga.gapsize + (i + (100 + ga.numels / 8)) := by
  simp [makeGap, add_comm]

theorem makeGap_numels (ga : GapArray α) (i : ℤ) : (ga.makeGap i).numels = ga.numels := by
  simp [makeGap]

theorem makeGap_spec {ga : GapArray α} (h : ga.WF) {i : ℤ} (hi : 0 ≤ i) :
    Same ga (ga.makeGap i) ∧ (ga.makeGap i).Near ga.gapsize := by
  have hn := h.gap_nonneg
  have hgn := h.gap_le
  have hk := h.gapsize_nonneg
  -- the space as `gap_array_move_gap` sees it: one gap of the new cells at the end
  set j := i + (100 + ga.numels / 8) with hj
  have hj0 : 0 ≤ j := by omega
  set pre : GapArray α := { ga with gap := ga.numels + ga.gapsize, gapsize := j } with hpre
  have harr : (ga.makeGap i).array = (pre.moveGap (ga.gap + ga.gapsize)).array := rfl
  have hmk : (ga.makeGap i).markers = (pre.moveGap (ga.gap + ga.gapsize)).markers := rfl
  have hsize : (ga.makeGap i).gapsize = ga.gapsize + j := makeGap_gapsize ga i
  have hview : ∀ q, q < ga.numels + ga.gapsize →
      view (ga.makeGap i).array (ga.gap + ga.gapsize) j q = ga.array q := by
    intro q hq
    rw [harr, view_moveGap pre _ hj0, view, if_pos hq]
  have hmem : ∀ m ∈ ga.markers, m.pos ≤ ga.numels + ga.gapsize := by
    intro m hm
    have := (h.bound m hm).2
    have := h.offGap m hm
    unfold decode OffGap at *
    split_ifs at * <;> omega
  have hmarkers : (ga.makeGap i).markers = ga.markers.map fun m =>
      { m with pos := doMarkerAdjustment m.pos (ga.gap + ga.gapsize) (ga.numels + ga.gapsize) j } := by
    rw [hmk]
    simp only [moveGap, hpre]
    split_ifs with h1 h2
    · rfl
    · omega
    · -- the gap already ends the array: nothing moves, and the adjustment is the identity
      symm
      conv_rhs => rw [← List.map_id ga.markers]
      refine List.map_congr_left fun m hm => ?_
      have hid : doMarkerAdjustment m.pos (ga.gap + ga.gapsize) (ga.numels + ga.gapsize) j = m.pos := by
        unfold doMarkerAdjustment; grind
      rw [hid]; rfl
  have hmarks : (ga.makeGap i).marks = ga.marks := by
    rw [marks, marks, hmarkers, List.map_map]
    refine List.map_congr_left fun m hm => ?_
    simp only [Function.comp_apply, makeGap_gap, hsize]
    rw [decode_adjust_grow hgn hk hj0 (hmem m hm)]
  refine ⟨⟨makeGap_numels ga i, fun p hp0 hpn => ?_, hmarks⟩, ?_⟩
  · rw [at'_eq, at'_eq, makeGap_gap, hsize, view_join _ hk]
    exact view_congr hk hview hpn
  · refine ⟨hn, by rw [makeGap_numels, makeGap_gap]; exact hgn, by omega, fun m hm => ?_, ?_⟩
    · rw [hmarkers, List.mem_map] at hm
      obtain ⟨m', hm', rfl⟩ := hm
      have := adjust_grow_bound hj0 (h.offGap m' hm') (hmem m' hm')
      simp only [makeGap_gap, hsize]
      omega
    · rw [makeGap_numels]; exact bound_of_marks hmarks h.bound

/-! ### Insertion and deletion -/

theorem insertEls_spec {ga ga' : GapArray α} (h : ga.WF) {pos : ℤ} {els : List α}
    (hins : ga.insertEls pos els = some ga') :
    (0 ≤ pos ∧ pos ≤ ga.numels) ∧ ga'.WF ∧ ga'.numels = ga.numels + els.length ∧
      ga'.toList = ga.toList.take pos.toNat ++ els ++ ga.toList.drop pos.toNat ∧
      ga'.marks = ga.marks.map fun m => (m.1, insertPos pos els.length true m.2) := by
  have hpos : 0 ≤ pos ∧ pos ≤ ga.numels := by
    by_contra hc
    rw [insertEls, if_neg hc] at hins
    contradiction
  rw [insertEls, if_pos hpos, Option.some.injEq] at hins
  -- room for the elements, then the gap at the insertion point
  set ga₁ := if ga.gapsize < els.length then ga.makeGap (els.length - ga.gapsize) else ga with h₁
  have s₁ : Same ga ga₁ ∧ ga₁.Near els.length ∧ (els.length : ℤ) ≤ ga₁.gapsize := by
    rw [h₁]
    split_ifs with hlt
    · obtain ⟨hs, hn⟩ := makeGap_spec h (i := els.length - ga.gapsize) (by omega)
      exact ⟨hs, hn.mono hlt.le, by rw [makeGap_gapsize]; omega⟩
    · exact ⟨.refl ga, h.mono (by omega), by omega⟩
  set ga₂ := if pos ≠ ga₁.gap then ga₁.moveGap pos else ga₁ with h₂
  have s₂ : Same ga₁ ga₂ ∧ ga₂.Near els.length ∧ ga₂.gap = pos ∧ ga₂.gapsize = ga₁.gapsize := by
    rw [h₂]
    split_ifs with hne
    · exact ⟨moveGap_same _ _ s₁.2.1.gapsize_nonneg,
        (moveGap_wf s₁.2.1 hpos.1 (s₁.1.numels ▸ hpos.2) hne).mono (by omega), rfl,
        moveGap_gapsize _ _⟩
    · exact ⟨.refl _, s₁.2.1, by omega, rfl⟩
  have same : Same ga ga₂ := s₁.1.trans s₂.1
  obtain ⟨-, near, hgap, hsz⟩ := s₂
  have hk : (els.length : ℤ) ≤ ga₂.gapsize := hsz ▸ s₁.2.2
  subst hins
  have hnum : ga₂.numels = ga.numels := same.numels
  refine ⟨hpos, ⟨?_, ?_, ?_, ?_, ?_⟩, by simp [hnum], ?_, ?_⟩
  · simp only [adjustMarkers_gap, hgap]; omega
  · simp only [adjustMarkers_gap, adjustMarkers_numels, hgap, hnum]; omega
  · simp only [adjustMarkers_gapsize]; omega
  · intro m hm
    obtain ⟨m', hm', rfl⟩ := List.mem_map.mp hm
    have hnear := near.near m' hm'
    rw [hgap] at hnear
    have := offGap_adjust_insert (g := pos) (k := ga₂.gapsize) (n := els.length) (by omega) hnear
    simpa [OffGap, hgap] using this
  · intro m hm
    obtain ⟨m', hm', rfl⟩ := List.mem_map.mp hm
    have hb := near.bound m' hm'
    simp only [adjustMarkers_gap, adjustMarkers_gapsize, adjustMarkers_numels, hgap] at hb ⊢
    rw [decode_adjust_insert (by omega) hk, insertPos]
    split_ifs <;> omega
  · rw [← same.toList, toList, toList, adjustMarkers_numels]
    refine slice_insert hpos.1 (hnum ▸ hpos.2) (fun p _ hp => ?_) (fun j hj => ?_) (fun p hp _ => ?_)
    · rw [at'_eq, at'_eq]
      simp only [adjustMarkers_array, adjustMarkers_gap, adjustMarkers_gapsize]
      rw [view_insert _ hk, hgap, if_pos hp]
    · rw [at'_eq]
      simp only [adjustMarkers_array, adjustMarkers_gap, adjustMarkers_gapsize]
      rw [view_insert _ hk, hgap, if_neg (by omega), if_pos (by omega)]
      simp [hj]
    · rw [at'_eq, at'_eq]
      simp only [adjustMarkers_array, adjustMarkers_gap, adjustMarkers_gapsize]
      rw [view_insert _ hk, hgap, if_neg (by omega), if_neg (by omega)]
      congr 1; omega
  · rw [← same.marks, marks, marks]
    simp only [adjustMarkers, List.map_map]
    refine List.map_congr_left fun m _ => ?_
    simp only [Function.comp_apply, hgap]
    rw [decode_adjust_insert (by omega) hk]

theorem deleteEls_spec {ga ga' : GapArray α} (h : ga.WF) {start n : ℤ}
    (hdel : ga.deleteEls start n = some ga') :
    (0 ≤ start ∧ 0 ≤ n ∧ start + n ≤ ga.numels) ∧ ga'.WF ∧ ga'.numels = ga.numels - n ∧
      ga'.toList = ga.toList.take start.toNat ++ ga.toList.drop (start + n).toNat ∧
      ga'.marks = ga.marks.map fun m => (m.1, deletePos start (start + n) m.2) := by
  simp only [deleteEls] at hdel
  have hpos : 0 ≤ start ∧ 0 ≤ n ∧ start + n ≤ ga.numels := by
    by_contra hc
    rw [if_neg hc] at hdel
    contradiction
  rw [if_pos hpos, Option.some.injEq] at hdel
  -- the gap somewhere in or next to what is deleted
  set ga₁ := if start + n < ga.gap then ga.moveGap (start + n) else ga with h₁
  have s₁ : Same ga ga₁ ∧ ga₁.WF ∧ ga₁.gap ≤ start + n ∧ ga₁.gapsize = ga.gapsize := by
    rw [h₁]
    split_ifs with hlt
    · exact ⟨moveGap_same _ _ h.gapsize_nonneg, moveGap_wf h (by omega) hpos.2.2 (by omega),
        le_rfl, moveGap_gapsize _ _⟩
    · exact ⟨.refl ga, h, by omega, rfl⟩
  set ga₂ := if start > ga₁.gap then ga₁.moveGap start else ga₁ with h₂
  have s₂ : Same ga₁ ga₂ ∧ ga₂.WF ∧ (start ≤ ga₂.gap ∧ ga₂.gap ≤ start + n) ∧
      ga₂.gapsize = ga.gapsize := by
    have hnum := s₁.1.numels
    rw [h₂]
    split_ifs with hlt
    · exact ⟨moveGap_same _ _ s₁.2.1.gapsize_nonneg,
        moveGap_wf s₁.2.1 hpos.1 (by omega) (by omega), ⟨le_rfl, by simp; omega⟩,
        by rw [moveGap_gapsize, s₁.2.2.2]⟩
    · exact ⟨.refl _, s₁.2.1, ⟨by omega, s₁.2.2.1⟩, s₁.2.2.2⟩
  have same : Same ga ga₂ := s₁.1.trans s₂.1
  obtain ⟨-, wf, ⟨hg1, hg2⟩, hsz⟩ := s₂
  have hk := wf.gapsize_nonneg
  have hnum : ga₂.numels = ga.numels := same.numels
  have hamt : -n - ga.gapsize = -(start + n - start) - ga₂.gapsize := by omega
  have hgs : ga₂.gapsize + n = ga₂.gapsize + (start + n - start) := by omega
  subst hdel
  rw [← hsz] at hamt ⊢
  refine ⟨hpos, ⟨hpos.1, ?_, ?_, ?_, ?_⟩, by simp [hnum], ?_, ?_⟩
  · simp only [adjustMarkers_numels, hnum]; omega
  · simp only [adjustMarkers_gapsize]; omega
  · intro m hm
    obtain ⟨m', -, rfl⟩ := List.mem_map.mp hm
    simp only [adjustMarkers_gapsize, hamt, hgs, add_zero]
    exact offGap_adjust_delete _
  · intro m hm
    obtain ⟨m', hm', rfl⟩ := List.mem_map.mp hm
    have hb := wf.bound m' hm'
    simp only [adjustMarkers_gapsize, adjustMarkers_numels, hamt, hgs]
    rw [decode_adjust_delete hg1 hg2 hk, deletePos]
    split_ifs <;> omega
  · rw [← same.toList, toList, toList, adjustMarkers_numels]
    refine slice_delete hpos.1 hpos.2.1 (hnum ▸ hpos.2.2) (fun p _ hp => ?_) (fun p hp _ => ?_)
    · rw [at'_eq, at'_eq]
      simp only [adjustMarkers_array, adjustMarkers_gapsize]
      rw [view_delete _ hg1 hg2, if_pos hp]
    · rw [at'_eq, at'_eq]
      simp only [adjustMarkers_array, adjustMarkers_gapsize]
      rw [view_delete _ hg1 hg2, if_neg (by omega)]
  · rw [← same.marks, marks, marks]
    simp only [adjustMarkers, List.map_map]
    refine List.map_congr_left fun m _ => ?_
    simp only [Function.comp_apply, hamt, hgs]
    rw [decode_adjust_delete hg1 hg2 hk]

theorem decode_arrayToMemoryPos {ga : GapArray α} (h : ga.WF) (pos : ℤ) :
    decode ga.gap ga.gapsize (ga.arrayToMemoryPos pos) = pos ∧
      OffGap ga.gap ga.gapsize (ga.arrayToMemoryPos pos) := by
  have := h.gapsize_nonneg
  unfold decode OffGap arrayToMemoryPos
  split_ifs <;> omega

end GapArray

/-! ### Runs -/

namespace GapArrayState

/-- Each marker in memory is either live or free, once. -/
structure Owned (s : GapArrayState α) : Prop where
  nodup : (s.ga.markers.map (·.addr) ++ s.freelist).Nodup
  allocated : ∀ a ∈ s.ga.markers.map (·.addr) ++ s.freelist, a < s.nextAddr

/-- The gap array stands for the list `r` of elements and markers. -/
structure Refines (s : GapArrayState α) (r : MarkedList α) : Prop where
  wf : s.ga.WF
  owned : s.Owned
  toList : s.ga.toList = r.els
  marks : s.ga.marks = r.markers

theorem Refines.numels {s : GapArrayState α} {r : MarkedList α} (h : Refines s r) :
    s.ga.numels = r.els.length := by
  have := h.wf.gap_nonneg
  have := h.wf.gap_le
  rw [← h.toList, GapArray.toList, length_slice]
  omega

theorem Owned.of_addrs {s : GapArrayState α} {ga : GapArray α} (h : s.Owned)
    (haddr : ga.marks.map Prod.fst = s.ga.marks.map Prod.fst) : Owned { s with ga := ga } := by
  have key : ga.markers.map (·.addr) = s.ga.markers.map (·.addr) := by
    simpa [GapArray.marks, Function.comp_def] using haddr
  exact ⟨by simpa only [key] using h.nodup, by simpa only [key] using h.allocated⟩

theorem Refines.link {s : GapArrayState α} {r : MarkedList α} (h : Refines s r) {pos : ℤ}
    (hpos : 0 ≤ pos ∧ pos ≤ s.ga.numels) {addr n : ℕ} {free : List ℕ}
    (hown : Owned ⟨{ s.ga with markers := ⟨addr, s.ga.arrayToMemoryPos pos⟩ :: s.ga.markers },
      free, n⟩) :
    Refines ⟨{ s.ga with markers := ⟨addr, s.ga.arrayToMemoryPos pos⟩ :: s.ga.markers }, free, n⟩
      { r with markers := (addr, pos) :: r.markers } where
  wf := by
    obtain ⟨hdec, hoff⟩ := GapArray.decode_arrayToMemoryPos h.wf pos
    refine { h.wf with near := ?_, bound := ?_ }
    · rintro m (_ | ⟨_, hm⟩)
      · simpa [OffGap] using hoff
      · exact h.wf.near m hm
    · rintro m (_ | ⟨_, hm⟩)
      · simpa [hdec] using hpos
      · exact h.wf.bound m hm
  owned := hown
  toList := h.toList
  marks := by
    simp [GapArray.marks, ← h.marks, (GapArray.decode_arrayToMemoryPos h.wf pos).1]

theorem any_addr (ga : GapArray α) (addr : ℕ) :
    ga.marks.any (·.1 = addr) = ga.markers.any (·.addr = addr) := by
  simp [GapArray.marks, List.any_map, Function.comp_def]

theorem makeMarker_refines {s t : GapArrayState α} {r : MarkedList α} (h : Refines s r)
    {pos : ℤ} {addr : ℕ} (hs : s.makeMarker pos = some (t, addr)) :
    (0 ≤ pos ∧ pos ≤ s.ga.numels) ∧ Refines t { r with markers := (addr, pos) :: r.markers } := by
  have hpos : 0 ≤ pos ∧ pos ≤ s.ga.numels := by
    by_contra hc
    rw [makeMarker, if_neg hc] at hs
    contradiction
  rw [makeMarker, if_pos hpos] at hs
  refine ⟨hpos, ?_⟩
  obtain ⟨hnd, hall⟩ := h.owned
  cases hfree : s.freelist with
  | nil =>
    rw [hfree] at hs hnd hall
    simp only [Option.some.injEq, Prod.mk.injEq] at hs
    obtain ⟨rfl, rfl⟩ := hs
    refine h.link hpos ⟨?_, ?_⟩
    · simp only [List.map_cons, List.append_nil, List.nodup_cons] at hnd ⊢
      exact ⟨fun hmem => lt_irrefl _ (hall _ (by simpa using hmem)), hnd⟩
    · intro a ha
      simp only [List.map_cons, List.append_nil, List.mem_cons] at ha
      rcases ha with rfl | ha
      · exact Nat.lt_succ_self _
      · exact Nat.lt_succ_of_lt (hall a (by simpa using ha))
  | cons m rest =>
    rw [hfree] at hs hnd hall
    simp only [Option.some.injEq, Prod.mk.injEq] at hs
    obtain ⟨rfl, rfl⟩ := hs
    refine h.link hpos ⟨?_, fun a ha => hall a ?_⟩
    · exact List.perm_middle.nodup_iff.mp hnd
    · exact List.perm_middle.symm.subset ha

theorem moveMarker_refines {s t : GapArrayState α} {r : MarkedList α} (h : Refines s r)
    {pos : ℤ} {addr : ℕ} (hs : s.moveMarker addr pos = some t) :
    ((0 ≤ pos ∧ pos ≤ s.ga.numels) ∧ r.markers.any (·.1 = addr)) ∧
      Refines t { r with markers := r.markers.map fun m => if m.1 = addr then (m.1, pos) else m } := by
  have hok : (0 ≤ pos ∧ pos ≤ s.ga.numels) ∧ s.ga.markers.any (·.addr = addr) := by
    by_contra hc
    rw [moveMarker, if_neg hc] at hs
    contradiction
  rw [moveMarker, if_pos hok, Option.some.injEq] at hs
  subst hs
  obtain ⟨hdec, hoff⟩ := GapArray.decode_arrayToMemoryPos h.wf pos
  refine ⟨⟨hok.1, by rw [← h.marks, any_addr]; exact hok.2⟩, ⟨?_, h.owned.of_addrs ?_, h.toList, ?_⟩⟩
  · refine { h.wf with near := ?_, bound := ?_ }
    · intro m hm
      obtain ⟨m', hm', rfl⟩ := List.mem_map.mp hm
      by_cases heq : m'.addr = addr
      · simpa [heq, OffGap] using hoff
      · simpa [heq] using h.wf.near m' hm'
    · intro m hm
      obtain ⟨m', hm', rfl⟩ := List.mem_map.mp hm
      by_cases heq : m'.addr = addr
      · simpa [heq, hdec] using hok.1
      · simpa [heq] using h.wf.bound m' hm'
  · simp only [GapArray.marks, List.map_map]
    refine List.map_congr_left fun m _ => ?_
    by_cases heq : m.addr = addr <;> simp [heq]
  · simp only [GapArray.marks, ← h.marks, List.map_map]
    refine List.map_congr_left fun m _ => ?_
    by_cases heq : m.addr = addr <;> simp [heq, hdec]

theorem deleteMarker_refines {s t : GapArrayState α} {r : MarkedList α} (h : Refines s r)
    {addr : ℕ} (hs : s.deleteMarker addr = some t) :
    r.markers.any (·.1 = addr) ∧
      Refines t { r with markers := r.markers.eraseP (·.1 = addr) } := by
  have hok : s.ga.markers.any (·.addr = addr) := by
    by_contra hc
    rw [deleteMarker, if_neg hc] at hs
    contradiction
  rw [deleteMarker, if_pos hok, Option.some.injEq] at hs
  subst hs
  have hsub : (s.ga.markers.eraseP (·.addr = addr)).Sublist s.ga.markers := List.eraseP_sublist
  obtain ⟨x, hx, hxa⟩ := List.any_eq_true.mp hok
  obtain ⟨m, l₁, l₂, -, hm, hl, he⟩ := List.exists_of_eraseP (p := (·.addr = addr)) hx hxa
  have hperm : ((s.ga.markers.eraseP (·.addr = addr)).map (·.addr) ++ addr :: s.freelist).Perm
      (s.ga.markers.map (·.addr) ++ s.freelist) := by
    have hma : m.addr = addr := by simpa using hm
    rw [he, hl]
    simp only [List.map_append, List.map_cons, List.append_assoc, List.cons_append, hma]
    exact (List.perm_middle.append_left _).trans (by simp)
  refine ⟨by rw [← h.marks, any_addr]; exact hok, ⟨?_, ⟨?_, ?_⟩, h.toList, ?_⟩⟩
  · exact { h.wf with
      near := fun m hm => h.wf.near m (hsub.subset hm)
      bound := fun m hm => h.wf.bound m (hsub.subset hm) }
  · exact hperm.nodup_iff.mpr h.owned.nodup
  · exact fun a ha => h.owned.allocated a (hperm.subset ha)
  · simp only [GapArray.marks, ← h.marks, List.eraseP_map]
    rfl

theorem step_refines {s t : GapArrayState α} {r : MarkedList α} {op : GapArrayOp α}
    (h : Refines s r) (hs : s.step op = some t) : ∃ u, r.step op = some u ∧ Refines t u := by
  have hlen := h.numels
  cases op with
  | insertEls pos els =>
    obtain ⟨ga', hins, rfl⟩ := Option.map_eq_some_iff.mp hs
    obtain ⟨hpos, hwf, -, hl, hm⟩ := GapArray.insertEls_spec h.wf hins
    refine ⟨_, if_pos (hlen ▸ hpos), hwf, h.owned.of_addrs ?_, by rw [hl, h.toList], by rw [hm, h.marks]; rfl⟩
    simp [hm]
  | deleteEls start numdel =>
    obtain ⟨ga', hdel, rfl⟩ := Option.map_eq_some_iff.mp hs
    obtain ⟨hpos, hwf, -, hl, hm⟩ := GapArray.deleteEls_spec h.wf hdel
    refine ⟨_, if_pos (hlen ▸ hpos), hwf, h.owned.of_addrs ?_, by rw [hl, h.toList], by rw [hm, h.marks]; rfl⟩
    simp [hm]
  | makeMarker pos addr =>
    obtain ⟨⟨t', m⟩, hmk, hif⟩ := Option.bind_eq_some_iff.mp hs
    simp only [Option.ite_none_right_eq_some, Option.some.injEq] at hif
    obtain ⟨rfl, rfl⟩ := hif
    obtain ⟨hpos, href⟩ := makeMarker_refines h hmk
    exact ⟨_, if_pos (hlen ▸ hpos), href⟩
  | moveMarker addr pos =>
    obtain ⟨hok, href⟩ := moveMarker_refines h hs
    exact ⟨_, if_pos (hlen ▸ hok), href⟩
  | deleteMarker addr =>
    obtain ⟨hok, href⟩ := deleteMarker_refines h hs
    exact ⟨_, if_pos hok, href⟩

theorem refines_make (mem : ℤ → α) : Refines (make mem) ⟨[], []⟩ where
  wf := ⟨le_rfl, le_rfl, le_rfl, by simp [make], by simp [make]⟩
  owned := ⟨by simp [make], by simp [make]⟩
  toList := by simp [make, GapArray.toList, slice]
  marks := by simp [make, GapArray.marks]

/-- Every sequence of operations on a new gap array leaves the elements and marker positions that
the same operations on a list leave. -/
theorem run_refines_list {mem : ℤ → α} {ops : List (GapArrayOp α)} {s : GapArrayState α}
    (h : Run step anyStep (make mem) ops s) :
    ∃ r, Run MarkedList.step anyStep ⟨[], []⟩ ops r ∧
      s.ga.toList = r.els ∧
      (s.ga.markers.map fun m => (m.addr, s.ga.markerPos m)) = r.markers ∧
      (s.ga.markers.map (·.addr)).Nodup ∧
      ∀ m ∈ s.ga.markers, 0 ≤ s.ga.markerPos m ∧ s.ga.markerPos m ≤ s.ga.numels := by
  obtain ⟨r, hr, href⟩ := h.simulation (refines_make mem) fun _ _ _ _ hR _ hs => step_refines hR hs
  refine ⟨r, hr, href.toList, href.wf.map_markerPos.trans href.marks,
    (List.nodup_append.mp href.owned.nodup).1, fun m hm => ?_⟩
  rw [href.wf.markerPos_eq hm]
  exact href.wf.bound m hm

theorem run_refines_list_grow :
    ∃ s : GapArrayState ℕ, (s.ga.markers.map fun m => (m.addr, s.ga.markerPos m)) = [(0, 102)] ∧
      ∃ r, Run MarkedList.step anyStep ⟨[], []⟩
          [.insertEls 0 [1, 2], .makeMarker 2 0, .deleteEls 1 1, .insertEls 1 (List.replicate 101 7)] r ∧
        s.ga.toList = r.els ∧
        (s.ga.markers.map fun m => (m.addr, s.ga.markerPos m)) = r.markers ∧
        (s.ga.markers.map (·.addr)).Nodup ∧
        ∀ m ∈ s.ga.markers, 0 ≤ s.ga.markerPos m ∧ s.ga.markerPos m ≤ s.ga.numels := by
  have hexec : (exec step (make fun _ => 0)
      [.insertEls 0 [1, 2], .makeMarker 2 0, .deleteEls 1 1, .insertEls 1 (List.replicate 101 7)]).any
        (fun s => decide ((s.ga.markers.map fun m => (m.addr, s.ga.markerPos m)) = [(0, 102)])) =
      true := by decide
  obtain ⟨s, hs, hp⟩ := exists_run_of_exec hexec
  exact ⟨s, hp, run_refines_list hs⟩

end GapArrayState

end XEmacs.Text
