import Mathlib.Logic.Function.Basic
import XEmacs.Text.GapArrayRefinement

/-! `gap_array_clone`, among any number of gap arrays that share the free list of markers. The
clone has the elements of the array, but its markers are made at the memory positions of the
markers of the array, as if these were array positions. -/

namespace XEmacs.Text

open Lib Lib.Gap

variable {α : Type*}

/-- The cells of the array, `gap_array_byte_size` of them; those behind them are of the heap. -/
def GapArray.cells (ga : GapArray α) (mem : ℤ → α) : ℤ → α :=
  fun i => if 0 ≤ i ∧ i < ga.numels + ga.gapsize then ga.array i else mem i

namespace GapArrayState

/-- `gap_array_clone`, the loop over the markers. -/
def cloneMarkers : List GapArrayMarker → GapArrayState α → Option (GapArrayState α)
  | [], s => some s
  | m :: markers, s => (s.makeMarker m.pos).bind fun (s, _) => cloneMarkers markers s

/-- `gap_array_clone`. The state afterwards is that of the clone. -/
def clone (s : GapArrayState α) (mem : ℤ → α) : Option (GapArrayState α) :=
  cloneMarkers s.ga.markers { s with ga := { s.ga with array := s.ga.cells mem, markers := [] } }

end GapArrayState

structure GapArrays (α : Type*) where
  arrays : ℕ → Option (GapArray α)
  freelist : List ℕ
  nextAddr : ℕ

inductive GapArraysOp (α : Type*)
  /-- `make_gap_array`, with the contents of the new memory -/
  | make (i : ℕ) (mem : ℤ → α)
  | edit (i : ℕ) (op : GapArrayOp α)
  /-- the clone of the array at `i` is made at `j` -/
  | clone (i j : ℕ) (mem : ℤ → α)
  /-- `free_gap_array` -/
  | free (i : ℕ)

namespace GapArrays

def empty : GapArrays α := ⟨fun _ => none, [], 0⟩

def state (w : GapArrays α) (ga : GapArray α) : GapArrayState α := ⟨ga, w.freelist, w.nextAddr⟩

def put (w : GapArrays α) (i : ℕ) (s : GapArrayState α) : GapArrays α :=
  ⟨Function.update w.arrays i (some s.ga), s.freelist, s.nextAddr⟩

def step (w : GapArrays α) : GapArraysOp α → Option (GapArrays α)
  | .make i mem =>
    match w.arrays i with
    | none => some (w.put i (w.state (GapArrayState.make mem).ga))
    | some _ => none
  | .edit i op => (w.arrays i).bind fun ga => ((w.state ga).step op).map (w.put i)
  | .clone i j mem =>
    match w.arrays i, w.arrays j with
    | some ga, none => ((w.state ga).clone mem).map (w.put j)
    | _, _ => none
  | .free i => (w.arrays i).map fun ga =>
    ⟨Function.update w.arrays i none, (ga.markers.map (·.addr)).reverse ++ w.freelist, w.nextAddr⟩

/-- The addresses of the markers of an array. -/
def addrs (ga : Option (GapArray α)) : List ℕ :=
  match ga with
  | none => []
  | some ga => ga.markers.map (·.addr)

/-- Each marker in memory is in one array, or free, once. -/
structure Owned (w : GapArrays α) : Prop where
  wf : ∀ i ga, w.arrays i = some ga → ga.WF
  nodup : ∀ i, (addrs (w.arrays i) ++ w.freelist).Nodup
  allocated : ∀ i, ∀ a ∈ addrs (w.arrays i) ++ w.freelist, a < w.nextAddr
  apart : ∀ i j, i ≠ j → ∀ a ∈ addrs (w.arrays i), a ∉ addrs (w.arrays j)

theorem owned_empty : Owned (empty : GapArrays α) where
  wf _ _ h := absurd h (Option.some_ne_none _).symm
  nodup _ := List.nodup_nil
  allocated _ _ h := absurd h List.not_mem_nil
  apart _ _ _ _ h := absurd h List.not_mem_nil

section

variable {w : GapArrays α} {i : ℕ} {ga : GapArray α}

theorem Owned.state (h : w.Owned) (hga : w.arrays i = some ga) : (w.state ga).Owned where
  nodup := by
    have hnodup := h.nodup i
    rwa [hga] at hnodup
  allocated := by
    have hallocated := h.allocated i
    rwa [hga] at hallocated

theorem Owned.update (h : w.Owned) {oga : Option (GapArray α)} {free : List ℕ} {n : ℕ}
    (hwf : ∀ ga, oga = some ga → ga.WF) (hnodup : (addrs oga ++ free).Nodup)
    (hallocated : ∀ a ∈ addrs oga ++ free, a < n) (hn : w.nextAddr ≤ n)
    (hfrom : ∀ a ∈ addrs oga ++ free, a ∈ addrs (w.arrays i) ++ w.freelist ∨ w.nextAddr ≤ a) :
    Owned ⟨Function.update w.arrays i oga, free, n⟩ := by
  -- the markers of the other arrays are none of these
  have hother : ∀ j, j ≠ i → ∀ a ∈ addrs (w.arrays j), a ∉ addrs oga ++ free := by
    intro j hj a ha hmem
    rcases hfrom a hmem with hold | hnew
    · rcases List.mem_append.mp hold with hold | hold
      · exact h.apart j i hj a ha hold
      · exact (List.nodup_append.mp (h.nodup j)).2.2 a ha a hold rfl
    · exact absurd (h.allocated j a (List.mem_append_left _ ha)) (Nat.not_lt.mpr hnew)
  have hself : Function.update w.arrays i oga i = oga := Function.update_self _ _ _
  have hne : ∀ j, j ≠ i → Function.update w.arrays i oga j = w.arrays j := fun j hj =>
    Function.update_of_ne hj _ _
  constructor
  · intro j ga hga
    by_cases hj : j = i
    · subst hj
      exact hwf ga (hself.symm.trans hga)
    · exact h.wf j ga ((hne j hj).symm.trans hga)
  · intro j
    show (addrs (Function.update w.arrays i oga j) ++ free).Nodup
    by_cases hj : j = i
    · rwa [hj, hself]
    · rw [hne j hj]
      refine List.nodup_append.mpr ⟨(List.nodup_append.mp (h.nodup j)).1,
        (List.nodup_append.mp hnodup).2.1, fun a ha b hb hab => ?_⟩
      exact hother j hj a ha (List.mem_append_right _ (hab ▸ hb))
  · intro j a ha
    have ha : a ∈ addrs (Function.update w.arrays i oga j) ++ free := ha
    by_cases hj : j = i
    · rw [hj, hself] at ha
      exact hallocated a ha
    · rw [hne j hj] at ha
      rcases List.mem_append.mp ha with ha | ha
      · exact lt_of_lt_of_le (h.allocated j a (List.mem_append_left _ ha)) hn
      · exact hallocated a (List.mem_append_right _ ha)
  · intro j k hjk a ha
    have ha : a ∈ addrs (Function.update w.arrays i oga j) := ha
    show a ∉ addrs (Function.update w.arrays i oga k)
    by_cases hj : j = i
    · rw [hj, hself] at ha
      rw [hne k fun hk => hjk (hj.trans hk.symm)]
      exact fun hmem => hother k (fun hk => hjk (hj.trans hk.symm)) a hmem (List.mem_append_left _ ha)
    · rw [hne j hj] at ha
      by_cases hk : k = i
      · rw [hk, hself]
        exact fun hmem => hother j hj a ha (List.mem_append_left _ hmem)
      · rw [hne k hk]
        exact h.apart j k hjk a ha

end

end GapArrays

namespace GapArrayState

/-- The addresses in use were so before, or are new. -/
structure Fresh (s t : GapArrayState α) : Prop where
  nextAddr : s.nextAddr ≤ t.nextAddr
  mem : ∀ a ∈ t.ga.markers.map (·.addr) ++ t.freelist,
    a ∈ s.ga.markers.map (·.addr) ++ s.freelist ∨ s.nextAddr ≤ a

namespace Fresh

variable {s t u : GapArrayState α}

theorem refl : Fresh s s :=
  ⟨le_rfl, fun _ ha => Or.inl ha⟩

theorem trans (h : Fresh s t) (h' : Fresh t u) : Fresh s u where
  nextAddr := h.nextAddr.trans h'.nextAddr
  mem a ha := (h'.mem a ha).elim (h.mem a) fun hle => Or.inr (h.nextAddr.trans hle)

theorem of_addrs {ga : GapArray α} (h : ga.markers.map (·.addr) = s.ga.markers.map (·.addr)) :
    Fresh s { s with ga := ga } :=
  ⟨le_rfl, fun _ ha => Or.inl (h ▸ ha)⟩

end Fresh

variable {s t : GapArrayState α}

theorem refines_self (hwf : s.ga.WF) (hown : s.Owned) : Refines s ⟨s.ga.toList, s.ga.marks⟩ :=
  ⟨hwf, hown, rfl, rfl⟩

theorem makeMarker_eq {pos : ℤ} {addr : ℕ} (h : s.makeMarker pos = some (t, addr)) :
    (0 ≤ pos ∧ pos ≤ s.ga.numels) ∧
      t.ga = { s.ga with markers := ⟨addr, s.ga.arrayToMemoryPos pos⟩ :: s.ga.markers } ∧
      Fresh s t := by
  rw [makeMarker] at h
  split at h
  case isFalse => exact absurd h (Option.some_ne_none _).symm
  case isTrue hpos =>
    refine ⟨hpos, ?_⟩
    split at h
    case h_1 m rest hfree =>
      obtain ⟨rfl, rfl⟩ := Prod.mk.inj (Option.some.inj h)
      refine ⟨rfl, le_rfl, fun a ha => Or.inl ?_⟩
      rw [hfree]
      simpa [or_assoc, or_left_comm] using ha
    case h_2 hfree =>
      obtain ⟨rfl, rfl⟩ := Prod.mk.inj (Option.some.inj h)
      refine ⟨rfl, Nat.le_succ _, fun a ha => ?_⟩
      rcases List.mem_cons.mp (List.mem_append.mp ha |>.resolve_right List.not_mem_nil) with rfl | ha
      · exact Or.inr le_rfl
      · exact Or.inl (List.mem_append_left _ ha)

theorem exists_makeMarker {pos : ℤ} (hpos : 0 ≤ pos ∧ pos ≤ s.ga.numels) :
    ∃ t addr, s.makeMarker pos = some (t, addr) := by
  rw [makeMarker, if_pos hpos]
  cases s.freelist with
  | nil => exact ⟨_, _, rfl⟩
  | cons m rest => exact ⟨_, _, rfl⟩

theorem fresh_of_step (hwf : s.ga.WF) {op : GapArrayOp α} (h : s.step op = some t) : Fresh s t := by
  have hfst : ∀ {ga : GapArray α} {f : ℤ → ℤ}, ga.marks = s.ga.marks.map (fun m => (m.1, f m.2)) →
      ga.markers.map (·.addr) = s.ga.markers.map (·.addr) := by
    intro ga f hmarks
    have hmap := congrArg (List.map Prod.fst) hmarks
    simpa [GapArray.marks, Function.comp_def] using hmap
  cases op with
  | insertEls pos els =>
    obtain ⟨ga', hins, rfl⟩ := Option.map_eq_some_iff.mp h
    obtain ⟨-, -, -, -, hm⟩ := GapArray.insertEls_spec hwf hins
    exact Fresh.of_addrs (hfst hm)
  | deleteEls start numdel =>
    obtain ⟨ga', hdel, rfl⟩ := Option.map_eq_some_iff.mp h
    obtain ⟨-, -, -, -, hm⟩ := GapArray.deleteEls_spec hwf hdel
    exact Fresh.of_addrs (hfst hm)
  | makeMarker pos addr =>
    obtain ⟨⟨t', m⟩, hmake, hif⟩ := Option.bind_eq_some_iff.mp h
    simp only [Option.ite_none_right_eq_some, Option.some.injEq] at hif
    obtain ⟨rfl, rfl⟩ := hif
    exact (makeMarker_eq hmake).2.2
  | moveMarker addr pos =>
    simp only [step, moveMarker, Option.ite_none_right_eq_some, Option.some.injEq] at h
    obtain ⟨-, rfl⟩ := h
    apply Fresh.of_addrs
    rw [List.map_map]
    apply List.map_congr_left
    intro m _
    show (if m.addr = addr then _ else m).addr = m.addr
    split <;> rfl
  | deleteMarker addr =>
    simp only [step, deleteMarker, Option.ite_none_right_eq_some, Option.some.injEq] at h
    obtain ⟨hany, rfl⟩ := h
    refine ⟨le_rfl, fun a ha => Or.inl ?_⟩
    rcases List.mem_append.mp ha with ha | ha
    · obtain ⟨m, hm, rfl⟩ := List.mem_map.mp ha
      exact List.mem_append_left _ (List.mem_map_of_mem (List.mem_of_mem_eraseP hm))
    · rcases List.mem_cons.mp ha with rfl | ha
      · obtain ⟨m, hm, hmaddr⟩ := List.any_eq_true.mp hany
        rw [← of_decide_eq_true hmaddr]
        exact List.mem_append_left _ (List.mem_map_of_mem hm)
      · exact List.mem_append_right _ ha

/-- The markers that the loop makes come before those that were there, the last one first. -/
structure Cloned (markers : List GapArrayMarker) (s t : GapArrayState α) : Prop where
  wf : t.ga.WF
  owned : t.Owned
  fresh : Fresh s t
  markers : ∃ new : List GapArrayMarker, t.ga = { s.ga with markers := new.reverse ++ s.ga.markers } ∧
    new.map (·.pos) = markers.map fun m => s.ga.arrayToMemoryPos m.pos

theorem cloneMarkers_eq {markers : List GapArrayMarker} (hwf : s.ga.WF) (hown : s.Owned)
    (h : cloneMarkers markers s = some t) :
    (∀ m ∈ markers, 0 ≤ m.pos ∧ m.pos ≤ s.ga.numels) ∧ Cloned markers s t := by
  induction markers generalizing s with
  | nil =>
    obtain rfl := Option.some.inj h
    exact ⟨fun _ hm => absurd hm List.not_mem_nil, hwf, hown, Fresh.refl, [], rfl, rfl⟩
  | cons m markers ih =>
    obtain ⟨⟨u, addr⟩, hmake, hrest⟩ := Option.bind_eq_some_iff.mp h
    obtain ⟨hpos, hga, hfresh⟩ := makeMarker_eq hmake
    have hu := (makeMarker_refines (refines_self hwf hown) hmake).2
    obtain ⟨hall, hc⟩ := ih hu.wf hu.owned hrest
    obtain ⟨new, hnew, hmap⟩ := hc.markers
    rw [hga] at hall hnew hmap
    refine ⟨?_, hc.wf, hc.owned, hfresh.trans hc.fresh, ⟨addr, s.ga.arrayToMemoryPos m.pos⟩ :: new, ?_, ?_⟩
    · intro m' hm'
      rcases List.mem_cons.mp hm' with rfl | hm'
      · exact hpos
      · exact hall m' hm'
    · rw [hnew, List.reverse_cons, List.append_assoc, List.singleton_append]
    · rw [List.map_cons, List.map_cons, hmap]
      rfl

theorem exists_cloneMarkers {markers : List GapArrayMarker}
    (h : ∀ m ∈ markers, 0 ≤ m.pos ∧ m.pos ≤ s.ga.numels) : ∃ t, cloneMarkers markers s = some t := by
  induction markers generalizing s with
  | nil => exact ⟨s, rfl⟩
  | cons m markers ih =>
    obtain ⟨u, addr, hmake⟩ := exists_makeMarker (h m List.mem_cons_self)
    obtain ⟨t, ht⟩ := @ih u fun m' hm' => by
      rw [(makeMarker_eq hmake).2.1]
      exact h m' (List.mem_cons_of_mem m hm')
    exact ⟨t, by rw [cloneMarkers, hmake]; exact ht⟩

variable {mem : ℤ → α}

theorem wf_unmarked (hwf : s.ga.WF) : GapArray.WF { s.ga with array := s.ga.cells mem, markers := [] } :=
  { hwf with
    near := fun _ hm => absurd hm List.not_mem_nil
    bound := fun _ hm => absurd hm List.not_mem_nil }

theorem owned_unmarked (hown : s.Owned) :
    Owned { s with ga := { s.ga with array := s.ga.cells mem, markers := [] } } where
  nodup := (List.nodup_append.mp hown.nodup).2.1
  allocated a ha := hown.allocated a (List.mem_append_right _ ha)

theorem clone_eq (hwf : s.ga.WF) (hown : s.Owned) (h : s.clone mem = some t) :
    (∀ m ∈ s.ga.markers, 0 ≤ m.pos ∧ m.pos ≤ s.ga.numels) ∧
      Cloned s.ga.markers { s with ga := { s.ga with array := s.ga.cells mem, markers := [] } } t :=
  cloneMarkers_eq (wf_unmarked hwf) (owned_unmarked hown) h

theorem Cloned.apart (hown : s.Owned)
    (hc : Cloned s.ga.markers { s with ga := { s.ga with array := s.ga.cells mem, markers := [] } } t) :
    (s.ga.markers.map (·.addr) ++ t.ga.markers.map (·.addr)).Nodup := by
  refine List.nodup_append.mpr ⟨(List.nodup_append.mp hown.nodup).1,
    (List.nodup_append.mp hc.owned.nodup).1, fun a ha b hb hab => ?_⟩
  subst hab
  rcases hc.fresh.mem a (List.mem_append_left _ hb) with hmem | hle
  · exact (List.nodup_append.mp hown.nodup).2.2 a ha a hmem rfl
  · exact absurd (hown.allocated a (List.mem_append_left _ ha)) (Nat.not_lt.mpr hle)

/-- The clone has the elements of the array, and a marker of its own for each one of the array,
at the same position. -/
def ClonedFaithfully (s : GapArrayState α) (result : Option (GapArrayState α)) : Prop :=
  ∃ t, result = some t ∧ t.ga.numels = s.ga.numels ∧
    (∀ p, 0 ≤ p → p < s.ga.numels → t.ga.at' p = s.ga.at' p) ∧
    (∃ new : List GapArrayMarker, t.ga.markers = new.reverse ∧
      new.map t.ga.markerPos = s.ga.markers.map s.ga.markerPos) ∧
    (s.ga.markers.map (·.addr) ++ t.ga.markers.map (·.addr)).Nodup

theorem markerPos_arrayToMemoryPos {ga : GapArray α} (hwf : ga.WF) {m : GapArrayMarker} :
    ga.memoryToArrayPos (ga.arrayToMemoryPos m.pos) = ga.markerPos m ↔
      m.pos ≤ ga.gap ∨ ga.gapsize = 0 := by
  have hgapsize := hwf.gapsize_nonneg
  simp only [GapArray.markerPos, GapArray.memoryToArrayPos, GapArray.arrayToMemoryPos]
  split_ifs <;> omega

theorem at'_cells {ga : GapArray α} (hwf : ga.WF) (markers : List GapArrayMarker) {p : ℤ}
    (hp : 0 ≤ p) (hlt : p < ga.numels) :
    GapArray.at' { ga with array := ga.cells mem, markers := markers } p = ga.at' p := by
  have hgapsize := hwf.gapsize_nonneg
  show ga.cells mem (ga.arrayToMemoryPos p) = ga.array (ga.arrayToMemoryPos p)
  rw [GapArray.cells]
  refine if_pos ?_
  rw [GapArray.arrayToMemoryPos]
  split_ifs <;> omega

theorem clonedFaithfully_iff (hwf : s.ga.WF) (hown : s.Owned) (mem : ℤ → α) :
    ClonedFaithfully s (s.clone mem) ↔ ∀ m ∈ s.ga.markers, m.pos ≤ s.ga.gap ∨ s.ga.gapsize = 0 := by
  have hpos : ∀ {new : List GapArrayMarker},
      new.map (·.pos) = s.ga.markers.map (fun m => s.ga.arrayToMemoryPos m.pos) →
      new.map s.ga.markerPos =
        s.ga.markers.map fun m => s.ga.memoryToArrayPos (s.ga.arrayToMemoryPos m.pos) := by
    intro new hmap
    have hmap' := congrArg (List.map s.ga.memoryToArrayPos) hmap
    rwa [List.map_map, List.map_map] at hmap'
  constructor
  · rintro ⟨t, ht, -, -, ⟨new, hnew, hmarks⟩, -⟩ m hm
    obtain ⟨new', hga, hmap⟩ := (clone_eq hwf hown ht).2.markers
    obtain rfl : new = new' := by
      rw [hga, List.append_nil] at hnew
      exact List.reverse_injective hnew.symm
    have hsame : new.map t.ga.markerPos = new.map s.ga.markerPos := by
      rw [hga]
      rfl
    exact (markerPos_arrayToMemoryPos hwf).mp
      (List.map_inj_left.mp ((hpos hmap).symm.trans (hsame.symm.trans hmarks)) m hm)
  · intro hsafe
    have hin : ∀ m ∈ s.ga.markers, 0 ≤ m.pos ∧ m.pos ≤ s.ga.numels := by
      intro m hm
      have hbound := hwf.bound m hm
      have hgapsize := hwf.gapsize_nonneg
      rw [decode] at hbound
      have hm := hsafe m hm
      split_ifs at hbound <;> omega
    obtain ⟨t, ht⟩ := @exists_cloneMarkers _
      { s with ga := { s.ga with array := s.ga.cells mem, markers := [] } } s.ga.markers hin
    have hc := (clone_eq hwf hown ht).2
    obtain ⟨new, hga, hmap⟩ := hc.markers
    refine ⟨t, ht, by rw [hga], fun p hp hlt => ?_, ⟨new, by rw [hga, List.append_nil], ?_⟩, hc.apart hown⟩
    · rw [hga]
      exact at'_cells hwf _ hp hlt
    · have hsame : new.map t.ga.markerPos = new.map s.ga.markerPos := by
        rw [hga]
        rfl
      rw [hsame, hpos hmap]
      exact List.map_congr_left fun m hm => (markerPos_arrayToMemoryPos hwf).mpr (hsafe m hm)

end GapArrayState

namespace GapArrays

theorem Owned.put {w : GapArrays α} (h : w.Owned) {i : ℕ} {s t : GapArrayState α} (hwf : t.ga.WF)
    (hown : t.Owned) (hfresh : GapArrayState.Fresh s t) (hnext : s.nextAddr = w.nextAddr)
    (hfree : s.freelist = w.freelist) (hmarkers : s.ga.markers.map (·.addr) ⊆ addrs (w.arrays i)) :
    Owned (w.put i t) := by
  refine h.update (fun ga hga => Option.some.inj hga ▸ hwf) hown.nodup hown.allocated
    (hnext ▸ hfresh.nextAddr) fun a ha => (hfresh.mem a ha).imp (fun hmem => ?_) fun hle => hnext ▸ hle
  rw [hfree] at hmem
  exact (List.mem_append.mp hmem).elim (fun hm => List.mem_append_left _ (hmarkers hm))
    (List.mem_append_right _)

theorem owned_step {w w' : GapArrays α} {op : GapArraysOp α} (h : w.Owned) (hs : w.step op = some w') :
    w'.Owned := by
  cases op with
  | make i mem =>
    simp only [step] at hs
    split at hs
    case h_1 hnone =>
      obtain rfl := Option.some.inj hs
      refine h.put (s := w.state (GapArrayState.make mem).ga)
        (GapArrayState.refines_make mem).wf ?_ GapArrayState.Fresh.refl rfl rfl (List.nil_subset _)
      have hnodup := h.nodup i
      have hallocated := h.allocated i
      rw [hnone] at hnodup hallocated
      exact ⟨hnodup, hallocated⟩
    case h_2 => exact absurd hs (Option.some_ne_none _).symm
  | edit i op =>
    obtain ⟨ga, hga, hs⟩ := Option.bind_eq_some_iff.mp hs
    obtain ⟨t, ht, rfl⟩ := Option.map_eq_some_iff.mp hs
    have hwf : (w.state ga).ga.WF := h.wf i ga hga
    obtain ⟨r, -, href⟩ := GapArrayState.step_refines
      (GapArrayState.refines_self hwf (h.state hga)) ht
    refine h.put href.wf href.owned (GapArrayState.fresh_of_step hwf ht) rfl rfl ?_
    rw [hga]
    exact List.Subset.refl _
  | clone i j mem =>
    simp only [step] at hs
    split at hs
    case h_1 ga hga hnone =>
      obtain ⟨t, ht, rfl⟩ := Option.map_eq_some_iff.mp hs
      have hc := (GapArrayState.clone_eq (s := w.state ga) (h.wf i ga hga) (h.state hga) ht).2
      exact h.put hc.wf hc.owned hc.fresh rfl rfl (List.nil_subset _)
    case h_2 => exact absurd hs (Option.some_ne_none _).symm
  | free i =>
    obtain ⟨ga, hga, rfl⟩ := Option.map_eq_some_iff.mp hs
    have hown := h.state hga
    have hperm := (List.reverse_perm (ga.markers.map (·.addr))).append_right w.freelist
    refine @Owned.update _ w i h none _ _ (fun _ hga => absurd hga (Option.some_ne_none _).symm)
      (hperm.nodup_iff.mpr hown.nodup) (fun a ha => hown.allocated a (hperm.subset ha)) le_rfl
      fun a ha => Or.inl ?_
    rw [hga]
    exact hperm.subset ha

theorem owned_run {w : GapArrays α} {ops : List (GapArraysOp α)}
    (h : Run step anyStep (empty : GapArrays α) ops w) : w.Owned :=
  h.invariant owned_empty fun _ _ _ ht _ hs => owned_step ht hs

/-- A gap array is cloned faithfully exactly when none of its markers is past a gap that is not
empty. -/
theorem clone_faithful {w : GapArrays α} {ops : List (GapArraysOp α)}
    (h : Run step anyStep (empty : GapArrays α) ops w) {i : ℕ} {ga : GapArray α}
    (hga : w.arrays i = some ga) (mem : ℤ → α) :
    GapArrayState.ClonedFaithfully (w.state ga) ((w.state ga).clone mem) ↔
      ∀ m ∈ ga.markers, m.pos ≤ ga.gap ∨ ga.gapsize = 0 :=
  GapArrayState.clonedFaithfully_iff ((owned_run h).wf i ga hga) ((owned_run h).state hga) mem

/-- Two elements, a marker between them, and the gap moved to the beginning. -/
def markerPastGap : List (GapArraysOp ℕ) :=
  [.make 0 fun _ => 0, .edit 0 (.insertEls 0 [1, 2]), .edit 0 (.makeMarker 1 0),
    .edit 0 (.deleteEls 0 0)]

theorem clone_faithful_marker :
    ∃ w : GapArrays ℕ, ∃ ga, w.arrays 0 = some ga ∧
      (GapArrayState.ClonedFaithfully (w.state ga) ((w.state ga).clone fun _ => 0) ↔
        ∀ m ∈ ga.markers, m.pos ≤ ga.gap ∨ ga.gapsize = 0) := by
  have hexec : (exec step empty (markerPastGap.take 3)).any (fun w => decide ((w.arrays 0).isSome)) =
      true := by decide
  obtain ⟨w, hw, hsome⟩ := exists_run_of_exec hexec
  obtain ⟨ga, hga⟩ := Option.isSome_iff_exists.mp hsome
  exact ⟨w, ga, hga, clone_faithful hw hga fun _ => 0⟩

/-- The assertion of `gap_array_make_marker` fails. -/
theorem clone_asserts :
    ∃ w : GapArrays ℕ, Run step anyStep empty markerPastGap w ∧
      ∃ ga, w.arrays 0 = some ga ∧
        ¬ GapArrayState.ClonedFaithfully (w.state ga) ((w.state ga).clone fun _ => 0) := by
  have hexec : (exec step empty markerPastGap).any (fun w => decide
      ((w.arrays 0).any fun ga => ((w.state ga).clone fun _ => 0).isNone)) = true := by
    decide
  obtain ⟨w, hw, hnone⟩ := exists_run_of_exec hexec
  obtain ⟨ga, hga, hnone⟩ := (Option.any_eq_true _ _).mp hnone
  refine ⟨w, hw, ga, hga, fun ⟨t, ht, _⟩ => ?_⟩
  rw [Option.isNone_iff_eq_none.mp hnone] at ht
  exact absurd ht (Option.some_ne_none t).symm

end GapArrays

end XEmacs.Text
