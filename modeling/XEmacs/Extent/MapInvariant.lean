import XEmacs.Extent.MapComplete

/-! Mapping over extents with a function that changes them. What the function and a move of the
stack of extents keep is kept by the whole mapping, and a mapping that ends within some number of
steps ends in the same way within any larger one. -/

namespace XEmacs.Extents

open Lib Text

variable {α : Type} {s s' : ExtentInfo} {stamp : ℕ → ℤ} {b : Buffer} {fn : Mapper α} {flags : MapFlags}
  {start stop : ℤ} {fuel fuel' : ℕ} {P : ExtentInfo → Prop}

namespace ExtentInfo

theorem sameLists_stepMapped {overSoe endp : Bool} {op : GapArrayOp ℕ}
    (hop : ∀ ga ga' : MarkedList ℕ, ga.step op = some ga' → ga'.els = ga.els)
    (h : s.stepMapped overSoe endp op = some s') : SameLists s s' := by
  obtain ⟨ga, hga, rfl⟩ := Option.map_eq_some_iff.mp h
  exact sameLists_setMapped (hop _ _ hga)

theorem sameLists_makePosm {overSoe endp : Bool} {pos : ℤ} {a : ℕ} (h : s.makePosm overSoe endp pos = some (s', a)) :
    SameLists s s' := by
  obtain ⟨r, hr, heq⟩ := Option.map_eq_some_iff.mp h
  obtain ⟨rfl, -⟩ := Prod.mk.inj heq
  refine sameLists_stepMapped (fun ga ga' hga => ?_) hr
  obtain ⟨-, hstep⟩ := Option.ite_none_right_eq_some.mp hga
  rw [← Option.some.inj hstep]

theorem sameLists_deletePosm {overSoe endp : Bool} {posm : Option ℕ} (h : s.deletePosm overSoe endp posm = some s') :
    SameLists s s' := by
  cases posm with
  | none => exact Option.some.inj h ▸ .refl s
  | some a =>
    refine sameLists_stepMapped (fun ga ga' hga => ?_) h
    obtain ⟨-, hstep⟩ := Option.ite_none_right_eq_some.mp hga
    rw [← Option.some.inj hstep]

end ExtentInfo

theorem MapLoop.sameLists_movePosm {c : MapLoop} {pos : ℤ} (h : c.movePosm s pos = some s') : s.SameLists s' := by
  rw [MapLoop.movePosm.eq_def] at h
  cases hposm : c.posm with
  | none =>
    rw [hposm] at h
    exact Option.some.inj h ▸ .refl s
  | some a =>
    rw [hposm] at h
    refine ExtentInfo.sameLists_stepMapped (fun ga ga' hga => ?_) h
    obtain ⟨-, hstep⟩ := Option.ite_none_right_eq_some.mp hga
    rw [← Option.some.inj hstep]

/-- A property of the extents that does not depend on markers, on the stack of extents or on
what `fn` does. -/
structure Mapper.Preserves (fn : Mapper α) (P : ExtentInfo → Prop) : Prop where
  ordered : ∀ s, P s → ∃ stamp, s.Ordered stamp
  sameLists : ∀ s s', P s → s.SameLists s' → P s'
  soeMove : ∀ s s' pos, P s → s.soeMove pos = some s' → P s'
  apply : ∀ s a e s' a' stopped, P s → e ∈ s.attached → fn s a e = some (s', a', stopped) → P s'

namespace MapLoop

variable {c : MapLoop} {m m' : MapState α}

theorem visit_preserves (hfn : fn.Preserves P) {e : ℕ} {stopped : Bool} (hP : P m.info) (he : e ∈ m.info.attached)
    (h : c.visit b fn m e = some (m', stopped)) : P m'.info := by
  rw [visit] at h
  simp only at h
  split_ifs at h
  · obtain ⟨rfl, -⟩ := Prod.mk.inj (Option.some.inj h)
    exact hP
  · obtain ⟨rfl, -⟩ := Prod.mk.inj (Option.some.inj h)
    exact hP
  · obtain ⟨rfl, -⟩ := Prod.mk.inj (Option.some.inj h)
    exact hP
  · obtain ⟨⟨s', a', st⟩, hr, heq⟩ := Option.map_eq_some_iff.mp h
    obtain ⟨rfl, -⟩ := Prod.mk.inj heq
    exact hfn.apply _ _ _ _ _ _ hP he hr
  · obtain ⟨rfl, -⟩ := Prod.mk.inj (Option.some.inj h)
    exact hP

theorem attached_of_at' (hord : s.Ordered stamp) {overSoe endp : Bool} {pos : ℤ} {e : ℕ}
    (h : (s.mapped overSoe).at' pos endp = some e) : e ∈ s.attached := by
  obtain ⟨-, hget⟩ := Option.ite_none_right_eq_some.mp h
  have hmem := List.mem_of_getElem? hget
  cases overSoe with
  | false => exact (hord.list.mem endp e).mp hmem
  | true => exact ((hord.soeForce.mem endp e).mp hmem).1

theorem run_preserves (hfn : fn.Preserves P) {pos : ℤ} {stopped : Bool} (hP : P m.info)
    (h : c.run b fn fuel pos m = some (m', stopped)) : P m'.info := by
  induction fuel generalizing pos m with
  | zero => exact absurd h.symm (Option.some_ne_none _)
  | succ fuel ih =>
    rw [run] at h
    obtain ⟨pos', -, h⟩ := Option.bind_eq_some_iff.mp h
    split_ifs at h
    · obtain ⟨rfl, -⟩ := Prod.mk.inj (Option.some.inj h)
      exact hP
    · obtain ⟨e, he, h⟩ := Option.bind_eq_some_iff.mp h
      obtain ⟨info, hmove, h⟩ := Option.bind_eq_some_iff.mp h
      obtain ⟨⟨m₁, st⟩, hvisit, h⟩ := Option.bind_eq_some_iff.mp h
      have hsame := sameLists_movePosm hmove
      obtain ⟨stamp, hord⟩ := hfn.ordered _ hP
      have hatt : e ∈ info.attached := hsame.attached ▸ attached_of_at' hord he
      have hP₁ := visit_preserves hfn (m := { m with info := info }) (hfn.sameLists _ _ hP hsame) hatt hvisit
      split_ifs at h
      · obtain ⟨rfl, -⟩ := Prod.mk.inj (Option.some.inj h)
        exact hP₁
      · exact ih hP₁ h

theorem stage_preserves (hfn : fn.Preserves P) {pos : ℕ} {c' : MapLoop} {stopped : Bool} (hP : P m.info)
    (h : c.stage b fn fuel pos m = some (c', m', stopped)) : P m'.info := by
  rw [stage] at h
  split_ifs at h
  · obtain ⟨⟨info, a⟩, hmake, h⟩ := Option.bind_eq_some_iff.mp h
    obtain ⟨r, hrun, heq⟩ := Option.map_eq_some_iff.mp h
    obtain ⟨-, rfl⟩ := Prod.mk.inj heq
    exact run_preserves hfn (m := { m with info := info })
      (hfn.sameLists _ _ hP (ExtentInfo.sameLists_makePosm hmake)) hrun
  · obtain ⟨r, hrun, heq⟩ := Option.map_eq_some_iff.mp h
    obtain ⟨-, rfl⟩ := Prod.mk.inj heq
    exact run_preserves hfn hP hrun

theorem rangeStage_preserves (hfn : fn.Preserves P) {rangeStart : RangeStart} {c' : MapLoop} {stopped : Bool}
    (hP : P m.info) (h : c.rangeStage b fn fuel rangeStart m = some (c', m', stopped)) : P m'.info :=
  stage_preserves hfn hP h

theorem stages_preserves (hfn : fn.Preserves P) {rangeStart : RangeStart} {c' : MapLoop} (hP : P m.info)
    (h : c.stages b fn fuel rangeStart m = some (c', m')) : P m'.info := by
  rw [stages] at h
  split_ifs at h
  · obtain ⟨⟨c₁, m₁, stopped⟩, hstage, h⟩ := Option.bind_eq_some_iff.mp h
    have hP₁ := stage_preserves hfn hP hstage
    split_ifs at h
    · obtain ⟨-, rfl⟩ := Prod.mk.inj (Option.some.inj h)
      exact hP₁
    · obtain ⟨info, hdelete, h⟩ := Option.bind_eq_some_iff.mp h
      obtain ⟨⟨c₂, m₂, stopped'⟩, hrange, heq⟩ := Option.map_eq_some_iff.mp h
      obtain ⟨-, rfl⟩ := Prod.mk.inj heq
      exact rangeStage_preserves hfn (m := { m₁ with info := info })
        (hfn.sameLists _ _ hP₁ (ExtentInfo.sameLists_deletePosm hdelete)) hrange
  · obtain ⟨⟨c₁, m₁, stopped⟩, hrange, heq⟩ := Option.map_eq_some_iff.mp h
    obtain ⟨-, rfl⟩ := Prod.mk.inj heq
    exact rangeStage_preserves hfn hP hrange

end MapLoop

theorem planMap_preserves (hfn : fn.Preserves P) {dontUseSoe : Bool} {st : ℤ} {p : MapPlan} (hP : P s)
    (h : s.planMap dontUseSoe st flags = some (s', p)) : P s' := by
  have hsame : ∀ p', some (s, p') = some (s', p) → P s' := fun p' heq => (Prod.mk.inj (Option.some.inj heq)).1 ▸ hP
  rw [ExtentInfo.planMap] at h
  by_cases hstart : (flags.inRegion = some .start ∨ flags.inRegion = some .startAndEnd) ∧ ¬ flags.negateInRegion
  · rw [if_pos hstart] at h
    exact hsame _ h
  by_cases hstop : flags.inRegion = some .stop ∧ ¬ flags.negateInRegion
  · rw [if_neg hstart, if_pos hstop] at h
    exact hsame _ h
  by_cases hdont : dontUseSoe = true
  · rw [if_neg hstart, if_neg hstop, if_pos hdont] at h
    exact hsame _ h
  rw [if_neg hstart, if_neg hstop, if_neg hdont] at h
  obtain ⟨s₁, hmove, h⟩ := Option.bind_eq_some_iff.mp h
  have hP₁ := hfn.soeMove _ _ _ hP hmove
  split_ifs at h
  · obtain ⟨e, -, h⟩ := Option.bind_eq_some_iff.mp h
    obtain ⟨rfl, -⟩ := Prod.mk.inj (Option.some.inj (Option.ite_none_right_eq_some.mp h).2)
    exact hP₁
  · obtain ⟨rfl, -⟩ := Prod.mk.inj (Option.some.inj h)
    exact hP₁
  · obtain ⟨rfl, -⟩ := Prod.mk.inj (Option.some.inj h)
    exact hP₁

theorem mapExtents_preserves (hfn : fn.Preserves P) (hflags : flags.mightModifyText = false) {dontUseSoe : Bool}
    {arg arg' : α} {after : Option ℕ} (hP : P s)
    (h : mapExtents dontUseSoe b fuel start stop fn arg after flags s = some (s', arg')) : P s' := by
  rw [mapExtents, hflags] at h
  split_ifs at h
  · obtain ⟨rfl, -⟩ := Prod.mk.inj (Option.some.inj h)
    exact hP
  · contradiction
  · rw [mapRange] at h
    obtain ⟨⟨s₁, p⟩, hplan, h⟩ := Option.bind_eq_some_iff.mp h
    obtain ⟨⟨c, m⟩, hstages, h⟩ := Option.bind_eq_some_iff.mp h
    obtain ⟨s₂, hs₂, h⟩ := Option.bind_eq_some_iff.mp h
    obtain ⟨s₃, hdelete, heq⟩ := Option.map_eq_some_iff.mp h
    obtain ⟨rfl, -⟩ := Prod.mk.inj heq
    obtain rfl := Option.some.inj hs₂
    have hP₁ := planMap_preserves hfn hP hplan
    exact hfn.sameLists _ _ (MapLoop.stages_preserves hfn (m := ⟨s₁, _, _, _, _⟩) hP₁ hstages)
      (ExtentInfo.sameLists_deletePosm hdelete)

namespace MapLoop

variable {c : MapLoop} {m m' : MapState α}

theorem run_mono (hle : fuel ≤ fuel') {pos : ℤ} {r : MapState α × Bool} (h : c.run b fn fuel pos m = some r) :
    c.run b fn fuel' pos m = some r := by
  induction fuel generalizing fuel' pos m with
  | zero => exact absurd h.symm (Option.some_ne_none _)
  | succ fuel ih =>
    obtain ⟨n, rfl⟩ := Nat.exists_eq_add_of_le' (Nat.le_of_add_left_le hle)
    rw [run] at h ⊢
    obtain ⟨pos', hfetch, h⟩ := Option.bind_eq_some_iff.mp h
    rw [hfetch, Option.bind_some]
    split_ifs at h with hend
    · rwa [if_pos hend]
    · rw [if_neg hend]
      obtain ⟨e, he, h⟩ := Option.bind_eq_some_iff.mp h
      obtain ⟨info, hmove, h⟩ := Option.bind_eq_some_iff.mp h
      obtain ⟨r₁, hvisit, h⟩ := Option.bind_eq_some_iff.mp h
      rw [he, Option.bind_some, hmove, Option.bind_some, hvisit, Option.bind_some]
      split_ifs at h with hstop
      · rwa [if_pos hstop]
      · rw [if_neg hstop]
        exact ih (Nat.le_of_succ_le_succ hle) h

theorem stage_mono (hle : fuel ≤ fuel') {pos : ℕ} {r : MapLoop × MapState α × Bool}
    (h : c.stage b fn fuel pos m = some r) : c.stage b fn fuel' pos m = some r := by
  rw [stage] at h ⊢
  split_ifs at h ⊢
  · obtain ⟨p, hmake, h⟩ := Option.bind_eq_some_iff.mp h
    obtain ⟨r', hrun, heq⟩ := Option.map_eq_some_iff.mp h
    rw [hmake, Option.bind_some]
    simp only
    rw [run_mono hle hrun, Option.map_some, heq]
  · obtain ⟨r', hrun, heq⟩ := Option.map_eq_some_iff.mp h
    rw [run_mono hle hrun, Option.map_some, heq]

theorem stages_mono (hle : fuel ≤ fuel') {rangeStart : RangeStart} {r : MapLoop × MapState α}
    (h : c.stages b fn fuel rangeStart m = some r) : c.stages b fn fuel' rangeStart m = some r := by
  rw [stages] at h ⊢
  split_ifs at h ⊢
  · obtain ⟨r₁, hstage, h⟩ := Option.bind_eq_some_iff.mp h
    rw [stage_mono hle hstage, Option.bind_some]
    split_ifs at h ⊢
    · exact h
    · obtain ⟨info, hdelete, h⟩ := Option.bind_eq_some_iff.mp h
      obtain ⟨r₂, hrange, heq⟩ := Option.map_eq_some_iff.mp h
      rw [hdelete, Option.bind_some, rangeStage, stage_mono hle hrange, Option.map_some, heq]
  · obtain ⟨r₁, hrange, heq⟩ := Option.map_eq_some_iff.mp h
    rw [rangeStage, stage_mono hle hrange, Option.map_some, heq]

end MapLoop

theorem mapRange_mono (hle : fuel ≤ fuel') {dontUseSoe : Bool} {range : Option ℕ} {m : MapState α}
    {r : ExtentInfo × α} (h : mapRange dontUseSoe b fuel fn flags range m = some r) :
    mapRange dontUseSoe b fuel' fn flags range m = some r := by
  rw [mapRange] at h ⊢
  obtain ⟨p, hplan, h⟩ := Option.bind_eq_some_iff.mp h
  obtain ⟨r₁, hstages, h⟩ := Option.bind_eq_some_iff.mp h
  rw [hplan, Option.bind_some]
  simp only
  rw [MapLoop.stages_mono hle hstages, Option.bind_some, h]

end XEmacs.Extents
