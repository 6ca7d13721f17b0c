import XEmacs.Text.Buffer

/-! Gap motion in a buffer and the ways its gap gets larger: the text stays, a quit only
stops the gap on its way, and both sentinels are in place afterwards. Markers keep the
positions they stand for as long as a gap that is moved right has a size that fits in
an `int`. -/

namespace XEmacs.Text

open Lib Lib.Gap

namespace Buffer

variable (rep : UInt8 → ℕ)

section Loops

variable (quitp : ℕ → Bool) {bpos k newS1 : ℤ} {fuel : ℕ} (mem : ℤ → UInt8)

theorem gapLeftLoop_succ (hk : 0 ≤ k) (hb : bpos < newS1) (hq : quitp fuel = false) :
    ∃ g, bpos ≤ g ∧ g < newS1 ∧
      gapLeftLoop quitp bpos k (fuel + 1) newS1 mem =
        gapLeftLoop quitp bpos k fuel g (memmove (g - 1 + k) (g - 1) (newS1 - 1 - (g - 1)) mem) := by
  set i := if newS1 - bpos > gapMoveChunk then gapMoveChunk else newS1 - bpos with hi
  have hi1 : 0 < i ∧ i ≤ newS1 - bpos := by
    rw [hi]; unfold gapMoveChunk; split_ifs <;> omega
  have hcast : (i.toNat : ℤ) = i := by omega
  have hcopy : copyDown i.toNat (newS1 - 1 + k) (newS1 - 1) mem =
      memmove (newS1 - 1 + k - i) (newS1 - 1 - i) i mem := by
    rw [copyDown_eq_memmove _ (by omega), hcast]
  refine ⟨newS1 - i, by omega, by omega, ?_⟩
  have harg : memmove (newS1 - i - 1 + k) (newS1 - i - 1) (newS1 - 1 - (newS1 - i - 1)) mem =
      memmove (newS1 - 1 + k - i) (newS1 - 1 - i) i mem := by
    congr 1 <;> omega
  rw [harg, gapLeftLoop]
  simp only [← hi, hcopy, hq, Bool.false_eq_true, if_false, ite_self]
  rw [if_neg (by omega)]

theorem gapLeftLoop_spec (hk : 0 ≤ k) (hb : bpos ≤ newS1) (hfuel : newS1 - bpos ≤ fuel) :
    let r := gapLeftLoop quitp bpos k fuel newS1 mem
    (bpos ≤ r.2 ∧ r.2 ≤ newS1) ∧ (∀ p, view r.1 (r.2 - 1) k p = view mem (newS1 - 1) k p) ∧
      (∀ a, newS1 - 1 + k ≤ a → r.1 a = mem a) ∧ ((∀ n, quitp n = false) → r.2 = bpos) := by
  induction fuel generalizing newS1 mem with
  | zero => exact ⟨⟨hb, le_rfl⟩, fun _ => rfl, fun _ _ => rfl, fun _ => by simp at hfuel; show newS1 = bpos; omega⟩
  | succ fuel ih =>
    by_cases hdone : newS1 - bpos = 0
    · have hstop : gapLeftLoop quitp bpos k (fuel + 1) newS1 mem = (mem, newS1) := by
        rw [gapLeftLoop]; simp only [hdone, if_true]
      rw [hstop]
      exact ⟨⟨hb, le_rfl⟩, fun _ => rfl, fun _ _ => rfl, fun _ => show newS1 = bpos by omega⟩
    · cases hq : quitp fuel with
      | true =>
        have hstop : gapLeftLoop quitp bpos k (fuel + 1) newS1 mem = (mem, newS1) := by
          rw [gapLeftLoop]; simp only [hdone, hq, if_true, if_false]
        rw [hstop]
        exact ⟨⟨hb, le_rfl⟩, fun _ => rfl, fun _ _ => rfl, fun h => by simp [h] at hq⟩
      | false =>
        obtain ⟨g, hg1, hg2, hstep⟩ := gapLeftLoop_succ quitp mem hk (by omega : bpos < newS1) hq
        obtain ⟨hr, hview, hframe, hquit⟩ := ih (memmove (g - 1 + k) (g - 1) (newS1 - 1 - (g - 1)) mem) hg1 (by push_cast at hfuel; omega)
        rw [hstep]
        refine ⟨⟨hr.1, by omega⟩, fun p => ?_, fun a ha => ?_, hquit⟩
        · rw [hview, view_move_left _ (by omega) hk]
        · rw [hframe a (by omega), memmove_of_not_mem (by omega)]

theorem gapRightLoop_succ (hk : 0 ≤ k) (hb : newS1 < bpos) (hq : quitp fuel = false) :
    ∃ g, g ≤ bpos ∧ newS1 < g ∧
      gapRightLoop quitp bpos k (fuel + 1) newS1 mem =
        gapRightLoop quitp bpos k fuel g (memmove (newS1 - 1) (newS1 - 1 + k) (g - 1 - (newS1 - 1)) mem) := by
  set i := if bpos - newS1 > gapMoveChunk then gapMoveChunk else bpos - newS1 with hi
  have hi1 : 0 < i ∧ i ≤ bpos - newS1 := by
    rw [hi]; unfold gapMoveChunk; split_ifs <;> omega
  have hcast : (i.toNat : ℤ) = i := by omega
  have hcopy : copyUp i.toNat (newS1 - 1) (newS1 - 1 + k) mem =
      memmove (newS1 - 1) (newS1 - 1 + k) i mem := by
    rw [copyUp_eq_memmove _ (by omega), hcast]
  refine ⟨newS1 + i, by omega, by omega, ?_⟩
  have harg : newS1 + i - 1 - (newS1 - 1) = i := by omega
  rw [harg, gapRightLoop]
  simp only [← hi, hcopy, hq, Bool.false_eq_true, if_false, ite_self]
  rw [if_neg (by omega)]

theorem gapRightLoop_spec (hk : 0 ≤ k) (hb : newS1 ≤ bpos) (hfuel : bpos - newS1 ≤ fuel) :
    let r := gapRightLoop quitp bpos k fuel newS1 mem
    (newS1 ≤ r.2 ∧ r.2 ≤ bpos) ∧ (∀ p, view r.1 (r.2 - 1) k p = view mem (newS1 - 1) k p) ∧
      (∀ a, bpos - 1 ≤ a → r.1 a = mem a) ∧ ((∀ n, quitp n = false) → r.2 = bpos) := by
  induction fuel generalizing newS1 mem with
  | zero => exact ⟨⟨le_rfl, hb⟩, fun _ => rfl, fun _ _ => rfl, fun _ => by simp at hfuel; show newS1 = bpos; omega⟩
  | succ fuel ih =>
    by_cases hdone : bpos - newS1 = 0
    · have hstop : gapRightLoop quitp bpos k (fuel + 1) newS1 mem = (mem, newS1) := by
        rw [gapRightLoop]; simp only [hdone, if_true]
      rw [hstop]
      exact ⟨⟨le_rfl, hb⟩, fun _ => rfl, fun _ _ => rfl, fun _ => show newS1 = bpos by omega⟩
    · cases hq : quitp fuel with
      | true =>
        have hstop : gapRightLoop quitp bpos k (fuel + 1) newS1 mem = (mem, newS1) := by
          rw [gapRightLoop]; simp only [hdone, hq, if_true, if_false]
        rw [hstop]
        exact ⟨⟨le_rfl, hb⟩, fun _ => rfl, fun _ _ => rfl, fun h => by simp [h] at hq⟩
      | false =>
        obtain ⟨g, hg1, hg2, hstep⟩ := gapRightLoop_succ quitp mem hk (by omega : newS1 < bpos) hq
        obtain ⟨hr, hview, hframe, hquit⟩ := ih
          (memmove (newS1 - 1) (newS1 - 1 + k) (g - 1 - (newS1 - 1)) mem) hg1 (by push_cast at hfuel; omega)
        rw [hstep]
        refine ⟨⟨by omega, hr.2⟩, fun p => ?_, fun a ha => ?_, hquit⟩
        · rw [hview, view_move_right _ (by omega) hk]
        · rw [hframe a ha, memmove_of_not_mem (by omega)]

end Loops

/-- The gap lies in the text and holds its sentinel, and everything is in the allocated block. -/
structure Layout (b : Buffer) : Prop where
  one_le_gpt : 1 ≤ b.gpt
  gpt_le_z : b.gpt ≤ b.z
  gap_pos : 1 ≤ b.gapSize
  endGap_nonneg : 0 ≤ b.endGapSize
  allocated_eq : b.allocated = b.z + b.gapSize + b.endGapSize

/-- `b'` differs from `b` in its gaps at most; its sentinels are in place if those of `b` were. -/
structure SameText (b b' : Buffer) : Prop where
  frame : b' = { b with
    beg := b'.beg, allocated := b'.allocated, gpt := b'.gpt, bufgpt := b'.bufgpt,
    gapSize := b'.gapSize, endGapSize := b'.endGapSize, markers := b'.markers }
  layout : b'.Layout
  byteAt : ∀ p, p < b.z → b'.byteAt p = b.byteAt p
  gapSentinel : b.beg b.gptAddr = 0 → b'.beg b'.gptAddr = 0
  endSentinel : b.beg b.endAddr = 0 → b'.beg b'.endAddr = 0

structure Sentinels (b : Buffer) : Prop where
  gap : b.beg b.gptAddr = 0
  stop : b.beg b.endAddr = 0

/-- Markers are adjusted one by one; valid ones stay valid and stand for the same positions. -/
def KeepsMarks (b b' : Buffer) : Prop :=
  ∃ f : ℤ → ℤ, b'.markers = b.markers.map (fun m => { m with membpos := f m.membpos }) ∧
    ∀ m, b.validMembposP m → b'.validMembposP (f m) ∧
      decode b'.gpt b'.gapSize (f m) = decode b.gpt b.gapSize m

theorem byteAt_eq (b : Buffer) (p : ℤ) : b.byteAt p = view b.beg (b.gpt - 1) b.gapSize (p - 1) := by
  unfold byteAt byteAddress view
  split_ifs <;> first | omega | rfl | (congr 1; omega)

theorem validMembposP_iff {b : Buffer} (h : b.Layout) {x : ℤ} :
    b.validMembposP x ↔ BeforeGapEnd b.gpt b.gapSize x ∧
      1 ≤ decode b.gpt b.gapSize x ∧ decode b.gpt b.gapSize x ≤ b.z := by
  obtain ⟨h1, h2, h3, -, -⟩ := h
  unfold validMembposP BeforeGapEnd decode
  split_ifs <;> omega

theorem membposToBytebpos_eq {b : Buffer} (h : b.Layout) {x : ℤ} (hx : b.validMembposP x) :
    b.membposToBytebpos x = decode b.gpt b.gapSize x := by
  obtain ⟨-, -, h3, -, -⟩ := h
  unfold validMembposP membposToBytebpos decode at *
  split_ifs <;> omega

theorem validMembposP_bytebposToMembpos {b : Buffer} (h : b.Layout) {x : ℤ} (hx : 1 ≤ x ∧ x ≤ b.z) :
    b.validMembposP (b.bytebposToMembpos x) ∧ decode b.gpt b.gapSize (b.bytebposToMembpos x) = x := by
  obtain ⟨-, -, h3, -, -⟩ := h
  unfold validMembposP bytebposToMembpos decode
  split_ifs <;> omega

theorem SameText.refl {b : Buffer} (h : b.Layout) : SameText b b := ⟨rfl, h, fun _ _ => rfl, id, id⟩

theorem SameText.z {b b' : Buffer} (h : SameText b b') : b'.z = b.z :=
  (congrArg Buffer.z h.frame :)

theorem SameText.trans {b₁ b₂ b₃ : Buffer} (h : SameText b₁ b₂) (h' : SameText b₂ b₃) :
    SameText b₁ b₃ where
  frame := by rw [h'.frame, h.frame]
  layout := h'.layout
  byteAt p hp := (h'.byteAt p (h.z ▸ hp)).trans (h.byteAt p hp)
  gapSentinel hs := h'.gapSentinel (h.gapSentinel hs)
  endSentinel hs := h'.endSentinel (h.endSentinel hs)

theorem SameText.text {b b' : Buffer} (h : SameText b b') : b'.text = b.text := by
  rw [Buffer.text, h.z]
  exact slice_congr fun p _ hp => h.byteAt _ (by omega)

theorem Sentinels.of_sameText {b b' : Buffer} (h : b.Sentinels) (hs : SameText b b') : b'.Sentinels :=
  ⟨hs.gapSentinel h.gap, hs.endSentinel h.stop⟩

theorem KeepsMarks.refl (b : Buffer) : KeepsMarks b b := ⟨id, by simp, fun _ h => ⟨h, rfl⟩⟩

theorem KeepsMarks.trans {b₁ b₂ b₃ : Buffer} (h : KeepsMarks b₁ b₂) (h' : KeepsMarks b₂ b₃) :
    KeepsMarks b₁ b₃ := by
  obtain ⟨f, hf, hm⟩ := h
  obtain ⟨f', hf', hm'⟩ := h'
  refine ⟨f' ∘ f, by rw [hf', hf, List.map_map]; rfl, fun m hv => ?_⟩
  exact ⟨(hm' _ (hm m hv).1).1, (hm' _ (hm m hv).1).2.trans (hm m hv).2⟩

theorem KeepsMarks.of_map {b b' : Buffer} (hb : b.Layout) (hb' : b'.Layout) (hz : b'.z = b.z)
    {f : ℤ → ℤ} (hf : b'.markers = b.markers.map fun m => { m with membpos := f m.membpos })
    (h : ∀ m, b.validMembposP m →
      BeforeGapEnd b'.gpt b'.gapSize (f m) ∧
        decode b'.gpt b'.gapSize (f m) = decode b.gpt b.gapSize m) :
    KeepsMarks b b' := by
  refine ⟨f, hf, fun m hv => ?_⟩
  obtain ⟨-, hbound⟩ := (validMembposP_iff hb).mp hv
  obtain ⟨hoff, hdec⟩ := h m hv
  rw [validMembposP_iff hb', hdec, hz]
  exact ⟨⟨hoff, hbound⟩, rfl⟩

/-! ### `gap_left` and `gap_right` -/

/-- The buffer after a loop has moved the gap to `gpt`. -/
def gapMoved (b : Buffer) (mem : ℤ → UInt8) (gpt bufgpt : ℤ) (adjust : ℤ → ℤ) : Buffer :=
  { b with
    beg := Function.update mem (gpt - 1) 0
    gpt := gpt
    bufgpt := bufgpt
    markers := b.markers.map fun m => { m with membpos := adjust m.membpos } }

section Moved

variable {b : Buffer} {mem : ℤ → UInt8} {gpt bufgpt : ℤ} {adjust : ℤ → ℤ}

theorem layout_gapMoved (h : b.Layout) (h1 : 1 ≤ gpt) (hz : gpt ≤ b.z) :
    (b.gapMoved mem gpt bufgpt adjust).Layout :=
  ⟨h1, hz, h.gap_pos, h.endGap_nonneg, h.allocated_eq⟩

theorem gptAddr_gapMoved : (b.gapMoved mem gpt bufgpt adjust).beg
    (b.gapMoved mem gpt bufgpt adjust).gptAddr = 0 := Function.update_self ..

theorem sameText_gapMoved (h : b.Layout) (h1 : 1 ≤ gpt) (hz : gpt ≤ b.z)
    (hview : ∀ p, view mem (gpt - 1) b.gapSize p = view b.beg (b.gpt - 1) b.gapSize p)
    (hframe : mem b.endAddr = b.beg b.endAddr) : SameText b (b.gapMoved mem gpt bufgpt adjust) where
  frame := rfl
  layout := layout_gapMoved h h1 hz
  byteAt p _ := by
    have := h.gap_pos
    rw [byteAt_eq, byteAt_eq, ← hview]
    exact view_update_gap _ _ le_rfl (by show gpt - 1 < gpt - 1 + b.gapSize; omega) _
  gapSentinel _ := gptAddr_gapMoved
  endSentinel hs := by
    have := h.gap_pos
    rw [← hs, ← hframe]
    exact Function.update_of_ne (by show b.gapSize + b.z - 1 ≠ gpt - 1; omega) _ _

theorem keepsMarks_gapMoved (h : b.Layout) (h1 : 1 ≤ gpt) (hz : gpt ≤ b.z)
    (hadj : ∀ m, BeforeGapEnd b.gpt b.gapSize m → BeforeGapEnd gpt b.gapSize (adjust m) ∧
      decode gpt b.gapSize (adjust m) = decode b.gpt b.gapSize m) :
    KeepsMarks b (b.gapMoved mem gpt bufgpt adjust) :=
  KeepsMarks.of_map h (layout_gapMoved h h1 hz) rfl rfl fun m hm => hadj m ((validMembposP_iff h).mp hm).1

end Moved

theorem gapLeft_eq (b : Buffer) (quitp : ℕ → Bool) (cpos bpos : ℤ) :
    let moved := gapLeftLoop quitp bpos b.gapSize (b.gpt - bpos).toNat b.gpt b.beg
    ∃ cpos', b.gapLeft rep quitp cpos bpos =
      b.gapMoved moved.1 moved.2 cpos' (doMarkerAdjustment · moved.2 b.gpt b.gapSize) :=
  ⟨_, rfl⟩

theorem gapLeft_spec {b : Buffer} (h : b.Layout) (quitp : ℕ → Bool) (cpos : ℤ) {bpos : ℤ}
    (h1 : 1 ≤ bpos) (hlt : bpos < b.gpt) :
    let b' := b.gapLeft rep quitp cpos bpos
    SameText b b' ∧ KeepsMarks b b' ∧ ((∀ n, quitp n = false) → b'.gpt = bpos) := by
  obtain ⟨cpos', heq⟩ := gapLeft_eq rep b quitp cpos bpos
  obtain ⟨hg1, hg2, hg3, hg4, hg5⟩ := id h
  obtain ⟨hr, hview, hframe, hquit⟩ := gapLeftLoop_spec quitp b.beg
    (show 0 ≤ b.gapSize by omega) hlt.le (show b.gpt - bpos ≤ (b.gpt - bpos).toNat by omega)
  rw [heq]
  refine ⟨sameText_gapMoved h (by omega) (by omega) hview (hframe _ (by unfold endAddr; omega)), ?_,
    hquit⟩
  exact keepsMarks_gapMoved h (by omega) (by omega) fun m hm =>
    ⟨beforeGapEnd_adjust_left hr.2 (by omega) hm, decode_adjust_left hr.2 (by omega) m⟩

theorem toInt_eq {n : ℤ} (h0 : 0 ≤ n) (h : n < 2 ^ 31) : toInt n = n := by
  unfold toInt; omega

theorem gapRight_eq (b : Buffer) (quitp : ℕ → Bool) (cpos bpos : ℤ) :
    let moved := gapRightLoop quitp bpos b.gapSize (bpos - b.gpt).toNat b.gpt b.beg
    let gsize := toInt b.gapSize
    ∃ cpos', b.gapRight rep quitp cpos bpos =
      let b' := b.gapMoved moved.1 moved.2 cpos'
        (doMarkerAdjustment · (b.gpt + gsize) (moved.2 + gsize) (-gsize))
      if moved.2 = b.z then
        { b' with gapSize := b'.gapSize + b'.endGapSize, endGapSize := 0 }.setEndSentinel
      else b' :=
  ⟨_, rfl⟩

theorem absorbEndGap_spec {b : Buffer} (h : b.Layout) (hend : b.gpt = b.z) :
    let b' := { b with gapSize := b.gapSize + b.endGapSize, endGapSize := 0 }.setEndSentinel
    SameText b b' ∧ KeepsMarks b b' ∧ b'.beg b'.endAddr = 0 := by
  obtain ⟨hg1, hg2, hg3, hg4, hg5⟩ := id h
  have hlayout : { b with gapSize := b.gapSize + b.endGapSize, endGapSize := 0 }.setEndSentinel.Layout :=
    ⟨hg1, hg2, by show 1 ≤ b.gapSize + b.endGapSize; omega, le_rfl,
      by show b.allocated = b.z + (b.gapSize + b.endGapSize) + 0; omega⟩
  have hne : b.gapSize + b.endGapSize + b.z - 1 ≠ b.gpt - 1 := by omega
  refine ⟨⟨rfl, hlayout, fun p hp => ?_, fun hs => ?_, fun _ => Function.update_self ..⟩, ?_,
    Function.update_self ..⟩
  · rw [byteAt_eq, byteAt_eq]
    -- all of the text is before the gap
    have hbefore : p - 1 < b.gpt - 1 := by omega
    show view (Function.update b.beg (b.gapSize + b.endGapSize + b.z - 1) 0) (b.gpt - 1)
      (b.gapSize + b.endGapSize) (p - 1) = _
    rw [view, view, if_pos hbefore, if_pos hbefore, Function.update_of_ne (by omega)]
  · exact (Function.update_of_ne hne.symm _ _).trans hs
  · refine KeepsMarks.of_map h hlayout rfl (f := id) (by simp [setEndSentinel]) fun m hm => ?_
    have hle : m ≤ b.gpt := by unfold validMembposP at hm; omega
    exact ⟨.inl hle, (decode_of_le hle).trans (decode_of_le hle).symm⟩

theorem gapRight_spec {b : Buffer} (h : b.Layout) (quitp : ℕ → Bool) (cpos : ℤ) {bpos : ℤ}
    (hlt : b.gpt < bpos) (hz : bpos ≤ b.z) :
    let b' := b.gapRight rep quitp cpos bpos
    SameText b b' ∧ (b.gapSize < 2 ^ 31 → KeepsMarks b b') ∧
      ((∀ n, quitp n = false) → b'.gpt = bpos ∧ (bpos = b.z → b'.Sentinels)) := by
  obtain ⟨cpos', heq⟩ := gapRight_eq rep b quitp cpos bpos
  obtain ⟨hg1, hg2, hg3, hg4, hg5⟩ := id h
  obtain ⟨hr, hview, hframe, hquit⟩ := gapRightLoop_spec quitp b.beg
    (show 0 ≤ b.gapSize by omega) hlt.le (show bpos - b.gpt ≤ (bpos - b.gpt).toNat by omega)
  rw [heq]
  set moved := gapRightLoop quitp bpos b.gapSize (bpos - b.gpt).toNat b.gpt b.beg
  set b' := b.gapMoved moved.1 moved.2 cpos'
    (doMarkerAdjustment · (b.gpt + toInt b.gapSize) (moved.2 + toInt b.gapSize) (-toInt b.gapSize))
  have hlayout : b'.Layout := layout_gapMoved h (by omega) (by omega)
  have hsame : SameText b b' :=
    sameText_gapMoved h (by omega) (by omega) hview (hframe _ (by unfold endAddr; omega))
  have hmarks : b.gapSize < 2 ^ 31 → KeepsMarks b b' := fun hfit =>
    keepsMarks_gapMoved h (by omega) (by omega) fun m hm => by
      rw [toInt_eq (by omega) hfit]
      exact ⟨beforeGapEnd_adjust_right hr.1 (by omega) hm, decode_adjust_right hr.1 (by omega) m⟩
  have hsent : b'.beg b'.gptAddr = 0 := gptAddr_gapMoved
  by_cases hend : moved.2 = b.z
  · obtain ⟨hsame', hmarks', hstop⟩ := absorbEndGap_spec hlayout hend
    simp only [if_pos hend]
    exact ⟨hsame.trans hsame', fun hfit => (hmarks hfit).trans hmarks',
      fun hq => ⟨hquit hq, fun _ => ⟨hsame'.gapSentinel hsent, hstop⟩⟩⟩
  · simp only [if_neg hend]
    exact ⟨hsame, hmarks, fun hq => ⟨hquit hq, fun hbz => absurd ((hquit hq).trans hbz) hend⟩⟩

theorem moveGap_spec {b : Buffer} (h : b.Layout) (quitp : ℕ → Bool) (cpos : ℤ) {bpos : ℤ}
    (h1 : 1 ≤ bpos) (hz : bpos ≤ b.z) :
    let b' := b.moveGap rep quitp cpos bpos
    SameText b b' ∧ ((b.gpt < bpos → b.gapSize < 2 ^ 31) → KeepsMarks b b') ∧
      ((∀ n, quitp n = false) → b'.gpt = bpos ∧ (b.gpt < bpos → bpos = b.z → b'.Sentinels)) := by
  simp only [moveGap]
  split_ifs with hlt hgt
  · obtain ⟨hs, hm, hq⟩ := gapLeft_spec rep h quitp cpos h1 hlt
    exact ⟨hs, fun _ => hm, fun hn => ⟨hq hn, fun hgt => by omega⟩⟩
  · obtain ⟨hs, hm, hq⟩ := gapRight_spec rep h quitp cpos hgt hz
    exact ⟨hs, fun hfit => hm (hfit hgt), fun hn => ⟨(hq hn).1, fun _ => (hq hn).2⟩⟩
  · exact ⟨.refl h, fun _ => .refl b, fun _ => ⟨by omega, fun h => by omega⟩⟩

theorem moveGapNextTo_spec {b : Buffer} (h : b.Layout) (start stop : ℤ) {byteFrom byteTo : ℤ}
    (h1 : 1 ≤ byteFrom) (hle : byteFrom ≤ byteTo) (hz : byteTo ≤ b.z) :
    let b' := b.moveGapNextTo rep start stop byteFrom byteTo
    SameText b b' ∧ ((b.gpt < byteFrom → b.gapSize < 2 ^ 31) → KeepsMarks b b') ∧
      byteFrom ≤ b'.gpt ∧ b'.gpt ≤ byteTo := by
  simp only [moveGapNextTo]
  by_cases hlt : byteTo < b.gpt
  · obtain ⟨hs, hm, hq⟩ := gapLeft_spec rep h inhibitQuit stop (by omega) hlt
    have hgpt := hq fun _ => rfl
    rw [if_pos hlt, if_neg (by omega)]
    exact ⟨hs, fun _ => hm, by omega, by omega⟩
  · rw [if_neg hlt]
    by_cases hgt : byteFrom > b.gpt
    · obtain ⟨hs, hm, hq⟩ := gapRight_spec rep h inhibitQuit start hgt (by omega)
      have hgpt := (hq fun _ => rfl).1
      rw [if_pos hgt]
      exact ⟨hs, fun hfit => hm (hfit hgt), by omega, by omega⟩
    · rw [if_neg hgt]
      exact ⟨.refl h, fun _ => .refl b, by omega, by omega⟩

/-! ### A larger gap -/

theorem combineGaps_eq (b : Buffer) (inc : ℤ) :
    let moved := gapLeftLoop inhibitQuit (b.gpt + b.gapSize) inc
      (b.z + b.gapSize - (b.gpt + b.gapSize)).toNat (b.z + b.gapSize) b.beg
    b.combineGaps rep inc =
      { b with
        beg := Function.update (Function.update (Function.update moved.1 (moved.2 - 1) 0)
          (b.gpt - 1) 0) (inc + b.gapSize + b.z - 1) 0
        gapSize := inc + b.gapSize
        endGapSize := 0
        markers := b.markers.map fun m =>
          { m with membpos := doMarkerAdjustment m.membpos moved.2 (b.z + b.gapSize) inc } } :=
  rfl

theorem combineGaps_spec {b : Buffer} (h : b.Layout) (hpos : 0 < b.endGapSize) :
    let b' := b.combineGaps rep b.endGapSize
    SameText b b' ∧ KeepsMarks b b' ∧ b'.gapSize = b.endGapSize + b.gapSize ∧ b'.gpt = b.gpt := by
  obtain ⟨hg1, hg2, hg3, hg4, hg5⟩ := id h
  obtain ⟨-, hview, -, hquit⟩ := gapLeftLoop_spec inhibitQuit b.beg hpos.le
    (show b.gpt + b.gapSize ≤ b.z + b.gapSize by omega) (Int.self_le_toNat _)
  have hstop := hquit fun _ => rfl
  rw [combineGaps_eq]
  set moved := gapLeftLoop inhibitQuit (b.gpt + b.gapSize) b.endGapSize
    (b.z + b.gapSize - (b.gpt + b.gapSize)).toNat (b.z + b.gapSize) b.beg
  set b' : Buffer := { b with
      beg := Function.update (Function.update (Function.update moved.1 (moved.2 - 1) 0)
        (b.gpt - 1) 0) (b.endGapSize + b.gapSize + b.z - 1) 0
      gapSize := b.endGapSize + b.gapSize
      endGapSize := 0
      markers := b.markers.map fun m =>
        { m with membpos := doMarkerAdjustment m.membpos moved.2 (b.z + b.gapSize) b.endGapSize } }
  have hlayout : b'.Layout :=
    ⟨hg1, hg2, by show 1 ≤ b.endGapSize + b.gapSize; omega, le_rfl,
      by show b.allocated = b.z + (b.endGapSize + b.gapSize) + 0; omega⟩
  have hbytes : ∀ p, p < b.z → b'.byteAt p = b.byteAt p := by
    intro p hp
    rw [byteAt_eq, byteAt_eq]
    -- no sentinel is read, and the joined gap reads as the new gap inside the old one
    have hread : view b'.beg b'.gptAddr b'.gapSize (p - 1) =
        view moved.1 (b.gpt - 1) (b.gapSize + b.endGapSize) (p - 1) := by
      show view _ (b.gpt - 1) (b.endGapSize + b.gapSize) (p - 1) = _
      rw [add_comm b.endGapSize, view_update_end (n := b.z - 1) _ _ (by omega) (by omega) (by omega),
        view_update_gap _ _ (by omega) (by omega), view_update_gap _ _ (by omega) (by omega)]
    refine hread.trans ?_
    rw [view_join _ (by omega)]
    refine view_congr (n := b.z - 1) (by omega) (fun q hq => ?_) (by omega)
    rw [show b.gpt - 1 + b.gapSize = moved.2 - 1 by omega, hview, view, if_pos (by omega)]
  refine ⟨⟨rfl, hlayout, hbytes, fun _ => ?_, fun _ => Function.update_self ..⟩, ?_, rfl, rfl⟩
  · exact (Function.update_of_ne (by show b.gpt - 1 ≠ b.endGapSize + b.gapSize + b.z - 1; omega) _ _).trans
      (Function.update_self ..)
  · refine KeepsMarks.of_map h hlayout rfl
      (f := (doMarkerAdjustment · moved.2 (b.z + b.gapSize) b.endGapSize)) rfl fun m hm => ?_
    have hmz : m ≤ b.z + b.gapSize := by unfold validMembposP at hm; omega
    rw [hstop]
    show BeforeGapEnd b.gpt (b.endGapSize + b.gapSize) _ ∧ decode b.gpt (b.endGapSize + b.gapSize) _ = _
    rw [add_comm b.endGapSize]
    exact ⟨beforeGapEnd_adjust_grow hpos.le ((validMembposP_iff h).mp hm).1 hmz,
      decode_adjust_grow hg2 (by omega) hpos.le hmz⟩

theorem mergeGapWithEndGap_spec {b : Buffer} (h : b.Layout) :
    let b' := b.mergeGapWithEndGap rep
    SameText b b' ∧ KeepsMarks b b' ∧ b'.gapSize = b.endGapSize + b.gapSize ∧ b'.gpt = b.gpt := by
  simp only [mergeGapWithEndGap]
  split_ifs with hpos
  · exact combineGaps_spec rep h hpos
  · have hzero : b.endGapSize = 0 := le_antisymm (by omega) h.endGap_nonneg
    have heq : { b with endGapSize := 0 } = b := by rw [← hzero]
    rw [heq, hzero, zero_add]
    exact ⟨.refl h, .refl b, rfl, rfl⟩

theorem le_maxAlignSize (n : ℤ) : n ≤ maxAlignSize n := by unfold maxAlignSize; omega

theorem makeGap_spec {b b' : Buffer} (h : b.Layout) {inc : ℤ} (hinc : 0 ≤ inc)
    (hb : b.makeGap rep inc = some b') :
    SameText b b' ∧ KeepsMarks b b' ∧ b.gapSize + inc + 1 ≤ b'.gapSize ∧ b'.gpt = b.gpt := by
  obtain ⟨hg1, hg2, hg3, hg4, hg5⟩ := id h
  have hal := le_maxAlignSize (inc + (2000 + (b.z - 1) / 8))
  set new := maxAlignSize (inc + (2000 + (b.z - 1) / 8))
  have hnew : inc + 2000 ≤ new := by omega
  simp only [makeGap] at hb
  by_cases hgt : new > b.endGapSize
  · rw [if_pos hgt] at hb
    split_ifs at hb
    -- the new cells are an end gap in the larger block
    set r : Buffer := { b with allocated := b.z - 1 + b.gapSize + new + 1, endGapSize := new }
    have hr : r.Layout := ⟨hg1, hg2, hg3, by show 0 ≤ new; omega,
      by show b.z - 1 + b.gapSize + new + 1 = b.z + b.gapSize + new; omega⟩
    have hbr : SameText b r := ⟨rfl, hr, fun _ _ => rfl, id, id⟩
    obtain ⟨hs, hm, hsz, hgpt⟩ := combineGaps_spec rep hr (show 0 < new by omega)
    have hres : r.combineGaps rep r.endGapSize = b' := Option.some.inj hb
    rw [hres] at hs hm hsz hgpt
    exact ⟨hbr.trans hs, hm, by rw [hsz]; show b.gapSize + inc + 1 ≤ new + b.gapSize; omega, hgpt⟩
  · rw [if_neg hgt, Option.some.injEq] at hb
    obtain ⟨hs, hm, hsz, hgpt⟩ := combineGaps_spec rep h (show 0 < b.endGapSize by omega)
    rw [hb] at hs hm hsz hgpt
    exact ⟨hs, hm, by omega, hgpt⟩

theorem makeRoom_spec {b b' : Buffer} (h : b.Layout) {pos bytepos length : ℤ}
    (h1 : 1 ≤ bytepos) (hz : bytepos ≤ b.z)
    (hb : b.makeRoom rep pos bytepos length = some b') :
    SameText b b' ∧ ((b.gpt < bytepos → b.gapSize < 2 ^ 31) → KeepsMarks b b') ∧
      (b.gpt < bytepos → bytepos = b.z → b'.Sentinels) ∧ b'.gpt = bytepos ∧
      length + 1 ≤ b'.gapSize := by
  simp only [makeRoom] at hb
  set c := if bytepos ≠ b.gpt then b.moveGap rep inhibitQuit pos bytepos else b with hc
  have hmoved : SameText b c ∧ ((b.gpt < bytepos → b.gapSize < 2 ^ 31) → KeepsMarks b c) ∧
      (b.gpt < bytepos → bytepos = b.z → c.Sentinels) ∧ c.gpt = bytepos := by
    rw [hc]
    split_ifs with hne
    · obtain ⟨hs, hm, hq⟩ := moveGap_spec rep h inhibitQuit pos h1 hz
      exact ⟨hs, hm, (hq fun _ => rfl).2, (hq fun _ => rfl).1⟩
    · exact ⟨.refl h, fun _ => .refl b, fun hgt => by omega, by omega⟩
  obtain ⟨hs, hm, hsent, hgpt⟩ := hmoved
  have hgap := hs.layout.gap_pos
  by_cases hroom : c.gapCanHoldSizeP length
  · rw [if_neg (not_not.mpr hroom), Option.some.injEq] at hb
    unfold gapCanHoldSizeP at hroom
    rw [← hb]
    exact ⟨hs, hm, hsent, hgpt, by omega⟩
  · rw [if_pos hroom] at hb
    unfold gapCanHoldSizeP at hroom
    by_cases hend : c.endGapSize ≥ length
    · rw [if_pos hend, Option.some.injEq] at hb
      obtain ⟨hs', hm', hsz, hgpt'⟩ := mergeGapWithEndGap_spec rep hs.layout
      rw [hb] at hs' hm' hsz hgpt'
      exact ⟨hs.trans hs', fun hfit => (hm hfit).trans hm',
        fun hgt hbz => (hsent hgt hbz).of_sameText hs', hgpt'.trans hgpt, by omega⟩
    · rw [if_neg hend] at hb
      obtain ⟨hs', hm', hsz, hgpt'⟩ := makeGap_spec rep hs.layout (by omega) hb
      exact ⟨hs.trans hs', fun hfit => (hm hfit).trans hm',
        fun hgt hbz => (hsent hgt hbz).of_sameText hs', hgpt'.trans hgpt, by omega⟩

end Buffer

end XEmacs.Text
