import XEmacs.Extent.ExtentAdjust
import XEmacs.Text.BufferRefinement

/-! Buffers with extents when the gap is moved and when it grows: the extents stay in order, and
their endpoints stay at the same characters, as long as the stack of extents is somewhere in
the text and sizes fit in an `int`. -/

namespace XEmacs.Extents

open Lib Lib.Gap Text

namespace BufferExtents

variable {rep : UInt8 → ℕ} {s s' : BufferExtents} {t : EditedText rep} {stamp : ℕ → ℤ} {b' : Buffer}
  {start stop amount : ℤ} {quitp : ℕ → Bool} {cpos bpos : ℤ}

instance (b : Buffer) (x : ℤ) : Decidable (b.validMembposP x) := inferInstanceAs (Decidable (_ ∨ _))

def AtChar (b : Buffer) (t : EditedText rep) (m : ℤ) : Prop :=
  BeforeGapEnd b.gpt b.gapSize m ∧ ∃ c, 1 ≤ c ∧ c ≤ t.z ∧ decode b.gpt b.gapSize m = bytePos t.chars c

/-- The buffer holds the text, its extents are in order and they begin and end at characters. -/
structure Holds (s : BufferExtents) (t : EditedText rep) (stamp : ℕ → ℤ) : Prop where
  text : s.buf.HoldsText t
  ordered : s.info.Ordered stamp
  atChar : ∀ e ∈ s.info.attached, AtChar s.buf t (s.info.ext e).start ∧ AtChar s.buf t (s.info.ext e).stop

/-- If there are extents, the stack of extents is nowhere or somewhere in the text. -/
def SoeInText (s : BufferExtents) : Prop :=
  s.info.attached.Nonempty → ∀ soe, s.info.soe = some soe → 0 ≤ soe.pos → s.buf.validMembposP soe.pos

theorem AtChar.valid {m : ℤ} (ht : s.buf.HoldsText t) (h : AtChar s.buf t m) : s.buf.validMembposP m := by
  obtain ⟨hgap, c, -, hz, hdec⟩ := h
  rw [Buffer.validMembposP_iff ht.layout, hdec]
  exact ⟨hgap, ht.bytePos_mem hz⟩

theorem decode_lt_decode {b : Buffer} (hb : b.Layout) (m : ℤ) {m' : ℤ} (hm' : b.validMembposP m') :
    decode b.gpt b.gapSize m < decode b.gpt b.gapSize m' ↔ m < m' := by
  obtain ⟨-, -, hgap, -, -⟩ := hb
  unfold Buffer.validMembposP at hm'
  unfold decode
  split_ifs <;> omega

structure GapMoved (t : EditedText rep) (stamp : ℕ → ℤ) (s s' : BufferExtents) : Prop where
  holds : s'.Holds t stamp
  sameText : s.buf.SameText s'.buf
  soe : s'.SoeInText

theorem GapMoved.refl (h : s.Holds t stamp) (hsoe : s.SoeInText) : GapMoved t stamp s s :=
  ⟨h, .refl h.text.layout, hsoe⟩

theorem GapMoved.trans {s'' : BufferExtents} (h : GapMoved t stamp s s') (h' : GapMoved t stamp s' s'') :
    GapMoved t stamp s s'' :=
  ⟨h'.holds, h.sameText.trans h'.sameText, h'.soe⟩

theorem Holds.adjustExtents (h : s.Holds t stamp) (hsame : s.buf.SameText b') (hfit : toInt amount = amount)
    (hkeep : ∀ m, s.buf.validMembposP m → BeforeGapEnd b'.gpt b'.gapSize (doMarkerAdjustment m start stop amount) ∧
      decode b'.gpt b'.gapSize (doMarkerAdjustment m start stop amount) = decode s.buf.gpt s.buf.gapSize m)
    (hin : ∀ m, s.buf.validMembposP m →
      ExtentInfo.adjusted start stop amount m = doMarkerAdjustment m start stop amount)
    (hsoe : s.SoeInText) : GapMoved t stamp s ⟨b', s.info.adjustExtents start stop amount⟩ := by
  have hlayout := hsame.layout
  have hvalid : ∀ m, s.buf.validMembposP m → b'.validMembposP (doMarkerAdjustment m start stop amount) := by
    intro m hm
    obtain ⟨hgap, hdec⟩ := hkeep m hm
    have hbound := ((Buffer.validMembposP_iff h.text.layout).mp hm).2
    rw [Buffer.validMembposP_iff hlayout, hdec, hsame.z]
    exact ⟨hgap, hbound⟩
  have hpos : ∀ m, b'.validMembposP m → 0 ≤ m := by
    intro m hm
    have h1 := hlayout.one_le_gpt
    have hgap := hlayout.gap_pos
    unfold Buffer.validMembposP at hm
    omega
  have hmono : StrictMonoOn (doMarkerAdjustment · start stop amount) {m | s.buf.validMembposP m} := by
    intro m hm m' hm' hlt
    rw [← decode_lt_decode hlayout _ (hvalid m' hm'), (hkeep m hm).2, (hkeep m' hm').2]
    exact (decode_lt_decode h.text.layout m hm').mpr hlt
  have hV : ∀ e ∈ s.info.attached, s.buf.validMembposP (s.info.ext e).start ∧ s.buf.validMembposP (s.info.ext e).stop :=
    fun e he => ⟨(h.atChar e he).1.valid h.text, (h.atChar e he).2.valid h.text⟩
  obtain ⟨hord, hmoved⟩ := h.ordered.adjustExtents hfit hmono (fun m hm => hin m hm)
    (fun m hm => hpos _ (hvalid m hm)) hV hsoe
  have hchar {m : ℤ} (hm : AtChar s.buf t m) : AtChar b' t (doMarkerAdjustment m start stop amount) := by
    obtain ⟨hgap, hdec⟩ := hkeep m (hm.valid h.text)
    obtain ⟨-, c, h1, hz, hc⟩ := hm
    exact ⟨hgap, c, h1, hz, hdec.trans hc⟩
  refine ⟨⟨h.text.of_sameText hsame, hord, fun e he => ?_⟩, hsame, fun hne soe' hsoe' hle => ?_⟩
  · rw [hmoved.attached] at he
    simp only [hmoved.ext e he]
    exact ⟨hchar (h.atChar e he).1, hchar (h.atChar e he).2⟩
  · rw [hmoved.attached] at hne
    obtain ⟨soe, hold, hpos'⟩ := hmoved.soe soe' hsoe' hne
    by_cases h0 : soe.pos ≥ 0
    · rw [hpos', if_pos h0]
      exact hvalid _ (hsoe hne soe hold h0)
    · rw [hpos', if_neg h0] at hle
      exact absurd hle h0

theorem le_allocated {b : Buffer} (hb : b.Layout) : b.z + b.gapSize ≤ b.allocated ∧ b.gapSize + b.endGapSize < b.allocated := by
  obtain ⟨h1, hz, -, hend, hall⟩ := hb
  omega

theorem adjusted_left {g g' k m : ℤ} (hk : 0 ≤ k) (hm : BeforeGapEnd g k m) :
    ExtentInfo.adjusted g' g k m = doMarkerAdjustment m g' g k := by
  unfold BeforeGapEnd ExtentInfo.adjusted doMarkerAdjustment at *
  grind

theorem adjusted_right {g g' k m : ℤ} (hk : 0 ≤ k) (hm : BeforeGapEnd g k m) :
    ExtentInfo.adjusted (g + k) (g' + k) (-k) m = doMarkerAdjustment m (g + k) (g' + k) (-k) := by
  unfold BeforeGapEnd ExtentInfo.adjusted doMarkerAdjustment at *
  grind

theorem adjusted_grow {g z k i m : ℤ} (hi : 0 ≤ i) (hm : m ≤ z + k) :
    ExtentInfo.adjusted (g + k) (z + k) i m = doMarkerAdjustment m (g + k) (z + k) i := by
  unfold ExtentInfo.adjusted doMarkerAdjustment at *
  grind

theorem Holds.gapLeft (h : s.Holds t stamp) (hsoe : s.SoeInText) (hfit : s.buf.allocated < 2 ^ 30) (h1 : 1 ≤ bpos)
    (hlt : bpos < s.buf.gpt) : GapMoved t stamp s (s.gapLeft rep quitp cpos bpos) := by
  have hb := h.text.layout
  have hgap : 0 ≤ s.buf.gapSize := by have := hb.gap_pos; omega
  have hsize : s.buf.gapSize < 2 ^ 31 := by have := le_allocated hb; have := hb.endGap_nonneg; omega
  obtain ⟨hsame, -, -⟩ := Buffer.gapLeft_spec rep hb quitp cpos h1 hlt
  obtain ⟨hr, -, -, -⟩ := Buffer.gapLeftLoop_spec quitp s.buf.beg hgap hlt.le
    (show s.buf.gpt - bpos ≤ (s.buf.gpt - bpos).toNat from Int.self_le_toNat _)
  apply h.adjustExtents hsame (Buffer.toInt_eq hgap hsize) _ _ hsoe
  · intro m hm
    have hm' := ((Buffer.validMembposP_iff hb).mp hm).1
    exact ⟨beforeGapEnd_adjust_left hr.2 hgap hm', decode_adjust_left hr.2 hgap m⟩
  · intro m hm
    exact adjusted_left hgap ((Buffer.validMembposP_iff hb).mp hm).1

theorem Holds.gapRight (h : s.Holds t stamp) (hsoe : s.SoeInText) (hfit : s.buf.allocated < 2 ^ 30)
    (hlt : s.buf.gpt < bpos) (hz : bpos ≤ s.buf.z) : GapMoved t stamp s (s.gapRight rep quitp cpos bpos) := by
  have hb := h.text.layout
  have hgap : 0 ≤ s.buf.gapSize := by have := hb.gap_pos; omega
  have hend := hb.endGap_nonneg
  have hsize : s.buf.gapSize < 2 ^ 31 := by have := le_allocated hb; omega
  have hint := Buffer.toInt_eq hgap hsize
  obtain ⟨hsame, -, -⟩ := Buffer.gapRight_spec rep hb quitp cpos hlt hz
  obtain ⟨hr, -, -, -⟩ := Buffer.gapRightLoop_spec quitp s.buf.beg hgap hlt.le
    (show bpos - s.buf.gpt ≤ (bpos - s.buf.gpt).toNat from Int.self_le_toNat _)
  obtain ⟨cpos', heq⟩ := Buffer.gapRight_eq rep s.buf quitp cpos bpos
  set moved := Buffer.gapRightLoop quitp bpos s.buf.gapSize (bpos - s.buf.gpt).toNat s.buf.gpt s.buf.beg
  have hgpt : (s.buf.gapRight rep quitp cpos bpos).gpt = moved.2 := by
    rw [heq]
    simp only
    split_ifs <;> rfl
  have hsize' : (s.buf.gapRight rep quitp cpos bpos).gapSize =
      if moved.2 = s.buf.z then s.buf.gapSize + s.buf.endGapSize else s.buf.gapSize := by
    rw [heq]
    simp only
    split_ifs <;> rfl
  have hmove : s.gapRight rep quitp cpos bpos = ⟨s.buf.gapRight rep quitp cpos bpos,
      s.info.adjustExtents (s.buf.gpt + s.buf.gapSize) (moved.2 + s.buf.gapSize) (-s.buf.gapSize)⟩ := by
    rw [BufferExtents.gapRight, hint, hgpt]
  rw [hmove]
  apply h.adjustExtents hsame (toInt_eq (by omega) (by omega)) _ _ hsoe
  · intro m hm
    obtain ⟨hm', -, hle⟩ := (Buffer.validMembposP_iff hb).mp hm
    have hgap' := beforeGapEnd_adjust_right hr.1 hgap hm'
    have hdec := decode_adjust_right hr.1 hgap m
    rw [hgpt, hsize']
    split_ifs with hall
    · -- all of the text is in front of the gap
      rw [← hdec] at hle
      have hbefore : doMarkerAdjustment m (s.buf.gpt + s.buf.gapSize) (moved.2 + s.buf.gapSize) (-s.buf.gapSize) ≤
          moved.2 := by
        unfold BeforeGapEnd decode at *
        split_ifs at hle <;> omega
      rw [decode_of_le hbefore] at hdec
      rw [decode_of_le hbefore]
      exact ⟨.inl hbefore, hdec⟩
    · exact ⟨hgap', hdec⟩
  · intro m hm
    exact adjusted_right hgap ((Buffer.validMembposP_iff hb).mp hm).1

theorem Holds.moveGap (h : s.Holds t stamp) (hsoe : s.SoeInText) (hfit : s.buf.allocated < 2 ^ 30) (h1 : 1 ≤ bpos)
    (hz : bpos ≤ s.buf.z) : GapMoved t stamp s (s.moveGap rep quitp cpos bpos) := by
  rw [BufferExtents.moveGap]
  split_ifs with hlt hgt
  · exact h.gapLeft hsoe hfit h1 hlt
  · exact h.gapRight hsoe hfit hgt hz
  · exact .refl h hsoe

theorem Holds.moveGapNextTo (h : s.Holds t stamp) (hsoe : s.SoeInText) (hfit : s.buf.allocated < 2 ^ 30)
    {byteFrom byteTo : ℤ} (h1 : 1 ≤ byteFrom) (hle : byteFrom ≤ byteTo) (hz : byteTo ≤ s.buf.z) :
    GapMoved t stamp s (s.moveGapNextTo rep start stop byteFrom byteTo) ∧
      (s.moveGapNextTo rep start stop byteFrom byteTo).buf = s.buf.moveGapNextTo rep start stop byteFrom byteTo := by
  rw [BufferExtents.moveGapNextTo, Buffer.moveGapNextTo]
  by_cases hlt : byteTo < s.buf.gpt
  · have hgpt : (s.buf.gapLeft rep Buffer.inhibitQuit stop byteTo).gpt = byteTo :=
      (Buffer.gapLeft_spec rep h.text.layout Buffer.inhibitQuit stop (by omega) hlt).2.2 fun _ => rfl
    have hnot : ¬ byteFrom > (s.buf.gapLeft rep Buffer.inhibitQuit stop byteTo).gpt := by omega
    have hnot' : ¬ byteFrom > (s.gapLeft rep Buffer.inhibitQuit stop byteTo).buf.gpt := hnot
    simp only [if_pos hlt]
    rw [if_neg hnot, if_neg hnot']
    exact ⟨h.gapLeft hsoe hfit (by omega) hlt, rfl⟩
  · simp only [if_neg hlt]
    split_ifs with hgt
    · exact ⟨h.gapRight hsoe hfit hgt (by omega), rfl⟩
    · exact ⟨.refl h hsoe, rfl⟩

theorem moveGap_buf (s : BufferExtents) (quitp : ℕ → Bool) (cpos bpos : ℤ) :
    (s.moveGap rep quitp cpos bpos).buf = s.buf.moveGap rep quitp cpos bpos := by
  rw [BufferExtents.moveGap, Buffer.moveGap]
  split_ifs <;> rfl

theorem combineGaps_info (hb : s.buf.Layout) {inc : ℤ} (hinc : 0 ≤ inc) : (s.combineGaps rep inc).info =
    s.info.adjustExtents (s.buf.gpt + s.buf.gapSize) (s.buf.z + s.buf.gapSize) inc := by
  have hz := hb.gpt_le_z
  obtain ⟨-, -, -, hquit⟩ := Buffer.gapLeftLoop_spec Buffer.inhibitQuit s.buf.beg hinc
    (show s.buf.gpt + s.buf.gapSize ≤ s.buf.z + s.buf.gapSize by omega) (Int.self_le_toNat _)
  -- the made-up gap goes all the way down
  rw [← hquit fun _ => rfl]
  rfl

theorem Holds.combineGaps (h : s.Holds t stamp) (hsoe : s.SoeInText) {inc : ℤ} (hinc : 0 ≤ inc) (hfit : inc < 2 ^ 31)
    (hsame : s.buf.SameText b') (hgpt : b'.gpt = s.buf.gpt) (hsize : b'.gapSize = inc + s.buf.gapSize) :
    GapMoved t stamp s ⟨b', (s.combineGaps rep inc).info⟩ := by
  have hb := h.text.layout
  have hgap : 0 ≤ s.buf.gapSize := by have := hb.gap_pos; omega
  have hz : ∀ m, s.buf.validMembposP m → m ≤ s.buf.z + s.buf.gapSize := fun m hm => by
    have hgz := hb.gpt_le_z
    unfold Buffer.validMembposP at hm
    omega
  rw [combineGaps_info hb hinc]
  apply h.adjustExtents hsame (Buffer.toInt_eq hinc hfit) _ _ hsoe
  · intro m hm
    rw [hgpt, hsize, add_comm inc]
    exact ⟨beforeGapEnd_adjust_grow hinc ((Buffer.validMembposP_iff hb).mp hm).1 (hz m hm),
      decode_adjust_grow hb.gpt_le_z hgap hinc (hz m hm)⟩
  · intro m hm
    exact adjusted_grow hinc (hz m hm)

theorem Holds.mergeGapWithEndGap (h : s.Holds t stamp) (hsoe : s.SoeInText)
    (hfit : (s.buf.mergeGapWithEndGap rep).allocated < 2 ^ 30) : GapMoved t stamp s (s.mergeGapWithEndGap rep) := by
  have hb := h.text.layout
  have hgap := hb.gap_pos
  obtain ⟨hsame, -, hsize, hgpt⟩ := Buffer.mergeGapWithEndGap_spec rep hb
  have hall := le_allocated hsame.layout
  have hend := hsame.layout.endGap_nonneg
  rw [BufferExtents.mergeGapWithEndGap]
  split_ifs with hpos
  · exact h.combineGaps hsoe (le_of_lt hpos) (by omega) hsame hgpt hsize
  · have hkeep : s.buf.mergeGapWithEndGap rep = s.buf := by
      have hzero : s.buf.endGapSize = 0 := le_antisymm (not_lt.mp hpos) hb.endGap_nonneg
      rw [Buffer.mergeGapWithEndGap]
      simp only [if_neg hpos]
      rw [← hzero]
    rw [hkeep]
    exact .refl h hsoe

theorem Holds.makeGap (h : s.Holds t stamp) (hsoe : s.SoeInText) {inc : ℤ} (hinc : 0 ≤ inc)
    (hs : s.makeGap rep inc = some s') (hfit : s'.buf.allocated < 2 ^ 30) : GapMoved t stamp s s' := by
  have hend := h.text.layout.endGap_nonneg
  have hgap := h.text.layout.gap_pos
  obtain ⟨b, hmake, rfl⟩ := Option.map_eq_some_iff.mp hs
  obtain ⟨hsame, -, -, hgpt⟩ := Buffer.makeGap_spec rep h.text.layout hinc hmake
  have hall := le_allocated hsame.layout
  have hend' := hsame.layout.endGap_nonneg
  set size := maxAlignSize (inc + (2000 + (s.buf.z - 1) / 8))
  have hsize : b.gapSize = (if size > s.buf.endGapSize then size else s.buf.endGapSize) + s.buf.gapSize := by
    rw [Buffer.makeGap] at hmake
    by_cases hgt : size > s.buf.endGapSize
    · rw [if_pos hgt] at hmake ⊢
      split_ifs at hmake
      rw [← Option.some.inj hmake]
      rfl
    · rw [if_neg hgt] at hmake ⊢
      rw [← Option.some.inj hmake]
      rfl
  apply h.combineGaps hsoe _ _ hsame hgpt hsize
  · split_ifs <;> omega
  · have hle : b.allocated < 2 ^ 30 := hfit
    omega

theorem makeGap_buf (s : BufferExtents) (inc : ℤ) :
    (s.makeGap rep inc).map (·.buf) = s.buf.makeGap rep inc :=
  (Option.map_map _ _ _).trans Option.map_id'

theorem makeRoom_buf (s : BufferExtents) (pos bytepos length : ℤ) :
    (s.makeRoom rep pos bytepos length).map (·.buf) = s.buf.makeRoom rep pos bytepos length := by
  rw [BufferExtents.makeRoom, Buffer.makeRoom]
  set r := if bytepos ≠ s.buf.gpt then s.moveGap rep Buffer.inhibitQuit pos bytepos else s with hr
  have hbuf : (if bytepos ≠ s.buf.gpt then s.buf.moveGap rep Buffer.inhibitQuit pos bytepos else s.buf) = r.buf := by
    rw [hr]
    split_ifs
    · exact (moveGap_buf s _ _ _).symm
    · rfl
  rw [hbuf]
  split_ifs
  · rfl
  · rfl
  · exact makeGap_buf r _

theorem Holds.makeRoom (h : s.Holds t stamp) (hsoe : s.SoeInText) (hfit : s.buf.allocated < 2 ^ 30) {pos bytepos length : ℤ}
    (h1 : 1 ≤ bytepos) (hz : bytepos ≤ s.buf.z) (hs : s.makeRoom rep pos bytepos length = some s')
    (hfit' : s'.buf.allocated < 2 ^ 30) : GapMoved t stamp s s' := by
  rw [BufferExtents.makeRoom] at hs
  set r := if bytepos ≠ s.buf.gpt then s.moveGap rep Buffer.inhibitQuit pos bytepos else s with hr
  have hmoved : GapMoved t stamp s r := by
    rw [hr]
    split_ifs
    · exact h.moveGap hsoe hfit h1 hz
    · exact .refl h hsoe
  by_cases hroom : r.buf.gapCanHoldSizeP length
  · rw [if_neg (not_not.mpr hroom), Option.some.injEq] at hs
    exact hs ▸ hmoved
  rw [if_pos hroom] at hs
  by_cases hend : r.buf.endGapSize ≥ length
  · rw [if_pos hend, Option.some.injEq] at hs
    rw [← hs] at hfit' ⊢
    exact hmoved.trans (hmoved.holds.mergeGapWithEndGap hmoved.soe hfit')
  · rw [if_neg hend] at hs
    unfold Buffer.gapCanHoldSizeP at hroom
    exact hmoved.trans (hmoved.holds.makeGap hmoved.soe (by omega) hs hfit')

end BufferExtents

end XEmacs.Extents
