import XEmacs.Text.BufferRefinement

/-! Runs of editing operations: the buffer holds the text that the same operations, as coded, make
of a list of characters, with both sentinels in place where the conditions of the steps are met. -/

namespace XEmacs.Text

open Lib Lib.Gap

variable {rep : UInt8 → ℕ}

namespace Buffer

variable {b b' : Buffer} {t : EditedText rep} {p q : ℤ}

theorem HoldsMarkers.restrict (h : b.HoldsMarkers t) (begv bufbegv zv bufzv : ℤ) (start stop : ℤ) :
    HoldsMarkers { b with bufbegv := bufbegv, begv := begv, bufzv := bufzv, zv := zv }
      { t with begv := start, zv := stop } where
  standsFor := h.standsFor.imp fun _ _ hm =>
    ⟨hm.addr, hm.insertionType, hm.beforeGapEnd, hm.pos, hm.inText⟩
  pointMarker := h.pointMarker

theorem setBufferPoint_restrict (b : Buffer) (begv bufbegv zv bufzv charbpos bytpos : ℤ) :
    { b with bufbegv := bufbegv, begv := begv, bufzv := bufzv, zv := zv }.setBufferPoint charbpos bytpos =
      { b.setBufferPoint charbpos bytpos with
        bufbegv := bufbegv, begv := begv, bufzv := bufzv, zv := zv } := by
  unfold setBufferPoint
  split_ifs <;> rfl

theorem narrowToRegion_eq (h : b.HoldsText t) {start stop : ℤ} (hle : start ≤ stop) :
    let p := if t.pt < start then start else if t.pt > stop then stop else t.pt
    b.narrowToRegion rep start stop =
      { b.setBufferPoint p (bytePos t.chars p) with
        bufbegv := start, begv := bytePos t.chars start, bufzv := stop, zv := bytePos t.chars stop } := by
  intro p
  rw [← setBufferPoint_restrict]
  set n : Buffer := { b with
    bufbegv := start, begv := bytePos t.chars start, bufzv := stop, zv := bytePos t.chars stop } with hn
  -- conversions do not depend on the region
  have hpos : ∀ q, n.charbposToBytebpos rep q = bytePos t.chars q := h.charbposToBytebpos
  have hpt : n.bufpt = t.pt := h.bufpt
  have hunfold : b.narrowToRegion rep start stop =
      let b := if n.bufpt < start then n.setBufferPoint start (n.charbposToBytebpos rep start) else n
      if b.bufpt > stop then b.setBufferPoint stop (b.charbposToBytebpos rep stop) else b := by
    simp only [narrowToRegion, hn, h.charbposToBytebpos]
  rw [hunfold]
  by_cases hlt : t.pt < start
  · have hp : p = start := if_pos hlt
    have hbufpt : (n.setBufferPoint start (bytePos t.chars start)).bufpt ≤ stop := by
      unfold setBufferPoint; split_ifs
      · rw [hpt]; omega
      · exact hle
    simp only [hpt, if_pos hlt, hpos, hp]
    rw [if_neg (by omega)]
  · by_cases hgt : t.pt > stop
    · have hp : p = stop := by simp only [p, if_neg hlt, if_pos hgt]
      simp only [hpt, if_neg hlt, if_pos hgt, hpos, hp]
    · have hp : p = t.pt := by simp only [p, if_neg hlt, if_neg hgt]
      have hself : bytePos t.chars t.pt = n.pt := h.pt.symm
      simp only [hpt, if_neg hlt, if_neg hgt, hp]
      rw [setBufferPoint, if_pos hself]

theorem narrowToRegion_spec (h : b.HoldsText t) {start stop : ℤ} (h1 : 1 ≤ start)
    (hle : start ≤ stop) (hz : stop ≤ t.z) :
    let b' := b.narrowToRegion rep start stop
    b'.HoldsText (t.narrow start stop) ∧ (b.HoldsMarkers t → b'.HoldsMarkers (t.narrow start stop)) ∧
      (b.Sentinels → b'.Sentinels) := by
  intro b'
  set p := if t.pt < start then start else if t.pt > stop then stop else t.pt with hp
  have hpin : start ≤ p ∧ p ≤ stop := by rw [hp]; split_ifs <;> omega
  have hpz : 1 ≤ p ∧ p ≤ t.z := ⟨h1.trans hpin.1, hpin.2.trans hz⟩
  have hb' : b' = _ := narrowToRegion_eq h hle
  rw [← hp] at hb'
  rw [hb', EditedText.narrow_eq t hle, EditedText.setPoint_restrict, ← hp]
  refine ⟨?_, fun hm => (setBufferPoint_markers h hm hpz).restrict _ _ _ _ _ _, fun hs => ?_⟩
  · rw [setBufferPoint_eq h hpz, EditedText.setPoint]
    by_cases heq : p = t.pt
    · rw [if_pos heq, if_pos heq]
      exact h.setPositions ⟨h.bufpt, h.pt⟩ ⟨rfl, rfl⟩ ⟨rfl, rfl⟩ ⟨h1, heq ▸ hpin.1, heq ▸ hpin.2, hz⟩ _ _
    · rw [if_neg heq, if_neg heq]
      exact h.setPositions ⟨rfl, rfl⟩ ⟨rfl, rfl⟩ ⟨rfl, rfl⟩ ⟨h1, hpin.1, hpin.2, hz⟩ _ _
  · obtain ⟨-, hkeep⟩ := b.setBufferPoint_frame p (bytePos t.chars p)
    exact ⟨(hkeep hs).gap, (hkeep hs).stop⟩

theorem standsFor_new (h : b.HoldsText t) (hp : 1 ≤ p ∧ p ≤ t.z) (addr : ℕ) (insertionType : Bool) :
    StandsFor b t ⟨addr, b.bytebposToMembpos (b.charbposToBytebpos rep p), insertionType⟩
      ⟨addr, p, insertionType⟩ := by
  obtain ⟨hv, hdec⟩ := validMembposP_bytebposToMembpos h.layout (h.bytePos_mem hp.2)
  rw [h.charbposToBytebpos]
  exact ⟨rfl, rfl, ((validMembposP_iff h.layout).mp hv).1, hdec, hp⟩

theorem makeMarker_markers (h : b.HoldsText t) (hm : b.HoldsMarkers t) (hp : 1 ≤ p ∧ p ≤ t.z)
    (addr : ℕ) (insertionType : Bool) :
    HoldsMarkers
      { b with markers :=
        ⟨addr, b.bytebposToMembpos (b.charbposToBytebpos rep p), insertionType⟩ :: b.markers }
      { t with markers := ⟨addr, p, insertionType⟩ :: t.markers } where
  standsFor := by
    have hnew := standsFor_new h hp addr insertionType
    refine .cons ⟨hnew.1, hnew.2, hnew.3, hnew.4, hnew.5⟩ (hm.standsFor.imp fun _ _ hmm => ?_)
    exact ⟨hmm.addr, hmm.insertionType, hmm.beforeGapEnd, hmm.pos, hmm.inText⟩
  pointMarker := hm.pointMarker

theorem setMarker_markers (h : b.HoldsText t) (hm : b.HoldsMarkers t) (hp : 1 ≤ p ∧ p ≤ t.z)
    (addr : ℕ) :
    HoldsMarkers
      { b with markers := b.markers.map fun m =>
        if m.addr = addr then
          { m with membpos := b.bytebposToMembpos (b.charbposToBytebpos rep p) }
        else m }
      (t.mapMarkers fun m => if m.addr = addr then p else m.pos) := by
  have hnew := standsFor_new h hp addr false
  refine hm.of_map (f := fun m => if m.addr = addr then
      b.bytebposToMembpos (b.charbposToBytebpos rep p) else m.membpos)
    (List.map_congr_left fun m _ => by split_ifs <;> rfl)
    (g := fun m => if m.addr = addr then p else m.pos) rfl rfl rfl fun m m' hmm => ?_
  rw [hmm.addr]
  by_cases haddr : m'.addr = addr
  · rw [if_pos haddr, if_pos haddr]
    exact ⟨hnew.beforeGapEnd, hnew.pos, hp⟩
  · rw [if_neg haddr, if_neg haddr]
    exact ⟨hmm.beforeGapEnd, hmm.pos, hmm.inText⟩

theorem unchainMarker_markers (hm : b.HoldsMarkers t) (addr : ℕ) :
    HoldsMarkers { b with markers := b.markers.filter (·.addr ≠ addr) }
      { t with markers := t.markers.filter (·.addr ≠ addr) } where
  standsFor := by
    have hsame := List.rel_filter (p := fun m : BufferMarker => decide (m.addr ≠ addr))
      (q := fun m : TextMarker => decide (m.addr ≠ addr))
      (fun m m' (hmm : StandsFor b t m m') => by simp [hmm.addr]) hm.standsFor
    refine hsame.imp fun _ _ hmm => ?_
    exact ⟨hmm.addr, hmm.insertionType, hmm.beforeGapEnd, hmm.pos, hmm.inText⟩
  pointMarker := hm.pointMarker

/-! ### Steps -/

/-- A gap that has to move right to a character position has a size that fits in an `int`. -/
def GapFitsInt (rep : UInt8 → ℕ) (b : Buffer) (pos : ℤ) : Prop :=
  b.gpt < b.charbposToBytebpos rep pos → b.gapSize < 2 ^ 31

instance (b : Buffer) (pos : ℤ) : Decidable (b.GapFitsInt rep pos) :=
  inferInstanceAs (Decidable (_ → _))

/-- The size of a gap that the operation moves right fits in an `int`. -/
def MarkersFit (b : Buffer) : BufferOp rep → Prop
  | .insert pos _ _ => b.GapFitsInt rep (b.clipPos (if pos = -1 then b.bufpt else pos))
  | .delete start stop =>
    let start := if start < b.bufbegv then b.bufbegv else start
    let stop := if stop > b.bufzv then b.bufzv else stop
    start < stop → b.deletesFromBottom stop (b.charbposToBytebpos rep start) ∨ b.GapFitsInt rep start
  | .replace pos ch => ch.bytes.length ≠ b.icharLenAt rep pos → b.GapFitsInt rep pos
  | .moveGap pos _ => b.GapFitsInt rep pos
  | _ => True

instance (b : Buffer) : (op : BufferOp rep) → Decidable (b.MarkersFit op)
  | .insert .. | .moveGap .. => inferInstanceAs (Decidable (b.GapFitsInt rep _))
  | .delete .. => inferInstanceAs (Decidable (_ → _ ∨ b.GapFitsInt rep _))
  | .replace .. => inferInstanceAs (Decidable (_ → b.GapFitsInt rep _))
  | .setPoint .. | .narrow .. | .makeMarker .. | .setMarker .. | .unchainMarker .. => isTrue trivial

/-- A character to be overwritten is in one piece. -/
def InOnePiece (b : Buffer) : BufferOp rep → Prop
  | .replace pos ch => ch.bytes.length = b.icharLenAt rep pos → ¬ b.GapInsideChar rep pos
  | _ => True

instance (b : Buffer) : (op : BufferOp rep) → Decidable (b.InOnePiece op)
  | .replace .. => inferInstanceAs (Decidable (_ → ¬ (_ ∧ _)))
  | .insert .. | .delete .. | .moveGap .. | .setPoint .. | .narrow .. | .makeMarker .. | .setMarker ..
  | .unchainMarker .. => isTrue trivial

/-- The operation does not give text to the end gap without a sentinel in its place. -/
def KeepsEndSentinel (b : Buffer) : BufferOp rep → Prop
  | .delete start stop =>
    let start := if start < b.bufbegv then b.bufbegv else start
    let stop := if stop > b.bufzv then b.bufzv else stop
    start < stop → ¬ b.DropsEndSentinel rep start stop
  | .replace pos ch => ¬ b.ReplaceDropsEndSentinel pos ch
  | _ => True

instance (b : Buffer) : (op : BufferOp rep) → Decidable (b.KeepsEndSentinel op)
  | .delete .. => inferInstanceAs (Decidable (_ → ¬ (_ ∧ _)))
  | .replace .. => inferInstanceAs (Decidable (¬ (_ ∧ (_ ∧ _) ∧ _)))
  | .insert .. | .moveGap .. | .setPoint .. | .narrow .. | .makeMarker .. | .setMarker ..
  | .unchainMarker .. => isTrue trivial

/-- Replacing a character by one of another length does not move the place of the insertion. -/
def ReplacesInPlace (b : Buffer) : BufferOp rep → Prop
  | .replace pos ch =>
    ¬ (ch.bytes.length ≠ b.icharLenAt rep pos ∧ pos = b.bufzv - 1 ∧
      (b.bufpt ≠ b.bufzv ∨ pos = b.bufbegv))
  | _ => True

instance (b : Buffer) : (op : BufferOp rep) → Decidable (b.ReplacesInPlace op)
  | .replace .. => inferInstanceAs (Decidable (¬ (_ ∧ _ ∧ _)))
  | .insert .. | .delete .. | .moveGap .. | .setPoint .. | .narrow .. | .makeMarker .. | .setMarker ..
  | .unchainMarker .. => isTrue trivial

theorem step_spec (h : b.HoldsText t) {op : BufferOp rep} (hpiece : b.InOnePiece op)
    (hs : b.step op = some b') :
    ∃ t', t.stepAsCoded op = some t' ∧ b'.HoldsText t' ∧
      (b.MarkersFit op → b.HoldsMarkers t → b'.HoldsMarkers t') ∧
      (b.KeepsEndSentinel op → b.Sentinels → b'.Sentinels) := by
  have hregion := h.inRange
  cases op with
  | insert pos str beforeMarkers =>
    obtain ⟨h1, h2, h3⟩ := bufferInsertString1_spec h hs
    refine ⟨_, rfl, h1, fun hfit => h3 fun hlt => hfit ?_, fun _ hsent => h2 (.inl hsent)⟩
    rwa [h.bufpt, h.clipPos, h.charbposToBytebpos]
  | delete start stop =>
    simp only [step, Option.some.injEq] at hs
    subst hs
    refine ⟨_, rfl, ?_⟩
    rcases bufferDeleteRange_clip h start stop rfl rfl with ⟨-, hb, ht⟩ | ⟨hlt, hdel, ht⟩
    · rw [hb, ht]
      exact ⟨h, fun _ => id, fun _ => id⟩
    · rw [ht]
      refine ⟨hdel.text, fun hfit => hdel.markers ?_, fun hkeep hsent => ?_⟩
      · simp only [MarkersFit, h.bufbegv, h.bufzv, GapFitsInt, h.charbposToBytebpos] at hfit
        exact hfit hlt
      · simp only [KeepsEndSentinel, h.bufbegv, h.bufzv] at hkeep
        exact ⟨hdel.gapSentinel, hdel.endSentinel hsent.stop (hkeep hlt)⟩
  | replace pos ch =>
    simp only [step, h.bufbegv, h.bufzv] at hs
    split at hs
    · rename_i hpos
      obtain ⟨h1, h2, h3⟩ := bufferReplaceChar_spec h hpos hpiece hs
      refine ⟨_, if_pos hpos, h1, fun hfit => h3 ?_, h2⟩
      simpa only [MarkersFit, GapFitsInt, h.charbposToBytebpos] using hfit
    · contradiction
  | moveGap pos quitp =>
    simp only [step, h.bufz] at hs
    split at hs
    · rename_i hpos
      simp only [Option.some.injEq] at hs
      subst hs
      have hbound := h.bytePos_mem hpos.2
      rw [h.charbposToBytebpos]
      obtain ⟨hsame, hkeep, -⟩ := moveGap_spec rep h.layout quitp pos hbound.1 hbound.2
      refine ⟨t, if_pos hpos, h.of_sameText hsame, fun hfit hm => hm.of_keepsMarks h hsame (hkeep ?_),
        fun _ hsent => hsent.of_sameText hsame⟩
      simpa only [MarkersFit, GapFitsInt, h.charbposToBytebpos] using hfit
    · contradiction
  | setPoint pos =>
    simp only [step, h.bufbegv, h.bufzv] at hs
    split at hs
    · rename_i hpos
      simp only [Option.some.injEq, h.charbposToBytebpos] at hs
      subst hs
      exact ⟨_, if_pos hpos, setBufferPoint_text h hpos,
        fun _ hm => setBufferPoint_markers h hm ⟨by have := hregion.begv; omega, by
          have := hregion.zv_le_z; omega⟩, fun _ => (b.setBufferPoint_frame _ _).2⟩
    · contradiction
  | narrow start stop =>
    simp only [step, h.bufz] at hs
    split at hs
    · rename_i hpos
      simp only [Option.some.injEq] at hs
      subst hs
      obtain ⟨h1, h2, h3⟩ := narrowToRegion_spec h hpos.1 hpos.2.1 hpos.2.2
      exact ⟨_, if_pos hpos, h1, fun _ => h2, fun _ => h3⟩
    · contradiction
  | makeMarker addr pos insertionType =>
    simp only [step] at hs
    split at hs
    · rename_i hpos
      rw [h.bufz] at hpos
      simp only [Option.some.injEq] at hs
      subst hs
      exact ⟨_, if_pos hpos.1, h.setMarkers _ _, fun _ hm => makeMarker_markers h hm hpos.1 _ _,
        fun _ hsent => ⟨hsent.gap, hsent.stop⟩⟩
    · contradiction
  | setMarker addr pos =>
    simp only [step] at hs
    split at hs
    · rename_i hpos
      rw [h.bufz] at hpos
      simp only [Option.some.injEq] at hs
      subst hs
      exact ⟨_, if_pos hpos.1, h.setMarkers _ _, fun _ hm => setMarker_markers h hm hpos.1 _,
        fun _ hsent => ⟨hsent.gap, hsent.stop⟩⟩
    · contradiction
  | unchainMarker addr =>
    simp only [step] at hs
    split at hs
    · simp only [Option.some.injEq] at hs
      subst hs
      exact ⟨_, rfl, h.setMarkers _ _, fun _ hm => unchainMarker_markers hm _,
        fun _ hsent => ⟨hsent.gap, hsent.stop⟩⟩
    · contradiction

theorem stepAsCoded_eq (h : b.HoldsText t) {op : BufferOp rep} (hok : b.ReplacesInPlace op) :
    t.stepAsCoded op = t.step op := by
  cases op with
  | replace pos ch =>
    simp only [EditedText.stepAsCoded, EditedText.step, EditedText.stepWith]
    by_cases hpos : t.begv ≤ pos ∧ pos < t.zv
    · obtain ⟨hr1, hr2, hr3, hr4⟩ := h.inRange
      obtain ⟨c, -, -, hlenb, hlent⟩ := h.charAt (p := pos) (by omega) (by omega)
      have hmiss : ¬ t.ReplaceMisses pos ch := by
        rw [EditedText.ReplaceMisses, hlent]
        rwa [ReplacesInPlace, hlenb, h.bufzv, h.bufpt, h.bufbegv] at hok
      rw [if_pos hpos, if_pos hpos, EditedText.replaceAsCoded_eq h.inRange hpos hmiss]
    · rw [if_neg hpos, if_neg hpos]
  | _ => rfl

/-! ### Runs -/

theorem holdsText_init (rep : UInt8 → ℕ) (mem : ℤ → UInt8) :
    (init mem).HoldsText (EditedText.init rep) where
  layout := ⟨le_rfl, le_rfl, show (1 : ℤ) ≤ 20 by decide, le_rfl, rfl⟩
  text := rfl
  bufz := rfl
  bufpt := rfl
  pt := rfl
  bufbegv := rfl
  begv := rfl
  bufzv := rfl
  zv := rfl
  inRange := ⟨le_rfl, le_rfl, le_rfl, le_rfl⟩

theorem holdsMarkers_init (rep : UInt8 → ℕ) (mem : ℤ → UInt8) :
    (init mem).HoldsMarkers (EditedText.init rep) where
  standsFor := .cons ⟨rfl, rfl, .inl le_rfl, rfl, le_rfl, le_rfl⟩ .nil
  pointMarker := rfl

theorem sentinels_init (mem : ℤ → UInt8) : (init mem).Sentinels where
  gap := by simp [init, setEndSentinel, setGapSentinel, gptAddr, endAddr]
  stop := by simp [init, setEndSentinel, setGapSentinel, gptAddr, endAddr]

/-- What every step of a run has to meet for the run to be one of the edited text. -/
def EditsAsMeant (b : Buffer) (op : BufferOp rep) : Prop :=
  b.MarkersFit op ∧ b.InOnePiece op ∧ b.ReplacesInPlace op

instance (b : Buffer) (op : BufferOp rep) : Decidable (b.EditsAsMeant op) :=
  inferInstanceAs (Decidable (_ ∧ _ ∧ _))

/-- In a run whose steps all edit as they are meant to, the buffer shows the text, the positions and
the markers that the same operations make of a list of characters. -/
theorem run_refines_editedText (mem : ℤ → UInt8) {ops : List (BufferOp rep)}
    (h : Run step EditsAsMeant (init mem) ops b) :
    ∃ t, Run EditedText.step anyStep (EditedText.init rep) ops t ∧
      b.text = itextBytes t.chars ∧
      b.markers.map (fun m => (m.addr, m.insertionType, b.markerPosition rep m)) =
        t.markers.map (fun m => (m.addr, m.insertionType, m.pos)) ∧
      (b.bufpt = t.pt ∧ b.bufbegv = t.begv ∧ b.bufzv = t.zv ∧ b.bufz = t.z) ∧
      b.pt = bytePos t.chars t.pt ∧ b.begv = bytePos t.chars t.begv ∧
      b.zv = bytePos t.chars t.zv ∧ b.z = bytePos t.chars t.z := by
  obtain ⟨t, hrun, ht, hm⟩ := h.simulation (R := fun b (t : EditedText rep) =>
      b.HoldsText t ∧ b.HoldsMarkers t) ⟨holdsText_init rep mem, holdsMarkers_init rep mem⟩
    fun b op b' t hR hok hs => by
      obtain ⟨hfit, hpiece, hplace⟩ := hok
      obtain ⟨t', ht', h1, h2, -⟩ := step_spec hR.1 hpiece hs
      exact ⟨t', (stepAsCoded_eq hR.1 hplace).symm.trans ht', h1, h2 hfit hR.2⟩
  refine ⟨t, hrun, ht.text, ?_, ⟨ht.bufpt, ht.bufbegv, ht.bufzv, ht.bufz⟩, ht.pt, ht.begv, ht.zv, ht.z⟩
  rw [← List.forall₂_eq_eq_eq, List.forall₂_map_left_iff, List.forall₂_map_right_iff]
  exact hm.standsFor.imp fun m m' hmm => by
    rw [hmm.addr, hmm.insertionType, ht.markerPosition hmm]

theorem run_refines_editedText_abc :
    ∃ (ops : List (BufferOp repBytesByFirstByte)) (b : Buffer) (t : EditedText repBytesByFirstByte),
      Run EditedText.step anyStep (EditedText.init repBytesByFirstByte) ops t ∧
      b.text = itextBytes t.chars ∧ b.text = [97, 0x81, 0xe9, 0x82, 0xa0] ∧
      b.markers.map (fun m => (m.addr, m.insertionType, b.markerPosition repBytesByFirstByte m)) =
        t.markers.map (fun m => (m.addr, m.insertionType, m.pos)) := by
  let ops : List (BufferOp repBytesByFirstByte) :=
    [.insert 1 [⟨97, [], by decide⟩, ⟨98, [], by decide⟩, ⟨99, [], by decide⟩] false,
      .makeMarker 1 3 true, .moveGap 2 inhibitQuit, .insert 2 [⟨0x81, [0xe9], by decide⟩] true,
      .replace 3 ⟨0x82, [0xa0], by decide⟩, .delete 4 5]
  have hexec : (execOk step EditsAsMeant (init fun _ => 0) ops).any
      (fun b => decide (b.text = [97, 0x81, 0xe9, 0x82, 0xa0])) = true := by decide +kernel
  obtain ⟨b, hrun, hb⟩ := exists_run_of_execOk hexec
  obtain ⟨t, hrun', htext, hmark, -⟩ := run_refines_editedText (fun _ => 0) hrun
  exact ⟨ops, b, t, hrun', htext, hb, hmark⟩

/-- The text "ab", with point before it; then the "b" is replaced by a character of two bytes. -/
def replaceLastChar : List (BufferOp repBytesByFirstByte) :=
  [.insert 1 [⟨97, [], by decide⟩, ⟨98, [], by decide⟩] false, .setPoint 1,
    .replace 2 ⟨0x81, [0xe9], by decide⟩]

/-- The new character comes out in front of the "a". -/
theorem replaceLastChar_misplaces :
    ∃ b : Buffer, Run step anyStep (init fun _ => 0) replaceLastChar b ∧
      b.text = [0x81, 0xe9, 97] ∧
      ∀ t, Run EditedText.step anyStep (EditedText.init _) replaceLastChar t →
        itextBytes t.chars = [97, 0x81, 0xe9] := by
  have hexec : (exec step (init fun _ => 0) replaceLastChar).any
      (fun b => decide (b.text = [0x81, 0xe9, 97])) = true := by decide +kernel
  obtain ⟨b, hrun, hb⟩ := exists_run_of_exec hexec
  have ht : (exec EditedText.step (EditedText.init _) replaceLastChar).map (itextBytes ·.chars) =
      some [97, 0x81, 0xe9] := by decide +kernel
  refine ⟨b, hrun, hb, fun t hrun' => ?_⟩
  rw [hrun'.exec_eq] at ht
  exact Option.some.inj ht

/-- What every step of a run has to meet for both sentinels to stay in place. -/
def KeepsSentinels (b : Buffer) (op : BufferOp rep) : Prop :=
  b.InOnePiece op ∧ b.KeepsEndSentinel op

instance (b : Buffer) (op : BufferOp rep) : Decidable (b.KeepsSentinels op) :=
  inferInstanceAs (Decidable (_ ∧ _))

theorem text_setSentinel (h : b.Layout) : b.setGapSentinel.text = b.text ∧ b.setEndSentinel.text = b.text := by
  obtain ⟨hg1, hg2, hg3, hg4, hg5⟩ := h
  have hne : ∀ p, 1 ≤ p → p < b.z → b.byteAddress p ≠ b.gptAddr ∧ b.byteAddress p ≠ b.endAddr := by
    intro p _ _
    unfold byteAddress gptAddr endAddr
    split_ifs <;> omega
  have hkeep : ∀ a, (∀ p, 1 ≤ p → p < b.z → b.byteAddress p ≠ a) →
      text { b with beg := Function.update b.beg a 0 } = b.text := by
    intro a ha
    refine slice_congr fun i hi hi' => ?_
    have hz : i < b.z - 1 := hi'
    exact Function.update_of_ne (ha (i + 1) (by omega) (by omega)) _ _
  exact ⟨hkeep _ fun p h1 hz => (hne p h1 hz).1, hkeep _ fun p h1 hz => (hne p h1 hz).2⟩

/-- In a run whose steps all keep the end sentinel, the gap is not empty, both sentinels are 0, and
neither is a byte of the text. -/
theorem run_keeps_sentinels (mem : ℤ → UInt8) {ops : List (BufferOp rep)}
    (h : Run step KeepsSentinels (init mem) ops b) :
    1 ≤ b.gapSize ∧ b.beg b.gptAddr = 0 ∧ b.beg b.endAddr = 0 ∧
      (0 ≤ b.gptAddr ∧ b.gptAddr < b.endAddr ∧ b.endAddr < b.allocated) ∧
      b.setGapSentinel.text = b.text ∧ b.setEndSentinel.text = b.text ∧
      ∃ t, Run EditedText.stepAsCoded anyStep (EditedText.init rep) ops t ∧ b.text = itextBytes t.chars := by
  obtain ⟨t, hrun, ht, hs⟩ := h.simulation (R := fun b (t : EditedText rep) =>
      b.HoldsText t ∧ b.Sentinels) ⟨holdsText_init rep mem, sentinels_init mem⟩
    fun b op b' t hR hok hs => by
      obtain ⟨t', ht', h1, -, h2⟩ := step_spec hR.1 hok.1 hs
      exact ⟨t', ht', h1, h2 hok.2 hR.2⟩
  obtain ⟨hgap, hend⟩ := text_setSentinel ht.layout
  obtain ⟨hg1, hg2, hg3, hg4, hg5⟩ := ht.layout
  refine ⟨hg3, hs.gap, hs.stop, ?_, hgap, hend, t, hrun, ht.text⟩
  unfold gptAddr endAddr
  omega

theorem run_keeps_sentinels_abc :
    ∃ b : Buffer, b.text = [120, 98, 99] ∧ b.gpt = 2 ∧
      1 ≤ b.gapSize ∧ b.beg b.gptAddr = 0 ∧ b.beg b.endAddr = 0 := by
  let ops : List (BufferOp repBytesByFirstByte) :=
    [.insert 1 [⟨97, [], by decide⟩, ⟨98, [], by decide⟩, ⟨99, [], by decide⟩] false,
      .insert 1 [⟨120, [], by decide⟩] false, .delete 2 3]
  have hexec : (execOk step KeepsSentinels (init fun _ => 7) ops).any
      (fun b => decide (b.text = [120, 98, 99] ∧ b.gpt = 2)) = true := by decide +kernel
  obtain ⟨b, hrun, htext, hgpt⟩ := exists_run_of_execOk hexec
  obtain ⟨h1, h2, h3, -⟩ := run_keeps_sentinels (fun _ => 7) hrun
  exact ⟨b, htext, hgpt, h1, h2, h3⟩

def deleteLastChar : List (BufferOp repBytesByFirstByte) :=
  [.insert 1 [⟨97, [], by decide⟩, ⟨98, [], by decide⟩, ⟨99, [], by decide⟩] false,
    .insert 1 [⟨120, [], by decide⟩] false, .delete 4 5]

/-- The "c" is given to the end gap, and stays where the end sentinel should be. -/
theorem deleteLastChar_drops_endSentinel :
    ∃ b : Buffer, Run step anyStep (init fun _ => 0) deleteLastChar b ∧ b.text = [120, 97, 98] ∧
      b.beg b.endAddr = 99 := by
  have hexec : (exec step (init fun _ => 0) deleteLastChar).any
      (fun b => decide (b.text = [120, 97, 98] ∧ b.beg b.endAddr = 99)) = true := by decide +kernel
  exact exists_run_of_exec hexec

end Buffer

end XEmacs.Text
