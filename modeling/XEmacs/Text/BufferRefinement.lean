import XEmacs.Text.BufferGap
import XEmacs.Text.EditedText
import Mathlib.Data.List.Forall2

/-! A buffer stands for an edited text: its bytes are those of the characters, and positions and
markers are the same in characters and in bytes. Each operation is the same operation on the text,
as coded. -/

namespace XEmacs.Text

open Lib Lib.Gap

variable {rep : UInt8 → ℕ}

/-! ### Byte positions of moved positions -/

section Positions

variable {cs xs : List (Ichar rep)} {p q m : ℤ}

theorem bytePos_spliceIn (h1 : 1 ≤ p) (hp : p ≤ 1 + cs.length) (hm : 1 ≤ m) (hm' : m ≤ 1 + cs.length)
    (after : Bool) :
    bytePos (spliceIn cs p xs) (insertPos p xs.length after m) =
      insertPos (bytePos cs p) (itextBytes xs).length after (bytePos cs m) := by
  simp only [insertPos, bytePos_lt_iff hm hp, bytePos_inj ⟨hm, hm'⟩ ⟨h1, hp⟩]
  split_ifs with h
  · exact bytePos_spliceIn_of_le (by omega) hp
  · exact bytePos_spliceIn_of_ge h1 (by omega) hp

theorem bytePos_cutOut (h1 : 1 ≤ p) (hpq : p ≤ q) (hq : q ≤ 1 + cs.length) (hm' : m ≤ 1 + cs.length) :
    bytePos (cutOut cs p q) (deletePos p q m) =
      deletePos (bytePos cs p) (bytePos cs q) (bytePos cs m) := by
  simp only [deletePos, bytePos_le_iff hm' h1, bytePos_le_iff hm' (h1.trans hpq)]
  split_ifs with h h'
  · exact bytePos_cutOut_of_le h (by omega)
  · exact bytePos_cutOut_of_le le_rfl (by omega)
  · exact bytePos_cutOut_of_ge h1 hpq (by omega) hq

theorem insertPos_bounds {n z : ℤ} (hn : 0 ≤ n) (hm : 1 ≤ m) (hm' : m ≤ z) (after : Bool) :
    1 ≤ insertPos p n after m ∧ insertPos p n after m ≤ z + n := by
  unfold insertPos; split_ifs <;> omega

theorem deletePos_bounds {z : ℤ} (h1 : 1 ≤ p) (hq : q ≤ z) (hm : 1 ≤ m) (hm' : m ≤ z) :
    1 ≤ deletePos p q m ∧ deletePos p q m ≤ z - (q - p) := by
  unfold deletePos; split_ifs <;> omega

end Positions

namespace Buffer

/-- The buffer holds the text, with its positions and its accessible region. -/
structure HoldsText (b : Buffer) (t : EditedText rep) : Prop where
  layout : b.Layout
  text : b.text = itextBytes t.chars
  bufz : b.bufz = t.z
  bufpt : b.bufpt = t.pt
  pt : b.pt = bytePos t.chars t.pt
  bufbegv : b.bufbegv = t.begv
  begv : b.begv = bytePos t.chars t.begv
  bufzv : b.bufzv = t.zv
  zv : b.zv = bytePos t.chars t.zv
  inRange : t.InRange

/-- A marker of the buffer stands for a marker of the text. -/
structure StandsFor (b : Buffer) (t : EditedText rep) (m : BufferMarker) (m' : TextMarker) : Prop where
  addr : m.addr = m'.addr
  insertionType : m.insertionType = m'.insertionType
  beforeGapEnd : BeforeGapEnd b.gpt b.gapSize m.membpos
  pos : decode b.gpt b.gapSize m.membpos = bytePos t.chars m'.pos
  inText : 1 ≤ m'.pos ∧ m'.pos ≤ t.z

/-- The markers of the buffer are those of the text. -/
structure HoldsMarkers (b : Buffer) (t : EditedText rep) : Prop where
  standsFor : List.Forall₂ (StandsFor b t) b.markers t.markers
  pointMarker : b.pointMarker = t.pointMarker

variable {b b' : Buffer} {t : EditedText rep} {p q : ℤ}

theorem HoldsText.z (h : b.HoldsText t) : b.z = bytePos t.chars t.z := by
  have hz := h.layout.one_le_gpt.trans h.layout.gpt_le_z
  have hlen := congrArg List.length h.text
  rw [Buffer.text, length_slice] at hlen
  rw [EditedText.z, bytePos_end, ← hlen]
  omega

theorem HoldsText.charbposToBytebpos (h : b.HoldsText t) (p : ℤ) :
    b.charbposToBytebpos rep p = bytePos t.chars p := by
  rw [Buffer.charbposToBytebpos, h.text, charcountToBytecount_itextBytes, bytePos]

theorem HoldsText.bytebposToCharbpos (h : b.HoldsText t) (h1 : 1 ≤ p) (hp : p ≤ t.z) :
    b.bytebposToCharbpos rep (bytePos t.chars p) = p := by
  have hlen : ((t.chars.take (p - 1).toNat).length : ℤ) = p - 1 := by
    rw [List.length_take]; unfold EditedText.z at hp; omega
  rw [Buffer.bytebposToCharbpos, h.text, take_itextBytes, bytecountToCharcount_itextBytes, hlen]
  omega

theorem HoldsText.clipPos (h : b.HoldsText t) (pos : ℤ) : b.clipPos pos = t.clipPos pos := by
  rw [Buffer.clipPos, EditedText.clipPos, h.bufbegv, h.bufzv]

theorem HoldsText.bytePos_mem (h : b.HoldsText t) (hp : p ≤ t.z) :
    1 ≤ bytePos t.chars p ∧ bytePos t.chars p ≤ b.z := by
  rw [h.z]
  exact ⟨one_le_bytePos, bytePos_le_of_le hp⟩

theorem HoldsText.of_sameText (h : b.HoldsText t) (hs : SameText b b') : b'.HoldsText t := by
  have hframe := hs.frame
  exact {
    layout := hs.layout
    text := hs.text.trans h.text
    bufz := ((congrArg Buffer.bufz hframe :)).trans h.bufz
    bufpt := ((congrArg Buffer.bufpt hframe :)).trans h.bufpt
    pt := ((congrArg Buffer.pt hframe :)).trans h.pt
    bufbegv := ((congrArg Buffer.bufbegv hframe :)).trans h.bufbegv
    begv := ((congrArg Buffer.begv hframe :)).trans h.begv
    bufzv := ((congrArg Buffer.bufzv hframe :)).trans h.bufzv
    zv := ((congrArg Buffer.zv hframe :)).trans h.zv
    inRange := h.inRange }

theorem HoldsText.setPositions (h : b.HoldsText t) {bufpt pt bufbegv begv bufzv zv : ℤ}
    (hp : bufpt = p ∧ pt = bytePos t.chars p) {start : ℤ}
    (hstart : bufbegv = start ∧ begv = bytePos t.chars start) {stop : ℤ}
    (hstop : bufzv = stop ∧ zv = bytePos t.chars stop)
    (hle : 1 ≤ start ∧ start ≤ p ∧ p ≤ stop ∧ stop ≤ t.z) (ms : List BufferMarker)
    (ms' : List TextMarker) :
    HoldsText { b with
        bufpt := bufpt, pt := pt, bufbegv := bufbegv, begv := begv, bufzv := bufzv, zv := zv,
        markers := ms }
      { t with pt := p, begv := start, zv := stop, markers := ms' } where
  layout := ⟨h.layout.1, h.layout.2, h.layout.3, h.layout.4, h.layout.5⟩
  text := h.text
  bufz := h.bufz
  bufpt := hp.1
  pt := hp.2
  bufbegv := hstart.1
  begv := hstart.2
  bufzv := hstop.1
  zv := hstop.2
  inRange := ⟨hle.1, hle.2.1, hle.2.2.1, hle.2.2.2⟩

theorem HoldsText.setMarkers (h : b.HoldsText t) (ms : List BufferMarker) (ms' : List TextMarker) :
    HoldsText { b with markers := ms } { t with markers := ms' } :=
  h.setPositions ⟨h.bufpt, h.pt⟩ ⟨h.bufbegv, h.begv⟩ ⟨h.bufzv, h.zv⟩
    ⟨h.inRange.1, h.inRange.2, h.inRange.3, h.inRange.4⟩ ms ms'

theorem HoldsText.valid (h : b.HoldsText t) {m : BufferMarker} {m' : TextMarker}
    (hm : StandsFor b t m m') : b.validMembposP m.membpos := by
  rw [validMembposP_iff h.layout, hm.pos]
  exact ⟨hm.beforeGapEnd, h.bytePos_mem hm.inText.2⟩

theorem HoldsText.markerPosition (h : b.HoldsText t) {m : BufferMarker} {m' : TextMarker}
    (hm : StandsFor b t m m') : b.markerPosition rep m = m'.pos := by
  rw [Buffer.markerPosition, membposToBytebpos_eq h.layout (h.valid hm), hm.pos,
    h.bytebposToCharbpos hm.inText.1 hm.inText.2]

theorem HoldsMarkers.of_keepsMarks (h : b.HoldsMarkers t) (ht : b.HoldsText t) (hs : SameText b b')
    (hk : KeepsMarks b b') : b'.HoldsMarkers t where
  standsFor := by
    obtain ⟨f, hf, hm⟩ := hk
    rw [hf, List.forall₂_map_left_iff]
    refine h.standsFor.imp fun m m' hmm => ?_
    obtain ⟨hv, hdec⟩ := hm _ (ht.valid hmm)
    exact ⟨hmm.addr, hmm.insertionType, ((validMembposP_iff hs.layout).mp hv).1, hdec.trans hmm.pos,
      hmm.inText⟩
  pointMarker := ((congrArg Buffer.pointMarker hs.frame :)).trans h.pointMarker

theorem HoldsMarkers.of_map {t' : EditedText rep} (h : b.HoldsMarkers t)
    {f : BufferMarker → ℤ} {g : TextMarker → ℤ}
    (hf : b'.markers = b.markers.map fun m => { m with membpos := f m })
    (hg : t'.markers = t.markers.map fun m => { m with pos := g m })
    (hpoint : b'.pointMarker = b.pointMarker) (hpoint' : t'.pointMarker = t.pointMarker)
    (hadj : ∀ m m', StandsFor b t m m' → BeforeGapEnd b'.gpt b'.gapSize (f m) ∧
      decode b'.gpt b'.gapSize (f m) = bytePos t'.chars (g m') ∧ 1 ≤ g m' ∧ g m' ≤ t'.z) :
    b'.HoldsMarkers t' where
  standsFor := by
    rw [hf, hg, List.forall₂_map_left_iff, List.forall₂_map_right_iff]
    refine h.standsFor.imp fun m m' hmm => ?_
    obtain ⟨hoff, hdec, hin⟩ := hadj m m' hmm
    exact ⟨hmm.addr, hmm.insertionType, hoff, hdec, hin⟩
  pointMarker := by rw [hpoint, hpoint', h.pointMarker]

/-! ### Insertion -/

theorem insertAtGap_eq (b : Buffer) (bytepos : ℤ) (str : List UInt8) (cclen : ℤ) :
    b.insertAtGap bytepos str cclen = { b with
      beg := Function.update (memcpy (b.gpt - 1) str b.beg) (b.gpt + str.length - 1) 0
      gapSize := b.gapSize - str.length
      bufgpt := b.bufgpt + cclen
      gpt := b.gpt + str.length
      bufzv := b.bufzv + cclen
      zv := b.zv + str.length
      bufz := b.bufz + cclen
      z := b.z + str.length
      bufpt := if b.pt > bytepos then b.bufpt + cclen else b.bufpt
      pt := if b.pt > bytepos then b.pt + str.length else b.pt
      markers := b.markers.map fun m =>
        { m with membpos :=
          if m.insertionType ∧ m.membpos = bytepos then m.membpos + str.length else m.membpos } } := by
  have hmark : ∀ m : BufferMarker,
      (if m.insertionType ∧ m.membpos = bytepos then { m with membpos := m.membpos + str.length } else m) =
        { m with membpos :=
          if m.insertionType ∧ m.membpos = bytepos then m.membpos + str.length else m.membpos } := by
    intro m; split_ifs <;> rfl
  simp only [insertAtGap, setGapSentinel, adjustMarkersForInsert, gptAddr, hmark]
  split_ifs <;> rfl

theorem decode_insert {g k n m : ℤ} (hn : 0 ≤ n) (hk : n ≤ k) (hm : BeforeGapEnd g k m) (after : Bool) :
    let m' := if after ∧ m = g then m + n else m
    BeforeGapEnd (g + n) (k - n) m' ∧
      decode (g + n) (k - n) m' = insertPos g n after (decode g k m) := by
  unfold BeforeGapEnd decode insertPos at *
  cases after <;> grind

theorem text_insertAtGap (h : b.Layout) (bytepos cclen : ℤ) {str : List UInt8}
    (hroom : str.length + 1 ≤ b.gapSize) :
    (b.insertAtGap bytepos str cclen).text =
      b.text.take (b.gpt - 1).toNat ++ str ++ b.text.drop (b.gpt - 1).toNat := by
  obtain ⟨hg1, hg2, hg3, hg4, hg5⟩ := h
  set b' := b.insertAtGap bytepos str cclen with hb'
  have hread : ∀ q, b'.byteAt (q + 1) =
      view (memcpy (b.gpt - 1) str b.beg) (b.gpt - 1 + str.length) (b.gapSize - str.length) q := by
    intro q
    rw [byteAt_eq, hb', insertAtGap_eq]
    simp only
    rw [view_update_gap _ _ le_rfl (by omega), show b.gpt + str.length - 1 = b.gpt - 1 + str.length by omega]
    congr 1; omega
  have hlen : b'.z - 1 = b.z - 1 + str.length := by
    rw [hb', insertAtGap_eq]; simp only; omega
  rw [Buffer.text, hlen]
  refine slice_insert (by omega) (by omega) (fun q _ hq => ?_) (fun j hj => ?_) (fun q hq _ => ?_)
  · rw [hread, view_insert _ (by omega), if_pos hq, byteAt_eq]
    congr 1; omega
  · rw [hread, view_insert _ (by omega), if_neg (by omega), if_pos (by omega)]
    simp [hj]
  · rw [hread, view_insert _ (by omega), if_neg (by omega), if_neg (by omega), byteAt_eq]
    congr 1; omega

theorem insertAtGap_text (h : b.HoldsText t) (hp : t.begv ≤ p ∧ p ≤ t.zv)
    (hgpt : b.gpt = bytePos t.chars p) {str : List (Ichar rep)}
    (hroom : (itextBytes str).length + 1 ≤ b.gapSize) :
    (b.insertAtGap (bytePos t.chars p) (itextBytes str) str.length).HoldsText (t.insertAt p str false) := by
  have htext := text_insertAtGap h.layout (bytePos t.chars p) str.length hroom
  obtain ⟨hg1, hg2, hg3, hg4, hg5⟩ := h.layout
  obtain ⟨hr1, hr2, hr3, hr4⟩ := h.inRange
  have hp1 : 1 ≤ p := by omega
  have hpz : p ≤ 1 + t.chars.length := hp.2.trans hr4
  have hptz : t.pt ≤ 1 + t.chars.length := hr3.trans hr4
  have hpt : bytePos t.chars p < bytePos t.chars t.pt ↔ p < t.pt := bytePos_lt_iff hp1 hptz
  constructor
  · rw [insertAtGap_eq]
    exact ⟨by simp only; omega, by simp only; omega, by simp only; omega, hg4, by simp only; omega⟩
  · rw [htext, hgpt, h.text]
    exact (itextBytes_spliceIn str).symm
  · rw [insertAtGap_eq]
    show b.bufz + str.length = 1 + ((spliceIn t.chars p str).length : ℤ)
    rw [h.bufz, EditedText.z, length_spliceIn]; push_cast; omega
  · rw [insertAtGap_eq]
    show (if b.pt > bytePos t.chars p then b.bufpt + str.length else b.bufpt) =
      insertPos p str.length false t.pt
    simp only [h.pt, h.bufpt, gt_iff_lt, hpt, insertPos_false]
    split_ifs <;> omega
  · rw [insertAtGap_eq]
    show (if b.pt > bytePos t.chars p then b.pt + (itextBytes str).length else b.pt) =
      bytePos (spliceIn t.chars p str) (insertPos p str.length false t.pt)
    rw [bytePos_spliceIn hp1 hpz (by omega) hptz, h.pt, insertPos_false]
    split_ifs <;> omega
  · rw [insertAtGap_eq]; exact h.bufbegv
  · rw [insertAtGap_eq]
    exact h.begv.trans (bytePos_spliceIn_of_le hp.1 hpz).symm
  · rw [insertAtGap_eq]
    show b.bufzv + str.length = t.zv + str.length
    rw [h.bufzv]
  · rw [insertAtGap_eq]
    show b.zv + (itextBytes str).length = bytePos (spliceIn t.chars p str) (t.zv + str.length)
    rw [h.zv, bytePos_spliceIn_of_ge hp1 hp.2 hpz]
  · have hle : t.begv ≤ insertPos p str.length false t.pt ∧
        insertPos p str.length false t.pt ≤ t.zv + str.length := by
      unfold insertPos; split_ifs <;> omega
    refine ⟨hr1, hle.1, hle.2, ?_⟩
    show t.zv + str.length ≤ 1 + ((spliceIn t.chars p str).length : ℤ)
    rw [length_spliceIn]; unfold EditedText.z at hr4; push_cast; omega

theorem insertAtGap_markers (h : b.HoldsText t) (hm : b.HoldsMarkers t) (hp : t.begv ≤ p ∧ p ≤ t.zv)
    (hgpt : b.gpt = bytePos t.chars p) {str : List (Ichar rep)}
    (hroom : (itextBytes str).length + 1 ≤ b.gapSize) :
    (b.insertAtGap (bytePos t.chars p) (itextBytes str) str.length).HoldsMarkers
      (t.insertAt p str false) := by
  obtain ⟨hr1, hr2, hr3, hr4⟩ := h.inRange
  have hp1 : 1 ≤ p := by omega
  have hpz : p ≤ 1 + t.chars.length := hp.2.trans hr4
  rw [insertAtGap_eq]
  refine hm.of_map rfl (g := fun m => insertPos p str.length (m.insertionType || false) m.pos) rfl rfl
    rfl fun m m' hmm => ?_
  obtain ⟨hoff, hdec⟩ := decode_insert (n := (itextBytes str).length) (by omega) (by omega)
    hmm.beforeGapEnd m.insertionType
  rw [hmm.pos, hgpt, ← bytePos_spliceIn hp1 hpz hmm.inText.1 hmm.inText.2, hmm.insertionType] at hdec
  rw [hgpt] at hoff
  have hbound := insertPos_bounds (p := p) (n := str.length) (by omega) hmm.inText.1 hmm.inText.2
    (m'.insertionType || false)
  refine ⟨by simpa [hgpt] using hoff, ?_, hbound.1, ?_⟩
  · simpa [hgpt, hmm.insertionType, EditedText.insertAt] using hdec
  · refine hbound.2.trans ?_
    show t.z + str.length ≤ 1 + ((spliceIn t.chars p str).length : ℤ)
    rw [length_spliceIn, EditedText.z]; push_cast; omega

theorem insertAtGap_sentinels (h : b.Layout) (hs : b.Sentinels) (bytepos cclen : ℤ)
    {str : List UInt8} (hroom : str.length + 1 ≤ b.gapSize) :
    (b.insertAtGap bytepos str cclen).Sentinels := by
  obtain ⟨hg1, hg2, hg3, hg4, hg5⟩ := h
  rw [insertAtGap_eq]
  refine ⟨Function.update_self .., ?_⟩
  have hstop := hs.stop
  simp only [endAddr] at hstop ⊢
  rw [show b.gapSize - str.length + (b.z + str.length) - 1 = b.gapSize + b.z - 1 by omega,
    Function.update_of_ne (by omega), memcpy_of_ge (by omega), hstop]

theorem setBufferPoint_eq (h : b.HoldsText t) (hp : 1 ≤ p ∧ p ≤ t.z) :
    b.setBufferPoint p (bytePos t.chars p) = if p = t.pt then b else { b with
      bufpt := p
      pt := bytePos t.chars p
      markers := b.markers.map fun m => { m with membpos :=
        if m.addr = b.pointMarker then b.bytebposToMembpos (bytePos t.chars p) else m.membpos } } := by
  obtain ⟨hr1, hr2, hr3, hr4⟩ := h.inRange
  have hiff : bytePos t.chars p = b.pt ↔ p = t.pt := by
    rw [h.pt]
    exact bytePos_inj hp ⟨by omega, hr3.trans hr4⟩
  have hmark : ∀ m : BufferMarker,
      (if m.addr = b.pointMarker then { m with membpos := b.bytebposToMembpos (bytePos t.chars p) } else m) =
        { m with membpos :=
          if m.addr = b.pointMarker then b.bytebposToMembpos (bytePos t.chars p) else m.membpos } := by
    intro m; split_ifs <;> rfl
  simp only [setBufferPoint, hiff, hmark]

theorem setBufferPoint_markers (h : b.HoldsText t) (hm : b.HoldsMarkers t) (hp : 1 ≤ p ∧ p ≤ t.z) :
    (b.setBufferPoint p (bytePos t.chars p)).HoldsMarkers (t.setPoint p) := by
  rw [setBufferPoint_eq h hp, EditedText.setPoint]
  by_cases heq : p = t.pt
  · rwa [if_pos heq, if_pos heq]
  · rw [if_neg heq, if_neg heq]
    refine hm.of_map rfl (g := fun m => if m.addr = t.pointMarker then p else m.pos) rfl rfl rfl
      fun m m' hmm => ?_
    obtain ⟨hv, hdec⟩ := validMembposP_bytebposToMembpos h.layout (h.bytePos_mem hp.2)
    by_cases haddr : m'.addr = t.pointMarker
    · rw [if_pos haddr, if_pos (by rw [hmm.addr, hm.pointMarker, haddr])]
      exact ⟨((validMembposP_iff h.layout).mp hv).1, hdec, hp⟩
    · rw [if_neg haddr, if_neg (by rw [hmm.addr, hm.pointMarker]; exact haddr)]
      exact ⟨hmm.beforeGapEnd, hmm.pos, hmm.inText⟩

theorem setBufferPoint_frame (b : Buffer) (charbpos bytpos : ℤ) :
    (b.setBufferPoint charbpos bytpos).gpt = b.gpt ∧
      (b.Sentinels → (b.setBufferPoint charbpos bytpos).Sentinels) := by
  unfold setBufferPoint
  split_ifs
  · exact ⟨rfl, id⟩
  · exact ⟨rfl, fun hs => ⟨hs.gap, hs.stop⟩⟩

theorem setBufferPoint_text (h : b.HoldsText t) (hp : t.begv ≤ p ∧ p ≤ t.zv) :
    (b.setBufferPoint p (bytePos t.chars p)).HoldsText (t.setPoint p) := by
  obtain ⟨hr1, hr2, hr3, hr4⟩ := h.inRange
  rw [setBufferPoint_eq h ⟨by omega, by omega⟩, EditedText.setPoint]
  by_cases heq : p = t.pt
  · rwa [if_pos heq, if_pos heq]
  · rw [if_neg heq, if_neg heq]
    exact h.setPositions ⟨rfl, rfl⟩ ⟨h.bufbegv, h.begv⟩ ⟨h.bufzv, h.zv⟩ ⟨hr1, hp.1, hp.2, hr4⟩ _ _

theorem decode_bump {g k n m : ℤ} (hn : 0 ≤ n) (hm : BeforeGapEnd (g + n) k m) :
    BeforeGapEnd (g + n) k (doMarkerAdjustment m (g - 1) g n) ∧
      decode (g + n) k (doMarkerAdjustment m (g - 1) g n) =
        if g ≤ decode (g + n) k m ∧ decode (g + n) k m < g + n then g + n else decode (g + n) k m := by
  unfold BeforeGapEnd decode doMarkerAdjustment at *; grind

theorem adjustMarkers_bump (hm : b.HoldsMarkers t) (hp : 1 ≤ p) (hpq : p ≤ q)
    (hq : q ≤ t.z) (hgpt : b.gpt = bytePos t.chars q) {n : ℤ}
    (hn : bytePos t.chars q = bytePos t.chars p + n) :
    (b.adjustMarkers (bytePos t.chars p - 1) (bytePos t.chars p) n).HoldsMarkers (t.bumpMarkers p q) := by
  have hle : bytePos t.chars p ≤ bytePos t.chars q := bytePos_le_of_le hpq
  refine hm.of_map rfl (g := fun m => if p ≤ m.pos ∧ m.pos < q then q else m.pos) rfl rfl rfl
    fun m m' hmm => ?_
  have hoff := hmm.beforeGapEnd
  have hpos := hmm.pos
  rw [hgpt, hn] at hoff hpos
  obtain ⟨hoff', hdec⟩ := decode_bump (by omega) hoff
  show BeforeGapEnd b.gpt b.gapSize _ ∧ decode b.gpt b.gapSize _ = bytePos t.chars _ ∧ 1 ≤ _ ∧ _ ≤ t.z
  rw [hgpt, hn]
  refine ⟨hoff', ?_, ?_⟩
  · rw [hdec, hpos, ← hn]
    simp only [bytePos_le_iff (hpq.trans hq) hmm.inText.1, bytePos_lt_iff hmm.inText.1 hq]
    split_ifs <;> rfl
  · have := hmm.inText
    split_ifs <;> omega

theorem moveAfterInsert_spec (h : b.HoldsText t) (hp : t.begv ≤ p) (hpq : p ≤ q) (hq : q ≤ t.zv)
    (hgpt : b.gpt = bytePos t.chars q) {bytepos n : ℤ} (hbyte : bytePos t.chars p = bytepos)
    (hn : bytePos t.chars q = bytepos + n) (movePoint beforeMarkers : Bool) {t' : EditedText rep}
    (ht' : t' = if movePoint then (if beforeMarkers then t.bumpMarkers p q else t).setPoint q
      else if beforeMarkers then t.bumpMarkers p q else t) :
    let b' := b.moveAfterInsert rep bytepos n movePoint beforeMarkers
    b'.HoldsText t' ∧ (b.HoldsMarkers t → b'.HoldsMarkers t') ∧ (b.Sentinels → b'.Sentinels) := by
  subst ht' hbyte
  obtain ⟨hr1, hr2, hr3, hr4⟩ := h.inRange
  have hqz := hq.trans hr4
  simp only [moveAfterInsert, ← hn, h.bytebposToCharbpos (by omega : 1 ≤ q) hqz]
  obtain ⟨hg, hs⟩ := b.setBufferPoint_frame q (bytePos t.chars q)
  have ht := setBufferPoint_text h ⟨hp.trans hpq, hq⟩
  have hm := fun hm => setBufferPoint_markers h hm (show 1 ≤ q ∧ q ≤ t.z by omega)
  cases movePoint with
  | false =>
    cases beforeMarkers with
    | false => exact ⟨h, id, id⟩
    | true =>
      exact ⟨h.setMarkers _ _, fun hb => adjustMarkers_bump hb (by omega) hpq hqz hgpt hn,
        fun hb => ⟨hb.gap, hb.stop⟩⟩
  | true =>
    cases beforeMarkers with
    | false => exact ⟨ht, hm, hs⟩
    | true =>
      simp only [if_true, ← EditedText.bumpMarkers_setPoint]
      have hchars := t.setPoint_chars q
      have hz : (t.setPoint q).z = t.z := by rw [EditedText.z, hchars, EditedText.z]
      refine ⟨ht.setMarkers _ _, fun hb => ?_, fun hb => ⟨(hs hb).gap, (hs hb).stop⟩⟩
      have hbump := adjustMarkers_bump (hm hb) (by omega : 1 ≤ p) hpq (hz ▸ hqz)
        (by rw [hg, hchars, hgpt]) (n := n) (by rw [hchars, hn])
      rwa [hchars] at hbump

theorem bufferInsertString1_spec (h : b.HoldsText t) {pos : ℤ} {str : List (Ichar rep)}
    {beforeMarkers : Bool}
    (hb : b.bufferInsertString1 rep pos (itextBytes str) beforeMarkers = some b') :
    let p := t.clipPos (if pos = -1 then t.pt else pos)
    let t' := t.insert pos str beforeMarkers
    b'.HoldsText t' ∧ (b.Sentinels ∨ b.gpt < bytePos t.chars p ∧ bytePos t.chars p = b.z → b'.Sentinels) ∧
      ((b.gpt < bytePos t.chars p → b.gapSize < 2 ^ 31) → b.HoldsMarkers t → b'.HoldsMarkers t') := by
  intro p
  obtain ⟨hr1, hr2, hr3, hr4⟩ := h.inRange
  have hp : t.begv ≤ p ∧ p ≤ t.zv := h.inRange.clipPos _
  have hpz : p ≤ 1 + t.chars.length := hp.2.trans hr4
  simp only [bufferInsertString1, h.clipPos, h.bufpt, h.charbposToBytebpos,
    bytecountToCharcount_itextBytes] at hb
  split at hb
  · contradiction
  obtain ⟨r, hr, rfl⟩ := Option.map_eq_some_iff.mp hb
  have hbound := h.bytePos_mem (hp.2.trans hr4)
  obtain ⟨hsame, hkeep, hsent, hgpt, hroom⟩ := makeRoom_spec rep h.layout hbound.1 hbound.2 hr
  have hr' := h.of_sameText hsame
  -- the text is in the gap, and point and some of the markers may have to follow it
  have htext := insertAtGap_text hr' hp hgpt hroom
  have hgpt' : (r.insertAtGap (bytePos t.chars p) (itextBytes str) str.length).gpt =
      bytePos (t.insertAt p str false).chars (p + str.length) := by
    rw [insertAtGap_eq]
    show r.gpt + (itextBytes str).length = bytePos (spliceIn t.chars p str) (p + str.length)
    rw [bytePos_spliceIn_of_ge (by omega) le_rfl hpz, hgpt]
  have hstart : bytePos (t.insertAt p str false).chars p = bytePos t.chars p :=
    bytePos_spliceIn_of_le le_rfl hpz
  have hn : bytePos (t.insertAt p str false).chars (p + str.length) =
      bytePos t.chars p + (itextBytes str).length := bytePos_spliceIn_of_ge (by omega) le_rfl hpz
  have hlist : t.insert pos str beforeMarkers =
      if (decide (pos = -1)) = true then
        (if beforeMarkers then (t.insertAt p str false).bumpMarkers p (p + str.length)
          else t.insertAt p str false).setPoint (p + str.length)
      else if beforeMarkers then (t.insertAt p str false).bumpMarkers p (p + str.length)
        else t.insertAt p str false := by
    rw [EditedText.insertAt_true]
    cases beforeMarkers <;> simp [EditedText.insert, p]
  obtain ⟨h1, h2, h3⟩ := moveAfterInsert_spec htext hp.1 (by omega)
    (by show p + str.length ≤ t.zv + str.length; omega) hgpt' hstart hn _ _ hlist
  refine ⟨h1, fun hs => h3 ?_, fun hfit hm => h2 ?_⟩
  · refine insertAtGap_sentinels hr'.layout ?_ _ _ hroom
    rcases hs with hs | hs
    · exact hs.of_sameText hsame
    · exact hsent hs.1 hs.2
  · exact insertAtGap_markers hr' (hm.of_keepsMarks h hsame (hkeep hfit)) hp hgpt hroom

/-! ### Deletion -/

theorem deleteAtGap_eq (b : Buffer) (start stop byteFrom byteTo : ℤ) (doMoveGap : Bool) :
    b.deleteAtGap start stop byteFrom byteTo doMoveGap = { b with
      beg := Function.update b.beg ((if doMoveGap then byteFrom else b.gpt) - 1) 0
      gapSize := if doMoveGap then b.gapSize + (byteTo - byteFrom) else b.gapSize
      endGapSize := if doMoveGap then b.endGapSize else b.endGapSize + (byteTo - byteFrom)
      gpt := if doMoveGap then byteFrom else b.gpt
      bufgpt := if doMoveGap then start else b.bufgpt
      bufzv := b.bufzv - (stop - start)
      zv := b.zv - (byteTo - byteFrom)
      bufz := b.bufz - (stop - start)
      z := b.z - (byteTo - byteFrom)
      bufpt :=
        if byteFrom < b.pt then if b.pt < byteTo then start else b.bufpt - (stop - start) else b.bufpt
      pt :=
        if byteFrom < b.pt then if b.pt < byteTo then byteFrom else b.pt - (byteTo - byteFrom) else b.pt
      markers := b.markers.map fun m =>
        { m with
          membpos := doMarkerAdjustment m.membpos (byteTo + b.gapSize) (byteTo + b.gapSize)
            (-(byteTo - byteFrom) - if doMoveGap then b.gapSize else 0) } } := by
  simp only [deleteAtGap, setGapSentinel, adjustMarkers, gptAddr]
  cases doMoveGap <;> simp only [Bool.false_eq_true, if_false, if_true] <;> split_ifs <;> rfl

theorem deleteAtGap_bytes (h : b.Layout) (start stop : ℤ) {byteFrom byteTo : ℤ} {doMoveGap : Bool}
    (h1 : 1 ≤ byteFrom) (hle : byteFrom ≤ byteTo) (hz : byteTo ≤ b.z)
    (hgap : if doMoveGap then byteFrom ≤ b.gpt ∧ b.gpt ≤ byteTo else byteTo = b.z ∧ b.gpt < byteFrom) :
    let b' := b.deleteAtGap start stop byteFrom byteTo doMoveGap
    b'.Layout ∧ b'.text = b.text.take (byteFrom - 1).toNat ++ b.text.drop (byteTo - 1).toNat := by
  obtain ⟨hg1, hg2, hg3, hg4, hg5⟩ := h
  rw [deleteAtGap_eq]
  cases doMoveGap with
  | true =>
    simp only [if_true] at hgap ⊢
    refine ⟨⟨h1, by simp only; omega, by simp only; omega, hg4, by simp only; omega⟩, ?_⟩
    rw [Buffer.text, show b.z - (byteTo - byteFrom) - 1 = b.z - 1 - (byteTo - byteFrom) by omega,
      show byteTo - 1 = byteFrom - 1 + (byteTo - byteFrom) by omega]
    refine slice_delete (by omega) (by omega) (by omega) (fun q _ hq => ?_) (fun q hq _ => ?_)
    · rw [byteAt_eq, byteAt_eq]
      simp only
      rw [view_update_gap _ _ le_rfl (by omega), view_delete _ (g := b.gpt - 1) (by omega) (by omega),
        if_pos (by omega)]
    · rw [byteAt_eq, byteAt_eq]
      simp only
      rw [view_update_gap _ _ le_rfl (by omega), view_delete _ (g := b.gpt - 1) (by omega) (by omega),
        if_neg (by omega)]
      congr 1; omega
  | false =>
    simp only [Bool.false_eq_true, if_false] at hgap ⊢
    refine ⟨⟨hg1, by simp only; omega, hg3, by simp only; omega, by simp only; omega⟩, ?_⟩
    rw [Buffer.text, show b.z - (byteTo - byteFrom) - 1 = b.z - 1 - (byteTo - byteFrom) by omega,
      show byteTo - 1 = byteFrom - 1 + (byteTo - byteFrom) by omega]
    refine slice_delete (by omega) (by omega) (by omega) (fun q _ hq => ?_) (fun q hq hq' => by omega)
    rw [byteAt_eq, byteAt_eq]
    simp only
    rw [view_update_gap _ _ le_rfl (by omega)]

theorem deleteAtGap_text (h : b.HoldsText t) {start stop : ℤ} {doMoveGap : Bool}
    (hstart : t.begv ≤ start) (hle : start ≤ stop) (hstop : stop ≤ t.zv)
    (hgap : if doMoveGap then bytePos t.chars start ≤ b.gpt ∧ b.gpt ≤ bytePos t.chars stop
      else bytePos t.chars stop = b.z ∧ b.gpt < bytePos t.chars start) :
    (b.deleteAtGap start stop (bytePos t.chars start) (bytePos t.chars stop) doMoveGap).HoldsText
      (t.deleteAt start stop) := by
  obtain ⟨hr1, hr2, hr3, hr4⟩ := h.inRange
  have hs1 : 1 ≤ start := by omega
  have hz : stop ≤ 1 + t.chars.length := hstop.trans hr4
  have hptz : t.pt ≤ 1 + t.chars.length := hr3.trans hr4
  have hbz := h.bytePos_mem (hstop.trans hr4)
  obtain ⟨hlayout, htext⟩ := deleteAtGap_bytes h.layout start stop one_le_bytePos
    (bytePos_le_of_le hle) hbz.2 hgap
  have hlen := length_cutOut hle hs1 hz
  have hlt : bytePos t.chars start < bytePos t.chars t.pt ↔ start < t.pt := bytePos_lt_iff hs1 hptz
  have hlt' : bytePos t.chars t.pt < bytePos t.chars stop ↔ t.pt < stop := bytePos_lt_iff (by omega) hz
  constructor
  · exact hlayout
  · rw [htext, h.text]
    exact itextBytes_cutOut.symm
  · rw [deleteAtGap_eq]
    show b.bufz - (stop - start) = 1 + ((cutOut t.chars start stop).length : ℤ)
    rw [h.bufz, EditedText.z, hlen]; omega
  · rw [deleteAtGap_eq]
    show (if bytePos t.chars start < b.pt then if b.pt < bytePos t.chars stop then start
      else b.bufpt - (stop - start) else b.bufpt) = deletePos start stop t.pt
    simp only [h.pt, h.bufpt, hlt, hlt', deletePos]
    split_ifs <;> omega
  · rw [deleteAtGap_eq]
    show (if bytePos t.chars start < b.pt then if b.pt < bytePos t.chars stop then bytePos t.chars start
      else b.pt - (bytePos t.chars stop - bytePos t.chars start) else b.pt) =
        bytePos (cutOut t.chars start stop) (deletePos start stop t.pt)
    rw [bytePos_cutOut hs1 hle hz hptz, h.pt, deletePos]
    split_ifs <;> omega
  · rw [deleteAtGap_eq]; exact h.bufbegv
  · rw [deleteAtGap_eq]
    exact h.begv.trans (bytePos_cutOut_of_le hstart (by omega)).symm
  · rw [deleteAtGap_eq]
    show b.bufzv - (stop - start) = t.zv - (stop - start)
    rw [h.bufzv]
  · rw [deleteAtGap_eq]
    show b.zv - (bytePos t.chars stop - bytePos t.chars start) =
      bytePos (cutOut t.chars start stop) (t.zv - (stop - start))
    rw [h.zv, bytePos_cutOut_of_ge hs1 hle hstop hz]
  · have hpt : t.begv ≤ deletePos start stop t.pt ∧ deletePos start stop t.pt ≤ t.zv - (stop - start) := by
      unfold deletePos; split_ifs <;> omega
    refine ⟨hr1, hpt.1, hpt.2, ?_⟩
    show t.zv - (stop - start) ≤ 1 + ((cutOut t.chars start stop).length : ℤ)
    rw [hlen]; unfold EditedText.z at hr4; omega

theorem deleteAtGap_markers (h : b.HoldsText t) (hm : b.HoldsMarkers t) {start stop : ℤ}
    {doMoveGap : Bool} (hstart : t.begv ≤ start) (hle : start ≤ stop) (hstop : stop ≤ t.zv)
    (hgap : if doMoveGap then bytePos t.chars start ≤ b.gpt ∧ b.gpt ≤ bytePos t.chars stop
      else bytePos t.chars stop = b.z ∧ b.gpt < bytePos t.chars start) :
    (b.deleteAtGap start stop (bytePos t.chars start) (bytePos t.chars stop) doMoveGap).HoldsMarkers
      (t.deleteAt start stop) := by
  obtain ⟨hr1, hr2, hr3, hr4⟩ := h.inRange
  have hs1 : 1 ≤ start := by omega
  have hz : stop ≤ 1 + t.chars.length := hstop.trans hr4
  have hgs := h.layout.gap_pos
  have hbytes : bytePos t.chars start ≤ bytePos t.chars stop := bytePos_le_of_le hle
  have hlen := length_cutOut hle hs1 hz
  rw [deleteAtGap_eq]
  refine hm.of_map rfl (g := fun m => deletePos start stop m.pos) rfl rfl rfl fun m m' hmm => ?_
  have hbound := deletePos_bounds hs1 (hstop.trans hr4) hmm.inText.1 hmm.inText.2
  have hin : 1 ≤ deletePos start stop m'.pos ∧ deletePos start stop m'.pos ≤ (t.deleteAt start stop).z := by
    refine ⟨hbound.1, hbound.2.trans ?_⟩
    show t.z - (stop - start) ≤ 1 + ((cutOut t.chars start stop).length : ℤ)
    rw [hlen, EditedText.z]; omega
  have hpos : bytePos (t.deleteAt start stop).chars (deletePos start stop m'.pos) =
      deletePos (bytePos t.chars start) (bytePos t.chars stop) (decode b.gpt b.gapSize m.membpos) := by
    rw [hmm.pos]
    exact bytePos_cutOut hs1 hle hz hmm.inText.2
  rw [hpos]
  cases doMoveGap with
  | true =>
    simp only [if_true] at hgap ⊢
    exact ⟨beforeGapEnd_adjust_delete _, decode_adjust_delete hgap.1 hgap.2 (by omega) _, hin⟩
  | false =>
    simp only [Bool.false_eq_true, if_false, sub_zero] at hgap ⊢
    have hend : decode b.gpt b.gapSize m.membpos ≤ bytePos t.chars stop := by
      rw [hgap.1, h.z, hmm.pos]
      exact bytePos_le_of_le hmm.inText.2
    exact ⟨beforeGapEnd_adjust_delete_end hgap.2 hbytes hmm.beforeGapEnd,
      decode_adjust_delete_end hgap.2 hbytes (by omega) hend, hin⟩

theorem endAddr_deleteAtGap (b : Buffer) (start stop : ℤ) {byteFrom byteTo : ℤ} (hz : byteTo = b.z)
    (hgpt : b.gpt < byteFrom) (hg : 0 ≤ b.gapSize) :
    let b' := b.deleteAtGap start stop byteFrom byteTo false
    b'.beg b'.endAddr = b.byteAt byteFrom := by
  simp only [deleteAtGap_eq, endAddr, Bool.false_eq_true, if_false]
  rw [Function.update_of_ne (by omega), byteAt, byteAddress, if_pos (by omega)]
  congr 1; omega

/-- The deletion takes the way that does not set the end sentinel, and what takes the
sentinel's place is not 0. -/
def DropsEndSentinel (rep : UInt8 → ℕ) (b : Buffer) (start stop : ℤ) : Prop :=
  b.deletesFromBottom stop (b.charbposToBytebpos rep start) ∧
    b.byteAt (b.charbposToBytebpos rep start) ≠ 0

structure Deleted (b b' : Buffer) (t : EditedText rep) (start stop : ℤ) : Prop where
  text : b'.HoldsText (t.deleteAt start stop)
  gapSentinel : b'.beg b'.gptAddr = 0
  endSentinel : b.beg b.endAddr = 0 → ¬ b.DropsEndSentinel rep start stop → b'.beg b'.endAddr = 0
  markers : (b.deletesFromBottom stop (bytePos t.chars start) ∨
    (b.gpt < bytePos t.chars start → b.gapSize < 2 ^ 31)) →
      b.HoldsMarkers t → b'.HoldsMarkers (t.deleteAt start stop)
  gapStays : b.deletesFromBottom stop (bytePos t.chars start) → b'.gpt = b.gpt ∧ b'.gapSize = b.gapSize
  gapMoves : ¬ b.deletesFromBottom stop (bytePos t.chars start) → b'.gpt = bytePos t.chars start

theorem bufferDeleteRange_deleted (h : b.HoldsText t) {start stop : ℤ} (hstart : t.begv ≤ start)
    (hlt : start < stop) (hstop : stop ≤ t.zv) :
    Deleted b (b.bufferDeleteRange rep start stop) t start stop := by
  obtain ⟨hr1, hr2, hr3, hr4⟩ := h.inRange
  have hgs := h.layout.gap_pos
  have hbz := h.bytePos_mem (hstop.trans hr4)
  have hle : bytePos t.chars start ≤ bytePos t.chars stop := bytePos_le_of_le hlt.le
  have hclip : (if start < b.bufbegv then b.bufbegv else start) = start :=
    if_neg (by rw [h.bufbegv]; omega)
  have hclip' : (if stop > b.bufzv then b.bufzv else stop) = stop := if_neg (by rw [h.bufzv]; omega)
  rw [bufferDeleteRange]
  simp only [hclip, hclip', h.charbposToBytebpos, if_neg (show ¬ stop - start ≤ 0 by omega)]
  by_cases hbottom : b.deletesFromBottom stop (bytePos t.chars start)
  · rw [if_pos hbottom]
    have hend : bytePos t.chars stop = b.z := by rw [hbottom.1, h.bufz, h.z]
    have hgap : if false = true then bytePos t.chars start ≤ b.gpt ∧ b.gpt ≤ bytePos t.chars stop
        else bytePos t.chars stop = b.z ∧ b.gpt < bytePos t.chars start := by
      simpa using ⟨hend, hbottom.2⟩
    refine ⟨deleteAtGap_text h hstart hlt.le hstop hgap, ?_, fun _ hkeeps => ?_,
      fun _ hm => deleteAtGap_markers h hm hstart hlt.le hstop hgap, fun _ => ?_, absurd hbottom⟩
    · rw [deleteAtGap_eq]; exact Function.update_self ..
    · rw [endAddr_deleteAtGap b start stop hend hbottom.2 (by omega)]
      by_contra hne
      rw [DropsEndSentinel, h.charbposToBytebpos] at hkeeps
      exact hkeeps ⟨hbottom, hne⟩
    · rw [deleteAtGap_eq]; exact ⟨rfl, rfl⟩
  · rw [if_neg hbottom]
    obtain ⟨hsame, hkeep, hg1, hg2⟩ :=
      moveGapNextTo_spec rep h.layout start stop one_le_bytePos hle hbz.2
    set c := b.moveGapNextTo rep start stop (bytePos t.chars start) (bytePos t.chars stop)
    have hc := h.of_sameText hsame
    have hgap : if true = true then bytePos t.chars start ≤ c.gpt ∧ c.gpt ≤ bytePos t.chars stop
        else bytePos t.chars stop = c.z ∧ c.gpt < bytePos t.chars start := by
      simpa using ⟨hg1, hg2⟩
    refine ⟨deleteAtGap_text hc hstart hlt.le hstop hgap, ?_, fun hs _ => ?_, fun hfit hm => ?_,
      fun hb => absurd hb hbottom, fun _ => ?_⟩
    · rw [deleteAtGap_eq]; exact Function.update_self ..
    · have hcs := hsame.endSentinel hs
      have hcg := hsame.layout.gap_pos
      have hcz := hsame.layout.gpt_le_z
      simp only [deleteAtGap_eq, endAddr, if_true] at hcs ⊢
      rw [Function.update_of_ne (by omega), ← hcs]
      congr 1; omega
    · have hfit' := hfit.resolve_left hbottom
      exact deleteAtGap_markers hc (hm.of_keepsMarks h hsame (hkeep hfit')) hstart hlt.le hstop hgap
    · rw [deleteAtGap_eq]; rfl

theorem bufferDeleteRange_clip (h : b.HoldsText t) (start stop : ℤ) {start' stop' : ℤ} (hstart : start' = if start < t.begv then t.begv else start)
    (hstop : stop' = if stop > t.zv then t.zv else stop) :
    (stop' ≤ start' ∧ b.bufferDeleteRange rep start stop = b ∧ t.delete start stop = t) ∨
      start' < stop' ∧ Deleted b (b.bufferDeleteRange rep start stop) t start' stop' ∧
        t.delete start stop = t.deleteAt start' stop' := by
  have hb : b.bufferDeleteRange rep start stop = if stop' - start' ≤ 0 then b
      else b.bufferDeleteRange rep start' stop' := by
    have hclip : (if start' < t.begv then t.begv else start') = start' :=
      if_neg (by rw [hstart]; split_ifs <;> omega)
    have hclip' : (if stop' > t.zv then t.zv else stop') = stop' :=
      if_neg (by rw [hstop]; split_ifs <;> omega)
    simp only [bufferDeleteRange, h.bufbegv, h.bufzv, hclip, hclip', ← hstart, ← hstop]
    split_ifs <;> rfl
  have ht : t.delete start stop = if stop' - start' ≤ 0 then t else t.deleteAt start' stop' := by
    simp only [EditedText.delete, ← hstart, ← hstop]
  rw [hb, ht]
  by_cases hempty : stop' - start' ≤ 0
  · rw [if_pos hempty, if_pos hempty]
    exact .inl ⟨by omega, rfl, rfl⟩
  · rw [if_neg hempty, if_neg hempty]
    refine .inr ⟨by omega, bufferDeleteRange_deleted h ?_ (by omega) ?_, rfl⟩
    · rw [hstart]; split_ifs <;> omega
    · rw [hstop]; split_ifs <;> omega

/-! ### Replacement -/

theorem getElem?_text (b : Buffer) (hp : 1 ≤ p) (hz : p < b.z) :
    b.text[(p - 1).toNat]? = some (b.byteAt p) := by
  have hlt : (p - 1).toNat < (slice (fun i => b.byteAt (i + 1)) (b.z - 1)).length := by
    rw [length_slice]; omega
  rw [Buffer.text, List.getElem?_eq_getElem hlt, getElem_slice]
  congr 2; omega

theorem HoldsText.charAt (h : b.HoldsText t) (hp : 1 ≤ p) (hz : p < t.z) :
    ∃ c, t.chars[(p - 1).toNat]? = some c ∧ bytePos t.chars (p + 1) = bytePos t.chars p + c.bytes.length ∧
      b.icharLenAt rep p = c.bytes.length ∧ t.charLenAt p = c.bytes.length := by
  obtain ⟨c, hc, hnext, hdrop⟩ := drop_bytePos hp hz
  have hpos := c.length_bytes_pos
  have hle : bytePos t.chars (p + 1) ≤ b.z := (h.bytePos_mem (by omega)).2
  refine ⟨c, hc, hnext, ?_, ?_⟩
  · have hfirst := getElem?_text b (h.bytePos_mem hz.le).1 (by omega)
    rw [h.text, ← Nat.add_zero (bytePos t.chars p - 1).toNat, ← List.getElem?_drop, hdrop] at hfirst
    have hbyte : c.first = b.byteAt (bytePos t.chars p) := by simpa [Ichar.bytes] using hfirst
    rw [icharLenAt, h.charbposToBytebpos, ← hbyte, c.length_bytes]
  · obtain ⟨hlt, hci⟩ := List.getElem?_eq_some_iff.mp hc
    rw [EditedText.charLenAt, List.drop_eq_getElem_cons hlt, hci]
    simp

/-- An interrupted gap motion has left the gap inside the character at `pos`. -/
def GapInsideChar (rep : UInt8 → ℕ) (b : Buffer) (pos : ℤ) : Prop :=
  b.charbposToBytebpos rep pos < b.gpt ∧ b.gpt < b.charbposToBytebpos rep pos + b.icharLenAt rep pos

theorem text_memcpy (h : b.Layout) {bytepos : ℤ} (str : List UInt8) (h1 : 1 ≤ bytepos)
    (hz : bytepos + str.length ≤ b.z) (hgap : b.gpt ≤ bytepos ∨ bytepos + str.length ≤ b.gpt) :
    let b' := { b with beg := memcpy (b.byteAddress bytepos) str b.beg }
    b'.text = b.text.take (bytepos - 1).toNat ++ str ++ b.text.drop (bytepos - 1 + str.length).toNat ∧
      (b.Sentinels → b'.Sentinels) := by
  obtain ⟨hg1, hg2, hg3, hg4, hg5⟩ := h
  have haddr : ∀ q, byteAddress { b with beg := memcpy (b.byteAddress bytepos) str b.beg } q =
      b.byteAddress q := fun _ => rfl
  refine ⟨slice_overwrite (n := b.z - 1) (by omega) (by omega) (fun j hj => ?_)
    (fun q hq hq' hout => ?_), fun hs => ⟨?_, ?_⟩⟩
  · have hmem : b.byteAddress (bytepos - 1 + j + 1) = b.byteAddress bytepos + j := by
      unfold byteAddress; split_ifs <;> omega
    rw [byteAt, haddr, hmem]
    exact memcpy_of_mem hj
  · rw [byteAt, byteAt, haddr]
    have hne : b.byteAddress (q + 1) < b.byteAddress bytepos ∨
        b.byteAddress bytepos + str.length ≤ b.byteAddress (q + 1) := by
      unfold byteAddress; split_ifs <;> omega
    rcases hne with hne | hne
    · exact memcpy_of_lt hne
    · exact memcpy_of_ge hne
  · have hs := hs.gap
    simp only [gptAddr] at hs ⊢
    by_cases hlt : bytepos < b.gpt
    · have hstop := hgap.resolve_left (by omega)
      rw [memcpy_of_ge (by rw [byteAddress, if_neg (by omega)]; omega), hs]
    · rw [memcpy_of_lt (by rw [byteAddress, if_pos (by omega)]; omega), hs]
  · have hs := hs.stop
    simp only [endAddr] at hs ⊢
    rw [memcpy_of_ge (by unfold byteAddress; split_ifs <;> omega), hs]

theorem overwrite_spec (h : b.HoldsText t) (hp : 1 ≤ p) (hz : p < t.z) {ch : Ichar rep}
    (hlen : ch.bytes.length = t.charLenAt p) (hgap : ¬ b.GapInsideChar rep p) :
    let b' := { b with beg := memcpy (b.byteAddress (bytePos t.chars p)) ch.bytes b.beg }
    b'.HoldsText (t.overwrite p ch) ∧ (b.Sentinels → b'.Sentinels) ∧
      (b.HoldsMarkers t → b'.HoldsMarkers (t.overwrite p ch)) := by
  obtain ⟨c, hc, hnext, hlenb, hlent⟩ := h.charAt hp hz
  have hsame : ch.bytes.length = c.bytes.length := hlen.trans hlent
  have hpos : ∀ m, bytePos (t.overwrite p ch).chars m = bytePos t.chars m := bytePos_set hc hsame
  have hz' : (t.overwrite p ch).z = t.z := by simp [EditedText.z, EditedText.overwrite]
  have hle : bytePos t.chars (p + 1) ≤ b.z := (h.bytePos_mem (by omega)).2
  rw [GapInsideChar, h.charbposToBytebpos, hlenb] at hgap
  obtain ⟨htext, hsent⟩ := text_memcpy h.layout ch.bytes (h.bytePos_mem hz.le).1
    (by rw [hsame]; omega) (by rw [hsame]; omega)
  refine ⟨?_, hsent, fun hm => ?_⟩
  · obtain ⟨hr1, hr2, hr3, hr4⟩ := h.inRange
    exact {
      layout := ⟨h.layout.1, h.layout.2, h.layout.3, h.layout.4, h.layout.5⟩
      text := by rw [htext, h.text]; exact (itextBytes_set hp hc hsame).symm
      bufz := h.bufz.trans hz'.symm
      bufpt := h.bufpt
      pt := h.pt.trans (hpos _).symm
      bufbegv := h.bufbegv
      begv := h.begv.trans (hpos _).symm
      bufzv := h.bufzv
      zv := h.zv.trans (hpos _).symm
      inRange := ⟨hr1, hr2, hr3, hr4.trans hz'.ge⟩ }
  · refine hm.of_map (f := (·.membpos)) (g := (·.pos)) (by simp) (by simp [EditedText.overwrite]) rfl rfl
      fun m m' hmm => ?_
    exact ⟨hmm.beforeGapEnd, hmm.pos.trans (hpos _).symm, hmm.inText.1, hmm.inText.2.trans hz'.ge⟩

/-- Replacing the character at `pos` by one of another length does without the end sentinel. -/
def ReplaceDropsEndSentinel (b : Buffer) (pos : ℤ) (ch : Ichar rep) : Prop :=
  ch.bytes.length ≠ b.icharLenAt rep pos ∧ b.DropsEndSentinel rep pos (pos + 1) ∧
    (b.bufpt ≠ b.bufzv ∨ pos = b.bufbegv)

theorem insert_after_deleted (h : b.HoldsText t) {pos p : ℤ} (hpos : t.begv ≤ pos ∧ pos < t.zv)
    {d : Buffer} (hd : Deleted b d t pos (pos + 1))
    (hp : p = if pos ≥ (t.deleteAt pos (pos + 1)).zv then (t.deleteAt pos (pos + 1)).zv - 1 else pos)
    (hle : t.begv ≤ p) {ch : Ichar rep}
    (hb : d.bufferInsertString1 rep (if pos = t.pt - 1 then -1 else p) (itextBytes [ch]) false = some b') :
    let t' := (t.deleteAt pos (pos + 1)).insert (if pos = t.pt - 1 then -1 else p) [ch] false
    b'.HoldsText t' ∧
      (d.Sentinels ∨ b.deletesFromBottom (pos + 1) (bytePos t.chars pos) ∧ pos = t.pt - 1 →
        b'.Sentinels) ∧
      ((b.gpt < bytePos t.chars pos → b.gapSize < 2 ^ 31) → d.HoldsMarkers (t.deleteAt pos (pos + 1)) →
        b'.HoldsMarkers t') := by
  obtain ⟨hr1, hr2, hr3, hr4⟩ := h.inRange
  obtain ⟨h1, h2, h3⟩ := bufferInsertString1_spec hd.text hb
  obtain ⟨hq1, hq2⟩ := EditedText.clipPos_deleteAt_char h.inRange hpos hp hle
  set q := (t.deleteAt pos (pos + 1)).clipPos (if (if pos = t.pt - 1 then -1 else p) = -1 then
    (t.deleteAt pos (pos + 1)).pt else if pos = t.pt - 1 then -1 else p)
  have hz : pos + 1 ≤ 1 + t.chars.length := by unfold EditedText.z at hr4; omega
  have hqbyte : bytePos (t.deleteAt pos (pos + 1)).chars q = bytePos t.chars q :=
    bytePos_cutOut_of_le hq1 (by omega)
  have hqle : bytePos t.chars q ≤ bytePos t.chars pos := bytePos_le_of_le hq1
  rw [hqbyte] at h2 h3
  refine ⟨h1, fun hs => h2 (hs.imp_right ?_), fun hf => h3 fun hlt => ?_⟩
  · -- the gap goes to the end of the text, which sets the end sentinel
    rintro ⟨hbottom, hmove⟩
    have hend : pos + 1 = t.z := hbottom.1.trans h.bufz
    have hz' : (t.deleteAt pos (pos + 1)).z = pos := by
      have hlen : ((cutOut t.chars pos (pos + 1)).length : ℤ) = t.chars.length - (pos + 1 - pos) :=
        length_cutOut (by omega) (by omega) hz
      unfold EditedText.z at hend
      show 1 + ((cutOut t.chars pos (pos + 1)).length : ℤ) = pos
      omega
    rw [hq2 hmove, (hd.gapStays hbottom).1, hd.text.z, hz']
    exact ⟨hbottom.2, (bytePos_cutOut_of_le le_rfl (by omega)).symm⟩
  · by_cases hbottom : b.deletesFromBottom (pos + 1) (bytePos t.chars pos)
    · rw [(hd.gapStays hbottom).2]
      exact hf hbottom.2
    · rw [hd.gapMoves hbottom] at hlt
      omega

theorem bufferReplaceChar_spec (h : b.HoldsText t) {pos : ℤ} (hpos : t.begv ≤ pos ∧ pos < t.zv)
    {ch : Ichar rep} (hgap : ch.bytes.length = b.icharLenAt rep pos → ¬ b.GapInsideChar rep pos)
    (hb : b.bufferReplaceChar rep pos ch.bytes = some b') :
    let t' := t.replaceAsCoded pos ch
    b'.HoldsText t' ∧ (¬ b.ReplaceDropsEndSentinel pos ch → b.Sentinels → b'.Sentinels) ∧
      ((ch.bytes.length ≠ b.icharLenAt rep pos → b.gpt < bytePos t.chars pos → b.gapSize < 2 ^ 31) →
        b.HoldsMarkers t → b'.HoldsMarkers t') := by
  obtain ⟨hr1, hr2, hr3, hr4⟩ := h.inRange
  have hp1 : 1 ≤ pos := by omega
  have hpz : pos < t.z := by omega
  obtain ⟨c, -, -, hlenb, hlent⟩ := h.charAt hp1 hpz
  simp only [bufferReplaceChar] at hb
  rw [ReplaceDropsEndSentinel]
  rw [hlenb] at hgap hb ⊢
  by_cases hlen : ch.bytes.length = c.bytes.length
  · have hge : ¬ pos < b.bufbegv := by rw [h.bufbegv]; omega
    have hlt : ¬ pos ≥ b.bufzv := by rw [h.bufzv]; omega
    simp only [if_pos hlen, if_neg hge, if_neg hlt, Option.some.injEq, h.charbposToBytebpos] at hb
    have hlen' := hlen.trans hlent.symm
    obtain ⟨h1, h2, h3⟩ := overwrite_spec h hp1 hpz hlen' (hgap hlen)
    rw [hb] at h1 h2 h3
    simp only [EditedText.replaceAsCoded, if_pos hlen']
    exact ⟨h1, fun _ => h2, fun _ => h3⟩
  · have hd := bufferDeleteRange_deleted h hpos.1 (show pos < pos + 1 by omega) (by omega)
    set d := b.bufferDeleteRange rep pos (pos + 1)
    set p := if pos ≥ (t.deleteAt pos (pos + 1)).zv then (t.deleteAt pos (pos + 1)).zv - 1 else pos with hp
    have hcoded : t.replaceAsCoded pos ch = if p < t.begv then t.deleteAt pos (pos + 1)
        else (t.deleteAt pos (pos + 1)).insert (if pos = t.pt - 1 then -1 else p) [ch] false := by
      simp only [EditedText.replaceAsCoded, hlent, if_neg hlen, EditedText.delete_char hpos]
      rfl
    have hbegv : d.bufbegv = t.begv := hd.text.bufbegv
    simp only [if_neg hlen, hbegv, hd.text.bufzv, if_neg (show ¬ pos < t.begv by omega), ← hp,
      h.bufpt] at hb
    rw [hcoded, h.bufpt, h.bufzv, h.bufbegv]
    have hkeeps : ¬ b.DropsEndSentinel rep pos (pos + 1) → b.Sentinels → d.Sentinels :=
      fun hk hs => ⟨hd.gapSentinel, hd.endSentinel hs.stop hk⟩
    have hzv : (t.deleteAt pos (pos + 1)).zv = t.zv - 1 := by simp [EditedText.deleteAt]
    by_cases hempty : p < t.begv
    · -- the accessible region was this character only
      rw [if_pos hempty, Option.some.injEq] at hb
      rw [if_pos hempty, ← hb]
      have hall : pos = t.begv := by
        rw [hp, hzv] at hempty; split_ifs at hempty <;> omega
      exact ⟨hd.text, fun hk => hkeeps fun hdrop => hk ⟨hlen, hdrop, .inr hall⟩,
        fun hf => hd.markers (.inr (hf hlen))⟩
    · rw [if_neg hempty] at hb ⊢
      have hstr : ch.bytes = itextBytes [ch] := by simp
      rw [hstr] at hb
      obtain ⟨h1, h2, h3⟩ := insert_after_deleted h hpos hd hp (by omega) hb
      refine ⟨h1, fun hk hs => h2 ?_, fun hf hm => h3 (hf hlen) (hd.markers (.inr (hf hlen)) hm)⟩
      by_cases hdrop : b.DropsEndSentinel rep pos (pos + 1)
      · have hrest : t.pt = t.zv := by
          by_contra hc
          exact hk ⟨hlen, hdrop, .inl hc⟩
        obtain ⟨hbottom, -⟩ := hdrop
        rw [h.charbposToBytebpos] at hbottom
        have hend : pos + 1 = t.z := hbottom.1.trans h.bufz
        exact .inr ⟨hbottom, by omega⟩
      · exact .inl (hkeeps hdrop hs)

end Buffer

end XEmacs.Text
