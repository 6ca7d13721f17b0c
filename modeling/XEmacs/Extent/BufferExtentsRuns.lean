import XEmacs.Extent.BufferExtentsDelete
import XEmacs.Extent.ExtentRun
import XEmacs.Text.BufferRuns
import XEmacs.Text.LineNumberRuns

/-! Runs of operations on a buffer with extents. `adjust_extents` leaves the position of the
stack of extents alone while there are no extents, and its amounts, like the indices of
endpoints, are `int`s. As long as neither shows, the extents stay in order and at characters. -/

namespace XEmacs.Extents

open Lib Lib.Gap Text

namespace BufferExtents

variable {rep : UInt8 → ℕ} {s s' : BufferExtents} {t t' : EditedText rep} {stamp : ℕ → ℤ} {b' : Buffer}
  {start stop : ℤ} {info : ExtentInfo} {e : ℕ}

theorem Holds.of_gap (h : s.Holds t stamp) (ht' : b'.HoldsText t') (hchars : t'.chars = t.chars)
    (hgap : b'.gpt = s.buf.gpt ∧ b'.gapSize = s.buf.gapSize) : (⟨b', s.info⟩ : BufferExtents).Holds t' stamp := by
  refine ⟨ht', h.ordered, fun e he => ?_⟩
  rw [AtChar, AtChar, hgap.1, hgap.2, EditedText.z, hchars]
  exact h.atChar e he

theorem Holds.atChar_of_char (h : s.Holds t stamp) {c : ℤ} (h1 : 1 ≤ c) (hz : c ≤ t.z) :
    AtChar s.buf t (s.charbposToMembpos rep c) := by
  rw [charbposToMembpos, h.text.charbposToBytebpos]
  obtain ⟨hvalid, hdec⟩ := Buffer.validMembposP_bytebposToMembpos h.text.layout (h.text.bytePos_mem hz)
  exact ⟨((Buffer.validMembposP_iff h.text.layout).mp hvalid).1, c, h1, hz, hdec⟩

theorem Holds.setExtentEndpoints1 (h : s.Holds t stamp) (hused : e < s.info.next) (h1 : 1 ≤ start) (hle : start ≤ stop)
    (hz : stop ≤ t.z) (hs : s.info.setExtentEndpoints1 e (s.charbposToMembpos rep start)
      (s.charbposToMembpos rep stop) = some info) :
    ∃ stamp', ({ s with info := info } : BufferExtents).Holds t stamp' := by
  have hstart := h.atChar_of_char h1 (hle.trans hz)
  have hstop := h.atChar_of_char (h1.trans hle) hz
  have h0 : 0 ≤ s.charbposToMembpos rep start := by
    have hvalid := hstart.valid h.text
    have hgpt := h.text.layout.one_le_gpt
    have hgap := h.text.layout.gap_pos
    unfold Buffer.validMembposP at hvalid
    omega
  have hmono : s.charbposToMembpos rep start ≤ s.charbposToMembpos rep stop := by
    rw [charbposToMembpos, charbposToMembpos, h.text.charbposToBytebpos, h.text.charbposToBytebpos]
    exact bytebposToMembpos_mono h.text.layout (bytePos_le_of_le hle)
  obtain ⟨info', stamp', hset, hord, hext, -⟩ := h.ordered.setExtentEndpoints1 _ _ hused h0 hmono
  obtain rfl := Option.some.inj (hs.symm.trans hset)
  refine ⟨stamp', h.text, hord, fun a ha => ?_⟩
  rw [ExtentInfo.attached, Set.mem_ofPred_eq] at ha
  simp only [hext, ExtentInfo.setStartEnd_ext] at ha ⊢
  by_cases hae : a = e
  · rw [hae, Function.update_self]
    exact ⟨hstart, hstop⟩
  · rw [Function.update_of_ne hae] at ha ⊢
    exact h.atChar a ha

/-- The sizes fit in an `int` twice over, and the stack of extents is nowhere or in the text if
there are extents. -/
def Adjustable (s : BufferExtents) : Prop :=
  s.buf.allocated < 2 ^ 30 ∧ (s.info.extents.numEls = 0 ∨
    s.info.soe.all (fun soe => decide (soe.pos < 0 ∨ s.buf.validMembposP soe.pos)) = true)

instance (s : BufferExtents) : Decidable s.Adjustable := inferInstanceAs (Decidable (_ ∧ (_ ∨ _)))

/-- The extents are adjusted to what the operation does to the text. -/
def Adjusts (s : BufferExtents) : BufferExtentsOp rep → Prop
  | .insert pos str _ _ =>
    let pos := s.buf.clipPos (if pos = -1 then s.buf.bufpt else pos)
    s.Adjustable ∧
      (s.buf.makeRoom rep pos (s.buf.charbposToBytebpos rep pos) (itextBytes str).length).all (·.allocated < 2 ^ 30) = true
  | .delete .. => s.Adjustable
  | .moveGap .. => s.Adjustable
  | _ => True

instance (s : BufferExtents) : (op : BufferExtentsOp rep) → Decidable (s.Adjusts op)
  | .insert .. => inferInstanceAs (Decidable (_ ∧ _))
  | .delete .. | .moveGap .. => inferInstanceAs (Decidable (Adjustable s))
  | .setPoint .. | .narrow .. | .makeExtent .. | .setEndpoints .. | .detach .. | .setFlags .. | .nextExtentChange ..
  | .previousExtentChange .. | .flushSoe | .detachAll => isTrue trivial

theorem Holds.soeInText (h : s.Holds t stamp) (hok : s.Adjustable) : s.SoeInText := by
  intro hne soe hsoe h0
  have hnum : s.info.extents.numEls ≠ 0 := fun hzero => by
    rw [ExtentInfo.numEls_eq_zero_iff h.ordered] at hzero
    exact hne.ne_empty hzero
  have hall := hok.2.resolve_left hnum
  rw [hsoe, Option.all_some, decide_eq_true_eq] at hall
  exact hall.resolve_left (not_lt.mpr h0)

theorem Holds.detach (h : s.Holds t stamp) (hs : s.info.detach e = some info) :
    ({ s with info := info } : BufferExtents).Holds t stamp := by
  by_cases he : e ∈ s.info.attached
  · obtain ⟨info', hdetach, hord, hext, -⟩ := h.ordered.detach he
    obtain rfl := Option.some.inj (hs.symm.trans hdetach)
    refine h.of_info hord fun a ha => ?_
    rw [ExtentInfo.attached, Set.mem_ofPred_eq, hext, ExtentInfo.setStartEnd_ext] at ha
    rw [hext, ExtentInfo.setStartEnd_ext]
    by_cases hae : a = e
    · rw [hae, Function.update_self] at ha
      exact absurd (show (0 : ℤ) ≤ -1 from ha) (by decide)
    · rw [Function.update_of_ne hae] at ha ⊢
      exact ⟨ha, rfl, rfl⟩
  · rw [ExtentInfo.detach, if_pos (ExtentInfo.detachedP_iff.mpr he), Option.some.injEq] at hs
    exact hs ▸ h

theorem setPoint_chars (t : EditedText rep) (pos : ℤ) : (t.setPoint pos).chars = t.chars := by
  rw [EditedText.setPoint]
  split_ifs <;> rfl

theorem setBufferPoint_gap (b : Buffer) (charbpos bytpos : ℤ) :
    (b.setBufferPoint charbpos bytpos).gpt = b.gpt ∧ (b.setBufferPoint charbpos bytpos).gapSize = b.gapSize := by
  rw [Buffer.setBufferPoint]
  split_ifs <;> exact ⟨rfl, rfl⟩

theorem narrow_gap (b : Buffer) (t : EditedText rep) (start stop : ℤ) : (t.narrow start stop).chars = t.chars ∧
    (b.narrowToRegion rep start stop).gpt = b.gpt ∧ (b.narrowToRegion rep start stop).gapSize = b.gapSize := by
  have hchars (c : Prop) [Decidable c] (t : EditedText rep) (pos : ℤ) : (if c then t.setPoint pos else t).chars = t.chars := by
    split_ifs
    · exact setPoint_chars t pos
    · rfl
  have hgap (c : Prop) [Decidable c] (b : Buffer) (pos bytepos : ℤ) :
      (if c then b.setBufferPoint pos bytepos else b).gpt = b.gpt ∧
        (if c then b.setBufferPoint pos bytepos else b).gapSize = b.gapSize := by
    split_ifs
    · exact setBufferPoint_gap b pos bytepos
    · exact ⟨rfl, rfl⟩
  rw [EditedText.narrow, Buffer.narrowToRegion]
  simp only [hchars, hgap, and_self]

theorem Holds.step (h : s.Holds t stamp) {op : BufferExtentsOp rep} (hok : s.Adjusts op) (hs : s.step op = some s') :
    ∃ t' stamp', s'.Holds (t' : EditedText rep) stamp' := by
  cases op with
  | insert pos str beforeMarkers fuel =>
    obtain ⟨⟨stamp', hs'⟩, -⟩ := h.bufferInsertString1 (h.soeInText hok.1) hok.1.1 (fun r hr => by
      have hall := hok.2
      rw [hr, Option.all_some, decide_eq_true_eq] at hall
      exact hall) hs
    exact ⟨_, stamp', hs'⟩
  | delete start stop fuel =>
    obtain ⟨⟨stamp', hs'⟩, -⟩ := h.bufferDeleteRange (h.soeInText hok) hok.1 hs
    exact ⟨_, stamp', hs'⟩
  | moveGap pos quitp =>
    obtain ⟨hpos, hs⟩ := Option.ite_none_right_eq_some.mp hs
    rw [h.text.bufz] at hpos
    have hbytes := h.text.bytePos_mem hpos.2
    rw [h.text.charbposToBytebpos, Option.some.injEq] at hs
    exact ⟨t, stamp, hs ▸ (h.moveGap (h.soeInText hok) hok.1 hbytes.1 hbytes.2).holds⟩
  | setPoint pos =>
    obtain ⟨b', hb', rfl⟩ := Option.map_eq_some_iff.mp hs
    obtain ⟨hpos, hb'⟩ := Option.ite_none_right_eq_some.mp hb'
    rw [h.text.bufbegv, h.text.bufzv] at hpos
    rw [h.text.charbposToBytebpos, Option.some.injEq] at hb'
    subst hb'
    refine ⟨_, stamp, h.of_gap (Buffer.setBufferPoint_text h.text hpos) ?_ ?_⟩
    · exact setPoint_chars t pos
    · exact setBufferPoint_gap s.buf pos _
  | narrow start stop =>
    obtain ⟨b', hb', rfl⟩ := Option.map_eq_some_iff.mp hs
    obtain ⟨hpos, hb'⟩ := Option.ite_none_right_eq_some.mp hb'
    rw [h.text.bufz] at hpos
    rw [← Option.some.inj hb']
    obtain ⟨hchars, hgap⟩ := narrow_gap s.buf t start stop
    exact ⟨_, stamp, h.of_gap (Buffer.narrowToRegion_spec h.text hpos.1 hpos.2.1 hpos.2.2).1 hchars hgap⟩
  | makeExtent start stop x =>
    obtain ⟨⟨h1, hle, hz⟩, hs⟩ := Option.ite_none_right_eq_some.mp hs
    obtain ⟨info, hset, rfl⟩ := Option.map_eq_some_iff.mp hs
    obtain ⟨hord, hatt⟩ := h.ordered.makeExtentDetached { x with internal := false }
    rw [h.text.bufz] at hz
    have hmade : ({ s with info := (s.info.makeExtentDetached { x with internal := false }).1 } : BufferExtents).Holds t stamp := by
      refine h.of_info hord fun a ha => ?_
      rw [hatt] at ha
      have hsame : (s.info.makeExtentDetached { x with internal := false }).1.ext a = s.info.ext a :=
        Function.update_of_ne (h.ordered.used a ha).ne _ _
      rw [hsame]
      exact ⟨ha, rfl, rfl⟩
    obtain ⟨stamp', hs'⟩ := hmade.setExtentEndpoints1 (e := s.info.next) (Nat.lt_succ_self _) h1 hle hz hset
    exact ⟨t, stamp', hs'⟩
  | setEndpoints e start stop =>
    obtain ⟨⟨hused, h1, hle, hz⟩, hs⟩ := Option.ite_none_right_eq_some.mp hs
    obtain ⟨info, hset, rfl⟩ := Option.map_eq_some_iff.mp hs
    rw [h.text.bufz] at hz
    obtain ⟨stamp', hs'⟩ := h.setExtentEndpoints1 hused h1 hle hz hset
    exact ⟨t, stamp', hs'⟩
  | detach e =>
    obtain ⟨info, hdetach, rfl⟩ := Option.map_eq_some_iff.mp hs
    exact ⟨t, stamp, h.detach hdetach⟩
  | setFlags e startOpen endOpen detachable =>
    obtain ⟨hord, hatt⟩ := h.ordered.setFlags e startOpen endOpen detachable
    rw [← Option.some.inj hs]
    refine ⟨t, stamp, h.of_info hord fun a ha => ?_⟩
    rw [hatt] at ha
    refine ⟨ha, ?_⟩
    show (Function.update s.info.ext e _ a).start = _ ∧ (Function.update s.info.ext e _ a).stop = _
    by_cases hae : a = e
    · rw [hae, Function.update_self]
      exact ⟨rfl, rfl⟩
    · rw [Function.update_of_ne hae]
      exact ⟨rfl, rfl⟩
  | nextExtentChange pos =>
    obtain ⟨r, hr, rfl⟩ := Option.map_eq_some_iff.mp hs
    obtain ⟨hpos, -⟩ := Option.ite_none_right_eq_some.mp hr
    rw [h.text.bufz] at hpos
    obtain ⟨info, v, hv, hord, hext, -⟩ := h.nextExtentChange hpos.1 hpos.2
    obtain rfl := Option.some.inj (hr.symm.trans hv)
    exact ⟨t, stamp, (h.of_ext hord hext).1⟩
  | previousExtentChange pos =>
    obtain ⟨r, hr, rfl⟩ := Option.map_eq_some_iff.mp hs
    obtain ⟨hpos, -⟩ := Option.ite_none_right_eq_some.mp hr
    rw [h.text.bufz] at hpos
    obtain ⟨info, v, hv, hord, hext, -⟩ := h.previousExtentChange hpos.1 hpos.2
    obtain rfl := Option.some.inj (hr.symm.trans hv)
    exact ⟨t, stamp, (h.of_ext hord hext).1⟩
  | flushSoe =>
    rw [← Option.some.inj hs]
    exact ⟨t, stamp, h.of_info h.ordered.flushSoe fun a ha => ⟨ha, rfl, rfl⟩⟩
  | detachAll =>
    obtain ⟨info, hdetach, rfl⟩ := Option.map_eq_some_iff.mp hs
    obtain ⟨hord, hnone⟩ := h.ordered.detachAllExtents hdetach
    exact ⟨t, stamp, h.of_info hord fun a ha => absurd (hnone ▸ ha : a ∈ (∅ : Set ℕ)) (Set.notMem_empty a)⟩

theorem holds_init (rep : UInt8 → ℕ) (mem : ℤ → UInt8) : (init mem).Holds (EditedText.init rep) 0 where
  text := Buffer.holdsText_init rep mem
  ordered := ExtentInfo.ordered_allocate 0
  atChar e he := absurd (show (0 : ℤ) ≤ -1 from he) (by decide)

theorem holds_of_run {mem : ℤ → UInt8} {ops : List (BufferExtentsOp rep)}
    (h : Run (@BufferExtents.step rep) Adjusts (init mem) ops s) : ∃ t stamp, s.Holds (t : EditedText rep) stamp :=
  h.invariant (I := fun s => ∃ t stamp, s.Holds (t : EditedText rep) stamp) ⟨_, _, holds_init rep mem⟩
    fun _ _ _ ⟨_, _, ht⟩ hok hs => ht.step hok hs

/-- An extent that is closed at the start and open at the end. -/
def closedOpen : Extent := ⟨-1, -1, false, true, true, false⟩

def twoExtents : List (BufferExtentsOp repBytesByFirstByte) :=
  [.insert 1 [LineBuffer.letterA, LineBuffer.letterA, LineBuffer.letterA] false 5, .makeExtent 1 3 closedOpen, .makeExtent 2 4 closedOpen,
    .nextExtentChange 2, .insert 2 [LineBuffer.letterA] false 5, .delete 3 4 5]

/-- The only extent is detached while the stack of extents is behind the gap, and text is inserted
before and after there is an extent again. -/
def staleStack : List (BufferExtentsOp repBytesByFirstByte) :=
  [.insert 1 [LineBuffer.letterA, LineBuffer.letterA, LineBuffer.letterA, LineBuffer.letterA] false 5, .makeExtent 1 2 closedOpen, .nextExtentChange 4, .detach 0,
    .insert 2 [LineBuffer.letterA] false 5, .makeExtent 1 3 closedOpen, .insert 1 [LineBuffer.letterA] false 5]

end BufferExtents

end XEmacs.Extents
