import XEmacs.Lib.Transition
import XEmacs.Text.Undo

/-! Undoing what was recorded since a boundary restores the text that was there, and undoing
that restores the text before. A time before 1970 can come back from the undo list as another
one, which ends the replay; then a character overwritten while the buffer was unmodified is
lost. -/

namespace XEmacs.Text

open Lib

variable {rep : UInt8 → ℕ}

section Splice

variable {cs xs : List (Ichar rep)} {p q a : ℤ}

theorem cutOut_self : cutOut cs p p = cs := List.take_append_drop _ _

theorem cutOut_spliceIn (ha : a ≤ p) (h1 : 1 ≤ p) (hp : p ≤ 1 + cs.length) :
    cutOut (spliceIn cs p xs) a (p + xs.length) = cutOut cs a p := by
  have hlen : (cs.take (p - 1).toNat ++ xs).length = (p + xs.length - 1).toNat := by
    simp only [List.length_append, List.length_take]; omega
  have htake : (spliceIn cs p xs).take (a - 1).toNat = cs.take (a - 1).toNat := by
    rw [spliceIn, List.append_assoc, List.take_append_of_le_length (by simp; omega), List.take_take,
      min_eq_left (by omega)]
  have hdrop : (spliceIn cs p xs).drop (p + xs.length - 1).toNat = cs.drop (p - 1).toNat := by
    rw [spliceIn, ← hlen, List.drop_left]
  rw [cutOut, htake, hdrop, cutOut]

theorem spliceIn_cutOut (h1 : 1 ≤ p) (hpq : p ≤ q) (hq : q ≤ 1 + cs.length) :
    spliceIn (cutOut cs p q) p ((cs.drop (p - 1).toNat).take (q - p).toNat) = cs := by
  have hlen : (cs.take (p - 1).toNat).length = (p - 1).toNat := by simp; omega
  have htake : (cutOut cs p q).take (p - 1).toNat = cs.take (p - 1).toNat := by
    rw [cutOut, List.take_append_of_le_length hlen.ge, List.take_take, min_self]
  have hdrop : (cutOut cs p q).drop (p - 1).toNat = cs.drop (q - 1).toNat := by
    rw [cutOut, List.drop_append_of_le_length hlen.ge, List.drop_eq_nil_of_le hlen.le, List.nil_append]
  have hsplit : (q - 1).toNat = (p - 1).toNat + (q - p).toNat := by omega
  rw [spliceIn, htake, hdrop, hsplit, ← List.drop_drop, List.append_assoc, List.take_append_drop,
    List.take_append_drop]

end Splice

/-- The text that replaying `list` makes of `cs`, for a buffer with the time `modtime`. -/
def revert (modtime : ℤ) : List (UndoEntry rep) → List (Ichar rep) → Option (List (Ichar rep))
  | [], cs => some cs
  | .boundary :: _, cs => some cs
  | .point _ :: list, cs => revert modtime list cs
  | .unmodified high low :: list, cs =>
    if lispToTime high low = some modtime then revert modtime list cs else some cs
  | .inserted start stop :: list, cs =>
    if 1 ≤ start ∧ start ≤ stop ∧ stop ≤ 1 + cs.length then revert modtime list (cutOut cs start stop)
    else none
  | .deleted str pos :: list, cs =>
    if 1 ≤ |pos| ∧ |pos| ≤ 1 + cs.length then revert modtime list (spliceIn cs |pos| str) else none

/-- A time comes back from the undo list. -/
def TimeKept (modtime : ℤ) : Prop := lispToTime (makeTime modtime).1 (makeTime modtime).2 = some modtime

instance (modtime : ℤ) : Decidable (TimeKept modtime) := inferInstanceAs (Decidable (_ = _))

theorem lispToTime_makeTime (modtime : ℤ) :
    ∃ modTime, lispToTime (makeTime modtime).1 (makeTime modtime).2 = some modTime := by
  simp only [lispToTime, makeTime]
  exact ⟨_, if_pos (by omega)⟩

def AtBoundary (list : List (UndoEntry rep)) : Prop := ∀ entry ∈ list.head?, entry = .boundary

variable {m : ℤ} {list group base pushed : List (UndoEntry rep)} {cs cs' str : List (Ichar rep)}

theorem AtBoundary.cases (h : AtBoundary base) : base = [] ∨ ∃ list, base = .boundary :: list := by
  cases base with
  | nil => exact .inl rfl
  | cons entry list => exact .inr ⟨list, by rw [h entry rfl]⟩

theorem undoBoundary_of_atBoundary (h : AtBoundary base) : undoBoundary base = base := by
  rcases h.cases with rfl | ⟨list, rfl⟩ <;> rfl

theorem atBoundary_undoBoundary (list : List (UndoEntry rep)) : AtBoundary (undoBoundary list) := by
  intro entry hentry
  match list with
  | [] => contradiction
  | entry' :: list => cases entry' <;> exact (Option.some.inj hentry).symm

theorem revert_addInsertion {beg : ℤ} (h1 : 1 ≤ beg) (hbeg : beg ≤ 1 + cs.length)
    (h : revert m list cs = some cs') :
    revert m (addInsertion beg str.length list) (spliceIn cs beg str) = some cs' := by
  have hlen : ((spliceIn cs beg str).length : ℤ) = cs.length + str.length := by
    rw [length_spliceIn]; push_cast; rfl
  have hpush : revert m (.inserted beg (beg + str.length) :: list) (spliceIn cs beg str) = some cs' := by
    rw [revert, if_pos (by omega), cutOut_spliceIn le_rfl h1 hbeg, cutOut_self, h]
  unfold addInsertion
  split
  · rename_i start stop list'
    split_ifs with hstop
    · subst hstop
      rw [revert] at h ⊢
      split_ifs at h with hrange
      rw [if_pos (by omega), cutOut_spliceIn hrange.2.1 h1 hbeg, h]
    · exact hpush
  · exact hpush

theorem addInsertion_append (hbase : AtBoundary base) (beg length : ℤ) :
    addInsertion beg length (group ++ base) = addInsertion beg length group ++ base := by
  cases group with
  | nil => rcases hbase.cases with rfl | ⟨list, rfl⟩ <;> rfl
  | cons entry group =>
    cases entry with
    | inserted start stop =>
      rw [List.cons_append, addInsertion, addInsertion]
      split_ifs <;> rfl
    | _ => rfl

theorem mem_of_mem_addInsertion {beg length high low : ℤ}
    (h : .unmodified high low ∈ addInsertion beg length list) : .unmodified high low ∈ list := by
  unfold addInsertion at h
  split at h
  · split_ifs at h <;> simpa using h
  · simpa using h

namespace UndoBuffer

variable {b c : UndoBuffer rep} {beg length start stop pos : ℤ}

theorem addDeletion_eq (b : UndoBuffer rep) (beg length : ℤ) (list : List (UndoEntry rep)) (h : 0 ≤ beg) :
    ∃ points sbeg, b.addDeletion beg length list =
        .deleted (b.text.substring beg (beg + length)) sbeg :: (points ++ list) ∧
      |sbeg| = beg ∧ ∀ entry ∈ points, ∃ pos, entry = .point pos := by
  have habs : |if b.text.pt = beg + length then -beg else beg| = beg := by
    split_ifs
    · rw [abs_neg, abs_of_nonneg h]
    · exact abs_of_nonneg h
  simp only [addDeletion]
  generalize (if b.text.pt = beg + length then -beg else beg) = sbeg at habs
  split
  · rename_i pos _ _
    split_ifs
    · exact ⟨[.point pos], _, rfl, habs, fun entry hentry => ⟨pos, List.mem_singleton.mp hentry⟩⟩
    · exact ⟨[], _, rfl, habs, fun _ hentry => absurd hentry List.not_mem_nil⟩
  · exact ⟨[], _, rfl, habs, fun _ hentry => absurd hentry List.not_mem_nil⟩

theorem revert_points {points : List (UndoEntry rep)} (h : ∀ entry ∈ points, ∃ pos, entry = .point pos) :
    revert m (points ++ list) cs = revert m list cs := by
  induction points with
  | nil => rfl
  | cons entry points ih =>
    rw [List.forall_mem_cons] at h
    obtain ⟨⟨pos, rfl⟩, h⟩ := h
    rw [List.cons_append, revert, ih h]

/-- What `undo_prelude` adds for a buffer that is not modified. -/
def timeEntry (b : UndoBuffer rep) : List (UndoEntry rep) :=
  if b.ticks.Modified then [] else [.unmodified (makeTime b.modtime).1 (makeTime b.modtime).2]

/-- `group` is what is recorded since the boundary that `base` starts with; it reverts `cs'` to `cs`. -/
structure Recorded (base : List (UndoEntry rep)) (cs' cs : List (Ichar rep)) (group : List (UndoEntry rep))
    (b : UndoBuffer rep) : Prop where
  undoList : b.undoList = some (group ++ base)
  revert : revert b.modtime group cs' = some cs
  lastUndoBuffer : group = [] ∨ b.lastUndoBuffer = true
  times : ∀ high low, .unmodified high low ∈ group → (high, low) = makeTime b.modtime

/-- Another record reverts to the same text. -/
def Steady (group : List (UndoEntry rep)) (b : UndoBuffer rep) : Prop :=
  group = [] ∨ b.ticks.Modified ∨ TimeKept b.modtime

theorem revert_timeEntry (h : Steady group b) :
    XEmacs.Text.revert b.modtime (b.timeEntry ++ group) cs = XEmacs.Text.revert b.modtime group cs := by
  unfold timeEntry
  split_ifs with hmod
  · rfl
  · rw [List.singleton_append, XEmacs.Text.revert]
    split_ifs with htime
    · rfl
    · rcases h with rfl | hmod' | hkept
      · rfl
      · exact absurd hmod' hmod
      · exact absurd hkept htime

theorem revert_timeEntry_lost (hmod : ¬ b.ticks.Modified) (htime : ¬ TimeKept b.modtime) :
    XEmacs.Text.revert b.modtime (b.timeEntry ++ group) cs = some cs := by
  rw [timeEntry, if_neg hmod, List.singleton_append, XEmacs.Text.revert]
  exact if_neg htime

theorem Recorded.record_undoList (h : Recorded base cs' cs group b) (hbase : AtBoundary base)
    (push : List (UndoEntry rep) → List (UndoEntry rep)) :
    (b.record push).undoList = some (push (b.timeEntry ++ group ++ base)) := by
  have hprelude : b.undoPrelude (group ++ base) = b.timeEntry ++ group ++ base := by
    have hlist : (if b.lastUndoBuffer then group ++ base else undoBoundary (group ++ base)) = group ++ base := by
      rcases h.lastUndoBuffer with rfl | hlast
      · rw [List.nil_append, undoBoundary_of_atBoundary hbase, ite_self]
      · rw [if_pos hlast]
    simp only [undoPrelude, hlist]
    by_cases hmod : b.ticks.Modified
    · rw [if_neg hmod, timeEntry, if_pos hmod, List.nil_append]
    · rw [if_pos (not_not.mp hmod), timeEntry, if_neg hmod, List.append_assoc, List.singleton_append]
  rw [record, h.undoList]
  exact congrArg (fun list => some (push list)) hprelude

theorem Recorded.times_prelude (h : Recorded base cs' cs group b) {high low : ℤ}
    (hmem : .unmodified high low ∈ b.timeEntry ++ group) : (high, low) = makeTime b.modtime := by
  rcases List.mem_append.mp hmem with hmem | hmem
  · unfold timeEntry at hmem
    split_ifs at hmem
    · contradiction
    · obtain ⟨rfl, rfl⟩ := UndoEntry.unmodified.inj (List.mem_singleton.mp hmem)
      rfl
  · exact h.times high low hmem

theorem record_frame (b : UndoBuffer rep) (push : List (UndoEntry rep) → List (UndoEntry rep)) :
    (b.record push).text = b.text ∧ (b.record push).ticks = b.ticks ∧ (b.record push).modtime = b.modtime := by
  unfold record; split <;> exact ⟨rfl, rfl, rfl⟩

theorem record_lastUndoBuffer (h : b.undoList = some list) (push : List (UndoEntry rep) → List (UndoEntry rep)) :
    (b.record push).lastUndoBuffer = true := by
  rw [record, h]

theorem Recorded.recordInsert {cs₀ : List (Ichar rep)} (h : Recorded base cs' cs₀ group b)
    (str : List (Ichar rep)) (hbase : AtBoundary base) (hrev : XEmacs.Text.revert b.modtime (b.timeEntry ++ group) cs' = some cs)
    (h1 : 1 ≤ beg) (hbeg : beg ≤ 1 + cs'.length) :
    ∃ group', Recorded base (spliceIn cs' beg str) cs group' (b.recordInsert beg str.length) := by
  have hframe := (record_frame b (addInsertion beg str.length)).2.2
  refine ⟨addInsertion beg str.length (b.timeEntry ++ group), ?_, ?_,
    .inr (record_lastUndoBuffer h.undoList _), fun high low hmem => ?_⟩
  · rw [UndoBuffer.recordInsert, h.record_undoList hbase, addInsertion_append hbase]
  · rw [UndoBuffer.recordInsert, hframe]
    exact revert_addInsertion h1 hbeg hrev
  · rw [UndoBuffer.recordInsert, hframe]
    exact h.times_prelude (mem_of_mem_addInsertion hmem)

theorem Recorded.recordDelete (h : Recorded base b.text.chars cs group b) (hbase : AtBoundary base)
    (hs : Steady group b) (h1 : 1 ≤ start) (hle : start ≤ stop) (hstop : stop ≤ b.text.z) :
    ∃ group', Recorded base (cutOut b.text.chars start stop) cs group' (b.recordDelete start (stop - start)) := by
  have hframe := (record_frame b (b.addDeletion start (stop - start))).2.2
  obtain ⟨points, sbeg, heq, habs, hpoints⟩ :=
    addDeletion_eq b start (stop - start) (b.timeEntry ++ group ++ base) (by omega)
  have hlen := length_cutOut hle h1 hstop
  have hsub : b.text.substring start (start + (stop - start)) =
      (b.text.chars.drop (start - 1).toNat).take (stop - start).toNat := by
    rw [EditedText.substring, add_sub_cancel_left]
  unfold EditedText.z at hstop
  refine ⟨.deleted (b.text.substring start (start + (stop - start))) sbeg ::
      (points ++ (b.timeEntry ++ group)), ?_, ?_, .inr (record_lastUndoBuffer h.undoList _), fun high low hmem => ?_⟩
  · rw [UndoBuffer.recordDelete, h.record_undoList hbase, heq, List.cons_append, List.append_assoc points]
  · rw [UndoBuffer.recordDelete, hframe, XEmacs.Text.revert, habs, if_pos (by omega), revert_points hpoints, hsub,
      spliceIn_cutOut h1 hle hstop, revert_timeEntry hs, h.revert]
  · rw [UndoBuffer.recordDelete, hframe]
    refine h.times_prelude ?_
    rcases List.mem_cons.mp hmem with hmem | hmem
    · contradiction
    · rcases List.mem_append.mp hmem with hmem | hmem
      · obtain ⟨pos, hpos⟩ := hpoints _ hmem
        contradiction
      · exact hmem

/-! ### Edits -/

def Widened (t : EditedText rep) : Prop := t.begv = 1 ∧ t.zv = t.z

theorem clipPos_widened {t : EditedText rep} (h : Widened t) (pos : ℤ) :
    1 ≤ t.clipPos pos ∧ t.clipPos pos ≤ 1 + t.chars.length := by
  obtain ⟨hbegv, hzv⟩ := h
  simp only [EditedText.clipPos, hbegv, hzv, EditedText.z]
  split_ifs <;> omega

theorem Widened.setPoint {t : EditedText rep} (h : Widened t) (pos : ℤ) : Widened (t.setPoint pos) := by
  unfold EditedText.setPoint
  split_ifs <;> exact h

theorem Widened.insert {t : EditedText rep} (h : Widened t) (pos : ℤ) (str : List (Ichar rep))
    (beforeMarkers : Bool) : Widened (t.insert pos str beforeMarkers) := by
  have hat : ∀ p, Widened (t.insertAt p str beforeMarkers) := by
    intro p
    refine ⟨h.1, ?_⟩
    have hlen : ((spliceIn t.chars p str).length : ℤ) = t.chars.length + str.length := by
      rw [length_spliceIn]; push_cast; rfl
    show t.zv + str.length = 1 + ((spliceIn t.chars p str).length : ℤ)
    rw [hlen, h.2, EditedText.z]
    omega
  simp only [EditedText.insert]
  split_ifs
  · exact (hat _).setPoint _
  · exact hat _

theorem Widened.deleteAt {t : EditedText rep} (h : Widened t) (h1 : 1 ≤ start) (hle : start ≤ stop)
    (hstop : stop ≤ t.z) : Widened (t.deleteAt start stop) := by
  refine ⟨h.1, ?_⟩
  have hlen := length_cutOut hle h1 hstop
  show t.zv - (stop - start) = 1 + ((cutOut t.chars start stop).length : ℤ)
  rw [hlen, h.2, EditedText.z]
  omega

theorem modified_change (t : Ticks) : t.change.Modified := by
  have hle := t.saveModiff_le
  simp only [Ticks.Modified, Ticks.change, bufTickArithcompare]
  split_ifs <;> omega

/-- Undoing what is recorded since `base` leads back to `cs`. -/
structure Tracks (base : List (UndoEntry rep)) (cs : List (Ichar rep)) (b : UndoBuffer rep) : Prop where
  recorded : ∃ group, Recorded base b.text.chars cs group b ∧ Steady group b
  widened : Widened b.text

theorem Recorded.changeText {text : EditedText rep} (h : Recorded base text.chars cs group b)
    (hwide : Widened text) : Tracks base cs (b.changeText text) :=
  ⟨⟨group, ⟨h.undoList, h.revert, h.lastUndoBuffer, h.times⟩, .inr (.inl (modified_change _))⟩, hwide⟩

theorem Tracks.setText {text : EditedText rep} (h : Tracks base cs b) (hchars : text.chars = b.text.chars)
    (hwide : Widened text) : Tracks base cs { b with text := text } := by
  obtain ⟨group, hr, hs⟩ := h.recorded
  exact ⟨⟨group, ⟨hr.undoList, hchars ▸ hr.revert, hr.lastUndoBuffer, hr.times⟩, hs⟩, hwide⟩

theorem Tracks.setPt (h : Tracks base cs b) (pos : ℤ) : Tracks base cs (b.setPt pos) :=
  h.setText (EditedText.setPoint_chars _ _) (h.widened.setPoint pos)

theorem Tracks.bufferInsertString1 (h : Tracks base cs b) (hbase : AtBoundary base) (pos : ℤ)
    (str : List (Ichar rep)) (beforeMarkers : Bool) :
    Tracks base cs (b.bufferInsertString1 pos str beforeMarkers) := by
  obtain ⟨group, hr, hs⟩ := h.recorded
  obtain ⟨h1, hp⟩ := clipPos_widened h.widened (if pos = -1 then b.text.pt else pos)
  obtain ⟨group', hr'⟩ := hr.recordInsert str hbase ((revert_timeEntry hs).trans hr.revert) h1 hp
  rw [← EditedText.insert_chars b.text pos str beforeMarkers] at hr'
  exact hr'.changeText (h.widened.insert pos str beforeMarkers)

theorem Tracks.bufferDeleteRange (h : Tracks base cs b) (hbase : AtBoundary base) (start stop : ℤ) :
    Tracks base cs (b.bufferDeleteRange start stop) := by
  obtain ⟨group, hr, hs⟩ := h.recorded
  obtain ⟨hbegv, hzv⟩ := h.widened
  simp only [UndoBuffer.bufferDeleteRange, hbegv, hzv]
  generalize hstart : (if start < 1 then 1 else start) = start'
  generalize hstop : (if stop > b.text.z then b.text.z else stop) = stop'
  have h1 : 1 ≤ start' := by rw [← hstart]; split_ifs <;> omega
  have hz : stop' ≤ b.text.z := by rw [← hstop]; split_ifs <;> omega
  split_ifs with hnone
  · exact h
  · obtain ⟨group', hr'⟩ := hr.recordDelete hbase hs h1 (by omega) hz
    exact hr'.changeText (h.widened.deleteAt h1 (by omega) hz)

/-- A character is overwritten while the buffer is unmodified with a time that does not come back. -/
def Loses (b : UndoBuffer rep) : EditEvent rep → Prop
  | .op (.replace pos ch) =>
    ch.bytes.length = b.text.charLenAt pos ∧ ¬ b.ticks.Modified ∧ ¬ TimeKept b.modtime
  | _ => False

instance (b : UndoBuffer rep) : (event : EditEvent rep) → Decidable (b.Loses event)
  | .op (.replace ..) => inferInstanceAs (Decidable (_ ∧ _))
  | .op (.insert ..) => isFalse id
  | .op (.delete ..) => isFalse id
  | .op (.moveGap ..) => isFalse id
  | .op (.setPoint ..) => isFalse id
  | .op (.narrow ..) => isFalse id
  | .op (.makeMarker ..) => isFalse id
  | .op (.setMarker ..) => isFalse id
  | .op (.unchainMarker ..) => isFalse id
  | .lastPoint _ => isFalse id

theorem overwrite_chars {t : EditedText rep} (h1 : 1 ≤ pos) (hpos : pos < t.z) (ch : Ichar rep) :
    (t.overwrite pos ch).chars = spliceIn (cutOut t.chars pos (pos + 1)) pos [ch] := by
  unfold EditedText.z at hpos
  exact (EditedText.spliceIn_cutOut_char ch h1 (by omega)).symm

theorem Widened.overwrite {t : EditedText rep} (h : Widened t) (pos : ℤ) (ch : Ichar rep) :
    Widened (t.overwrite pos ch) := by
  refine ⟨h.1, h.2.trans ?_⟩
  simp only [EditedText.z, EditedText.overwrite, List.length_set]

theorem length_cutOut_char {t : EditedText rep} (h1 : 1 ≤ pos) (hpos : pos < t.z) :
    ((cutOut t.chars pos (pos + 1)).length : ℤ) = t.chars.length - 1 := by
  unfold EditedText.z at hpos
  rw [length_cutOut (by omega) h1 (by omega)]
  omega

theorem Tracks.overwrite (h : Tracks base cs b) (hbase : AtBoundary base) (h1 : 1 ≤ pos) (hpos : pos < b.text.z)
    (ch : Ichar rep) (hok : b.ticks.Modified ∨ TimeKept b.modtime) :
    Tracks base cs ((b.recordChange pos 1).changeText (b.text.overwrite pos ch)) := by
  obtain ⟨group, hr, hs⟩ := h.recorded
  obtain ⟨group', hr'⟩ := hr.recordDelete hbase hs h1 (by omega : pos ≤ pos + 1) (by omega)
  rw [add_sub_cancel_left] at hr'
  obtain ⟨-, hticks, hmodtime⟩ := record_frame b (b.addDeletion pos 1)
  have hs' : Steady group' (b.recordDelete pos 1) := by
    unfold Steady UndoBuffer.recordDelete
    rw [hticks, hmodtime]
    exact .inr hok
  have hlen := length_cutOut_char h1 hpos
  unfold EditedText.z at hpos
  obtain ⟨group'', hr''⟩ := hr'.recordInsert [ch] hbase ((revert_timeEntry hs').trans hr'.revert) h1
    (by omega)
  rw [← overwrite_chars h1 (by unfold EditedText.z; omega) ch] at hr''
  exact hr''.changeText (h.widened.overwrite pos ch)

theorem Tracks.overwrite_loses (h : Tracks base cs b) (hbase : AtBoundary base) (h1 : 1 ≤ pos)
    (hpos : pos < b.text.z) (ch : Ichar rep) (hmod : ¬ b.ticks.Modified) (htime : ¬ TimeKept b.modtime) :
    Tracks base (cutOut b.text.chars pos (pos + 1))
      ((b.recordChange pos 1).changeText (b.text.overwrite pos ch)) := by
  obtain ⟨group, hr, hs⟩ := h.recorded
  obtain ⟨group', hr'⟩ := hr.recordDelete hbase hs h1 (by omega : pos ≤ pos + 1) (by omega)
  rw [add_sub_cancel_left] at hr'
  obtain ⟨-, hticks, hmodtime⟩ := record_frame b (b.addDeletion pos 1)
  have hlost : XEmacs.Text.revert (b.recordDelete pos 1).modtime ((b.recordDelete pos 1).timeEntry ++ group')
      (cutOut b.text.chars pos (pos + 1)) = some (cutOut b.text.chars pos (pos + 1)) := by
    refine revert_timeEntry_lost ?_ ?_
    · rw [UndoBuffer.recordDelete, hticks]
      exact hmod
    · rw [UndoBuffer.recordDelete, hmodtime]
      exact htime
  have hlen := length_cutOut_char h1 hpos
  unfold EditedText.z at hpos
  obtain ⟨group'', hr''⟩ := hr'.recordInsert [ch] hbase hlost h1 (by omega)
  rw [← overwrite_chars h1 (by unfold EditedText.z; omega) ch] at hr''
  exact hr''.changeText (h.widened.overwrite pos ch)

def KeepsRegion : EditEvent rep → Prop
  | .op (.narrow ..) => False
  | _ => True

theorem Tracks.bufferReplaceChar (h : Tracks base cs b) (hbase : AtBoundary base) (h1 : 1 ≤ pos)
    (hpos : pos < b.text.z) {ch : Ichar rep} (hok : ¬ b.Loses (.op (.replace pos ch))) :
    Tracks base cs (b.bufferReplaceChar pos ch) := by
  by_cases hlen : ch.bytes.length = b.text.charLenAt pos
  · rw [UndoBuffer.bufferReplaceChar, if_pos hlen]
    refine h.overwrite hbase h1 hpos ch ?_
    by_contra hc
    exact hok ⟨hlen, fun hm => hc (.inl hm), fun ht => hc (.inr ht)⟩
  · have hd := h.bufferDeleteRange hbase pos (pos + 1)
    rw [UndoBuffer.bufferReplaceChar, if_neg hlen]
    dsimp only
    generalize (if pos ≥ (b.bufferDeleteRange pos (pos + 1)).text.zv then
      (b.bufferDeleteRange pos (pos + 1)).text.zv - 1 else pos) = p
    by_cases hp : p < (b.bufferDeleteRange pos (pos + 1)).text.begv
    · rw [if_pos hp]
      exact hd
    · rw [if_neg hp]
      exact hd.bufferInsertString1 hbase _ _ _

def Unrecorded : BufferOp rep → Prop
  | .insert .. | .delete .. | .replace .. => False
  | _ => True

theorem step_unrecorded {op : BufferOp rep} (h : Unrecorded op) (b : UndoBuffer rep) :
    b.step (.op op) = (b.text.stepAsCoded op).map fun text => { b with text := text } := by
  cases op <;> first | rfl | exact h.elim

theorem stepAsCoded_unrecorded {t t' : EditedText rep} {op : BufferOp rep} (hop : Unrecorded op)
    (hregion : KeepsRegion (.op op)) (h : t.stepAsCoded op = some t') (hwide : Widened t) :
    t'.chars = t.chars ∧ Widened t' := by
  cases op with
  | insert | delete | replace => exact hop.elim
  | narrow => exact hregion.elim
  | unchainMarker addr =>
    obtain rfl := Option.some.inj h
    exact ⟨rfl, hwide⟩
  | setPoint pos =>
    simp only [EditedText.stepAsCoded, EditedText.stepWith] at h
    split_ifs at h
    obtain rfl := Option.some.inj h
    exact ⟨EditedText.setPoint_chars _ _, hwide.setPoint pos⟩
  | _ =>
    simp only [EditedText.stepAsCoded, EditedText.stepWith] at h
    split_ifs at h
    obtain rfl := Option.some.inj h
    exact ⟨rfl, hwide⟩

theorem Tracks.step (h : Tracks base cs b) (hbase : AtBoundary base) {event : EditEvent rep}
    (hevent : KeepsRegion event) (hok : ¬ b.Loses event) (hs : b.step event = some c) : Tracks base cs c := by
  have hother : ∀ op, Unrecorded op → KeepsRegion (.op op) → b.step (.op op) = some c → Tracks base cs c := by
    intro op hop hregion hs
    rw [step_unrecorded hop] at hs
    obtain ⟨text, htext, rfl⟩ := Option.map_eq_some_iff.mp hs
    obtain ⟨hchars, hwide⟩ := stepAsCoded_unrecorded hop hregion htext h.widened
    exact h.setText hchars hwide
  cases event with
  | lastPoint pos =>
    obtain rfl := Option.some.inj hs
    obtain ⟨group, hr, hsteady⟩ := h.recorded
    exact ⟨⟨group, ⟨hr.undoList, hr.revert, hr.lastUndoBuffer, hr.times⟩, hsteady⟩, h.widened⟩
  | op op =>
    cases op with
    | insert pos str beforeMarkers =>
      obtain rfl := Option.some.inj hs
      exact h.bufferInsertString1 hbase pos str beforeMarkers
    | delete start stop =>
      obtain rfl := Option.some.inj hs
      exact h.bufferDeleteRange hbase start stop
    | replace pos ch =>
      rw [UndoBuffer.step] at hs
      split_ifs at hs with hpos
      obtain rfl := Option.some.inj hs
      rw [h.widened.1, h.widened.2] at hpos
      exact h.bufferReplaceChar hbase hpos.1 hpos.2 hok
    | _ =>
      refine hother _ ?_ hevent hs
      trivial

/-! ### Undoing -/

theorem bufferDeleteRange_chars (hwide : Widened b.text) (h1 : 1 ≤ start) (hle : start ≤ stop)
    (hstop : stop ≤ 1 + b.text.chars.length) :
    (b.bufferDeleteRange start stop).text.chars = cutOut b.text.chars start stop ∧
      Widened (b.bufferDeleteRange start stop).text ∧ (b.bufferDeleteRange start stop).modtime = b.modtime := by
  have hstart' : (if start < b.text.begv then b.text.begv else start) = start := if_neg (by rw [hwide.1]; omega)
  have hstop' : (if stop > b.text.zv then b.text.zv else stop) = stop :=
    if_neg (by rw [hwide.2, EditedText.z]; omega)
  simp only [UndoBuffer.bufferDeleteRange, hstart', hstop']
  split_ifs with hnone
  · rw [le_antisymm hle (by omega : stop ≤ start)]
    exact ⟨cutOut_self.symm, hwide, rfl⟩
  · exact ⟨rfl, hwide.deleteAt h1 hle hstop, (record_frame b _).2.2⟩

theorem insert_at_point_chars (hwide : Widened b.text) (h1 : 1 ≤ pos) (hpos : pos ≤ 1 + b.text.chars.length)
    (str : List (Ichar rep)) :
    ((b.setPt pos).bufferInsertString1 (-1) str false).text.chars = spliceIn b.text.chars pos str ∧
      Widened ((b.setPt pos).bufferInsertString1 (-1) str false).text ∧
      ((b.setPt pos).bufferInsertString1 (-1) str false).modtime = b.modtime := by
  refine ⟨?_, (hwide.setPoint pos).insert _ _ _, (record_frame _ _).2.2⟩
  show ((b.text.setPoint pos).insert (-1) str false).chars = _
  have hclip : (b.text.setPoint pos).clipPos (b.text.setPoint pos).pt = pos := by
    obtain ⟨hbegv, hzv⟩ := hwide.setPoint pos
    rw [EditedText.setPoint_pt]
    refine EditedText.clipPos_of_mem (by omega) ?_
    rw [hzv, EditedText.z, EditedText.setPoint_chars]
    exact hpos
  rw [EditedText.insert_chars, if_pos rfl, hclip, EditedText.setPoint_chars]

theorem fdeleteRegion_eq (hwide : Widened b.text) (h1 : 1 ≤ start) (hle : start ≤ stop)
    (hstop : stop ≤ 1 + b.text.chars.length) : b.fdeleteRegion start stop = some (b.bufferDeleteRange start stop) := by
  obtain ⟨hbegv, hzv⟩ := hwide
  rw [fdeleteRegion, hbegv, hzv, EditedText.z, if_pos (by omega), min_eq_left hle, max_eq_right hle]

theorem Tracks.setUnmodified (h : Tracks base cs b) (htime : TimeKept b.modtime) :
    Tracks base cs { b with ticks := b.ticks.setUnmodified } := by
  obtain ⟨group, hr, -⟩ := h.recorded
  exact ⟨⟨group, ⟨hr.undoList, hr.revert, hr.lastUndoBuffer, hr.times⟩, .inr (.inr htime)⟩, h.widened⟩

theorem undoGroup_eq (hbase : AtBoundary base) (hwide : Widened b.text)
    (hrev : XEmacs.Text.revert b.modtime group b.text.chars = some cs)
    (htimes : ∀ high low, .unmodified high low ∈ group → (high, low) = makeTime b.modtime) :
    ∃ c rest, undoGroup (group ++ base) b = some (c, rest) ∧ c.text.chars = cs ∧
      ∀ base' cs', AtBoundary base' → Tracks base' cs' b → Tracks base' cs' c := by
  induction group generalizing b with
  | nil =>
    obtain rfl := Option.some.inj hrev
    rcases hbase.cases with rfl | ⟨list, rfl⟩
    · exact ⟨b, [], rfl, rfl, fun _ _ _ h => h⟩
    · exact ⟨b, list, rfl, rfl, fun _ _ _ h => h⟩
  | cons entry group ih =>
    have htimes' : ∀ high low, .unmodified high low ∈ group → (high, low) = makeTime b.modtime :=
      fun high low hmem => htimes high low (List.mem_cons_of_mem _ hmem)
    cases entry with
    | boundary =>
      obtain rfl := Option.some.inj hrev
      exact ⟨b, group ++ base, rfl, rfl, fun _ _ _ h => h⟩
    | point pos =>
      obtain ⟨c, rest, hc, hchars, htracks⟩ := ih (b := b.setPt (b.text.clipPos pos)) (hwide.setPoint _)
        ((EditedText.setPoint_chars b.text _).symm ▸ hrev) htimes'
      exact ⟨c, rest, hc, hchars, fun base' cs' hbase' h => htracks base' cs' hbase' (h.setPt _)⟩
    | unmodified high low =>
      have hmake := htimes high low List.mem_cons_self
      obtain ⟨modTime, htime⟩ := lispToTime_makeTime b.modtime
      rw [← hmake] at htime
      rw [List.cons_append, undoGroup, htime]
      rw [XEmacs.Text.revert, htime] at hrev
      by_cases heq : modTime = b.modtime
      · rw [if_pos (congrArg some heq)] at hrev
        have hkept : TimeKept b.modtime := by
          rw [TimeKept, ← hmake, ← heq]
          exact htime
        obtain ⟨c, rest, hc, hchars, htracks⟩ :=
          ih (b := { b with ticks := b.ticks.setUnmodified }) hwide hrev htimes'
        refine ⟨c, rest, ?_, hchars, fun base' cs' hbase' h => htracks base' cs' hbase' (h.setUnmodified hkept)⟩
        simp only [heq, ne_eq, not_true, if_false]
        exact hc
      · rw [if_neg fun h => heq (Option.some.inj h)] at hrev
        obtain rfl := Option.some.inj hrev
        exact ⟨b, group ++ base, if_pos heq, rfl, fun _ _ _ h => h⟩
    | inserted start stop =>
      rw [XEmacs.Text.revert] at hrev
      split_ifs at hrev with hrange
      obtain ⟨h1, hle, hstop⟩ := hrange
      have hvisible : ¬ (start < b.text.begv ∨ stop > b.text.zv) := by
        rw [hwide.1, hwide.2, EditedText.z]
        omega
      have hwide' : Widened (b.setPt (b.text.clipPos start)).text := hwide.setPoint _
      have hchars' : (b.setPt (b.text.clipPos start)).text.chars = b.text.chars := EditedText.setPoint_chars _ _
      obtain ⟨hdel, hwide'', hmodtime⟩ := bufferDeleteRange_chars hwide' h1 hle (hchars'.symm ▸ hstop)
      rw [hchars'] at hdel
      obtain ⟨c, rest, hc, hchars, htracks⟩ := ih hwide'' (by rw [hdel, hmodtime]; exact hrev)
        (by rw [hmodtime]; exact htimes')
      refine ⟨c, rest, ?_, hchars, fun base' cs' hbase' h =>
        htracks base' cs' hbase' ((h.setPt _).bufferDeleteRange hbase' start stop)⟩
      rw [List.cons_append, undoGroup, if_neg hvisible, fdeleteRegion_eq hwide' h1 hle (hchars'.symm ▸ hstop),
        Option.bind_some, hc]
    | deleted str pos =>
      rw [XEmacs.Text.revert] at hrev
      split_ifs at hrev with hrange
      obtain ⟨h1, hpos⟩ := hrange
      obtain ⟨hins, hwide', hmodtime⟩ := insert_at_point_chars hwide h1 hpos str
      rw [List.cons_append, undoGroup]
      by_cases hneg : pos < 0
      · have habs : |pos| = -pos := abs_of_neg hneg
        rw [habs] at h1 hpos hins hwide' hmodtime hrev
        have hvisible : ¬ (-pos < b.text.begv ∨ -pos > b.text.zv) := by
          rw [hwide.1, hwide.2, EditedText.z]
          omega
        obtain ⟨c, rest, hc, hchars, htracks⟩ := ih hwide' (by rw [hins, hmodtime]; exact hrev)
          (by rw [hmodtime]; exact htimes')
        rw [if_pos hneg, if_neg hvisible]
        exact ⟨c, rest, hc, hchars, fun base' cs' hbase' h =>
          htracks base' cs' hbase' ((h.setPt _).bufferInsertString1 hbase' _ _ _)⟩
      · have habs : |pos| = pos := abs_of_nonneg (by omega)
        rw [habs] at h1 hpos hins hwide' hmodtime hrev
        have hvisible : ¬ (pos < b.text.begv ∨ pos > b.text.zv) := by
          rw [hwide.1, hwide.2, EditedText.z]
          omega
        have hchars' : ((((b.setPt pos).bufferInsertString1 (-1) str false).setPt pos).text).chars =
            spliceIn b.text.chars pos str := (EditedText.setPoint_chars _ _).trans hins
        obtain ⟨c, rest, hc, hchars, htracks⟩ :=
          ih (b := ((b.setPt pos).bufferInsertString1 (-1) str false).setPt pos) (hwide'.setPoint pos)
            (by rw [hchars']; exact hmodtime ▸ hrev) (fun high low hmem => (htimes' high low hmem).trans (hmodtime ▸ rfl))
        rw [if_neg hneg, if_neg hvisible]
        exact ⟨c, rest, hc, hchars, fun base' cs' hbase' h =>
          htracks base' cs' hbase' (((h.setPt _).bufferInsertString1 hbase' _ _ _).setPt _)⟩

/-! ### Runs -/

def Keeps (b : UndoBuffer rep) (event : EditEvent rep) : Prop := ¬ b.Loses event

instance (b : UndoBuffer rep) (event : EditEvent rep) : Decidable (b.Keeps event) := inferInstanceAs (Decidable (¬ _))

/-- `primitive-undo` of what is recorded since the last boundary leads to the text `start`, also
after another boundary, and then back. -/
def Restores (b : UndoBuffer rep) (start : List (Ichar rep)) : Prop :=
  ∃ list, b.undoList = some list ∧
    (∃ b₁ rest, primitiveUndo 1 list b = some (b₁, rest) ∧ b₁.text.chars = start) ∧
    ∃ b₁ rest pushed, primitiveUndo 1 list b.fundoBoundary = some (b₁, rest) ∧ b₁.text.chars = start ∧
      b₁.undoList = some (pushed ++ undoBoundary list) ∧
      ∃ b₂ rest, primitiveUndo 1 pushed b₁ = some (b₂, rest) ∧ b₂.text.chars = b.text.chars

theorem primitiveUndo_one (list : List (UndoEntry rep)) (b : UndoBuffer rep) :
    primitiveUndo 1 list b = undoGroup list b := by
  rw [primitiveUndo]
  cases undoGroup list b <;> rfl

theorem Tracks.restores (h : Tracks base cs b) (hbase : AtBoundary base) : b.Restores cs := by
  obtain ⟨group, hr, hs⟩ := h.recorded
  have hbase' := atBoundary_undoBoundary (group ++ base)
  obtain ⟨c, rest, hc, hchars, -⟩ := undoGroup_eq hbase h.widened hr.revert hr.times
  obtain ⟨b₁, rest₁, hb₁, hchars₁, htracks⟩ :=
    undoGroup_eq (b := b.fundoBoundary) hbase h.widened hr.revert hr.times
  have hstart : Tracks (undoBoundary (group ++ base)) b.text.chars b.fundoBoundary := by
    refine ⟨⟨[], ⟨?_, rfl, .inl rfl, fun _ _ hmem => absurd hmem List.not_mem_nil⟩, .inl rfl⟩, h.widened⟩
    rw [fundoBoundary, hr.undoList]
    rfl
  obtain ⟨⟨pushed, hr₁, hs₁⟩, hwide₁⟩ := htracks _ _ hbase' hstart
  obtain ⟨b₂, rest₂, hb₂, hchars₂, -⟩ :=
    undoGroup_eq (show AtBoundary [] from fun _ hentry => by contradiction) hwide₁ hr₁.revert hr₁.times
  rw [List.append_nil] at hb₂
  refine ⟨group ++ base, hr.undoList, ⟨c, rest, ?_, hchars⟩, b₁, rest₁, pushed, ?_, hchars₁, hr₁.undoList,
    b₂, rest₂, ?_, hchars₂⟩
  · rw [primitiveUndo_one, hc]
  · rw [primitiveUndo_one, hb₁]
  · rw [primitiveUndo_one, hb₂]

theorem Restores.unique {start start' : List (Ichar rep)} (h : b.Restores start) (h' : b.Restores start') :
    start = start' := by
  obtain ⟨list, hlist, ⟨b₁, rest, hb₁, hchars⟩, -⟩ := h
  obtain ⟨list', hlist', ⟨b₁', rest', hb₁', hchars'⟩, -⟩ := h'
  obtain rfl := Option.some.inj (hlist.symm.trans hlist')
  obtain ⟨rfl, -⟩ := Prod.mk.inj (Option.some.inj (hb₁.symm.trans hb₁'))
  exact hchars.symm.trans hchars'

theorem bufferDeleteRange_ticks (b : UndoBuffer rep) (start stop : ℤ) :
    (b.bufferDeleteRange start stop).ticks = b.ticks ∨ (b.bufferDeleteRange start stop).ticks.Modified := by
  simp only [UndoBuffer.bufferDeleteRange]
  generalize (if start < b.text.begv then b.text.begv else start) = start
  generalize (if stop > b.text.zv then b.text.zv else stop) = stop
  split_ifs
  · exact .inl rfl
  · exact .inr (modified_change _)

theorem bufferReplaceChar_ticks (b : UndoBuffer rep) (pos : ℤ) (ch : Ichar rep) :
    (b.bufferReplaceChar pos ch).ticks = b.ticks ∨ (b.bufferReplaceChar pos ch).ticks.Modified := by
  by_cases hlen : ch.bytes.length = b.text.charLenAt pos
  · rw [UndoBuffer.bufferReplaceChar, if_pos hlen]
    exact .inr (modified_change _)
  · rw [UndoBuffer.bufferReplaceChar, if_neg hlen]
    dsimp only
    by_cases hp : (if pos ≥ (b.bufferDeleteRange pos (pos + 1)).text.zv then
        (b.bufferDeleteRange pos (pos + 1)).text.zv - 1 else pos) <
        (b.bufferDeleteRange pos (pos + 1)).text.begv
    · rw [if_pos hp]
      exact bufferDeleteRange_ticks b pos (pos + 1)
    · rw [if_neg hp]
      exact .inr (modified_change _)

theorem step_ticks {event : EditEvent rep} (hs : b.step event = some c) :
    c.ticks = b.ticks ∨ c.ticks.Modified := by
  have hother : ∀ op, Unrecorded op → b.step (.op op) = some c → c.ticks = b.ticks := by
    intro op hop hs
    rw [step_unrecorded hop] at hs
    obtain ⟨text, -, rfl⟩ := Option.map_eq_some_iff.mp hs
    rfl
  cases event with
  | lastPoint pos =>
    obtain rfl := Option.some.inj hs
    exact .inl rfl
  | op op =>
    cases op with
    | insert pos str beforeMarkers =>
      obtain rfl := Option.some.inj hs
      exact .inr (modified_change _)
    | delete start stop =>
      obtain rfl := Option.some.inj hs
      exact bufferDeleteRange_ticks b start stop
    | replace pos ch =>
      rw [UndoBuffer.step] at hs
      split_ifs at hs
      obtain rfl := Option.some.inj hs
      exact bufferReplaceChar_ticks b pos ch
    | _ =>
      refine .inl (hother _ ?_ hs)
      trivial

theorem Tracks.step_loses (h : Tracks base cs b) (hbase : AtBoundary base) {event : EditEvent rep}
    (hloses : b.Loses event) (hs : b.step event = some c) :
    ¬ b.ticks.Modified ∧ c.ticks.Modified ∧ ∃ cs', Tracks base cs' c ∧ cs' ≠ cs := by
  match event with
  | .op (.replace pos ch) =>
    obtain ⟨hlen, hmod, htime⟩ := hloses
    rw [UndoBuffer.step] at hs
    split_ifs at hs with hpos
    obtain rfl := Option.some.inj hs
    rw [h.widened.1, h.widened.2] at hpos
    have hcs : cs = b.text.chars := by
      obtain ⟨group, hr, hgroup | hsteady | hsteady⟩ := h.recorded
      · have hrev := hr.revert
        rw [hgroup] at hrev
        exact (Option.some.inj hrev).symm
      · exact absurd hsteady hmod
      · exact absurd hsteady htime
    rw [UndoBuffer.bufferReplaceChar, if_pos hlen]
    refine ⟨hmod, modified_change _, _, h.overwrite_loses hbase hpos.1 hpos.2 ch hmod htime, fun heq => ?_⟩
    have hcut := length_cutOut_char hpos.1 hpos.2
    rw [heq, hcs] at hcut
    omega

/-- What holds along a run that starts at a boundary. -/
structure Traced (b₀ : UndoBuffer rep) (base : List (UndoEntry rep)) (events : List (EditEvent rep))
    (b : UndoBuffer rep) (cs : List (Ichar rep)) : Prop where
  tracks : Tracks base cs b
  keeps : cs = b₀.text.chars ↔ Run UndoBuffer.step Keeps b₀ events b
  modified : ¬ b.ticks.Modified → cs = b₀.text.chars

theorem run_traced {b₀ : UndoBuffer rep} {events : List (EditEvent rep)} (hwide : Widened b₀.text)
    (hlist : b₀.undoList = some base) (hbase : AtBoundary base) (hevents : ∀ event ∈ events, KeepsRegion event)
    (hrun : Run UndoBuffer.step anyStep b₀ events b) : ∃ cs, Traced b₀ base events b cs := by
  induction hrun with
  | nil =>
    have hstart : Tracks base b₀.text.chars b₀ :=
      ⟨⟨[], ⟨hlist, rfl, .inl rfl, fun _ _ hmem => absurd hmem List.not_mem_nil⟩, .inl rfl⟩, hwide⟩
    exact ⟨_, hstart, ⟨fun _ => .nil, fun _ => rfl⟩, fun _ => rfl⟩
  | @snoc events b c event hrun _ hs ih =>
    rw [List.forall_mem_append] at hevents
    obtain ⟨cs, h⟩ := ih hevents.1
    have hevent := hevents.2 event (List.mem_singleton.mpr rfl)
    by_cases hloses : b.Loses event
    · obtain ⟨hmod, hmod', cs', htracks, hne⟩ := h.tracks.step_loses hbase hloses hs
      refine ⟨cs', htracks, ⟨fun heq => ?_, fun hkeeps => ?_⟩, fun hc => absurd hmod' hc⟩
      · exact absurd (heq.trans (h.modified hmod).symm) hne
      · obtain ⟨t, ht, hok, -⟩ := hkeeps.last
        obtain rfl := hrun.end_eq ht
        exact absurd hloses hok
    · refine ⟨cs, h.tracks.step hbase hevent hloses hs, ?_, fun hmod => ?_⟩
      · refine h.keeps.trans ⟨fun hkeeps => hkeeps.snoc hloses hs, fun hkeeps => ?_⟩
        obtain ⟨t, ht, -, -⟩ := hkeeps.last
        exact hrun.end_eq ht ▸ ht
      · rcases step_ticks hs with hticks | hmod'
        · exact h.modified (hticks ▸ hmod)
        · exact absurd hmod' hmod

/-- From a boundary on, undoing restores the text there, and undoing that the text before, if and
only if no event of the run loses a character. -/
theorem run_restores {b₀ : UndoBuffer rep} {events : List (EditEvent rep)} (hwide : Widened b₀.text)
    (hlist : b₀.undoList = some base) (hbase : AtBoundary base) (hevents : ∀ event ∈ events, KeepsRegion event)
    (hrun : Run UndoBuffer.step anyStep b₀ events b) :
    b.Restores b₀.text.chars ↔ Run UndoBuffer.step Keeps b₀ events b := by
  obtain ⟨cs, h⟩ := run_traced hwide hlist hbase hevents hrun
  have hrestores := h.tracks.restores hbase
  refine ⟨fun hstart => h.keeps.mp (hrestores.unique hstart), fun hkeeps => ?_⟩
  rw [← h.keeps.mpr hkeeps]
  exact hrestores

theorem asciiChar_size {c : UInt8} (h : repBytesByFirstByte c = 1) :
    ([] : List UInt8).length + 1 = repBytesByFirstByte c := h.symm

theorem twoByteChar_size : [(0xe9 : UInt8)].length + 1 = repBytesByFirstByte 0x81 := by decide

def twoByteChar : Ichar repBytesByFirstByte := ⟨0x81, [0xe9], twoByteChar_size⟩

def asciiChar (c : UInt8) : Ichar repBytesByFirstByte :=
  if h : repBytesByFirstByte c = 1 then ⟨c, [], asciiChar_size h⟩ else twoByteChar

/-- A buffer visiting a file with the text "ab" and the modification time `modtime`. -/
def visiting (modtime : ℤ) : UndoBuffer repBytesByFirstByte where
  text := ⟨[asciiChar 97, asciiChar 98], 1, 1, 3, [⟨0, 1, false⟩], 0⟩
  undoList := some [.boundary]
  ticks := ⟨1, 1, le_rfl⟩
  modtime := modtime
  lastUndoBuffer := false
  lastPointPosition := some 3

def edits : List (EditEvent repBytesByFirstByte) :=
  [.op (.replace 2 (asciiChar 99)), .op (.insert 1 [asciiChar 100] false),
    .op (.insert 2 [asciiChar 101, asciiChar 102] false), .op (.setPoint 3), .op (.delete 2 3),
    .op (.replace 3 twoByteChar)]

theorem run_restores_ab :
    ∃ b, Run UndoBuffer.step Keeps (visiting 1000) edits b ∧
      itextBytes b.text.chars = [100, 102, 0x81, 0xe9, 99] ∧
      b.Restores [⟨97, [], by decide⟩, ⟨98, [], by decide⟩] := by
  have hexec : (execOk UndoBuffer.step Keeps (visiting 1000) edits).any
      (fun b => decide (itextBytes b.text.chars = [100, 102, 0x81, 0xe9, 99])) = true := by decide +kernel
  obtain ⟨b, hrun, htext⟩ := exists_run_of_execOk hexec
  have hlist : (visiting 1000).undoList = some [.boundary] := rfl
  refine ⟨b, hrun, htext, (run_restores ⟨rfl, rfl⟩ hlist ?_ ?_ hrun.any).mpr hrun⟩
  · exact fun entry hentry => (Option.some.inj hentry).symm
  · simp [edits, KeepsRegion]

/-- A file from before 1970: overwriting its last character and undoing that deletes it. -/
theorem run_restores_not_before_1970 :
    ∃ b, Run UndoBuffer.step anyStep (visiting (-1000)) [.op (.replace 2 ⟨99, [], by decide⟩)] b ∧
      ¬ b.Restores (visiting (-1000)).text.chars := by
  have hexec : (exec UndoBuffer.step (visiting (-1000)) [.op (.replace 2 ⟨99, [], by decide⟩)]).any
      (fun b => decide (∀ list ∈ b.undoList, (primitiveUndo 1 list b).map (itextBytes ·.1.text.chars) = some [97])) =
        true := by decide +kernel
  obtain ⟨b, hrun, hb⟩ := exists_run_of_exec hexec
  refine ⟨b, hrun, fun ⟨list, hlist, ⟨b₁, rest, hb₁, hchars⟩, _⟩ => ?_⟩
  have htext := hb list hlist
  rw [hb₁] at htext
  have hbytes : itextBytes b₁.text.chars = [97] := Option.some.inj htext
  rw [hchars] at hbytes
  exact absurd hbytes (by decide)

end UndoBuffer

end XEmacs.Text
