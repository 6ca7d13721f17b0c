import XEmacs.Text.LineNumberCounts

/-! Runs of a buffer with a line number cache: what the cache holds stays right in every
run that overwrites no newline in front of a cached position, and puts none there. -/

namespace XEmacs.Text

open Lib

variable {rep : UInt8 → ℕ} {t : EditedText rep} {cache : Option LineNumberCache} {start stop pos p : ℤ}

/-- The cache knows the lines of a text with its accessible region. -/
def HoldsLines (t : EditedText rep) (cache : Option LineNumberCache) : Prop :=
  ∀ c ∈ cache, c.Counts (itextBytes t.chars) (bytePos t.chars t.begv)

theorem length_take_bytePos (cs : List (Ichar rep)) (p : ℤ) :
    (((itextBytes cs).take (bytePos cs p - 1).toNat).length : ℤ) = bytePos cs p - 1 := by
  have h1 : 1 ≤ bytePos cs p := one_le_bytePos
  have hle : bytePos cs p ≤ 1 + (itextBytes cs).length := bytePos_le_end p
  rw [List.length_take]
  omega

theorem split_bytes (cs : List (Ichar rep)) (p : ℤ) :
    (itextBytes cs).take (bytePos cs p - 1).toNat ++ (itextBytes cs).drop (bytePos cs p - 1).toNat = itextBytes cs :=
  List.take_append_drop _ _

theorem split_region (cs : List (Ichar rep)) (hle : start ≤ stop) :
    (itextBytes cs).take (bytePos cs start - 1).toNat ++
        ((itextBytes cs).drop (bytePos cs start - 1).toNat).take (bytePos cs stop - bytePos cs start).toNat ++
        (itextBytes cs).drop (bytePos cs stop - 1).toNat = itextBytes cs := by
  have h1 : 1 ≤ bytePos cs start := one_le_bytePos
  have hmono : bytePos cs start ≤ bytePos cs stop := bytePos_le_of_le hle
  have hsplit : (bytePos cs stop - 1).toNat = (bytePos cs start - 1).toNat + (bytePos cs stop - bytePos cs start).toNat := by
    omega
  rw [hsplit, ← List.drop_drop, List.append_assoc, List.take_append_drop, List.take_append_drop]

theorem HoldsLines.insert (h : HoldsLines t cache) (ht : t.InRange) (pos : ℤ) (str : List (Ichar rep))
    (beforeMarkers : Bool) : HoldsLines (t.insert pos str beforeMarkers) (LineBuffer.insertCache t cache pos str) := by
  intro c hc
  obtain ⟨c, hmem, rfl⟩ := Option.map_eq_some_iff.mp hc
  obtain ⟨hp, hpz⟩ := ht.clipPos (if pos = -1 then t.pt else pos)
  have hz := ht.zv_le_z
  unfold EditedText.z at hz
  have hbegv : bytePos (t.insert pos str beforeMarkers).chars (t.insert pos str beforeMarkers).begv =
      bytePos t.chars t.begv := by
    rw [EditedText.insert_begv, EditedText.insert_chars]
    exact bytePos_spliceIn_of_le hp (by omega)
  rw [hbegv, EditedText.insert_chars, itextBytes_spliceIn]
  refine LineNumberCache.Counts.insert ?_ ?_ (bytePos_le_of_le hp)
  · rw [split_bytes]
    exact h c hmem
  · have hlen := length_take_bytePos t.chars (t.clipPos (if pos = -1 then t.pt else pos))
    omega

theorem HoldsLines.delete (h : HoldsLines t cache) (ht : t.InRange) (start stop : ℤ) :
    HoldsLines (t.delete start stop) (LineBuffer.deleteCache t cache start stop) := by
  obtain ⟨hstart, hstop⟩ := t.clipRange start stop
  have hz := ht.zv_le_z
  unfold EditedText.z at hz
  simp only [EditedText.delete, LineBuffer.deleteCache]
  generalize (if start < t.begv then t.begv else start) = start at hstart
  generalize (if stop > t.zv then t.zv else stop) = stop at hstop
  split_ifs with hnone
  · exact h
  · intro c hc
    obtain ⟨c, hmem, rfl⟩ := Option.map_eq_some_iff.mp hc
    have hregion := split_region t.chars (show start ≤ stop by omega)
    have hlen := length_take_bytePos t.chars start
    have hmono : bytePos t.chars start ≤ bytePos t.chars stop := bytePos_le_of_le (by omega)
    have hend : bytePos t.chars stop ≤ 1 + (itextBytes t.chars).length := bytePos_le_end stop
    have hmid : ((((itextBytes t.chars).drop (bytePos t.chars start - 1).toNat).take
        (bytePos t.chars stop - bytePos t.chars start).toNat).length : ℤ) =
        bytePos t.chars stop - bytePos t.chars start := by
      rw [List.length_take, List.length_drop]
      omega
    have hbegv : bytePos (t.deleteAt start stop).chars (t.deleteAt start stop).begv = bytePos t.chars t.begv :=
      bytePos_cutOut_of_le hstart (by omega)
    rw [hbegv, EditedText.deleteAt, itextBytes_cutOut]
    refine (h c hmem).delete hregion ?_ ?_ (bytePos_le_of_le hstart)
    · omega
    · omega

def EditedText.charBytes (t : EditedText rep) (pos : ℤ) : List UInt8 :=
  itextBytes ((t.chars.drop (pos - 1).toNat).take 1)

theorem split_char (ch : Ichar rep) (h1 : 1 ≤ pos) (hpos : pos < t.z) :
    ∃ xs zs, itextBytes t.chars = xs ++ t.charBytes pos ++ zs ∧
      itextBytes (t.overwrite pos ch).chars = xs ++ ch.bytes ++ zs ∧ bytePos t.chars pos = 1 + xs.length := by
  unfold EditedText.z at hpos
  have hlt : (pos - 1).toNat < t.chars.length := by omega
  refine ⟨itextBytes (t.chars.take (pos - 1).toNat), itextBytes (t.chars.drop ((pos - 1).toNat + 1)), ?_, ?_, rfl⟩
  · rw [EditedText.charBytes, ← itextBytes_append, ← itextBytes_append, List.append_assoc, ← List.drop_drop,
      List.take_append_drop, List.take_append_drop]
  · rw [EditedText.overwrite, List.set_eq_take_append_cons_drop, if_pos hlt, itextBytes_append, itextBytes_cons,
      List.append_assoc]

theorem HoldsLines.overwrite (h : HoldsLines t cache) (ht : t.InRange) {ch : Ichar rep}
    (hlen : ch.bytes.length = t.charLenAt pos) (hpos : t.begv ≤ pos ∧ pos < t.zv)
    (hok : ch.bytes = t.charBytes pos ∨ (newline ∉ t.charBytes pos ∧ newline ∉ ch.bytes) ∨
      ∀ c ∈ cache, ∀ pair ∈ c.ring, pair.start ≤ bytePos t.chars pos) : HoldsLines (t.overwrite pos ch) cache := by
  intro c hc
  have h1 := ht.begv
  have hz := ht.zv_le_z
  obtain ⟨xs, zs, hold, hnew, hxs⟩ := split_char ch (show 1 ≤ pos by omega) (show pos < t.z by omega)
  have hbegv : bytePos (t.overwrite pos ch).chars (t.overwrite pos ch).begv = bytePos t.chars t.begv := by
    show bytePos (t.chars.set (pos - 1).toNat ch) t.begv = _
    rw [bytePos, bytePos, List.take_set_of_le (by omega)]
  have hcounts := h c hc
  rw [hbegv, hnew]
  rw [hold] at hcounts
  rcases hok with hsame | hok
  · rw [hsame]
    exact hcounts
  · refine hcounts.overwrite hlen ?_ (hok.imp id fun hbefore pair hpair _ => ?_)
    · rw [← hxs]
      exact bytePos_le_of_le hpos.1
    · rw [← hxs]
      exact hbefore c hc pair hpair

namespace LineBuffer

def cachedPositions (b : LineBuffer rep) : List ℤ := b.cache.elim [] fun c => c.ring.map (·.start)

/-- A character is overwritten by one of the same length in front of a cached position, and a
newline goes or comes. -/
def Spoils (b : LineBuffer rep) : LineEvent rep → Prop
  | .edit (.replace pos ch) =>
    ch.bytes.length = b.text.charLenAt pos ∧ ch.bytes ≠ b.text.charBytes pos ∧
      (newline ∈ b.text.charBytes pos ∨ newline ∈ ch.bytes) ∧
      ∃ q ∈ b.cachedPositions, bytePos b.text.chars pos < q
  | _ => False

def Keeps (b : LineBuffer rep) (event : LineEvent rep) : Prop := ¬ b.Spoils event

theorem le_of_mem_cachedPositions {b : LineBuffer rep} (h : ¬ ∃ q ∈ b.cachedPositions, p < q) :
    ∀ c ∈ b.cache, ∀ pair ∈ c.ring, pair.start ≤ p := by
  intro c hc pair hpair
  by_contra hlt
  refine h ⟨pair.start, ?_, by omega⟩
  rw [cachedPositions, hc]
  exact List.mem_map_of_mem hpair

end LineBuffer

theorem HoldsLines.replace {b : LineBuffer rep} (h : HoldsLines b.text b.cache) (ht : b.text.InRange) {ch : Ichar rep}
    (hpos : b.text.begv ≤ pos ∧ pos < b.text.zv) (hok : b.Keeps (.edit (.replace pos ch))) :
    HoldsLines (b.text.replaceAsCoded pos ch) (LineBuffer.replaceCache b.text b.cache pos ch) := by
  by_cases hlen : ch.bytes.length = b.text.charLenAt pos
  · rw [EditedText.replaceAsCoded, LineBuffer.replaceCache, if_pos hlen, if_pos hlen]
    refine h.overwrite ht hlen hpos ?_
    by_contra hc
    simp only [not_or, not_and_or, not_not] at hc
    obtain ⟨hne, hnew, hbefore⟩ := hc
    refine hok ⟨hlen, hne, hnew, ?_⟩
    by_contra hnone
    exact hbefore (LineBuffer.le_of_mem_cachedPositions hnone)
  · have hd := h.delete ht pos (pos + 1)
    have htd := ht.delete pos (pos + 1)
    rw [EditedText.replaceAsCoded, LineBuffer.replaceCache, if_neg hlen, if_neg hlen]
    dsimp only
    generalize (if pos ≥ (b.text.delete pos (pos + 1)).zv then (b.text.delete pos (pos + 1)).zv - 1 else pos) = p
    by_cases hp : p < (b.text.delete pos (pos + 1)).begv
    · rw [if_pos hp, if_pos hp]
      exact hd
    · rw [if_neg hp, if_neg hp]
      exact hd.insert htd _ _ _

namespace LineBuffer

variable {b b' b₀ : LineBuffer rep} {events : List (LineEvent rep)}

/-- Point and region are in range, and the cache is right. -/
structure Sound (b : LineBuffer rep) : Prop where
  inRange : b.text.InRange
  holds : HoldsLines b.text b.cache

theorem byteBegv_range (b : LineBuffer rep) : 1 ≤ b.byteBegv ∧ b.byteBegv ≤ 1 + b.bytes.length :=
  ⟨one_le_bytePos, bytePos_le_end _⟩

theorem Sound.editCache (h : b.Sound) {op : BufferOp rep} {text : EditedText rep} (hok : b.Keeps (.edit op))
    (hs : b.text.stepAsCoded op = some text) : HoldsLines text (LineBuffer.editCache b.text b.cache op) := by
  cases op with
  | insert pos str beforeMarkers =>
    obtain rfl := Option.some.inj hs
    exact h.holds.insert h.inRange pos str beforeMarkers
  | delete start stop =>
    obtain rfl := Option.some.inj hs
    exact h.holds.delete h.inRange start stop
  | replace pos ch =>
    rw [EditedText.stepAsCoded, EditedText.stepWith] at hs
    split_ifs at hs with hpos
    obtain rfl := Option.some.inj hs
    exact h.holds.replace h.inRange hpos hok
  | narrow start stop =>
    rw [EditedText.stepAsCoded, EditedText.stepWith] at hs
    split_ifs at hs with hrange
    obtain rfl := Option.some.inj hs
    intro c hc
    obtain ⟨c, hmem, rfl⟩ := Option.map_eq_some_iff.mp hc
    rw [EditedText.narrow_eq _ hrange.2.1, EditedText.setPoint_chars, EditedText.setPoint_begv]
    exact (h.holds c hmem).narrow _
  | setPoint pos =>
    rw [EditedText.stepAsCoded, EditedText.stepWith] at hs
    split_ifs at hs with hpos
    obtain rfl := Option.some.inj hs
    unfold HoldsLines
    rw [EditedText.setPoint_chars, EditedText.setPoint_begv]
    exact h.holds
  | unchainMarker addr =>
    obtain rfl := Option.some.inj hs
    exact h.holds
  | _ =>
    rw [EditedText.stepAsCoded, EditedText.stepWith] at hs
    split_ifs at hs
    obtain rfl := Option.some.inj hs
    exact h.holds

theorem Sound.lineNumber (h : b.Sound) (pos : ℤ) (cachep respectNarrowing : Bool) :
    (bufferLineNumber b.bytes b.byteBegv b.cache (bytePos b.text.chars pos) cachep respectNarrowing).1 =
        newlines b.bytes (bytePos b.text.chars pos) -
          newlines b.bytes (if respectNarrowing then b.byteBegv else 1) ∧
      ∀ c ∈ (bufferLineNumber b.bytes b.byteBegv b.cache (bytePos b.text.chars pos) cachep respectNarrowing).2,
        c.Counts b.bytes b.byteBegv :=
  bufferLineNumber_eq b.small h.holds b.byteBegv_range ⟨one_le_bytePos, bytePos_le_end _⟩ cachep respectNarrowing rfl

theorem Sound.step (h : b.Sound) {event : LineEvent rep} (hok : b.Keeps event) (hs : b.step event = some b') :
    b'.Sound := by
  cases event with
  | edit op =>
    obtain ⟨text, htext, hs⟩ := Option.bind_eq_some_iff.mp hs
    split_ifs at hs with hsmall
    obtain rfl := Option.some.inj hs
    exact ⟨h.inRange.stepAsCoded htext, h.editCache hok htext⟩
  | lineNumber pos cachep respectNarrowing =>
    rw [LineBuffer.step] at hs
    split_ifs at hs
    obtain rfl := Option.some.inj hs
    exact ⟨h.inRange, (h.lineNumber pos cachep respectNarrowing).2⟩

theorem newlines_sub (t : EditedText rep) (h1 : 1 ≤ t.begv) (hle : t.begv ≤ pos) :
    newlines (itextBytes t.chars) (bytePos t.chars pos) - newlines (itextBytes t.chars) (bytePos t.chars t.begv) =
      ((itextBytes ((t.chars.drop (t.begv - 1).toNat).take (pos - t.begv).toNat)).count newline : ℕ) := by
  have hsplit : (pos - 1).toNat = (t.begv - 1).toNat + (pos - t.begv).toNat := by omega
  rw [newlines, newlines, take_itextBytes, take_itextBytes, hsplit, List.take_add, itextBytes_append, List.count_append]
  push_cast
  omega

/-- In a run that does not spoil the cache, the line number of a position is the number of newlines
before it. -/
theorem run_lineNumber (hrange : b₀.text.InRange) (hcache : b₀.cache = none)
    (hrun : Run LineBuffer.step Keeps b₀ events b) (hpos : b.text.begv ≤ pos ∧ pos ≤ b.text.z) :
    (bufferLineNumber b.bytes b.byteBegv b.cache (bytePos b.text.chars pos) true true).1 =
        ((itextBytes ((b.text.chars.drop (b.text.begv - 1).toNat).take (pos - b.text.begv).toNat)).count newline : ℕ) ∧
      (bufferLineNumber b.bytes b.byteBegv b.cache (bytePos b.text.chars pos) false true).1 =
        ((itextBytes ((b.text.chars.drop (b.text.begv - 1).toNat).take (pos - b.text.begv).toNat)).count newline : ℕ) := by
  have hstart : b₀.Sound := ⟨hrange, fun c hc => by rw [hcache] at hc; contradiction⟩
  have hsound : b.Sound := hrun.invariant hstart fun _ _ _ h hok hs => h.step hok hs
  have hsub := newlines_sub b.text hsound.inRange.begv hpos.1
  exact ⟨(hsound.lineNumber pos true true).1.trans hsub, (hsound.lineNumber pos false true).1.trans hsub⟩

theorem letterA_size : ([] : List UInt8).length + 1 = repBytesByFirstByte 97 := by decide

def lineFeed : Ichar repBytesByFirstByte := ⟨newline, [], by decide⟩

def letterA : Ichar repBytesByFirstByte := ⟨97, [], letterA_size⟩

theorem itextBytes_letters (n : ℕ) : itextBytes (List.replicate n letterA) = List.replicate n 97 := by
  induction n with
  | zero => rfl
  | succ n ih => rw [List.replicate_succ, itextBytes_cons, ih, List.replicate_succ, letterA]; rfl

/-- A character and `n` letters. -/
def longText (ch : Ichar repBytesByFirstByte) (n : ℕ) : EditedText repBytesByFirstByte :=
  ⟨ch :: List.replicate n letterA, 1, 1, 2 + n, [⟨0, 1, false⟩], 0⟩

theorem itextBytes_longText (ch : Ichar repBytesByFirstByte) (n : ℕ) :
    itextBytes (longText ch n).chars = ch.bytes ++ List.replicate n 97 := by
  rw [longText, itextBytes_cons, itextBytes_letters]

theorem longText_length (ch : Ichar repBytesByFirstByte) (n : ℕ) : (longText ch n).chars.length = n + 1 := by
  rw [longText, List.length_cons, List.length_replicate]

theorem longText_z (ch : Ichar repBytesByFirstByte) (n : ℕ) : (longText ch n).z = 2 + n := by
  rw [EditedText.z, longText_length]
  push_cast
  omega

theorem longText_inRange (ch : Ichar repBytesByFirstByte) (n : ℕ) : (longText ch n).InRange := by
  refine ⟨le_rfl, le_rfl, ?_, (longText_z ch n).ge⟩
  show (1 : ℤ) ≤ 2 + n
  omega

/-- With 2731 letters, lines at the end are not counted without the cache. -/
def longBuffer : LineBuffer repBytesByFirstByte where
  text := longText lineFeed 2731
  cache := none
  small := by
    rw [itextBytes_longText, List.length_append, List.length_replicate]
    decide

theorem spliceIn_one (cs xs : List (Ichar rep)) : spliceIn cs 1 xs = xs ++ cs := by simp [spliceIn]

theorem step_lineNumber (b : LineBuffer rep) {pos : ℤ} (h : 1 ≤ pos ∧ pos ≤ b.text.z) :
    ∃ b', b.step (.lineNumber pos true true) = some b' ∧ b'.text = b.text ∧
      b'.cache = (bufferLineNumber b.bytes b.byteBegv b.cache (bytePos b.text.chars pos) true true).2 := by
  rw [LineBuffer.step, if_pos h]
  exact ⟨_, rfl, rfl, rfl⟩

theorem step_edit (b : LineBuffer rep) (op : BufferOp rep) {text : EditedText rep} (h : b.text.stepAsCoded op = some text)
    (hsmall : (itextBytes text.chars).length < mostPositiveFixnum) :
    ∃ b', b.step (.edit op) = some b' ∧ b'.text = text ∧ b'.cache = LineBuffer.editCache b.text b.cache op := by
  rw [LineBuffer.step, h, Option.bind_some, dif_pos hsmall]
  exact ⟨_, rfl, rfl, rfl⟩

theorem run_lineNumber_longBuffer :
    ∃ b, Run LineBuffer.step Keeps longBuffer [.lineNumber 2733 true true, .edit (.insert 1 [lineFeed] false)] b ∧
      (bufferLineNumber b.bytes b.byteBegv b.cache (bytePos b.text.chars 2734) true true).1 = 2 := by
  have hz : longBuffer.text.z = 2733 := longText_z lineFeed 2731
  obtain ⟨b₁, hs₁, htext₁, -⟩ := step_lineNumber longBuffer (show (1 : ℤ) ≤ 2733 ∧ 2733 ≤ longBuffer.text.z by rw [hz]; decide)
  have hchars : (b₁.text.insert 1 [lineFeed] false).chars = lineFeed :: longBuffer.text.chars := by
    rw [htext₁, EditedText.insert_chars]
    exact spliceIn_one _ _
  obtain ⟨b, hs, htext, -⟩ := step_edit b₁ (.insert 1 [lineFeed] false) rfl (by
    rw [hchars, itextBytes_cons, longBuffer, itextBytes_longText]
    simp only [List.length_append, List.length_replicate]
    decide)
  have hrun : Run LineBuffer.step Keeps longBuffer
      [.lineNumber 2733 true true, .edit (.insert 1 [lineFeed] false)] b :=
    .cons id hs₁ (.single id hs)
  refine ⟨b, hrun, ?_⟩
  have hbegv : b.text.begv = 1 := by rw [htext, EditedText.insert_begv, htext₁]; rfl
  have hlen : b.text.chars.length = 2733 := by
    have hlong : longBuffer.text.chars.length = 2732 := longText_length lineFeed 2731
    rw [htext, hchars, List.length_cons, hlong]
  rw [(run_lineNumber (longText_inRange lineFeed 2731) rfl hrun (by
    rw [hbegv, EditedText.z, hlen]
    decide)).1, hbegv, htext, hchars]
  have htake : ((lineFeed :: longBuffer.text.chars).drop (1 - 1 : ℤ).toNat).take (2734 - 1 : ℤ).toNat =
      lineFeed :: longBuffer.text.chars := by
    rw [← hchars, ← htext]
    exact List.take_of_length_le hlen.le
  rw [htake, itextBytes_cons, longBuffer, itextBytes_longText, List.count_append, List.count_append,
    List.count_replicate]
  decide

theorem bufferLineNumber_first (bytes : List UInt8) {pos : ℤ} (hfar : ¬ |pos - 1| ≤ lineNumberFar) :
    ∃ c, (bufferLineNumber bytes 1 none pos true true).2 = some c ∧ c.begv = 0 ∧
      c.ring = [⟨pos, countNewlines bytes 1 pos⟩] := by
  have huse : usesCache 1 1 pos true true := ⟨hfar, rfl, .inl rfl⟩
  have hzero : ¬ (LineNumberCache.allocate 1).begv = -1 := by decide
  have hnear : (LineNumberCache.allocate 1).getNearestLineNumber 1 pos (LineNumberCache.allocate 1).begv = (1, 0) := rfl
  simp only [bufferLineNumber, lineNumberFrom, if_true, if_pos huse, Option.getD_none, if_neg hzero, hnear,
    add_zero, if_pos (not_le.mp hfar)]
  exact ⟨_, rfl, rfl, rfl⟩

theorem bufferLineNumber_again {bytes : List UInt8} {pos line : ℤ} {c : LineNumberCache}
    (hfar : ¬ |pos - 1| ≤ lineNumberFar) (hpos : 0 ≤ pos) (hbegv : c.begv = 0) (hring : c.ring = [⟨pos, line⟩]) :
    (bufferLineNumber bytes 1 (some c) pos true true).1 = line := by
  have huse : usesCache 1 1 pos true true := ⟨hfar, rfl, .inl rfl⟩
  have hzero : ¬ c.begv = -1 := by omega
  have hnear : c.getNearestLineNumber 1 pos c.begv = (pos, line) := by
    have hlt : |pos - pos| < |pos - 1| := by
      rw [sub_self, abs_zero]
      exact (show (0 : ℤ) ≤ lineNumberFar by decide).trans_lt (not_le.mp hfar)
    rw [LineNumberCache.getNearestLineNumber, hring, LineNumberCache.nearest, if_neg (show ¬ pos < 0 by omega)]
    exact if_pos hlt
  have hcount : countNewlines bytes pos pos = 0 := by
    simp [countNewlines, byteScanBuffer, scanBackward, mostPositiveFixnum]
  simp only [bufferLineNumber, if_true, if_pos huse, Option.getD_some, if_neg hzero]
  simp only [lineNumberFrom, if_true, if_pos huse, hnear, hcount, zero_add]
  rw [hbegv, sub_zero]

/-- A letter is written over the newline: it is still counted, but only with the cache. -/
theorem run_lineNumber_overwritten :
    ∃ b, Run LineBuffer.step anyStep longBuffer [.lineNumber 2733 true true, .edit (.replace 1 letterA)] b ∧
      (bufferLineNumber b.bytes b.byteBegv b.cache (bytePos b.text.chars 2733) true true).1 = 1 ∧
      (bufferLineNumber b.bytes b.byteBegv b.cache (bytePos b.text.chars 2733) false true).1 = 0 := by
  have hz : longBuffer.text.z = 2733 := longText_z lineFeed 2731
  obtain ⟨b₁, hs₁, htext₁, hcache₁⟩ :=
    step_lineNumber longBuffer (show (1 : ℤ) ≤ 2733 ∧ 2733 ≤ longBuffer.text.z by rw [hz]; decide)
  have hlen : letterA.bytes.length = longBuffer.text.charLenAt 1 := rfl
  have hop : b₁.text.stepAsCoded (.replace 1 letterA) = some (longText letterA 2731) := by
    have hpos : longBuffer.text.begv ≤ 1 ∧ 1 < longBuffer.text.zv := by decide
    rw [htext₁, EditedText.stepAsCoded, EditedText.stepWith, if_pos hpos, EditedText.replaceAsCoded, if_pos hlen]
    rfl
  obtain ⟨b, hs, htext, hcache⟩ := step_edit b₁ (.replace 1 letterA) hop (by
    rw [itextBytes_longText, List.length_append, List.length_replicate]
    decide)
  refine ⟨b, .cons trivial hs₁ (.single trivial hs), ?_⟩
  have hfar : ¬ |(2733 : ℤ) - 1| ≤ lineNumberFar := by decide
  have hbytes : b.bytes = letterA.bytes ++ List.replicate 2731 97 := by
    rw [LineBuffer.bytes, htext, itextBytes_longText]
  have hbegv : b.byteBegv = 1 := by
    rw [LineBuffer.byteBegv, htext]
    exact bytePos_one
  have hend : ∀ ch : Ichar repBytesByFirstByte, ch.bytes.length = 1 → bytePos (longText ch 2731).chars 2733 = 2733 := by
    intro ch hch
    have hz : (2733 : ℤ) = 1 + (longText ch 2731).chars.length := by
      rw [longText_length]
      omega
    refine (congrArg (bytePos _) hz).trans (bytePos_end.trans ?_)
    rw [itextBytes_longText, List.length_append, hch, List.length_replicate]
    omega
  have hcount : ∀ ch : Ichar repBytesByFirstByte, ch.bytes.length = 1 →
      countNewlines (ch.bytes ++ List.replicate 2731 97) 1 2733 = ch.bytes.count newline := by
    intro ch hch
    have hall : ((ch.bytes ++ List.replicate 2731 97).length : ℤ) = 2732 := by
      rw [List.length_append, hch, List.length_replicate]
      omega
    have htake : (ch.bytes ++ List.replicate 2731 97).take (2733 - 1 : ℤ).toNat = ch.bytes ++ List.replicate 2731 97 :=
      List.take_of_length_le (by omega)
    have hletters : (List.replicate 2731 (97 : UInt8)).count newline = 0 := by
      rw [List.count_replicate]
      decide
    rw [countNewlines_eq (by rw [hall]; decide) le_rfl (by omega) (by omega) (by omega), newlines_one, sub_zero,
      newlines, htake, List.count_append, hletters, add_zero]
  have hbytes₀ : longBuffer.bytes = lineFeed.bytes ++ List.replicate 2731 97 := itextBytes_longText lineFeed 2731
  obtain ⟨c, hc, hzero, hring⟩ := bufferLineNumber_first longBuffer.bytes hfar
  have hkept : b.cache = some c := by
    rw [hcache, LineBuffer.editCache, LineBuffer.replaceCache, htext₁, if_pos hlen, hcache₁]
    have hbegv₀ : longBuffer.byteBegv = 1 := bytePos_one
    rw [hbegv₀, show longBuffer.text = longText lineFeed 2731 from rfl, hend lineFeed rfl]
    exact hc
  rw [hbegv, htext, hend letterA rfl]
  constructor
  · rw [hkept, bufferLineNumber_again hfar (by decide) hzero hring, hbytes₀, hcount lineFeed rfl]
    rfl
  · have huse : ¬ usesCache 1 1 2733 false true := fun h => Bool.false_ne_true h.2.1
    simp only [bufferLineNumber, if_true, if_neg huse]
    rw [hbytes, hcount letterA rfl]
    rfl

end LineBuffer

end XEmacs.Text
