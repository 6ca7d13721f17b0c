import XEmacs.Text.BufferRuns
import XEmacs.Text.BytePositionsExact

/-! Runs of a buffer that converts positions by what it knows of them. Its edits are those of
the buffer that scans the text instead, and they keep all that it knows exact. -/

namespace XEmacs.Text

open Lib

namespace Buffer

variable {rep : UInt8 → ℕ} {b b' : Buffer} {t : EditedText rep} {cpos bpos : ℤ}

theorem gapLeft_bufgpt (rep : UInt8 → ℕ) (b : Buffer) (cpos : ℤ) (hgap : 0 ≤ b.gapSize)
    (hle : bpos ≤ b.gpt) :
    (b.gapLeft rep inhibitQuit cpos bpos).bufgpt = cpos := by
  obtain ⟨-, -, -, hquit⟩ := gapLeftLoop_spec inhibitQuit b.beg hgap hle (Int.self_le_toNat _)
  exact if_pos (hquit fun _ => rfl)

theorem gapRight_bufgpt (rep : UInt8 → ℕ) (b : Buffer) (cpos : ℤ) (hgap : 0 ≤ b.gapSize)
    (hle : b.gpt ≤ bpos) :
    (b.gapRight rep inhibitQuit cpos bpos).bufgpt = cpos := by
  obtain ⟨-, -, -, hquit⟩ := gapRightLoop_spec inhibitQuit b.beg hgap hle (Int.self_le_toNat _)
  rw [gapRight]
  simp only
  split_ifs <;> first | rfl | exact absurd (hquit fun _ => rfl) ‹_›

theorem moveGap_bufgpt (rep : UInt8 → ℕ) (h : b.Layout) (hgpt : bpos = b.gpt → b.bufgpt = cpos) :
    (b.moveGap rep inhibitQuit cpos bpos).bufgpt = cpos := by
  have hgap : 0 ≤ b.gapSize := by
    have := h.gap_pos
    omega
  rw [moveGap]
  split_ifs with hlt hgt
  · exact gapLeft_bufgpt rep b cpos hgap hlt.le
  · exact gapRight_bufgpt rep b cpos hgap hgt.le
  · exact hgpt (by omega)

theorem combineGaps_bufgpt (rep : UInt8 → ℕ) (b : Buffer) (inc : ℤ) :
    (b.combineGaps rep inc).bufgpt = b.bufgpt := by
  rw [combineGaps_eq]

theorem makeRoom_bufgpt {length : ℤ} (h : b.Layout) (hgpt : bpos = b.gpt → b.bufgpt = cpos)
    (hb : b.makeRoom rep cpos bpos length = some b') : b'.bufgpt = cpos := by
  have hmoved : (if bpos ≠ b.gpt then b.moveGap rep inhibitQuit cpos bpos else b).bufgpt = cpos := by
    split_ifs with hne
    · exact moveGap_bufgpt rep h hgpt
    · exact hgpt (not_not.mp hne)
  rw [makeRoom] at hb
  generalize (if bpos ≠ b.gpt then b.moveGap rep inhibitQuit cpos bpos else b) = c at hb hmoved
  split at hb
  · split at hb
    · rw [← Option.some.inj hb, mergeGapWithEndGap]
      split_ifs
      · rw [combineGaps_bufgpt, hmoved]
      · exact hmoved
    · rw [makeGap] at hb
      split at hb
      · split at hb
        · contradiction
        · rw [← Option.some.inj hb, combineGaps_bufgpt, hmoved]
      · rw [← Option.some.inj hb, combineGaps_bufgpt, hmoved]
  · rw [← Option.some.inj hb, hmoved]

theorem bufferDeleteRange_bufgpt (h : b.HoldsText t) {start stop : ℤ} (hstart : t.begv ≤ start) (hlt : start < stop)
    (hstop : stop ≤ t.zv) : (b.bufferDeleteRange rep start stop).bufgpt =
      if b.deletesFromBottom stop (bytePos t.chars start) then b.bufgpt else start := by
  have hclip : (if start < b.bufbegv then b.bufbegv else start) = start := if_neg (by rw [h.bufbegv]; omega)
  have hclip' : (if stop > b.bufzv then b.bufzv else stop) = stop := if_neg (by rw [h.bufzv]; omega)
  rw [bufferDeleteRange]
  simp only [hclip, hclip', h.charbposToBytebpos, if_neg (show ¬ stop - start ≤ 0 by omega)]
  split_ifs
  · rw [deleteAtGap_eq]
    rfl
  · rw [deleteAtGap_eq]
    rfl

end Buffer

section Kept

variable {rep : UInt8 → ℕ} {cs : List (Ichar rep)} {p q : ℤ}

theorem mem_spliceIn {c : Ichar rep} {xs : List (Ichar rep)} (h : c ∈ spliceIn cs p xs) : c ∈ cs ∨ c ∈ xs := by
  simp only [spliceIn, List.mem_append] at h
  rcases h with (h | h) | h
  · exact .inl (List.mem_of_mem_take h)
  · exact .inr h
  · exact .inl (List.mem_of_mem_drop h)

theorem mem_cutOut {c : Ichar rep} (h : c ∈ cutOut cs p q) : c ∈ cs := by
  rcases List.mem_append.mp h with h | h
  · exact List.mem_of_mem_take h
  · exact List.mem_of_mem_drop h

theorem Exact.inserted {this : BothPos} (h : Exact cs this) (h1 : 1 ≤ p) (hz : p ≤ 1 + cs.length)
    (xs : List (Ichar rep)) : Exact (spliceIn cs p xs)
      (if this.charpos > p then ⟨this.charpos + xs.length, this.bytepos + (itextBytes xs).length⟩ else this) := by
  have hlen : (spliceIn cs p xs).length = cs.length + xs.length := length_spliceIn xs
  have h1' := h.one_le
  have hz' := h.le_end
  split_ifs with hgt
  · refine ⟨by simp only; omega, by simp only [hlen]; push_cast; omega, ?_⟩
    simp only
    rw [bytePos_spliceIn_of_ge h1 (le_of_lt hgt) hz, h.bytepos_eq]
  · refine ⟨h1', by rw [hlen]; push_cast; omega, ?_⟩
    rw [bytePos_spliceIn_of_le (not_lt.mp hgt) hz, h.bytepos_eq]

theorem Exact.deleted {this : BothPos} (h : Exact cs this) (h1 : 1 ≤ p) (hle : p ≤ q) (hz : q ≤ 1 + cs.length) :
    Exact (cutOut cs p q)
      (if this.charpos > q then ⟨this.charpos - (q - p), this.bytepos - (bytePos cs q - bytePos cs p)⟩
      else if this.charpos > p then ⟨p, bytePos cs p⟩ else this) := by
  have hlen := length_cutOut hle h1 hz
  have h1' := h.one_le
  have hz' := h.le_end
  split_ifs with hgt hgt'
  · refine ⟨by simp only; omega, by simp only [hlen]; omega, ?_⟩
    simp only
    rw [bytePos_cutOut_of_ge h1 hle (le_of_lt hgt) hz, h.bytepos_eq]
  · refine ⟨h1, by simp only [hlen]; omega, ?_⟩
    exact (bytePos_cutOut_of_le le_rfl (hle.trans hz)).symm
  · refine ⟨h1', by rw [hlen]; omega, ?_⟩
    rw [bytePos_cutOut_of_le (not_lt.mp hgt') (hle.trans hz), h.bytepos_eq]

end Kept

namespace MuleBuffer

variable {rep : UInt8 → ℕ} {firstp : UInt8 → Bool} {b b' : MuleBuffer} {buffer : Buffer} {t t' : EditedText rep}
  {cs : List (Ichar rep)} {p q start stop : ℤ}

theorem Knows.setBuffer (h : b.Knows firstp cs) (hchars : buffer.HoldsChars cs) (hbufz : buffer.bufz = b.buffer.bufz)
    (hplaces : ∀ this ∈ (b.setBuffer buffer).places, Exact cs this) : (b.setBuffer buffer).Knows firstp cs := by
  refine { h with chars := hchars, bufz := hbufz.trans h.bufz, places := hplaces, oneByte := ?_ }
  rw [MuleBuffer.setBuffer, hbufz, hchars.z, ← h.chars.z]
  exact h.oneByte

theorem exact_places (ht : b.buffer.HoldsText t) (hgap : Exact t.chars ⟨b.buffer.bufgpt, b.buffer.gpt⟩)
    (hcached : Exact t.chars b.cached) : ∀ this ∈ b.places, Exact t.chars this := by
  obtain ⟨hr1, hr2, hr3, hr4⟩ := ht.inRange
  unfold EditedText.z at hr4
  have hpt : Exact t.chars ⟨b.buffer.bufpt, b.buffer.pt⟩ := by
    rw [ht.bufpt, ht.pt]
    exact exact_bothPos (by omega) (by omega)
  have hbegv : Exact t.chars ⟨b.buffer.bufbegv, b.buffer.begv⟩ := by
    rw [ht.bufbegv, ht.begv]
    exact exact_bothPos hr1 (by omega)
  have hzv : Exact t.chars ⟨b.buffer.bufzv, b.buffer.zv⟩ := by
    rw [ht.bufzv, ht.zv]
    exact exact_bothPos (by omega) hr4
  intro this hmem
  simp only [MuleBuffer.places, List.mem_cons, List.not_mem_nil, or_false] at hmem
  rcases hmem with rfl | rfl | rfl | rfl | rfl
  · exact hpt
  · exact hgap
  · exact hbegv
  · exact hzv
  · exact hcached

theorem Knows.cached (h : b.Knows firstp cs) : Exact cs b.cached := h.places _ (mem_places b)

theorem Knows.bufgpt_eq (h : b.Knows firstp cs) (h1 : 1 ≤ p) (hz : p ≤ 1 + cs.length)
    (heq : bytePos cs p = b.buffer.gpt) : b.buffer.bufgpt = p := by
  have hgpt : b.buffer.gpt = bytePos cs b.buffer.bufgpt := h.gap.bytepos_eq
  rw [hgpt] at heq
  exact ((bytePos_inj ⟨h1, hz⟩ ⟨h.gap.one_le, h.gap.le_end⟩).mp heq).symm

theorem Knows.setBufferPoint (h : b.Knows firstp cs) (h1 : 1 ≤ p) (hz : p ≤ 1 + cs.length) :
    (b.setBuffer (b.buffer.setBufferPoint p (bytePos cs p))).Knows firstp cs := by
  rw [Buffer.setBufferPoint]
  split_ifs with hsame
  · exact h
  · refine h.setBuffer ⟨⟨h.chars.layout.1, h.chars.layout.2, h.chars.layout.3, h.chars.layout.4,
      h.chars.layout.5⟩, h.chars.text⟩ rfl fun this hmem => ?_
    have hplaces := h.places this
    simp only [MuleBuffer.places, MuleBuffer.setBuffer, List.mem_cons, List.not_mem_nil, or_false] at hmem hplaces
    rcases hmem with rfl | hmem | hmem | hmem | hmem
    · exact exact_bothPos h1 hz
    · exact hplaces (.inr (.inl hmem))
    · exact hplaces (.inr (.inr (.inl hmem)))
    · exact hplaces (.inr (.inr (.inr (.inl hmem))))
    · exact hplaces (.inr (.inr (.inr (.inr hmem))))

theorem Knows.setPoint (h : b.Knows firstp cs) (h1 : 1 ≤ p) (hz : p ≤ 1 + cs.length) :
    ∃ b', b.setPoint firstp p = some b' ∧ b'.buffer = b.buffer.setBufferPoint p (bytePos cs p) ∧
      b'.Knows firstp cs := by
  obtain ⟨b₁, hconv, h₁, hbuffer⟩ := h.charbposToBytebpos h1 hz
  rw [MuleBuffer.setPoint, hconv, Option.map_some]
  exact ⟨_, rfl, by rw [MuleBuffer.setBuffer, hbuffer], h₁.setBufferPoint h1 hz⟩

theorem Knows.setPointIf (h : b.Knows firstp cs) (h1 : 1 ≤ p) (hz : p ≤ 1 + cs.length) (needed : Prop)
    [Decidable needed] : ∃ b', (if needed then b.setPoint firstp p else some b) = some b' ∧
      b'.buffer = (if needed then b.buffer.setBufferPoint p (b.buffer.charbposToBytebpos rep p) else b.buffer) ∧
      b'.Knows firstp cs := by
  have hscan : b.buffer.charbposToBytebpos rep p = bytePos cs p := by
    rw [Buffer.charbposToBytebpos, h.chars.text, charcountToBytecount_itextBytes, bytePos]
  split_ifs
  · rw [hscan]
    exact h.setPoint h1 hz
  · exact ⟨b, rfl, rfl, h⟩

theorem Knows.narrowToRegion (h : b.Knows firstp cs) (h1 : 1 ≤ start) (hle : start ≤ stop)
    (hz : stop ≤ 1 + cs.length) : ∃ b', b.narrowToRegion firstp start stop = some b' ∧
      b'.buffer = b.buffer.narrowToRegion rep start stop ∧ b'.Knows firstp cs := by
  obtain ⟨b₁, hstart, h₁, hbuffer₁⟩ := h.charbposToBytebpos h1 (hle.trans hz)
  obtain ⟨b₂, hstop, h₂, hbuffer₂⟩ := h₁.charbposToBytebpos (h1.trans hle) hz
  have hscan (q : ℤ) : b.buffer.charbposToBytebpos rep q = bytePos cs q := by
    rw [Buffer.charbposToBytebpos, h.chars.text, charcountToBytecount_itextBytes, bytePos]
  set n : Buffer := { b.buffer with
    bufbegv := start, begv := bytePos cs start, bufzv := stop, zv := bytePos cs stop }
  have hn : n.HoldsChars cs :=
    ⟨⟨h.chars.layout.1, h.chars.layout.2, h.chars.layout.3, h.chars.layout.4, h.chars.layout.5⟩, h.chars.text⟩
  have hknows : (b₂.setBuffer n).Knows firstp cs := by
    refine h₂.setBuffer hn (by rw [hbuffer₂, hbuffer₁]) fun this hmem => ?_
    have hplaces := h.places this
    simp only [MuleBuffer.places, MuleBuffer.setBuffer, List.mem_cons, List.not_mem_nil, or_false] at hmem hplaces
    rcases hmem with hmem | hmem | rfl | rfl | rfl
    · exact hplaces (.inl hmem)
    · exact hplaces (.inr (.inl hmem))
    · exact exact_bothPos h1 (hle.trans hz)
    · exact exact_bothPos (h1.trans hle) hz
    · exact h₂.cached
  obtain ⟨b₃, hset, hbuffer₃, h₃⟩ := hknows.setPointIf h1 (hle.trans hz) (n.bufpt < start)
  obtain ⟨b₄, hset', hbuffer₄, h₄⟩ := h₃.setPointIf (h1.trans hle) hz (b₃.buffer.bufpt > stop)
  refine ⟨b₄, ?_, ?_, h₄⟩
  · rw [MuleBuffer.narrowToRegion, hstart, Option.bind_some]
    simp only [hstop, Option.bind_some]
    rw [hbuffer₂, hbuffer₁]
    exact (congrArg (Option.bind · _) hset).trans hset'
  · rw [hbuffer₄, hbuffer₃, Buffer.narrowToRegion]
    simp only [hscan]
    rfl

theorem Knows.moveGap (h : b.Knows firstp t.chars) (ht : b.buffer.HoldsText t) (h1 : 1 ≤ p) (hz : p ≤ t.z) :
    ∃ b', b.moveGap firstp rep p = some b' ∧
      b'.buffer = b.buffer.moveGap rep Buffer.inhibitQuit p (bytePos t.chars p) ∧ b'.Knows firstp t.chars := by
  obtain ⟨b₁, hconv, h₁, hbuffer⟩ := h.charbposToBytebpos h1 hz
  have hmem := ht.bytePos_mem hz
  obtain ⟨hsame, -, hgpt⟩ := Buffer.moveGap_spec rep ht.layout Buffer.inhibitQuit p hmem.1 hmem.2
  have hbufgpt : (b.buffer.moveGap rep Buffer.inhibitQuit p (bytePos t.chars p)).bufgpt = p :=
    Buffer.moveGap_bufgpt rep ht.layout (h.bufgpt_eq h1 hz)
  have ht' := ht.of_sameText hsame
  rw [MuleBuffer.moveGap, hconv, Option.map_some]
  refine ⟨_, rfl, by rw [MuleBuffer.setBuffer, hbuffer], ?_⟩
  rw [hbuffer]
  refine h₁.setBuffer ht'.holdsChars (by rw [ht'.bufz, hbuffer, ht.bufz]) (exact_places ht' ?_ h₁.cached)
  rw [MuleBuffer.setBuffer, hbufgpt, (hgpt fun _ => rfl).1]
  exact exact_bothPos h1 hz

/-! ### Edits -/

theorem Knows.edit (h : b.Knows firstp cs) (ht : buffer.HoldsText t') (hvalid : ∀ c ∈ t'.chars, c.Valid firstp)
    (hgap : Exact t'.chars ⟨buffer.bufgpt, buffer.gpt⟩) {f : BothPos → BothPos}
    (hf : ∀ this, Exact cs this → Exact t'.chars (f this)) :
    ((b.setBuffer buffer).mapKept f).setEntirelyOneByteP.Knows firstp t'.chars where
  chars := ht.holdsChars
  bufz := ht.bufz
  valid := hvalid
  places := exact_places ht hgap (hf _ h.cached)
  cache := by
    intro this hmem
    obtain ⟨other, hother, rfl⟩ := List.mem_map.mp hmem
    exact hf other (h.cache other hother)
  length_le := (List.length_map ..).trans_le h.length_le
  oneByte := rfl

theorem Knows.moveAfterInsert (h : b.Knows firstp cs) (h1 : 1 ≤ q) (hz : q ≤ 1 + cs.length) {bytepos n : ℤ}
    (hq : bytePos cs q = bytepos + n) (movePoint beforeMarkers : Bool) :
    ∃ b', (b.movePointAfter firstp (bytepos + n) movePoint).map (fun b =>
        if beforeMarkers then b.setBuffer (b.buffer.adjustMarkers (bytepos - 1) bytepos n) else b) = some b' ∧
      b'.buffer = b.buffer.moveAfterInsert rep bytepos n movePoint beforeMarkers ∧ b'.Knows firstp cs := by
  have hscan : b.buffer.bytebposToCharbpos rep (bytepos + n) = q := by
    have hlen : ((cs.take (q - 1).toNat).length : ℤ) = q - 1 := by
      rw [List.length_take]
      omega
    rw [Buffer.bytebposToCharbpos, h.chars.text, ← hq, take_itextBytes, bytecountToCharcount_itextBytes, hlen]
    omega
  have hmarkers (c : MuleBuffer) (hc : c.Knows firstp cs) : (if beforeMarkers then
      c.setBuffer (c.buffer.adjustMarkers (bytepos - 1) bytepos n) else c).Knows firstp cs := by
    split_ifs
    · exact hc.setBuffer ⟨⟨hc.chars.layout.1, hc.chars.layout.2, hc.chars.layout.3, hc.chars.layout.4,
        hc.chars.layout.5⟩, hc.chars.text⟩ rfl hc.places
    · exact hc
  rw [Buffer.moveAfterInsert, hscan]
  cases movePoint with
  | false =>
    refine ⟨_, rfl, ?_, hmarkers b h⟩
    cases beforeMarkers <;> rfl
  | true =>
    obtain ⟨b₁, hconv, h₁, hbuffer⟩ := h.bytebposToCharbpos h1 hz
    rw [hq] at hconv
    have hset := h₁.setBufferPoint h1 hz
    rw [hq, hbuffer] at hset
    refine ⟨_, ?_, ?_, hmarkers _ hset⟩
    · rw [movePointAfter, if_pos rfl, hconv, Option.map_some, Option.map_some, hbuffer]
    · cases beforeMarkers <;> rfl

theorem Knows.insertAtGap (h : b.Knows firstp t.chars) (ht : b.buffer.HoldsText t) {str : List (Ichar rep)}
    (hstr : ∀ c ∈ str, c.Valid firstp) (hp : t.begv ≤ p ∧ p ≤ t.zv) {r : Buffer}
    (hroom : b.buffer.makeRoom rep p (bytePos t.chars p) (itextBytes str).length = some r)
    (movePoint beforeMarkers : Bool) :
    ∃ b', (((b.setBuffer (r.insertAtGap (bytePos t.chars p) (itextBytes str) str.length)).signalInsertedRegion p
          (itextBytes str).length str.length).setEntirelyOneByteP.movePointAfter firstp
          (bytePos t.chars p + (itextBytes str).length) movePoint).map (fun b =>
        if beforeMarkers then
          b.setBuffer (b.buffer.adjustMarkers (bytePos t.chars p - 1) (bytePos t.chars p) (itextBytes str).length)
        else b) = some b' ∧
      b'.buffer = (r.insertAtGap (bytePos t.chars p) (itextBytes str) str.length).moveAfterInsert rep
        (bytePos t.chars p) (itextBytes str).length movePoint beforeMarkers ∧
      b'.Knows firstp (spliceIn t.chars p str) := by
  obtain ⟨hr1, hr2, hr3, hr4⟩ := ht.inRange
  have h1 : 1 ≤ p := hr1.trans hp.1
  have hz : p ≤ 1 + t.chars.length := hp.2.trans hr4
  have hmem := ht.bytePos_mem hz
  obtain ⟨hsame, -, -, hgpt, hsize⟩ := Buffer.makeRoom_spec rep ht.layout hmem.1 hmem.2 hroom
  have hbufgpt : r.bufgpt = p := Buffer.makeRoom_bufgpt ht.layout (h.bufgpt_eq h1 hz) hroom
  have htext := Buffer.insertAtGap_text (ht.of_sameText hsame) hp hgpt hsize
  have hend : bytePos (spliceIn t.chars p str) (p + str.length) = bytePos t.chars p + (itextBytes str).length :=
    bytePos_spliceIn_of_ge h1 le_rfl hz
  have hlen : ((spliceIn t.chars p str).length : ℤ) = t.chars.length + str.length := by
    rw [length_spliceIn]
    push_cast
    rfl
  have hgap : Exact (spliceIn t.chars p str)
      ⟨(r.insertAtGap (bytePos t.chars p) (itextBytes str) str.length).bufgpt,
        (r.insertAtGap (bytePos t.chars p) (itextBytes str) str.length).gpt⟩ := by
    rw [Buffer.insertAtGap_eq]
    simp only [hbufgpt, hgpt]
    rw [← hend]
    exact exact_bothPos (by omega) (by omega)
  have hvalid : ∀ c ∈ spliceIn t.chars p str, c.Valid firstp := fun c hc =>
    (mem_spliceIn hc).elim (h.valid c) (hstr c)
  have hedit := h.edit htext hvalid hgap fun this hthis => hthis.inserted h1 hz str
  exact hedit.moveAfterInsert (q := p + str.length) (by omega)
    (by show p + str.length ≤ 1 + ((spliceIn t.chars p str).length : ℤ); omega) hend movePoint beforeMarkers

theorem Knows.bufferInsertString1 (h : b.Knows firstp t.chars) (ht : b.buffer.HoldsText t) {str : List (Ichar rep)}
    (hstr : ∀ c ∈ str, c.Valid firstp) (pos : ℤ) (beforeMarkers : Bool) :
    (b.bufferInsertString1 firstp rep pos (itextBytes str) beforeMarkers).map (·.buffer) =
        b.buffer.bufferInsertString1 rep pos (itextBytes str) beforeMarkers ∧
      ∀ b', b.bufferInsertString1 firstp rep pos (itextBytes str) beforeMarkers = some b' →
        b'.Knows firstp (spliceIn t.chars (t.clipPos (if pos = -1 then t.pt else pos)) str) := by
  obtain ⟨hr1, hr2, hr3, hr4⟩ := ht.inRange
  have hp : t.begv ≤ t.clipPos (if pos = -1 then t.pt else pos) ∧
      t.clipPos (if pos = -1 then t.pt else pos) ≤ t.zv :=
    ht.inRange.clipPos _
  generalize hpdef : t.clipPos (if pos = -1 then t.pt else pos) = p at hp ⊢
  obtain ⟨b₁, hconv, h₁, hbuffer⟩ := h.charbposToBytebpos (hr1.trans hp.1) (hp.2.trans hr4)
  rw [MuleBuffer.bufferInsertString1, Buffer.bufferInsertString1]
  simp only [ht.clipPos, ht.bufpt, ht.charbposToBytebpos, bytecountToCharcount_itextBytes, hpdef, hconv,
    Option.bind_some, hbuffer]
  by_cases hlarge : mostPositiveFixnum - 1 - b.buffer.bufz < str.length
  · rw [if_pos hlarge, if_pos hlarge]
    exact ⟨Option.map_none _, fun b' hb' => absurd hb' (Option.some_ne_none b').symm⟩
  · rw [if_neg hlarge, if_neg hlarge]
    cases hroom : b.buffer.makeRoom rep p (bytePos t.chars p) (itextBytes str).length with
    | none =>
      rw [Option.bind_none, Option.map_none, Option.map_none]
      exact ⟨rfl, fun b' hb' => absurd hb' (Option.some_ne_none b').symm⟩
    | some r =>
      obtain ⟨b', hb', hbuffer', hknows⟩ := h₁.insertAtGap (hbuffer ▸ ht) hstr hp (hbuffer ▸ hroom)
        (decide (pos = -1)) beforeMarkers
      rw [Option.bind_some, hb', Option.map_some, Option.map_some, hbuffer']
      exact ⟨rfl, fun b'' hb'' => Option.some.inj hb'' ▸ hknows⟩

theorem Knows.deleteAt (h : b.Knows firstp t.chars) (ht : b.buffer.HoldsText t) (hstart : t.begv ≤ start)
    (hlt : start < stop) (hstop : stop ≤ t.zv) :
    ∃ b', b.bufferDeleteRange firstp rep start stop = some b' ∧
      b'.buffer = b.buffer.bufferDeleteRange rep start stop ∧ b'.Knows firstp (cutOut t.chars start stop) := by
  obtain ⟨hr1, -, -, hr4⟩ := ht.inRange
  have h1 : 1 ≤ start := hr1.trans hstart
  have hz : stop ≤ 1 + t.chars.length := hstop.trans hr4
  obtain ⟨b₁, hconv₁, h₁, hbuffer₁⟩ := h.charbposToBytebpos h1 (hlt.le.trans hz)
  obtain ⟨b₂, hconv₂, h₂, hbuffer₂⟩ := h₁.charbposToBytebpos (h1.trans hlt.le) hz
  have hclip : (if start < b.buffer.bufbegv then b.buffer.bufbegv else start) = start :=
    if_neg (by rw [ht.bufbegv]; omega)
  have hclip' : (if stop > b.buffer.bufzv then b.buffer.bufzv else stop) = stop :=
    if_neg (by rw [ht.bufzv]; omega)
  have hscan : (if b.buffer.deletesFromBottom stop (bytePos t.chars start) then
        b.buffer.deleteAtGap start stop (bytePos t.chars start) (bytePos t.chars stop) false
      else (b.buffer.moveGapNextTo rep start stop (bytePos t.chars start) (bytePos t.chars stop)).deleteAtGap start
        stop (bytePos t.chars start) (bytePos t.chars stop) true) = b.buffer.bufferDeleteRange rep start stop := by
    rw [Buffer.bufferDeleteRange]
    simp only [hclip, hclip', ht.charbposToBytebpos, if_neg (show ¬ stop - start ≤ 0 by omega)]
  have hdeleted := Buffer.bufferDeleteRange_deleted ht hstart hlt hstop
  have hgap : Exact (cutOut t.chars start stop) ⟨(b.buffer.bufferDeleteRange rep start stop).bufgpt,
      (b.buffer.bufferDeleteRange rep start stop).gpt⟩ := by
    rw [Buffer.bufferDeleteRange_bufgpt ht hstart hlt hstop]
    by_cases hbottom : b.buffer.deletesFromBottom stop (bytePos t.chars start)
    · -- the gap was before the text deleted
      rw [if_pos hbottom, (hdeleted.gapStays hbottom).1]
      have hbefore : b.buffer.bufgpt < start := by
        by_contra hge
        have hle : bytePos t.chars start ≤ bytePos t.chars b.buffer.bufgpt := bytePos_le_of_le (not_lt.mp hge)
        rw [← h.gap.bytepos_eq] at hle
        exact absurd hbottom.2 (not_lt.mpr hle)
      have hkept := h.gap.deleted h1 hlt.le hz
      rwa [if_neg (by simp only; omega), if_neg (by simp only; omega)] at hkept
    · rw [if_neg hbottom, hdeleted.gapMoves hbottom, ← bytePos_cutOut_of_le le_rfl (hlt.le.trans hz)]
      have hlen := length_cutOut hlt.le h1 hz
      exact exact_bothPos h1 (by omega)
  have hedit := h₂.edit hdeleted.text (fun c hc => h.valid c (mem_cutOut hc)) hgap fun this hthis =>
    hthis.deleted h1 hlt.le hz
  refine ⟨_, ?_, rfl, hedit⟩
  rw [MuleBuffer.bufferDeleteRange]
  simp only [hclip, hclip', if_neg (show ¬ stop - start ≤ 0 by omega), hconv₁, hconv₂, Option.bind_some,
    Option.map_some, hbuffer₂, hbuffer₁, hscan]
  rfl

theorem Knows.bufferDeleteRange (h : b.Knows firstp t.chars) (ht : b.buffer.HoldsText t) (start stop : ℤ) :
    ∃ b', b.bufferDeleteRange firstp rep start stop = some b' ∧
      b'.buffer = b.buffer.bufferDeleteRange rep start stop ∧ b'.Knows firstp (t.delete start stop).chars := by
  have hclip : (if start < b.buffer.bufbegv then b.buffer.bufbegv else start) =
      if start < t.begv then t.begv else start := by rw [ht.bufbegv]
  have hclip' : (if stop > b.buffer.bufzv then b.buffer.bufzv else stop) = if stop > t.zv then t.zv else stop := by
    rw [ht.bufzv]
  set start' := if start < t.begv then t.begv else start with hstart
  set stop' := if stop > t.zv then t.zv else stop with hstop
  have hstart_le : t.begv ≤ start' := by
    rw [hstart]
    split_ifs <;> omega
  have hle_stop : stop' ≤ t.zv := by
    rw [hstop]
    split_ifs <;> omega
  have hclipped : (if start' < b.buffer.bufbegv then b.buffer.bufbegv else start') = start' :=
    if_neg (by rw [ht.bufbegv]; omega)
  have hclipped' : (if stop' > b.buffer.bufzv then b.buffer.bufzv else stop') = stop' :=
    if_neg (by rw [ht.bufzv]; omega)
  have hmule : b.bufferDeleteRange firstp rep start stop = b.bufferDeleteRange firstp rep start' stop' := by
    rw [MuleBuffer.bufferDeleteRange, MuleBuffer.bufferDeleteRange]
    simp only [hclip, hclip', hclipped, hclipped']
  have hbuffer : b.buffer.bufferDeleteRange rep start stop = b.buffer.bufferDeleteRange rep start' stop' := by
    rw [Buffer.bufferDeleteRange, Buffer.bufferDeleteRange]
    simp only [hclip, hclip', hclipped, hclipped']
  have htext : t.delete start stop = if stop' - start' ≤ 0 then t else t.deleteAt start' stop' := rfl
  rw [hmule, hbuffer, htext]
  by_cases hempty : stop' - start' ≤ 0
  · rw [if_pos hempty, MuleBuffer.bufferDeleteRange, Buffer.bufferDeleteRange]
    simp only [hclipped, hclipped', if_pos hempty]
    exact ⟨b, rfl, rfl, h⟩
  · rw [if_neg hempty]
    exact h.deleteAt ht hstart_le (by omega) hle_stop

end MuleBuffer

/-! ### Runs -/

variable {rep : UInt8 → ℕ} {firstp : UInt8 → Bool} {b b' : MuleBuffer} {t : EditedText rep}

/-- What an event does to the buffer, if not a conversion. -/
def MuleEvent.op : MuleEvent rep → Option (BufferOp rep)
  | .insert pos str beforeMarkers => some (.insert pos str beforeMarkers)
  | .delete start stop => some (.delete start stop)
  | .setPoint pos => some (.setPoint pos)
  | .narrow start stop => some (.narrow start stop)
  | .moveGap pos => some (.moveGap pos Buffer.inhibitQuit)
  | .charbposToBytebpos _ | .bytebposToCharbpos _ => none

def EditedText.stepEvent (t : EditedText rep) (event : MuleEvent rep) : Option (EditedText rep) :=
  match event.op with
  | some op => t.step op
  | none => some t

theorem MuleEvent.step_buffer {buffer buffer' : Buffer} (event : MuleEvent rep) (ht : buffer.HoldsText t)
    {op : BufferOp rep} (hop : event.op = some op) (hs : buffer.step op = some buffer') :
    ∃ t', t.stepEvent event = some t' ∧ buffer'.HoldsText t' := by
  have hpiece : buffer.InOnePiece op := by
    cases event <;> first | (obtain rfl := Option.some.inj hop; exact trivial) | exact nomatch hop
  have hcoded : t.stepAsCoded op = t.stepEvent event := by
    cases event <;> first | (obtain rfl := Option.some.inj hop; rfl) | exact nomatch hop
  obtain ⟨t', ht', htext, -⟩ := Buffer.step_spec ht hpiece hs
  exact ⟨t', hcoded.symm.trans ht', htext⟩

namespace MuleBuffer

theorem Knows.exists_charpos {cs : List (Ichar rep)} (h : b.Knows firstp cs) {x : ℤ}
    (hx : b.validBytebposP firstp x = true) : ∃ p : ℤ, 1 ≤ p ∧ p ≤ 1 + cs.length ∧ x = bytePos cs p := by
  obtain ⟨h1, hz, hfirst⟩ := of_decide_eq_true hx
  by_contra hne
  push Not at hne
  -- then every position of a character is before `x`
  have hlt (n : ℕ) (hn : n ≤ cs.length) : bytePos cs (n + 1) < x := by
    induction n with
    | zero =>
      rw [Nat.cast_zero, zero_add]
      exact lt_of_le_of_ne (by rw [bytePos_one]; exact h1) (hne 1 le_rfl (by omega)).symm
    | succ n ih =>
      have hbefore := ih (by omega)
      by_contra hge
      have hinside : x < bytePos cs (n + 1 + 1) :=
        lt_of_le_of_ne (by push_cast at hge; exact not_lt.mp hge) (hne (n + 1 + 1) (by omega) (by omega))
      have hrest := (h.chars.firstp_byteAt h.valid (p := n + 1) (by omega) (by omega)).2 x hbefore hinside
      have hend := (h.chars.bytePos_mem (p := (n : ℤ) + 1 + 1) (by omega)).2
      rcases hfirst with rfl | hfirst
      · omega
      · exact absurd (hrest.symm.trans hfirst) Bool.false_ne_true
  have hlast := hlt cs.length le_rfl
  rw [h.chars.z, add_comm 1] at hz
  omega

theorem Knows.step (h : b.Knows firstp t.chars) (ht : b.buffer.HoldsText t) {event : MuleEvent rep}
    (hs : b.step firstp event = some b') :
    (event.op.elim (b'.buffer = b.buffer) fun op => b.buffer.step op = some b'.buffer) ∧
      ∃ t', t.stepEvent event = some t' ∧ b'.Knows firstp t'.chars ∧ b'.buffer.HoldsText t' := by
  obtain ⟨hr1, -, -, hr4⟩ := ht.inRange
  cases event with
  | insert pos str beforeMarkers =>
    obtain ⟨hstr, hs⟩ := Option.ite_none_right_eq_some.mp hs
    obtain ⟨hbuffer, hknows⟩ := h.bufferInsertString1 ht hstr pos beforeMarkers
    rw [hs, Option.map_some] at hbuffer
    obtain ⟨t', ht', htext⟩ := (MuleEvent.insert pos str beforeMarkers).step_buffer ht rfl hbuffer.symm
    obtain rfl := Option.some.inj ht'
    refine ⟨hbuffer.symm, _, rfl, ?_, htext⟩
    rw [EditedText.insert_chars]
    exact hknows b' hs
  | delete start stop =>
    obtain ⟨b₁, hb₁, hbuffer, hknows⟩ := h.bufferDeleteRange ht start stop
    obtain rfl := Option.some.inj (hb₁.symm.trans hs)
    obtain ⟨t', ht', htext⟩ := (MuleEvent.delete start stop).step_buffer ht rfl (congrArg some hbuffer.symm)
    obtain rfl := Option.some.inj ht'
    exact ⟨congrArg some hbuffer.symm, _, rfl, hknows, htext⟩
  | setPoint pos =>
    obtain ⟨hpos, hs⟩ := Option.ite_none_right_eq_some.mp hs
    have hmem := hpos
    rw [ht.bufbegv, ht.bufzv] at hmem
    obtain ⟨b₁, hset, hbuffer, hknows⟩ := h.setPoint (hr1.trans hmem.1) (hmem.2.trans hr4)
    obtain rfl := Option.some.inj (hset.symm.trans hs)
    have hstep : b.buffer.step (.setPoint pos : BufferOp rep) = some b₁.buffer := by
      rw [Buffer.step, if_pos hpos, ht.charbposToBytebpos, hbuffer]
    obtain ⟨t', ht', htext⟩ := (MuleEvent.setPoint pos).step_buffer ht rfl hstep
    obtain ⟨-, ht''⟩ := Option.ite_none_right_eq_some.mp ht'
    obtain rfl := Option.some.inj ht''
    rw [← EditedText.setPoint_chars t pos] at hknows
    exact ⟨hstep, _, ht', hknows, htext⟩
  | narrow start stop =>
    obtain ⟨hpos, hs⟩ := Option.ite_none_right_eq_some.mp hs
    have hmem := hpos
    rw [h.bufz] at hmem
    obtain ⟨b₁, hnarrow, hbuffer, hknows⟩ := h.narrowToRegion hmem.1 hmem.2.1 hmem.2.2
    obtain rfl := Option.some.inj (hnarrow.symm.trans hs)
    have hstep : b.buffer.step (.narrow start stop : BufferOp rep) = some b₁.buffer := by
      rw [Buffer.step, if_pos hpos, hbuffer]
    obtain ⟨t', ht', htext⟩ := (MuleEvent.narrow start stop).step_buffer ht rfl hstep
    obtain ⟨-, ht''⟩ := Option.ite_none_right_eq_some.mp ht'
    obtain rfl := Option.some.inj ht''
    refine ⟨hstep, _, ht', ?_, htext⟩
    rw [EditedText.narrow_eq t hmem.2.1, EditedText.setPoint_chars]
    exact hknows
  | moveGap pos =>
    obtain ⟨hpos, hs⟩ := Option.ite_none_right_eq_some.mp hs
    have hmem := hpos
    rw [ht.bufz] at hmem
    obtain ⟨b₁, hmove, hbuffer, hknows⟩ := h.moveGap ht hmem.1 hmem.2
    obtain rfl := Option.some.inj (hmove.symm.trans hs)
    have hstep : b.buffer.step (.moveGap pos Buffer.inhibitQuit : BufferOp rep) = some b₁.buffer := by
      rw [Buffer.step, if_pos hpos, ht.charbposToBytebpos, hbuffer]
    obtain ⟨t', ht', htext⟩ := (MuleEvent.moveGap pos).step_buffer ht rfl hstep
    obtain ⟨-, ht''⟩ := Option.ite_none_right_eq_some.mp ht'
    obtain rfl := Option.some.inj ht''
    exact ⟨hstep, _, ht', hknows, htext⟩
  | charbposToBytebpos x =>
    obtain ⟨hx, hs⟩ := Option.ite_none_right_eq_some.mp hs
    rw [h.bufz] at hx
    obtain ⟨b₁, hconv, h₁, hbuffer⟩ := h.charbposToBytebpos hx.1 hx.2
    rw [hconv, Option.map_some] at hs
    obtain rfl := Option.some.inj hs
    exact ⟨hbuffer, t, rfl, h₁, hbuffer ▸ ht⟩
  | bytebposToCharbpos x =>
    obtain ⟨hx, hs⟩ := Option.ite_none_right_eq_some.mp hs
    obtain ⟨p, h1, hz, rfl⟩ := h.exists_charpos hx
    obtain ⟨b₁, hconv, h₁, hbuffer⟩ := h.bytebposToCharbpos h1 hz
    rw [hconv, Option.map_some] at hs
    obtain rfl := Option.some.inj hs
    exact ⟨hbuffer, t, rfl, h₁, hbuffer ▸ ht⟩

theorem knows_init (rep : UInt8 → ℕ) (firstp : UInt8 → Bool) (mem : ℤ → UInt8) :
    (init mem).Knows firstp (EditedText.init rep).chars := by
  have ht := Buffer.holdsText_init rep mem
  have hgap : Exact (EditedText.init rep).chars ⟨1, 1⟩ := exact_bothPos le_rfl le_rfl
  exact ⟨ht.holdsChars, ht.bufz, fun c hc => absurd hc List.not_mem_nil, exact_places ht hgap hgap,
    fun this hmem => absurd hmem List.not_mem_nil, Nat.zero_le _, rfl⟩

/-- After every run the buffer holds the text that the edits make, conversions are exact and
inverse, and so is every position that has been kept. -/
theorem run_conversions_exact (mem : ℤ → UInt8) {events : List (MuleEvent rep)}
    (h : Run (MuleBuffer.step firstp) anyStep (init mem) events b) :
    ∃ t, Run EditedText.stepEvent anyStep (EditedText.init rep) events t ∧
      b.buffer.text = itextBytes t.chars ∧ b.buffer.bufz = t.z ∧
      (∀ x, 1 ≤ x → x ≤ t.z →
        (∃ b', b.charbposToBytebpos firstp x = some (b', bytePos t.chars x)) ∧
        ∃ b', b.bytebposToCharbpos firstp (bytePos t.chars x) = some (b', x)) ∧
      (b.buffer.bufz ≠ b.buffer.z → ∀ x, 1 ≤ x → x ≤ t.z →
        (∃ b', b.charbposToBytebposFunc firstp x = some (b', bytePos t.chars x)) ∧
        ∃ b', b.bytebposToCharbposFunc firstp (bytePos t.chars x) = some (b', x)) ∧
      b.muleCache.length ≤ numCachedPositions ∧
      ∀ p ∈ b.cached :: b.muleCache, 1 ≤ p.charpos ∧ p.charpos ≤ t.z ∧
        p.bytepos = bytePos t.chars p.charpos := by
  obtain ⟨t, hrun, hk, ht⟩ := h.simulation (R := fun b (t : EditedText rep) =>
      b.Knows firstp t.chars ∧ b.buffer.HoldsText t)
    ⟨knows_init rep firstp mem, Buffer.holdsText_init rep mem⟩ fun b event b' t hR _ hs => (hR.1.step hR.2 hs).2
  refine ⟨t, hrun, ht.text, ht.bufz, fun x h1 hz => ?_, fun hmixed x h1 hz => ?_, hk.length_le, fun p hp => ?_⟩
  · obtain ⟨b₁, hchar, -⟩ := hk.charbposToBytebpos h1 hz
    obtain ⟨b₂, hbyte, -⟩ := hk.bytebposToCharbpos h1 hz
    exact ⟨⟨b₁, hchar⟩, b₂, hbyte⟩
  · obtain ⟨b₁, hchar, -⟩ := hk.charbposToBytebposFunc hmixed h1 hz
    obtain ⟨b₂, hbyte, -⟩ := hk.bytebposToCharbposFunc hmixed h1 hz
    exact ⟨⟨b₁, hchar⟩, b₂, hbyte⟩
  · have hexact : Exact t.chars p := (List.mem_cons.mp hp).elim (fun heq => heq ▸ hk.cached) (hk.cache p)
    exact ⟨hexact.one_le, hexact.le_end, hexact.bytepos_eq⟩

theorem run_conversions_exact_mixed :
    ∃ b : MuleBuffer, b.buffer.text = [97, 120, 0x81, 0xe9] ∧ b.cached = ⟨4, 5⟩ ∧
      ∃ b', b.charbposToBytebposFunc ibyteFirstByteP 4 = some (b', 5) := by
  let events : List (MuleEvent repBytesByFirstByte) :=
    [.insert 1 [⟨97, [], by decide⟩, ⟨0x81, [0xe9], by decide⟩, ⟨98, [], by decide⟩] false,
      .moveGap 2, .charbposToBytebpos 3, .insert 2 [⟨120, [], by decide⟩] false, .delete 4 5]
  have hexec : (exec (MuleBuffer.step ibyteFirstByteP) (init fun _ => 0) events).any
      (fun b => decide (b.buffer.text = [97, 120, 0x81, 0xe9] ∧ b.cached = ⟨4, 5⟩ ∧
        b.buffer.bufz ≠ b.buffer.z)) = true := by decide +kernel
  obtain ⟨b, hrun, htext, hcached, hmixed⟩ := exists_run_of_exec hexec
  obtain ⟨t, hrun', -, -, -, hfunc, -⟩ := run_conversions_exact (fun _ => 0) hrun
  have ht : (exec EditedText.stepEvent (EditedText.init _) events).map (fun t => (t.z, bytePos t.chars 4)) =
      some (4, 5) := by decide +kernel
  rw [hrun'.exec_eq] at ht
  obtain ⟨hz, hpos⟩ := Prod.ext_iff.mp (Option.some.inj ht)
  obtain ⟨⟨b', hb'⟩, -⟩ := hfunc hmixed 4 (by decide) hz.ge
  exact ⟨b, htext, hcached, b', hb'.trans (congrArg (fun p => some (b', p)) hpos)⟩

end MuleBuffer

end XEmacs.Text
