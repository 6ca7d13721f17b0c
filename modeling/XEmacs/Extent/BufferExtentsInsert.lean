import XEmacs.Extent.BufferExtentsGap
import XEmacs.Extent.MapInvariant

/-! Buffers with extents when text is inserted: while `process_extents_for_insertion` goes over
the extents, all of them begin and end at characters, but not inside the new text. -/

namespace XEmacs.Extents

open Lib Lib.Gap Text

variable {rep : UInt8 → ℕ} {s s' : ExtentInfo} {stamp : ℕ → ℤ} {b : Buffer} {t : EditedText rep} {α : Type}
  {fn : Mapper α} {Q : Extent → Prop}

def ExtentInfo.Each (Q : Extent → Prop) (s : ExtentInfo) : Prop :=
  (∃ stamp, s.Ordered stamp) ∧ ∀ e ∈ s.attached, Q (s.ext e)

theorem ExtentInfo.Each.of_ext (h : s.Each Q) (hord : s'.Ordered stamp) (hext : s'.ext = s.ext) : s'.Each Q := by
  refine ⟨⟨stamp, hord⟩, fun e he => ?_⟩
  rw [hext]
  apply h.2 e
  rwa [ExtentInfo.attached, hext] at he

theorem Mapper.preserves_each
    (hfn : ∀ s a e s' a' stopped, s.Each Q → e ∈ s.attached → fn s a e = some (s', a', stopped) → s'.Each Q) :
    fn.Preserves (ExtentInfo.Each Q) where
  ordered s h := h.1
  sameLists s s' h hsame := by
    obtain ⟨stamp, hord⟩ := h.1
    exact h.of_ext (hord.of_sameLists hsame) hsame.ext
  soeMove s s' pos h hmove := by
    obtain ⟨stamp, hord⟩ := h.1
    obtain ⟨sel, hmove', hord'⟩ := hord.soeMove pos
    obtain rfl := Option.some.inj (hmove.symm.trans hmove')
    exact h.of_ext hord' rfl
  apply := hfn

theorem ExtentInfo.Each.setExtentEndpoints1 (h : s.Each Q) {e : ℕ} (he : e ∈ s.attached) {start stop : ℤ}
    (h0 : 0 ≤ start) (hle : start ≤ stop) (hQ : Q { s.ext e with start := start, stop := stop })
    (hs : s.setExtentEndpoints1 e start stop = some s') : s'.Each Q := by
  obtain ⟨stamp, hord⟩ := h.1
  obtain ⟨r, stamp', hset, hord', hext, -, -⟩ := hord.setExtentEndpoints1 start stop (hord.used e he) h0 hle
  obtain rfl := Option.some.inj (hs.symm.trans hset)
  refine ⟨⟨stamp', hord'⟩, fun a ha => ?_⟩
  rw [ExtentInfo.attached, Set.mem_ofPred_eq] at ha
  rw [hext, ExtentInfo.setStartEnd_ext] at ha ⊢
  by_cases hae : a = e
  · rw [hae, Function.update_self]
    exact hQ
  · rw [Function.update_of_ne hae] at ha ⊢
    exact h.2 a ha

/-- An extent while an insertion of `n` bytes at the gap, at `g`, is processed: its endpoints
are at characters of the new text, but not inside what is inserted. -/
def Inserting (b : Buffer) (t : EditedText rep) (g n : ℤ) (x : Extent) : Prop :=
  (∀ endp, BufferExtents.AtChar b t (x.endpoint endp) ∧ (x.endpoint endp ≤ g ∨ g + n ≤ x.endpoint endp)) ∧
    x.start ≤ x.stop

theorem processForInsertionMapper_preserves {g n : ℤ} (h1 : 1 ≤ g) (hn : 0 ≤ n) (hg : b.gpt = g + n)
    (hend : BufferExtents.AtChar b t (g + n)) :
    (processForInsertionMapper b g n).Preserves (ExtentInfo.Each (Inserting b t g n)) := by
  apply Mapper.preserves_each
  intro s a e s' a' stopped h he hs
  have hindice : b.bytebposToMembpos g = g := if_neg (by omega)
  rw [processForInsertionMapper] at hs
  simp only [hindice] at hs
  obtain ⟨r, hset, heq⟩ := Option.map_eq_some_iff.mp hs
  obtain ⟨rfl, -⟩ := Prod.mk.inj heq
  obtain ⟨hends, hle⟩ := h.2 e he
  have hstart := hends false
  have hstop := hends true
  simp only [Extent.endpoint, Bool.false_eq_true, if_false, if_true] at hstart hstop
  have h0 : (0 : ℤ) ≤ (s.ext e).start := he
  set newStart := if g = (s.ext e).start ∧ (s.ext e).startOpen = true ∧
    ¬ ((s.ext e).start = (s.ext e).stop ∧ (s.ext e).endOpen = true) then (s.ext e).start + n else (s.ext e).start with hnewStart
  set newEnd := if g = (s.ext e).stop ∧ ¬ (s.ext e).endOpen = true then (s.ext e).stop + n else (s.ext e).stop with hnewEnd
  have hle' : newStart ≤ newEnd := by
    rw [hnewStart, hnewEnd]
    split_ifs with hc hd hd
    · omega
    · -- an extent that is open at the end and moved at the start is not of zero length
      rcases eq_or_ne (s.ext e).start (s.ext e).stop with hzero | hne
      · have hopen : (s.ext e).endOpen = true := by
          by_contra hclosed
          exact hd ⟨hc.1.trans hzero, hclosed⟩
        exact absurd ⟨hzero, hopen⟩ hc.2.2
      · omega
    · omega
    · exact hle
  have hstart' : BufferExtents.AtChar b t newStart ∧ (newStart ≤ g ∨ g + n ≤ newStart) := by
    rw [hnewStart]
    split_ifs with hc
    · rw [← hc.1]
      exact ⟨hend, .inr le_rfl⟩
    · exact hstart
  have hstop' : BufferExtents.AtChar b t newEnd ∧ (newEnd ≤ g ∨ g + n ≤ newEnd) := by
    rw [hnewEnd]
    split_ifs with hc
    · rw [← hc.1]
      exact ⟨hend, .inr le_rfl⟩
    · exact hstop
  have h0' : 0 ≤ newStart := by
    rw [hnewStart]
    split_ifs <;> omega
  refine h.setExtentEndpoints1 he h0' hle' ⟨fun endp => ?_, hle'⟩ hset
  cases endp with
  | false => exact hstart'
  | true => exact hstop'

namespace BufferExtents

variable {s s' : BufferExtents}

theorem moveAfterInsert_gap (b : Buffer) (bytepos length : ℤ) (movePoint beforeMarkers : Bool) :
    (b.moveAfterInsert rep bytepos length movePoint beforeMarkers).gpt = b.gpt ∧
      (b.moveAfterInsert rep bytepos length movePoint beforeMarkers).gapSize = b.gapSize := by
  rw [Buffer.moveAfterInsert]
  have hpoint (charbpos bytpos : ℤ) : (b.setBufferPoint charbpos bytpos).gpt = b.gpt ∧
      (b.setBufferPoint charbpos bytpos).gapSize = b.gapSize := by
    rw [Buffer.setBufferPoint]
    split_ifs <;> exact ⟨rfl, rfl⟩
  cases movePoint <;> cases beforeMarkers
  · exact ⟨rfl, rfl⟩
  · exact ⟨rfl, rfl⟩
  · exact hpoint _ _
  · exact hpoint _ _

theorem AtChar.insert {p m : ℤ} {str : List (Ichar rep)} {b' : Buffer} {t' : EditedText rep} (hgap : 0 ≤ b.gapSize)
    (hm : AtChar b t m) (hp : 1 ≤ p ∧ p ≤ 1 + t.chars.length) (hg : b.gpt = bytePos t.chars p)
    (hgpt : b'.gpt = b.gpt + (itextBytes str).length) (hsize : b'.gapSize = b.gapSize - (itextBytes str).length)
    (hroom : (itextBytes str).length ≤ b.gapSize) (ht' : t'.chars = spliceIn t.chars p str) :
    AtChar b' t' m ∧ (m ≤ b.gpt ∨ b.gpt + (itextBytes str).length ≤ m) := by
  obtain ⟨hoff, c, h1, hz, hdec⟩ := hm
  have hlen : t'.z = t.z + str.length := by
    rw [EditedText.z, EditedText.z, ht', length_spliceIn]
    omega
  rw [AtChar, hgpt, hsize, hlen, ht']
  rcases hoff with hle | hgt
  · rw [decode_of_le hle] at hdec
    have hc : c ≤ p := by
      by_contra hlt
      have hlt' := (bytePos_lt_iff hp.1 hz).mpr (not_le.mp hlt)
      omega
    refine ⟨⟨.inl (by omega), c, h1, by omega, ?_⟩, .inl hle⟩
    rw [decode_of_le (by omega), bytePos_spliceIn_of_le hc hp.2]
    exact hdec
  · rw [decode_of_ge hgap hgt.le] at hdec
    have hc : p ≤ c := by
      by_contra hlt
      have hlt' := (bytePos_lt_iff h1 hp.2).mpr (not_le.mp hlt)
      omega
    refine ⟨⟨.inr (by omega), c + str.length, by omega, by omega, ?_⟩, .inr (by omega)⟩
    rw [decode_of_ge (by omega) (by omega), bytePos_spliceIn_of_ge hp.1 hc hp.2, ← hdec]
    omega

theorem Holds.bufferInsertString1 (h : s.Holds t stamp) (hsoe : s.SoeInText) (hfit : s.buf.allocated < 2 ^ 30)
    {fuel : ℕ} {pos : ℤ} {str : List (Ichar rep)} {beforeMarkers : Bool}
    (hroom : ∀ r, s.buf.makeRoom rep (s.buf.clipPos (if pos = -1 then s.buf.bufpt else pos))
      (s.buf.charbposToBytebpos rep (s.buf.clipPos (if pos = -1 then s.buf.bufpt else pos)))
        (itextBytes str).length = some r → r.allocated < 2 ^ 30)
    (hs : s.bufferInsertString1 rep fuel pos (itextBytes str) beforeMarkers = some s') :
    (∃ stamp', s'.Holds (t.insert pos str beforeMarkers) stamp') ∧
      s.buf.bufferInsertString1 rep pos (itextBytes str) beforeMarkers = some s'.buf := by
  have ht := h.text
  obtain ⟨hr1, hr2, hr3, hr4⟩ := ht.inRange
  rw [BufferExtents.bufferInsertString1] at hs
  simp only at hs
  set p := s.buf.clipPos (if pos = -1 then s.buf.bufpt else pos) with hp
  have hptext : p = t.clipPos (if pos = -1 then t.pt else pos) := by rw [hp, ht.clipPos, ht.bufpt]
  have hpin : t.begv ≤ p ∧ p ≤ t.zv := hptext ▸ ht.inRange.clipPos _
  have hpz : 1 ≤ p ∧ p ≤ 1 + t.chars.length := ⟨hr1.trans hpin.1, hpin.2.trans hr4⟩
  rw [ht.charbposToBytebpos] at hs hroom
  by_cases hlarge : mostPositiveFixnum - 1 - s.buf.bufz < bytecountToCharcount rep (itextBytes str)
  · rw [if_pos hlarge] at hs
    contradiction
  rw [if_neg hlarge] at hs
  have hbound := ht.bytePos_mem hpz.2
  obtain ⟨r, hr, hs⟩ := Option.bind_eq_some_iff.mp hs
  obtain ⟨info, hinfo, rfl⟩ := Option.map_eq_some_iff.mp hs
  have hrbuf : s.buf.makeRoom rep p (bytePos t.chars p) (itextBytes str).length = some r.buf := by
    rw [← makeRoom_buf, hr]
    rfl
  have hbuf : s.buf.bufferInsertString1 rep pos (itextBytes str) beforeMarkers = some
      ((r.buf.insertAtGap (bytePos t.chars p) (itextBytes str) (bytecountToCharcount rep (itextBytes str))).moveAfterInsert
        rep (bytePos t.chars p) (itextBytes str).length (decide (pos = -1)) beforeMarkers) := by
    rw [Buffer.bufferInsertString1]
    rw [if_neg hlarge, ← hp, ht.charbposToBytebpos, hrbuf]
    rfl
  have hmoved := h.makeRoom hsoe hfit hbound.1 hbound.2 hr (hroom _ hrbuf)
  obtain ⟨-, -, -, hgpt, hsize⟩ := Buffer.makeRoom_spec rep ht.layout hbound.1 hbound.2 hrbuf
  obtain ⟨htext, -⟩ := Buffer.bufferInsertString1_spec ht hbuf
  set n : ℤ := ((itextBytes str).length : ℤ) with hn
  set b := r.buf.insertAtGap (bytePos t.chars p) (itextBytes str) (bytecountToCharcount rep (itextBytes str)) with hb
  set t' := t.insert pos str beforeMarkers with ht'
  have hchars : t'.chars = spliceIn t.chars p str := by
    rw [ht', EditedText.insert_chars, ← hptext]
  have hbgpt : b.gpt = r.buf.gpt + n := by
    rw [hb, Buffer.insertAtGap_eq]
  have hbsize : b.gapSize = r.buf.gapSize - n := by
    rw [hb, Buffer.insertAtGap_eq]
  have hn0 : 0 ≤ n := Int.natCast_nonneg _
  have hfits : n < 2 ^ 31 := by
    have hall := le_allocated hmoved.sameText.layout
    have hend := hmoved.sameText.layout.endGap_nonneg
    have hlt := hroom _ hrbuf
    omega
  have hchar {m : ℤ} (hm : AtChar r.buf t m) : AtChar b t' m ∧ (m ≤ r.buf.gpt ∨ r.buf.gpt + n ≤ m) :=
    hm.insert (by omega) hpz hgpt hbgpt hbsize (by omega) hchars
  have hend : AtChar b t' (r.buf.gpt + n) := by
    refine ⟨.inl hbgpt.ge, p + str.length, by omega, ?_, ?_⟩
    · rw [EditedText.z, hchars, length_spliceIn]
      push_cast
      omega
    · rw [decode_of_le hbgpt.ge, hchars, bytePos_spliceIn_of_ge hpz.1 le_rfl hpz.2, hgpt]
  -- before the mapping no extent reaches into the new text
  have heach : r.info.Each (Inserting b t' r.buf.gpt n) := by
    refine ⟨⟨stamp, hmoved.holds.ordered⟩, fun e he => ⟨fun endp => ?_, hmoved.holds.ordered.proper e he⟩⟩
    obtain ⟨hstart, hstop⟩ := hmoved.holds.atChar e he
    cases endp with
    | false => exact hchar hstart
    | true => exact hchar hstop
  have hone : 1 ≤ r.buf.gpt := hmoved.sameText.layout.one_le_gpt
  rw [ExtentInfo.processExtentsForInsertion, ← hgpt, Buffer.toInt_eq hn0 hfits] at hinfo
  obtain ⟨⟨info', u⟩, hmap, rfl⟩ := Option.map_eq_some_iff.mp hinfo
  obtain ⟨⟨stamp', hord'⟩, heach'⟩ :=
    mapExtents_preserves (processForInsertionMapper_preserves hone hn0 hbgpt hend) rfl heach hmap
  obtain ⟨hagpt, hasize⟩ := @moveAfterInsert_gap rep b (bytePos t.chars p) n (decide (pos = -1)) beforeMarkers
  refine ⟨⟨stamp', htext, hord', fun e he => ?_⟩, hbuf⟩
  have hends := (heach' e he).1
  rw [AtChar, AtChar, hagpt, hasize]
  exact ⟨(hends false).1, (hends true).1⟩

end BufferExtents

end XEmacs.Extents
