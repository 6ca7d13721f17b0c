import XEmacs.Coding.UnicodeMarkStart
import XEmacs.Coding.UnicodeRoundTrip

/-! How many characters a Unicode decoder says that it has put out. The count is exact until a byte
interrupts a sequence of UTF-8, whose octets are put out but not counted, or until a mark at the
start is counted and not put out. -/

namespace XEmacs.Coding.Unicode

open Lib

/-- `unicode_character_tell`. -/
def characterTell (data : UnicodeCodingStream) : ℕ := data.charactersSeen

namespace UnicodeCodingSystem

variable {cs : UnicodeCodingSystem} {data data' : UnicodeCodingStream} {c : Byte} {src : List Byte} {out : List ℕ}
  {r : UnicodeCodingStream × List ℕ}

/-- After each call the stream tells how many characters have been put out, where `n` had been
before. The last call is at the end of the file. -/
def TellsExactly (cs : UnicodeCodingSystem) : UnicodeCodingStream → ℕ → List (List Byte) → Prop
  | _, _, [] => True
  | data, n, [src] => ∀ r, cs.unicodeDecode data src true = some r → characterTell r.1 = n + r.2.length
  | data, n, src :: chunk :: chunks => ∀ r, cs.unicodeDecode data src false = some r →
    characterTell r.1 = n + r.2.length ∧ TellsExactly cs r.1 (n + r.2.length) (chunk :: chunks)

/-- How many bytes a sequence of UTF-8 waits for after a byte, if it waited for `n` before. -/
def waits (cs : UnicodeCodingSystem) (n : ℕ) (c : Byte) : ℕ :=
  if n = 0 then
    if c.val &&& 0x80 = 0 then 0
    else if c.val &&& 0x40 = 0 then 0
    else if c.val &&& 0x20 = 0 then 1
    else if c.val &&& 0x10 = 0 then 2
    else if c.val &&& 0x08 = 0 then 3
    else if cs.allowPrivate ∧ c.val &&& 0x04 = 0 then 4
    else if cs.allowPrivate ∧ c.val &&& 0x02 = 0 then 5
    else 0
  else if c.val &&& 0x80 = 0 ∨ c.val &&& 0x40 ≠ 0 then 0
  else n - 1

def interrupted (cs : UnicodeCodingSystem) : ℕ → List Byte → Bool
  | _, [] => false
  | n, c :: src => (n ≠ 0 ∧ (c.val &&& 0x80 = 0 ∨ c.val &&& 0x40 ≠ 0)) || interrupted cs (cs.waits n c) src

def asciiStart (cs : UnicodeCodingSystem) (src : List Byte) : List Byte :=
  if cs.type = .utf8 then src.takeWhile byteAsciiP else []

def afterAscii (cs : UnicodeCodingSystem) (src : List Byte) : List Byte :=
  if cs.type = .utf8 then src.dropWhile byteAsciiP else src

/-- The bytes start with a mark, in UTF-8 after any ASCII. -/
def startsWithMark (cs : UnicodeCodingSystem) (src : List Byte) : Prop :=
  cs.encodeUnicodeToDynarr 0xfeff <+: cs.afterAscii src

theorem decodeFirstByte_waits (hbom : cs.needBom = false) (hcounter : data.counter = 0) (h : cs.decodeFirstByte data c = some r) :
    r.1.counter = cs.waits 0 c := by
  have hstart {ch counter : ℕ} (h : startSequence ch counter data = some r) : r.1.counter = counter := by
    rw [← Option.some.inj h]
  rw [decodeFirstByte] at h
  rw [waits, if_pos rfl]
  split_ifs at h ⊢
  · exact (steps_char hbom rfl h).2.2.trans hcounter
  · exact (steps_octet rfl h).2.2.trans hcounter
  · exact hstart h
  · exact hstart h
  · exact hstart h
  · exact hstart h
  · exact hstart h
  · exact (steps_octet rfl h).2.2.trans hcounter

theorem decodeStep_waits (hbom : cs.needBom = false) (htype : cs.type = .utf8) (h : cs.decodeStep data c = some r) :
    r.1.counter = cs.waits data.counter c := by
  by_cases hshort : cs.shortcut data c
  · rw [decodeStep_shortcut hshort] at h
    have hlt : c.val < 0x80 := by simpa [byteAsciiP, Fin.lt_def] using hshort.2.2
    rw [← Option.some.inj h, waits, if_pos hshort.2.1, if_pos ((bit7 c).mpr hlt)]
    exact hshort.2.1
  rw [decodeStep_utf8 htype hshort] at h
  by_cases hfirst : data.counter = 0
  · rw [UnicodeCodingSystem.decodeUtf8, if_pos hfirst] at h
    rw [hfirst]
    exact decodeFirstByte_waits hbom hfirst h
  rw [waits, if_neg hfirst]
  rw [UnicodeCodingSystem.decodeUtf8, if_neg hfirst] at h
  split_ifs at h ⊢ with hint
  · exact (decodeInterruption_spec hbom h).2.2
  · simp only at h
    split_ifs at h with hlast
    · exact (decodeSequence_spec hbom hlast h).2.2.trans hlast.symm
    · rw [← Option.some.inj h]

theorem transduce_counted (hbom : cs.needBom = false) (hint : cs.type = .utf8 → cs.interrupted data.counter src = false)
    (h : transduce cs.decodeStep data src = some r) : r.1.charactersSeen = data.charactersSeen + r.2.length := by
  induction src generalizing data r with
  | nil =>
    rw [transduce] at h
    rw [← Option.some.inj h]
    rfl
  | cons c src ih =>
    rw [transduce] at h
    obtain ⟨r₁, h₁, h⟩ := Option.bind_eq_some_iff.mp h
    obtain ⟨r₂, h₂, rfl⟩ := Option.map_eq_some_iff.mp h
    have hstep : r₁.1.charactersSeen = data.charactersSeen + r₁.2.length := by
      by_cases hshort : cs.shortcut data c
      · rw [decodeStep_shortcut hshort] at h₁
        rw [← Option.some.inj h₁]
        rfl
      · have hcounted := (decodeStep_spec hbom hshort h₁).1.counted
        rw [if_neg] at hcounted
        · exact hcounted
        · rintro ⟨htype, hnot⟩
          have hnone := hint htype
          rw [interrupted, Bool.or_eq_false_iff] at hnone
          exact of_decide_eq_false hnone.1 hnot
    have hrest := ih (fun htype => by
      have hnone := hint htype
      rw [interrupted, Bool.or_eq_false_iff] at hnone
      rw [decodeStep_waits hbom htype h₁]
      exact hnone.2) h₂
    rw [hrest, hstep, List.length_append, Nat.add_assoc]

theorem exists_uncounted (hbom : cs.needBom = false) (htype : cs.type = .utf8) (hsound : Sound data)
    (hint : cs.interrupted data.counter src = true) : ∃ pre, pre <+: src ∧ ∃ r, transduce cs.decodeStep data pre = some r ∧
      r.1.charactersSeen < data.charactersSeen + r.2.length := by
  induction src generalizing data with
  | nil => exact absurd hint Bool.false_ne_true
  | cons c src ih =>
    obtain ⟨r, hr, hsound'⟩ := hsound.decodeStep hbom htype c
    by_cases hnow : data.counter ≠ 0 ∧ (c.val &&& 0x80 = 0 ∨ c.val &&& 0x40 ≠ 0)
    · refine ⟨[c], ⟨src, rfl⟩, r, (transduce_singleton _ _ _).trans hr, ?_⟩
      have hcounted := (decodeStep_spec hbom (fun hshort => hnow.1 hshort.2.1) hr).1.counted
      rw [if_pos ⟨htype, hnow⟩] at hcounted
      have hlt := (hsound hnow.1).2.2
      omega
    · rw [interrupted, decide_eq_false hnow, Bool.false_or, ← decodeStep_waits hbom htype hr] at hint
      obtain ⟨pre, hpre, r', hr', hlt⟩ := ih hsound' hint
      refine ⟨c :: pre, List.cons_prefix_cons.mpr ⟨rfl, hpre⟩, _, transduce_cons hr hr', ?_⟩
      have hle : r.1.charactersSeen ≤ data.charactersSeen + r.2.length := by
        by_cases hshort : cs.shortcut data c
        · rw [decodeStep_shortcut hshort] at hr
          rw [← Option.some.inj hr]
          exact le_rfl
        · have hcounted := (decodeStep_spec hbom hshort hr).1.counted
          omega
      show r'.1.charactersSeen < data.charactersSeen + (r.2 ++ r'.2).length
      rw [List.length_append]
      omega

theorem head?_of_octets {step : UnicodeCodingStream → Byte → Option (UnicodeCodingStream × List ℕ)} {n k ch : ℕ} (hn : n ≠ 0)
    (hstep : step data c = (cs.decodeErrorOctets data' (cs.octets n ch)).map (count k))
    (h : transduce step data (c :: src) = some r) : r.2.head? ≠ some 0xfeff := by
  cases hoctets : cs.decodeErrorOctets data' (cs.octets n ch) with
  | none =>
    rw [transduce, hstep, hoctets] at h
    exact absurd h (Option.some_ne_none r).symm
  | some r₁ =>
    have hne : r₁.2 ≠ [] := by
      intro hnil
      have hlength := congrArg List.length (hnil.symm.trans (congrArg Prod.snd (decodeErrorOctets_spec hoctets)))
      rw [List.length_map, length_octets] at hlength
      exact hn hlength.symm
    rw [hoctets, Option.map_some] at hstep
    have hhead : r₁.2.head? ≠ some 0xfeff := errorOctets_head? hoctets
    rw [transduce_cons_head? hstep hne h]
    exact hhead

theorem eq_mark_of_char {step : UnicodeCodingStream → Byte → Option (UnicodeCodingStream × List ℕ)} {u : ℤ}
    (hbom : cs.needBom = false) (hstep : step data c = (cs.decodeUnicodeToDynarr0 u data').map (count 1))
    (h : transduce step data (c :: src) = some r) (hmark : r.2.head? = some 0xfeff) : u.toNat = 0xfeff := by
  cases hchar : cs.decodeUnicodeToDynarr0 u data' with
  | none =>
    rw [transduce, hstep, hchar] at h
    exact absurd h (Option.some_ne_none r).symm
  | some r₁ =>
    have hout : (count 1 r₁).2 = [u.toNat] := congrArg Prod.snd (decodeUnicodeToDynarr0_spec hbom hchar)
    have hne : (count 1 r₁).2 ≠ [] := hout ▸ List.cons_ne_nil _ _
    rw [hchar, Option.map_some] at hstep
    rwa [transduce_cons_head? hstep hne h, hout, List.head?_cons, Option.some.injEq] at hmark

theorem mark_utf16 (hbom : cs.needBom = false) (htype : cs.type = .utf16) (hholds : cs.Holds data [])
    (h : transduce cs.decodeUtf16 data src = some r) (hmark : r.2.head? = some 0xfeff) :
    cs.encodeUnicodeToDynarr 0xfeff <+: src := by
  match src with
  | [] =>
    obtain rfl := Option.some.inj h
    exact absurd hmark nil_head?_ne
  | [a] =>
    obtain ⟨data₁, hfirst, -, -⟩ := decodeUtf16_odd hholds (.inl rfl) a
    rw [transduce_singleton, hfirst] at h
    obtain rfl := Option.some.inj h
    exact absurd hmark nil_head?_ne
  | a :: b :: src =>
    obtain ⟨data₁, hfirst, -, h₁⟩ := decodeUtf16_odd hholds (.inl rfl) a
    rw [transduce_cons_silent hfirst] at h
    have hsecond := decodeUtf16_second h₁ b
    by_cases hlead : validUnicodeLeadingSurrogate (cs.bitsOf [a, b])
    · rw [if_pos hlead] at hsecond
      rw [transduce_cons_silent hsecond] at h
      have h₂ : cs.Holds (cs.takeByte data₁ b) [a, b] := h₁.takeByte (by simp) b
      match src with
      | [] =>
        obtain rfl := Option.some.inj h
        exact absurd hmark nil_head?_ne
      | [c] =>
        obtain ⟨data₃, hthird, -, -⟩ := decodeUtf16_odd h₂ (.inr rfl) c
        rw [transduce_singleton, hthird] at h
        obtain rfl := Option.some.inj h
        exact absurd hmark nil_head?_ne
      | c :: d :: src =>
        obtain ⟨data₃, hthird, -, h₃⟩ := decodeUtf16_odd h₂ (.inr rfl) c
        rw [transduce_cons_silent hthird] at h
        have hfourth := decodeUtf16_fourth h₃ d
        split_ifs at hfourth with hpair
        · rw [transduce, hfourth] at h
          exact absurd h (Option.some_ne_none r).symm
        · exact absurd hmark (head?_of_octets (by decide) hfourth h)
    rw [if_neg hlead] at hsecond
    split_ifs at hsecond with htrail
    · exact absurd hmark (head?_of_octets (by decide) hsecond h)
    · have hbits : cs.bitsOf [a, b] = 0xfeff := eq_mark_of_char hbom hsecond h hmark
      rw [← hbits, encodeUnicodeToDynarr_bitsOf htype]
      exact List.prefix_append [a, b] src

theorem mark_utf32 (hbom : cs.needBom = false) (htype : cs.type = .ucs4 ∨ cs.type = .utf32) (hholds : cs.Holds data [])
    (h : transduce cs.decodeUtf32 data src = some r) (hmark : r.2.head? = some 0xfeff) :
    cs.encodeUnicodeToDynarr 0xfeff <+: src := by
  have hsilent {l : List Byte} {data : UnicodeCodingStream} (hholds : cs.Holds data l) (hl : l.length < 3) {c : Byte}
      {src : List Byte} (h : transduce cs.decodeUtf32 data (c :: src) = some r) :
      ∃ data', cs.Holds data' (l ++ [c]) ∧ transduce cs.decodeUtf32 data' src = some r := by
    obtain ⟨data', hstep, -, hholds'⟩ := decodeUtf32_early hholds hl c
    exact ⟨data', hholds', (transduce_cons_silent hstep src).symm.trans h⟩
  have hnil {data : UnicodeCodingStream} (h : transduce cs.decodeUtf32 data [] = some r) : False := by
    obtain rfl := Option.some.inj h
    exact absurd hmark nil_head?_ne
  match src with
  | [] => exact (hnil h).elim
  | [a] =>
    obtain ⟨data₁, h₁, h⟩ := hsilent hholds (by simp) h
    exact (hnil h).elim
  | [a, b] =>
    obtain ⟨data₁, h₁, h⟩ := hsilent hholds (by simp) h
    obtain ⟨data₂, h₂, h⟩ := hsilent h₁ (by simp) h
    exact (hnil h).elim
  | [a, b, c] =>
    obtain ⟨data₁, h₁, h⟩ := hsilent hholds (by simp) h
    obtain ⟨data₂, h₂, h⟩ := hsilent h₁ (by simp) h
    obtain ⟨data₃, h₃, h⟩ := hsilent h₂ (by simp) h
    exact (hnil h).elim
  | a :: b :: c :: d :: src =>
    obtain ⟨data₁, h₁, h⟩ := hsilent hholds (by simp) h
    obtain ⟨data₂, h₂, h⟩ := hsilent h₁ (by simp) h
    obtain ⟨data₃, h₃, h⟩ := hsilent h₂ (by simp) h
    have hfourth := decodeUtf32_fourth (a := a) (b := b) (c := c) h₃ d
    split_ifs at hfourth with hvalid
    · have hbits := eq_mark_of_char hbom hfourth h hmark
      have hlt : cs.bitsOf [a, b, c, d] < 256 ^ 4 := bitsOf_lt [a, b, c, d]
      have hmarkBits : cs.bitsOf [a, b, c, d] = 0xfeff := by
        rw [asInt] at hbits
        split_ifs at hbits <;> omega
      have hencode : cs.encodeUnicodeToDynarr 0xfeff = cs.encodeUtf32 0xfeff := by
        rw [encodeUnicodeToDynarr, if_neg (by decide)]
        rcases htype with h | h <;> rw [h]
      rw [hencode, ← hmarkBits, encodeUtf32_bitsOf]
      exact List.prefix_append [a, b, c, d] src
    · exact absurd hmark (head?_of_octets (by decide) hfourth h)

theorem encode_mark_utf8 (htype : cs.type = .utf8) : cs.encodeUnicodeToDynarr 0xfeff = [0xef, 0xbb, 0xbf] := by
  have hcode : (0xfeff : ℕ) ≤ 0x10ffff ∨ cs.allowPrivate = true := .inl (by decide)
  rw [encodeUnicodeToDynarr, if_neg (by decide), htype]
  simp only [UnicodeCodingSystem.encodeUtf8, hcode, if_true]
  decide

theorem mark_of_transduce (hbom : cs.needBom = false) (hholds : cs.Holds data [])
    (hascii : cs.type = .utf8 → ∀ c ∈ src.head?, 0x80 ≤ c.val) (h : transduce cs.decodeStep data src = some r)
    (hmark : r.2.head? = some 0xfeff) : cs.encodeUnicodeToDynarr 0xfeff <+: src := by
  cases htype : cs.type with
  | utf8 =>
    have hcounter : data.counter = 0 := hholds.counter_eq
    have hsound : Sound data := fun hne => absurd hcounter hne
    have hfrom : ∃ text, cs.decodeFrom data src = some text ∧ text.head? = some 0xfeff := by
      obtain ⟨text, htext⟩ := hsound.decodeFrom hbom htype src
      refine ⟨text, htext, ?_⟩
      rw [UnicodeCodingSystem.decodeFrom, h, Option.bind_some] at htext
      obtain ⟨r', -, rfl⟩ := Option.map_eq_some_iff.mp htext
      rw [List.head?_append, hmark, Option.some_or]
    rw [encode_mark_utf8 htype, ← (mark_iff hbom htype hcounter (hascii htype)).mp hfrom]
    exact List.take_prefix 3 src
  | utf16 =>
    rw [decodeStep, htype] at h
    exact mark_utf16 hbom htype hholds h hmark
  | ucs4 =>
    rw [decodeStep, htype] at h
    exact mark_utf32 hbom (.inl htype) hholds h hmark
  | utf32 =>
    rw [decodeStep, htype] at h
    exact mark_utf32 hbom (.inr htype) hholds h hmark

theorem asciiStart_append (cs : UnicodeCodingSystem) (src : List Byte) : cs.asciiStart src ++ cs.afterAscii src = src := by
  rw [asciiStart, afterAscii]
  split_ifs
  · exact List.takeWhile_append_dropWhile
  · rfl

theorem afterAscii_ascii (htype : cs.type = .utf8) (src : List Byte) : ∀ c ∈ (cs.afterAscii src).head?, 0x80 ≤ c.val := by
  intro c hc
  rw [afterAscii, if_pos htype] at hc
  have hnot := List.head?_dropWhile_not byteAsciiP src
  rw [Option.mem_def.mp hc] at hnot
  simpa [byteAsciiP, Fin.le_def] using hnot

theorem afterAscii_mono {pre : List Byte} (hpre : pre <+: src) : cs.afterAscii pre <+: cs.afterAscii src := by
  obtain ⟨rest, rfl⟩ := hpre
  rw [afterAscii, afterAscii]
  split_ifs
  · rw [List.dropWhile_append]
    split_ifs with hempty
    · rw [List.isEmpty_iff.mp hempty]
      exact List.nil_prefix
    · exact List.prefix_append _ _
  · exact List.prefix_append _ _

def afterStart (cs : UnicodeCodingSystem) (src : List Byte) : UnicodeCodingStream :=
  { UnicodeCodingStream.fresh with charactersSeen := (cs.asciiStart src).length }

theorem transduce_asciiStart (cs : UnicodeCodingSystem) (src src' : List Byte) :
    transduce cs.decodeStep .fresh (cs.asciiStart src ++ src') =
      (transduce cs.decodeStep (cs.afterStart src) src').map fun r => (r.1, (cs.asciiStart src).map (·.val) ++ r.2) := by
  rw [asciiStart, afterStart, asciiStart]
  split_ifs with htype
  · have hrun := @transduce_ascii cs .fresh (src.takeWhile byteAsciiP) rfl fun c hc => List.mem_takeWhile_imp hc
    have hstep : cs.decodeStep = cs.decodeUtf8Step := by rw [decodeStep, htype]
    rw [transduce_append, hstep, hrun, Option.bind_some]
    simp [UnicodeCodingStream.fresh]
  · exact Option.map_id'.symm

theorem holds_afterStart (cs : UnicodeCodingSystem) (src : List Byte) : cs.Holds (cs.afterStart src) [] := holds_nil rfl rfl

theorem encode_withBom (cs : UnicodeCodingSystem) (needBom : Bool) (u : ℕ) :
    (cs.withBom needBom).encodeUnicodeToDynarr u = cs.encodeUnicodeToDynarr u := rfl

theorem Holds.withBom {l : List Byte} (h : cs.Holds data l) (needBom : Bool) : (cs.withBom needBom).Holds data l :=
  ⟨h.counter_eq, h.ch_eq⟩

theorem transduce_fresh (cs : UnicodeCodingSystem) (needBom : Bool) (src : List Byte) :
    transduce (cs.withBom needBom).decodeStep .fresh src =
      (transduce (cs.withBom needBom).decodeStep (cs.afterStart src) (cs.afterAscii src)).map fun r =>
        (r.1, (cs.asciiStart src).map (·.val) ++ r.2) := by
  have hstart := transduce_asciiStart (cs.withBom needBom) src (cs.afterAscii src)
  rwa [show (cs.withBom needBom).asciiStart src ++ cs.afterAscii src = src from asciiStart_append cs src] at hstart

theorem transduce_withBom (hmark : ¬ cs.startsWithMark src) :
    transduce (cs.withBom true).decodeStep .fresh src = transduce (cs.withBom false).decodeStep .fresh src := by
  have hunseen := @transduce_unseen cs (cs.afterStart src) (cs.afterAscii src) rfl fun c hc hshort => by
    have hlt : c.val < 0x80 := by simpa [byteAsciiP, Fin.lt_def] using hshort.2.2
    exact absurd (afterAscii_ascii hshort.1 src c hc) (not_le.mpr hlt)
  rw [transduce_fresh, transduce_fresh]
  refine congrArg (Option.map _) (hunseen.trans (map_marked fun r hr hhead => hmark ?_))
  have hmark' := mark_of_transduce rfl ((holds_afterStart cs src).withBom false)
    (fun htype => afterAscii_ascii htype src) hr hhead
  rwa [encode_withBom] at hmark'

theorem transduce_unmarked (hbom : cs.needBom = true) (hholds : cs.Holds data []) (hseen : data.seenChar = false) :
    ∃ data', transduce cs.decodeStep data (cs.encodeUnicodeToDynarr 0xfeff) = some (data', []) ∧
      data'.charactersSeen = data.charactersSeen + 1 := by
  have hpair : cs.type = .utf16 → 0xfeff < 0x10000 := fun _ => by decide
  obtain ⟨data', hputs⟩ := @exists_putsOut (cs.withBom false) data 0xfeff (hholds.withBom false) (by decide) hpair
  have hplain := hputs.run
  rw [if_neg fun h => Bool.false_ne_true h.2.1, encode_withBom] at hplain
  have hcounted := transduce_counted rfl (fun htype => by
    have hcounter : data.counter = 0 := hholds.counter_eq
    rw [encode_mark_utf8 (show cs.type = .utf8 from htype), hcounter]
    cases cs.allowPrivate <;> simp [interrupted, waits]) hplain
  refine ⟨data', ?_, hcounted⟩
  have hcs : cs = cs.withBom true := by
    rw [withBom, ← hbom]
  have hunseen := @transduce_unseen cs data (cs.encodeUnicodeToDynarr 0xfeff) hseen fun c hc hshort => by
    rw [encode_mark_utf8 (show cs.type = .utf8 from hshort.1)] at hc
    obtain rfl := Option.some.inj hc
    exact absurd hshort.2.2 (by decide)
  rw [← hcs, hplain] at hunseen
  exact hunseen

theorem exists_unmarked (hbom : cs.needBom = true) (hmark : cs.startsWithMark src) : ∃ pre, pre <+: src ∧ ∃ r,
    transduce cs.decodeStep .fresh pre = some r ∧ r.1.charactersSeen = r.2.length + 1 := by
  obtain ⟨data', hrun, hcounted⟩ := transduce_unmarked hbom (holds_afterStart cs src) rfl
  refine ⟨cs.asciiStart src ++ cs.encodeUnicodeToDynarr 0xfeff, ?_, _, (transduce_asciiStart cs src _).trans
    (congrArg (Option.map _) hrun), ?_⟩
  · conv_rhs => rw [← asciiStart_append cs src]
    exact (List.prefix_append_right_inj _).mpr hmark
  · have hlength : ((cs.asciiStart src).map (fun c : Byte => c.val) ++ []).length = (cs.asciiStart src).length := by
      rw [List.append_nil, List.length_map]
    exact hcounted.trans (congrArg (· + 1) hlength.symm)

theorem interrupted_of_prefix {pre : List Byte} (hpre : pre <+: src) {n : ℕ} (h : cs.interrupted n pre = true) :
    cs.interrupted n src = true := by
  obtain ⟨rest, rfl⟩ := hpre
  induction pre generalizing n with
  | nil => exact absurd h Bool.false_ne_true
  | cons c pre ih =>
    rw [interrupted, Bool.or_eq_true] at h
    rw [List.cons_append, interrupted, Bool.or_eq_true]
    exact h.imp_right ih

theorem interrupted_withBom (cs : UnicodeCodingSystem) (needBom : Bool) (n : ℕ) (src : List Byte) :
    (cs.withBom needBom).interrupted n src = cs.interrupted n src := by
  induction src generalizing n with
  | nil => rfl
  | cons c src ih =>
    rw [interrupted, interrupted, ih]
    rfl

def Counts (cs : UnicodeCodingSystem) (src : List Byte) : Prop :=
  ∀ r, transduce cs.decodeStep .fresh src = some r → r.1.charactersSeen = r.2.length

theorem forall_counts_iff (cs : UnicodeCodingSystem) (src : List Byte) : (∀ pre, pre <+: src → cs.Counts pre) ↔
    ¬ (cs.needBom = true ∧ cs.startsWithMark src) ∧ ¬ (cs.type = .utf8 ∧ cs.interrupted 0 src = true) := by
  by_cases hmark : cs.needBom = true ∧ cs.startsWithMark src
  · refine iff_of_false (fun hall => ?_) fun h => h.1 hmark
    obtain ⟨pre, hpre, r, hr, hcounted⟩ := exists_unmarked hmark.1 hmark.2
    have heq := hall pre hpre r hr
    omega
  have hplain {pre : List Byte} (hpre : pre <+: src) :
      transduce cs.decodeStep .fresh pre = transduce (cs.withBom false).decodeStep .fresh pre := by
    cases hbom : cs.needBom with
    | false => rw [withBom, ← hbom]
    | true =>
      have hstart := transduce_withBom fun h : cs.startsWithMark pre => hmark ⟨hbom, h.trans (afterAscii_mono hpre)⟩
      rwa [show cs.withBom true = cs by rw [withBom, ← hbom]] at hstart
  rw [and_iff_right hmark]
  constructor
  · rintro hall ⟨htype, hint⟩
    have hsound : Sound .fresh := fun hne => absurd rfl hne
    obtain ⟨pre, hpre, r, hr, hlt⟩ := @exists_uncounted (cs.withBom false) _ _ rfl htype hsound
      ((interrupted_withBom cs false 0 src).trans hint)
    have heq := hall pre hpre r ((hplain hpre).trans hr)
    exact absurd heq (hlt.trans_eq (Nat.zero_add _)).ne
  · intro hint pre hpre r hr
    have hcounted := transduce_counted rfl (fun htype => by
      rw [interrupted_withBom, ← Bool.not_eq_true]
      exact fun h => hint ⟨htype, interrupted_of_prefix hpre h⟩) ((hplain hpre).symm.trans hr)
    exact hcounted.trans (Nat.zero_add _)

theorem tellsExactly_of_counts {taken : List Byte} {out : List ℕ} {chunks : List (List Byte)}
    (hrun : transduce cs.decodeStep .fresh taken = some (data, out))
    (h : ∀ pre, pre <+: taken ++ chunks.flatten → cs.Counts pre) : cs.TellsExactly data out.length chunks := by
  induction chunks generalizing data taken out with
  | nil => trivial
  | cons src chunks ih =>
    have hnext {r : UnicodeCodingStream × List ℕ} (hr : transduce cs.decodeStep data src = some r) :
        transduce cs.decodeStep .fresh (taken ++ src) = some (r.1, out ++ r.2) := transduce_append_some hrun hr
    have hsrc : taken ++ src <+: taken ++ (src :: chunks).flatten :=
      (List.prefix_append_right_inj _).mpr (List.prefix_append _ _)
    cases chunks with
    | nil =>
      intro r hr
      rw [unicodeDecode, decodeLoop_eq] at hr
      obtain ⟨r₁, h₁, hr⟩ := Option.bind_eq_some_iff.mp hr
      rw [if_pos rfl] at hr
      obtain ⟨r₂, h₂, rfl⟩ := Option.map_eq_some_iff.mp hr
      have hcounted := h _ hsrc _ (hnext h₁)
      have hleft := (decodeLeft_spec h₂).1
      simp only [characterTell, List.length_append] at hcounted ⊢
      omega
    | cons chunk chunks =>
      intro r hr
      rw [unicodeDecode, decodeLoop_eq] at hr
      obtain ⟨r₁, h₁, hr⟩ := Option.bind_eq_some_iff.mp hr
      obtain rfl := Option.some.inj hr
      have hcounted := h _ hsrc _ (hnext h₁)
      rw [List.length_append] at hcounted
      refine ⟨hcounted, ?_⟩
      rw [← List.length_append]
      apply ih (hnext h₁)
      rwa [List.append_assoc, ← List.flatten_cons]

/-- The count is exact after each call, however the bytes come, just where no mark comes first that
is left out and no byte interrupts a sequence. -/
theorem tellsExactly_iff (cs : UnicodeCodingSystem) (src : List Byte) :
    (∀ chunks : List (List Byte), chunks.flatten = src → cs.TellsExactly .fresh 0 chunks) ↔
      ¬ (cs.needBom = true ∧ cs.startsWithMark src) ∧ ¬ (cs.type = .utf8 ∧ cs.interrupted 0 src = true) := by
  rw [← forall_counts_iff]
  constructor
  · rintro h pre ⟨rest, rfl⟩ r hr
    have htells := h [pre, rest] (by simp)
    have hcall : cs.unicodeDecode .fresh pre false = some r := by
      rw [unicodeDecode, decodeLoop_eq, hr]
      rfl
    exact (htells r hcall).1.trans (Nat.zero_add _)
  · rintro h chunks rfl
    exact @tellsExactly_of_counts cs .fresh [] [] chunks rfl h

/-- A letter interrupts a sequence of two bytes: two characters are put out and one is counted. -/
theorem tellsExactly_letter : ¬ (⟨.utf8, false, false, false⟩ : UnicodeCodingSystem).TellsExactly .fresh 0 [[0xc3, 0x61]] := by
  intro h
  have hcall : ((⟨.utf8, false, false, false⟩ : UnicodeCodingSystem).unicodeDecode .fresh [0xc3, 0x61] true).map
      (fun r => (characterTell r.1, r.2.length)) = some (1, 2) := by
    rw [unicodeDecode, decodeLoop_eq]
    decide
  obtain ⟨r, hr, htell⟩ := Option.map_eq_some_iff.mp hcall
  have hexact := h r hr
  rw [Prod.mk.injEq] at htell
  omega

end UnicodeCodingSystem

end XEmacs.Coding.Unicode
