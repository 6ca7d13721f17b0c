import XEmacs.Coding.UnicodeTransparency

/-! A text that is encoded is decoded to itself, however its bytes are cut into chunks. This
holds of all the encodings but for the surrogate pairs of UTF-16, which the decoder does not
put together. -/

namespace XEmacs.Coding.Unicode.UnicodeCodingSystem

open Lib

variable {cs : UnicodeCodingSystem} {data : UnicodeCodingStream} {u k n x v : ℕ} {c : Byte} {text : List ℕ}

theorem validUnicodeCodepointP_text (hu : validUnicodeCodepointP u false) :
    u ≤ 0x10ffff ∧ validUnicodeCodepointP u cs.allowPrivate ∧ validUnicodeCodepointP u true ∧
      ¬ u / 2 ^ 11 % 2 ^ 20 = 0x1b := by
  rw [validUnicodeCodepointP_iff] at hu
  simp only [Bool.false_eq_true, if_false, Int.toNat_natCast] at hu
  have hvalid (allowPrivate : Bool) : validUnicodeCodepointP u allowPrivate := by
    rw [validUnicodeCodepointP_iff, Int.toNat_natCast]
    refine ⟨hu.1, ?_, hu.2.2⟩
    split_ifs <;> omega
  exact ⟨by omega, hvalid _, hvalid _, hu.2.2⟩

/-- The bytes of a character put it out, unless it is the byte-order mark that is ignored, and
leave a state between characters. -/
structure PutsOut (cs : UnicodeCodingSystem) (data data' : UnicodeCodingStream) (u : ℕ) : Prop where
  run : transduce cs.decodeStep data (cs.encodeUnicodeToDynarr u) =
    some (data', if u = 0xfeff ∧ cs.needBom ∧ ¬ data.seenChar then [] else [u])
  between : cs.Holds data' []
  seen : data.seenChar ∨ 0x80 ≤ u → data'.seenChar

theorem exists_putsOut_utf16 (h : cs.Holds data []) (htype : cs.type = .utf16) (hu : validUnicodeCodepointP u false)
    (hlt : u < 0x10000) : ∃ data', cs.PutsOut data data' u := by
  obtain ⟨-, -, hprivate, hsurrogate⟩ := @validUnicodeCodepointP_text cs u hu
  obtain ⟨a, b, hbytes, hbits⟩ := @exists_bytes_add16BitChar cs u hlt
  obtain ⟨data₁, hfirst, hseen, h₁⟩ := decodeUtf16_odd h (.inl rfl) a
  have hstep : cs.decodeStep = cs.decodeUtf16 := by rw [decodeStep, htype]
  have hencode : cs.encodeUnicodeToDynarr u = [a, b] := by
    rw [← hbits]
    exact encodeUnicodeToDynarr_bitsOf htype a b
  have hsecond := decodeUtf16_second h₁ b
  have hseen' : (reset (cs.takeByte data₁ b)).seenChar = data.seenChar := hseen
  rw [hbits, if_neg (by rw [validUnicodeLeadingSurrogate_iff]; omega),
    if_neg (by rw [validUnicodeTrailingSurrogate_iff]; omega), decodeUnicodeToDynarr0_eq hprivate, hseen'] at hsecond
  have hrun := (transduce_append_silent ((transduce_singleton _ _ _).trans hfirst) [b]).trans
    ((transduce_singleton _ _ _).trans hsecond)
  rw [← hstep, List.singleton_append, ← hencode] at hrun
  exact ⟨_, hrun, holds_nil rfl rfl, fun _ => rfl⟩

theorem exists_putsOut_utf32 (h : cs.Holds data []) (htype : cs.type = .ucs4 ∨ cs.type = .utf32)
    (hu : validUnicodeCodepointP u false) : ∃ data', cs.PutsOut data data' u := by
  obtain ⟨hmax, -, hprivate, -⟩ := @validUnicodeCodepointP_text cs u hu
  obtain ⟨a, b, c, d, hbytes, hbits⟩ := @exists_bytes_encodeUtf32 cs u (by omega)
  have hstep : cs.decodeStep = cs.decodeUtf32 := by rcases htype with h | h <;> rw [decodeStep, h]
  have hencode : cs.encodeUnicodeToDynarr u = [a, b, c] ++ [d] := by
    have hoctet : ¬ unicodeErrorOctetCodeP u = true := by
      rw [unicodeErrorOctetCodeP_iff]
      omega
    rw [encodeUnicodeToDynarr, if_neg hoctet]
    rcases htype with h | h <;> rw [h] <;> exact hbytes
  obtain ⟨data₃, hthree, hseen, h₃⟩ := @transduce_utf32_short cs data [a, b, c] h (by simp)
  have hfourth := decodeUtf32_fourth h₃ d
  have hint : asInt u = u := if_pos (by omega)
  have hseen' : (reset (cs.takeByte data₃ d)).seenChar = data.seenChar := hseen
  rw [hbits, hint, if_pos (.inl hu), decodeUnicodeToDynarr0_eq hprivate, hseen'] at hfourth
  have hrun := (transduce_append_silent hthree [d]).trans ((transduce_singleton _ _ _).trans hfourth)
  rw [← hstep, ← hencode] at hrun
  exact ⟨_, hrun, holds_nil rfl rfl, fun _ => rfl⟩

theorem transduce_continuation (hk : data.counter = k + 1) (hch : data.ch = x / 64 ^ (k + 1)) :
    transduce cs.decodeUtf8Step data ((storedOctets (k + 1) 0x80 x).map byte) =
      cs.decodeSequence { data with ch := x, counter := 0 } := by
  have hbyte (j : ℕ) : ∃ c : Byte, byte (x >>> (6 * j) &&& 0x3f ||| 0x80) = c ∧ 0x80 ≤ c.val ∧ c.val < 0xc0 ∧
      c.val % 64 = x / 64 ^ j % 64 := by
    have hmod := Nat.mod_lt (x / 64 ^ j) (by decide : 0 < 64)
    have hpow : 2 ^ (6 * j) = 64 ^ j := by rw [pow_mul]; norm_num
    refine ⟨_, rfl, ?_⟩
    rw [Nat.shiftRight_eq_div_pow, hpow, and_3f, continuation_or hmod]
    simp only [byte]
    omega
  induction k generalizing data with
  | zero =>
    obtain ⟨c, hc, h7, h6, hlow⟩ := hbyte 0
    have hstep : cs.decodeUtf8Step data c = cs.decodeUtf8 data c := if_neg fun h => by omega
    have hdata : continued data (c.val % 64) = { data with ch := x, counter := 0 } := by
      rw [continued, hk, hch, hlow, pow_one, pow_zero, Nat.div_one, Nat.div_add_mod']
    rw [storedOctets, storedOctets, List.map_singleton, hc, transduce_singleton, hstep,
      decodeUtf8_continuation (by omega) h7 h6, if_pos hk, hdata]
  | succ k ih =>
    obtain ⟨c, hc, h7, h6, hlow⟩ := hbyte (k + 1)
    have hstep : cs.decodeUtf8Step data c = some (continued data (c.val % 64), []) := by
      rw [decodeUtf8Step, if_neg fun h => by omega, decodeUtf8_continuation (by omega) h7 h6, if_neg (by omega)]
    have hnext : (continued data (c.val % 64)).ch = x / 64 ^ (k + 1) := by
      have hpow : 64 ^ (k + 1 + 1) = 64 ^ (k + 1) * 64 := pow_succ _ _
      rw [continued, hch, hlow, hpow, ← Nat.div_div_eq_div_mul, Nat.div_add_mod']
    have hcounter : (continued data (c.val % 64)).counter = k + 1 := by
      rw [continued, hk]
      rfl
    have hrun : transduce cs.decodeUtf8Step data [c] = some (continued data (c.val % 64), []) :=
      (transduce_singleton _ _ _).trans hstep
    rw [storedOctets, List.map_cons, hc]
    exact (transduce_append_silent hrun _).trans (ih hcounter hnext)

theorem exists_sequence (hascii : 0x7f < u) (hmax : u ≤ 0x10ffff) :
    ∃ k least, (1 ≤ k ∧ k ≤ 3) ∧ leastCode (k + 1) = some least ∧ least ≤ u ∧ u / 64 ^ k < 2 ^ (6 - k) := by
  by_cases h2 : u ≤ 0x7ff
  · exact ⟨1, 0x80, by decide, rfl, hascii, show u / 64 < 32 by omega⟩
  · by_cases h3 : u ≤ 0xffff
    · exact ⟨2, 0x800, by decide, rfl, not_le.mp h2, show u / 4096 < 16 by omega⟩
    · exact ⟨3, 0x10000, by decide, rfl, not_le.mp h3, show u / 262144 < 8 by omega⟩

theorem exists_putsOut_utf8 (h : cs.Holds data []) (htype : cs.type = .utf8) (hu : validUnicodeCodepointP u false) :
    ∃ data', cs.PutsOut data data' u := by
  obtain ⟨hmax, hallowed, hprivate, -⟩ := @validUnicodeCodepointP_text cs u hu
  have hstep : cs.decodeStep = cs.decodeUtf8Step := by rw [decodeStep, htype]
  have hcounter : data.counter = 0 := h.counter_eq
  by_cases hascii : u < 0x80
  · have hval : (byte u).val = u := Nat.mod_eq_of_lt (by omega)
    have hbyte : cs.decodeUtf8Step data (byte u) =
        some ({ data with charactersSeen := data.charactersSeen + 1 }, [u]) := by
      rw [decodeUtf8Step, if_pos ⟨hcounter, by simp [byteAsciiP, Fin.lt_def, hval, hascii]⟩, hval]
    have hrun := (transduce_singleton _ _ _).trans hbyte
    rw [← hstep, ← encodeUnicodeToDynarr_ascii hascii htype] at hrun
    refine ⟨{ data with charactersSeen := data.charactersSeen + 1 }, ?_, holds_nil hcounter (h.ch_eq.trans bitsOf_nil),
      fun hseen => hseen.resolve_right hascii.not_ge⟩
    rw [if_neg (by omega)]
    exact hrun
  · obtain ⟨k, least, hk, hleast, hle, hv⟩ := exists_sequence (by omega) hmax
    have hlt : u < 2 ^ (6 - k) * 64 ^ k := (Nat.div_lt_iff_lt_mul (by positivity)).mp hv
    have hlt' : u < 2 ^ (7 - (k + 1)) * 64 ^ (k + 1 - 1) := by
      rwa [Nat.add_sub_cancel, show 7 - (k + 1) = 6 - k by omega]
    have hshift : u >>> (6 * k) = u / 64 ^ k := by
      rw [Nat.shiftRight_eq_div_pow, pow_mul]
      norm_num
    obtain ⟨c, hc, hval⟩ : ∃ c, byte (u / 64 ^ k + firstbyteMask (k + 1)) = c ∧
        c.val = u / 64 ^ k + firstbyteMask (k + 1) := by
      refine ⟨_, rfl, Nat.mod_eq_of_lt ?_⟩
      obtain ⟨h1, h3⟩ := hk
      obtain rfl | rfl | rfl : k = 1 ∨ k = 2 ∨ k = 3 := by omega
      all_goals
        rw [firstbyteMask]
        simp only [List.getD_cons_succ, List.getD_cons_zero]
        norm_num at hv ⊢
        omega
    have hencode : cs.encodeUnicodeToDynarr u = [c] ++ (storedOctets k 0x80 u).map byte := by
      have hleast' : ∀ m ∈ leastCode (k + 1), m ≤ u := by
        intro m hm
        rw [hleast, Option.mem_some_iff] at hm
        exact hm ▸ hle
      rw [encodeUnicodeToDynarr_utf8 htype hmax, encodeUtf8_eq (n := k + 1) (by omega) hleast' hlt' hmax,
        storedOctets, List.map_cons, hshift, storedOctets_first hk hv, hc, List.singleton_append]
    have hfirst : cs.decodeUtf8Step data c = startSequence (u / 64 ^ k) k data := by
      have h7 : ¬ byteAsciiP c = true := by
        have hmask : 0xc0 ≤ firstbyteMask (k + 1) := by
          obtain rfl | rfl | rfl : k = 1 ∨ k = 2 ∨ k = 3 := by omega
          all_goals decide
        simp only [byteAsciiP, Fin.lt_def, hval, decide_eq_true_eq]
        exact not_lt.mpr ((show 0x80 ≤ 0xc0 by decide).trans (hmask.trans (Nat.le_add_left _ _)))
      rw [decodeUtf8Step, if_neg fun hboth => h7 hboth.2, decodeUtf8, if_pos hcounter,
        decodeFirstByte_start hk hv hval]
    obtain ⟨j, rfl⟩ := Nat.exists_eq_add_of_le' hk.1
    have hlast := transduce_append_silent ((transduce_singleton _ _ _).trans hfirst)
      ((storedOctets (j + 1) 0x80 u).map byte)
    rw [transduce_continuation (k := j) rfl rfl, ← hstep, ← hencode, decodeSequence, hleast, Option.bind_some,
      if_neg (by rw [not_or, not_not]; exact ⟨not_lt.mpr hle, hallowed⟩), decodeUnicodeToDynarr0_eq hprivate] at hlast
    exact ⟨_, hlast, holds_nil rfl rfl, fun _ => rfl⟩

theorem exists_putsOut (h : cs.Holds data []) (hu : validUnicodeCodepointP u false)
    (hpair : cs.type = .utf16 → u < 0x10000) : ∃ data', cs.PutsOut data data' u := by
  cases htype : cs.type with
  | utf8 => exact exists_putsOut_utf8 h htype hu
  | utf16 => exact exists_putsOut_utf16 h htype hu (hpair htype)
  | ucs4 => exact exists_putsOut_utf32 h (.inl htype) hu
  | utf32 => exact exists_putsOut_utf32 h (.inr htype) hu

def Ready (cs : UnicodeCodingSystem) (data : UnicodeCodingStream) : Prop :=
  cs.Holds data [] ∧ (cs.needBom → data.seenChar)

theorem Ready.transduce (h : cs.Ready data) (hvalid : ∀ u ∈ text, validUnicodeCodepointP u false)
    (hpair : cs.type = .utf16 → ∀ u ∈ text, u < 0x10000) :
    ∃ data', Lib.transduce cs.decodeStep data (text.flatMap cs.encodeUnicodeToDynarr) = some (data', text) ∧
      cs.Ready data' := by
  induction text generalizing data with
  | nil => exact ⟨data, rfl, h⟩
  | cons u text ih =>
    obtain ⟨data₁, hu⟩ := exists_putsOut h.1 (hvalid u List.mem_cons_self) fun htype =>
      hpair htype u List.mem_cons_self
    have hready : cs.Ready data₁ := ⟨hu.between, fun hbom => hu.seen (.inl (h.2 hbom))⟩
    obtain ⟨data₂, hrun, hready'⟩ := ih hready (fun v hv => hvalid v (List.mem_cons_of_mem u hv)) fun htype v hv =>
      hpair htype v (List.mem_cons_of_mem u hv)
    have hrun' := hu.run
    rw [if_neg fun hmark => hmark.2.2 (h.2 hmark.2.1)] at hrun'
    exact ⟨data₂, transduce_append_some hrun' hrun, hready'⟩

theorem exists_ready (cs : UnicodeCodingSystem) : ∃ l data, cs.Ready data ∧
    transduce cs.decodeStep .fresh l = some (data, []) ∧
      ∀ text, cs.encode text = l ++ text.flatMap cs.encodeUnicodeToDynarr := by
  have hfresh : cs.Holds .fresh [] := holds_nil rfl rfl
  by_cases hbom : cs.needBom
  · obtain ⟨data, hmark⟩ := @exists_putsOut cs .fresh 0xfeff hfresh (by decide) (fun _ => by decide)
    refine ⟨_, data, ⟨hmark.between, fun _ => hmark.seen (.inr (by decide))⟩, hmark.run.trans ?_, fun text => ?_⟩
    · rw [if_pos ⟨rfl, hbom, Bool.false_ne_true⟩]
    · rw [encode, unicodeEncode, if_pos ⟨hbom, Bool.false_ne_true⟩, encodeLoop_eq]
  · refine ⟨[], .fresh, ⟨hfresh, fun h => absurd h hbom⟩, rfl, fun text => ?_⟩
    rw [List.nil_append, encode_eq (Bool.eq_false_iff.mpr hbom)]

theorem transduce_encodeUtf16 (h : cs.Holds data []) (htype : cs.type = .utf16) (hmin : 0x10000 ≤ u)
    (hmax : u ≤ 0x10ffff) : transduce cs.decodeStep data (cs.encodeUnicodeToDynarr u) = none ∨
      ∃ data' l, l ≠ [] ∧
        transduce cs.decodeStep data (cs.encodeUnicodeToDynarr u) = some (data', errorOctets l) := by
  have hstep : cs.decodeStep = cs.decodeUtf16 := by rw [decodeStep, htype]
  obtain ⟨a, b, hab, hlead⟩ := @exists_bytes_add16BitChar cs (0xd800 - 0x10000 >>> 10 + u >>> 10) (by
    simp only [Nat.shiftRight_eq_div_pow]
    omega)
  obtain ⟨c, d, hcd, -⟩ := @exists_bytes_add16BitChar cs (0xdc00 + (u &&& 0x3ff)) (by
    rw [show u &&& 0x3ff = u % 1024 from Nat.and_two_pow_sub_one_eq_mod u 10]
    omega)
  have hencode : cs.encodeUnicodeToDynarr u = [a, b, c, d] := by
    have hoctet : ¬ unicodeErrorOctetCodeP u = true := by
      rw [unicodeErrorOctetCodeP_iff]
      omega
    rw [encodeUnicodeToDynarr, if_neg hoctet, htype]
    simp only
    rw [encodeUtf16, if_neg (not_lt.mpr hmin), if_pos hmax, hab, hcd]
    rfl
  obtain ⟨data', -, hrun⟩ := @transduce_surrogates cs data a b h (by
    rw [hlead, validUnicodeLeadingSurrogate_iff]
    simp only [Nat.shiftRight_eq_div_pow]
    omega) c d
  rw [hencode, hstep, hrun]
  split_ifs
  · exact .inl rfl
  · exact .inr ⟨data', _, List.cons_ne_nil _ _, rfl⟩

theorem decodeFrom_ne (h : cs.Ready data) (htype : cs.type = .utf16)
    (hvalid : ∀ u ∈ text, validUnicodeCodepointP u false) (hpair : ∃ u ∈ text, 0x10000 ≤ u) :
    cs.decodeFrom data (text.flatMap cs.encodeUnicodeToDynarr) ≠ some text := by
  intro htext
  obtain ⟨u, hu, before, after, hsplit, hbefore⟩ : ∃ u, 0x10000 ≤ u ∧ ∃ before after,
      text = before ++ u :: after ∧ ∀ v ∈ before, v < 0x10000 := by
    obtain ⟨u, hfind⟩ := Option.isSome_iff_exists.mp
      ((List.find?_isSome (p := fun u => decide (0x10000 ≤ u))).mpr (by simpa using hpair))
    obtain ⟨hu, before, after, hsplit, hbefore⟩ := List.find?_eq_some_iff_append.mp hfind
    exact ⟨u, by simpa using hu, before, after, hsplit, fun v hv => by simpa using hbefore v hv⟩
  have hmem : u ∈ text := by simp [hsplit]
  obtain ⟨data₁, hrun, hready⟩ := h.transduce (fun v hv => hvalid v (by simp [hsplit, hv])) fun _ => hbefore
  have hmax := (@validUnicodeCodepointP_text cs u (hvalid u hmem)).1
  conv at htext => lhs; rw [hsplit]
  rw [List.flatMap_append, List.flatMap_cons, decodeFrom_append, hrun, Option.bind_some, decodeFrom_append] at htext
  rcases transduce_encodeUtf16 hready.1 htype hu hmax with hnone | ⟨data₂, l, hl, hrun'⟩
  · rw [hnone] at htext
    simp at htext
  · obtain ⟨c, hc⟩ := List.exists_mem_of_ne_nil l hl
    rw [hrun', Option.bind_some, Option.map_map] at htext
    obtain ⟨rest, -, hout⟩ := Option.map_eq_some_iff.mp htext
    have hoctet : c.val + unicodeErrorOctetRangeStart ∈ text := by
      rw [← hout]
      exact List.mem_append_right _ (List.mem_append_left _ (List.mem_map_of_mem hc))
    have hle := (@validUnicodeCodepointP_text cs _ (hvalid _ hoctet)).1
    rw [unicodeErrorOctetRangeStart] at hle
    omega

/-- What is put out does not depend on the chunks, and it is the text that was encoded, but
for the characters that UTF-16 encodes as surrogate pairs. -/
theorem decodeChunks_encode (cs : UnicodeCodingSystem) {chunks : List (List Byte)} (hne : chunks ≠ []) :
    cs.decodeChunks .fresh chunks = cs.decode chunks.flatten ∧
      ∀ text, (∀ u ∈ text, validUnicodeCodepointP (u : ℕ) false) → chunks.flatten = cs.encode text →
        (cs.decodeChunks .fresh chunks = some text ↔ (cs.type = .utf16 → ∀ u ∈ text, u < 0x10000)) := by
  rw [decodeChunks_eq .fresh hne]
  refine ⟨(decode_eq _).symm, fun text hvalid htext => ?_⟩
  obtain ⟨l, data, hready, hmark, hencode⟩ := exists_ready cs
  have hfrom : cs.decodeFrom .fresh chunks.flatten =
      cs.decodeFrom data (text.flatMap cs.encodeUnicodeToDynarr) := by
    rw [htext, hencode, decodeFrom_append, hmark, Option.bind_some]
    exact Option.map_id'
  rw [hfrom]
  constructor
  · intro htext htype
    by_contra hpair
    push Not at hpair
    exact decodeFrom_ne hready htype hvalid hpair htext
  · intro hpair
    obtain ⟨data', hrun, hready'⟩ := hready.transduce hvalid hpair
    have hcounter : data'.counter = 0 := hready'.1.counter_eq
    rw [decodeFrom, hrun, Option.bind_some, decodeLeft, if_pos hcounter, Option.map_some, List.append_nil]

theorem decodeChunks_encode_marks :
    (⟨.utf16, true, true, false⟩ : UnicodeCodingSystem).decodeChunks .fresh
      [[0xff], [0xfe, 0xff, 0xfe, 0x41], [], [0]] = some [0xfeff, 0x41] :=
  ((@decodeChunks_encode ⟨.utf16, true, true, false⟩ [[0xff], [0xfe, 0xff, 0xfe, 0x41], [], [0]] (by decide)).2
    [0xfeff, 0x41] (by decide) (by
      rw [encode, unicodeEncode, encodeLoop_eq]
      decide)).mpr (by decide)

/-- In UTF-16, U+10000 is put out as error octets in little endian, and fails an assertion in big
endian. -/
theorem decode_encode_pair :
    (⟨.utf16, true, false, false⟩ : UnicodeCodingSystem).decode
        ((⟨.utf16, true, false, false⟩ : UnicodeCodingSystem).encode [0x10000]) ≠ some [0x10000] ∧
      (⟨.utf16, false, false, false⟩ : UnicodeCodingSystem).decode
        ((⟨.utf16, false, false, false⟩ : UnicodeCodingSystem).encode [0x10000]) ≠ some [0x10000] := by
  rw [encode_eq rfl, encode_eq rfl]
  decide

end XEmacs.Coding.Unicode.UnicodeCodingSystem
