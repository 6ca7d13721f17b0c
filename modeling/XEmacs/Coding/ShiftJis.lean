import XEmacs.Coding.PrivateCodepoints

/-! The coding system Shift-JIS (mule-coding.c, file-coding.h) in the build with Unicode inside. A file is
decoded in chunks, and encoded again as its bytes. Left out is what an encoder reports about errors, which
are not signalled. -/

namespace XEmacs.Coding.Multibyte

open Unicode (Byte byte byteAsciiP unicodeErrorOctetRangeStart unicodeErrorOctetCodeP)

/-- The charsets of Shift-JIS, as mule-charset.el makes them. -/
structure JapaneseCharsets extends DefinedCharsets where
  katakanaJisx0201 : ℕ
  japaneseJisx0208 : ℕ
  japaneseJisx0208_1978 : ℕ
  katakana_made : made katakanaJisx0201 ∧ rightToLeft katakanaJisx0201 = false ∧ final katakanaJisx0201 = 0x49
  katakana_limits : (charset katakanaJisx0201).dimension = 1 ∧ (charset katakanaJisx0201).chars 1 = 94 ∧
    (charset katakanaJisx0201).offset 1 = 161
  kanji_made : made japaneseJisx0208 ∧ rightToLeft japaneseJisx0208 = false ∧ final japaneseJisx0208 = 0x42
  kanji_limits : (charset japaneseJisx0208).dimension = 2 ∧ ∀ dim, (charset japaneseJisx0208).chars dim = 94 ∧
    (charset japaneseJisx0208).offset dim = 33
  old_made : final japaneseJisx0208_1978 = 0x40 ∧ (charset japaneseJisx0208_1978).dimension = 2

def byteShiftJisTwoByte1P (c : Byte) : Bool := c.val ≥ 0x81 && c.val ≤ 0x9f || c.val ≥ 0xe0 && c.val ≤ 0xef

def byteShiftJisTwoByte2P (c : Byte) : Bool := c.val ≥ 0x40 && c.val ≤ 0x7e || c.val ≥ 0x80 && c.val ≤ 0xfc

def byteShiftJisKatakanaP (c : Byte) : Bool := c.val ≥ 0xa1 && c.val ≤ 0xdf

/-- `DECODE_SHIFT_JIS`, of the first and the second byte of a character. -/
def decodeShiftJis (sj1 sj2 : Byte) : Byte × Byte :=
  let c :=
    if sj2.val ≥ 0x9f then (sj1.val <<< 1 - if sj1.val ≥ 0xe0 then 0xe0 else 0x60, sj2.val + 2)
    else (sj1.val <<< 1 - if sj1.val ≥ 0xe0 then 0xe1 else 0x61, sj2.val + if sj2.val ≥ 0x7f then 0x60 else 0x61)
  (byte (c.1 - 0x80), byte (c.2 - 0x80))

def encodeShiftJis (c1 c2 : Byte) : Byte × Byte :=
  let i1 := c1.val + 0x80
  let i2 := c2.val + 0x80
  if i1 &&& 1 ≠ 0 then
    (byte (i1 >>> 1 + if i1 < 0xdf then 0x31 else 0x71), byte (i2 - if i2 ≥ 0xe0 then 0x60 else 0x61))
  else (byte (i1 >>> 1 + if i1 < 0xdf then 0x30 else 0x70), byte (i2 - 2))

namespace JapaneseCharsets

variable (env : JapaneseCharsets)

/-- `shift_jis_init`. -/
def charsetPrecedence : PrecedenceArray :=
  [env.japaneseJisx0208, env.japaneseJisx0208_1978, env.katakanaJisx0201].foldl env.addCharsetToPrecedenceArray
    allocatePrecedenceArray

/-- `non_ascii_charset_codepoint_to_dynarr` with `CONVERR_USE_PRIVATE`. -/
def nonAsciiCharsetCodepointToDynarr (charset : ℕ) (c1 c2 : Byte) : List ℕ :=
  [((env.charset charset).charsetCodepointToIchar c1 c2).getD (env.charsetCodepointToPrivateUnicode charset c1 c2)]

/-- The loop of `shift_jis_decode` on one byte, with the `ch` of the stream, of which none is -1: the new
`ch`, and what is put out. -/
def decodeByte (ch : Option Byte) (c : Byte) : Option Byte × List ℕ :=
  match ch with
  | some ch =>
    if byteShiftJisTwoByte2P c then
      let e := decodeShiftJis ch c
      (none, env.nonAsciiCharsetCodepointToDynarr env.japaneseJisx0208 e.1 e.2)
    else (none, Charsets.decodeErrorOctet ch ++ Charsets.decodeErrorOctet c)
  | none =>
    if byteShiftJisTwoByte1P c then (some c, [])
    else if byteShiftJisKatakanaP c then (none, env.nonAsciiCharsetCodepointToDynarr env.katakanaJisx0201 0 c)
    else if byteAsciiP c then (none, [c.val])
    else (none, Charsets.decodeErrorOctet c)

/-- The loop of `shift_jis_decode`. -/
def decodeLoop (ch : Option Byte) : List Byte → Option Byte × List ℕ
  | [] => (ch, [])
  | c :: src =>
    let r := env.decodeByte ch c
    let rest := decodeLoop r.1 src
    (rest.1, r.2 ++ rest.2)

/-- `shift_jis_decode`, which takes all of its source. -/
def shiftJisDecode (ch : Option Byte) (src : List Byte) (eof : Bool) : Option Byte × List ℕ :=
  let r := env.decodeLoop ch src
  if eof then (none, r.2 ++ (r.1.map Charsets.decodeErrorOctet).getD []) else r

/-- The text of a file that `shift_jis_decode` gets in chunks. -/
def decodeChunks (ch : Option Byte) : List (List Byte) → List ℕ
  | [] => []
  | [src] => (env.shiftJisDecode ch src true).2
  | src :: chunk :: chunks =>
    let r := env.shiftJisDecode ch src false
    r.2 ++ decodeChunks r.1 (chunk :: chunks)

/-- The loop of `shift_jis_encode` on one character. -/
def encodeIchar (ich : ℕ) : List Byte :=
  if ich < 0x80 then [byte ich]
  else if unicodeErrorOctetCodeP ich then [byte (ich &&& 0xff)]
  else
    match env.icharToCharsetCodepoint ich env.charsetPrecedence with
    | none => [cantConvertCharWhenEncoding]
    | some (charset, c1, c2) =>
      if charset = env.katakanaJisx0201 then [c2]
      else if charset = env.japaneseJisx0208 ∨ charset = env.japaneseJisx0208_1978 then
        let j := encodeShiftJis c1 c2
        [j.1, j.2]
      else [cantConvertCharWhenEncoding]

def shiftJisEncode (src : List ℕ) : List Byte := src.flatMap env.encodeIchar

end JapaneseCharsets

variable {b c c1 c2 : Byte} {ich : ℕ}

theorem byteShiftJisTwoByte1P_iff :
    byteShiftJisTwoByte1P b = true ↔ 0x81 ≤ b.val ∧ b.val ≤ 0x9f ∨ 0xe0 ≤ b.val ∧ b.val ≤ 0xef := by
  simp only [byteShiftJisTwoByte1P, Bool.or_eq_true, Bool.and_eq_true, decide_eq_true_eq]

theorem byteShiftJisTwoByte2P_iff :
    byteShiftJisTwoByte2P b = true ↔ 0x40 ≤ b.val ∧ b.val ≤ 0x7e ∨ 0x80 ≤ b.val ∧ b.val ≤ 0xfc := by
  simp only [byteShiftJisTwoByte2P, Bool.or_eq_true, Bool.and_eq_true, decide_eq_true_eq]

theorem val_byte (n : ℕ) : (byte n).val = n % 256 := rfl

theorem decodeShiftJis_val (b c : Byte) :
    ((decodeShiftJis b c).1.val = 2 * b.val - (if b.val ≥ 0xe0 then 352 else 224) - if c.val ≥ 0x9f then 0 else 1) ∧
      (decodeShiftJis b c).2.val =
        c.val - if c.val ≥ 0x9f then 126 else if c.val ≥ 0x7f then 32 else 31 := by
  unfold decodeShiftJis
  simp only [val_byte, Nat.shiftLeft_eq]
  split_ifs <;> dsimp only <;> omega

theorem encodeShiftJis_decodeShiftJis (hb : byteShiftJisTwoByte1P b) (hc : byteShiftJisTwoByte2P c) :
    (33 ≤ (decodeShiftJis b c).1.val ∧ (decodeShiftJis b c).1.val ≤ 126) ∧
      (33 ≤ (decodeShiftJis b c).2.val ∧ (decodeShiftJis b c).2.val ≤ 126) ∧
      encodeShiftJis (decodeShiftJis b c).1 (decodeShiftJis b c).2 = (b, c) := by
  obtain ⟨hfirst, hsecond⟩ := decodeShiftJis_val b c
  rw [byteShiftJisTwoByte1P_iff] at hb
  rw [byteShiftJisTwoByte2P_iff] at hc
  generalize (decodeShiftJis b c).1 = c1 at hfirst ⊢
  generalize (decodeShiftJis b c).2 = c2 at hsecond ⊢
  refine ⟨by split_ifs at hfirst <;> omega, by split_ifs at hsecond <;> omega, ?_⟩
  unfold encodeShiftJis
  simp only [Nat.shiftRight_eq_div_pow, Nat.and_one_is_mod]
  split_ifs at hfirst hsecond ⊢ <;> simp only [Prod.mk.injEq, Fin.ext_iff, val_byte] <;> omega

/-! ### Charset codepoints -/

namespace JapaneseCharsets

variable {env : JapaneseCharsets} {charset : ℕ} {ch : Option Byte} {src : List Byte}

def unicodeOfficialMax : ℕ := 0x10ffff

def decoded (env : JapaneseCharsets) : List ℕ := [env.japaneseJisx0208, env.katakanaJisx0201]

/-- The tables are inverse to each other, and hold official characters and none of another charset.
-/
structure Loaded (env : JapaneseCharsets) : Prop where
  inverse : Charsets.Inverse env.toCharsets env.decoded
  official : ∀ charset ∈ env.decoded, ∀ {c1 c2 u},
    (env.charset charset).charsetCodepointToIchar c1 c2 = some u → u ≤ unicodeOfficialMax
  ascii : ∀ charset ∈ env.decoded, ∀ {c1 c2 c u}, (env.charset charset).charsetCodepointToIchar c1 c2 = some u →
    (env.charset env.ascii).charsetCodepointToIchar 0 c ≠ some u
  old : ∀ {u}, Coding.validUnicodeCodepointP u →
    ((env.charset env.japaneseJisx0208_1978).unicodeConversion u).isSome →
    u ≤ unicodeOfficialMax ∧ (env.charset env.katakanaJisx0201).unicodeConversion u = none

theorem katakana_ne_kanji : env.katakanaJisx0201 ≠ env.japaneseJisx0208 := fun heq => by
  have hdim := env.katakana_limits.1
  rw [heq, env.kanji_limits.1] at hdim
  exact absurd hdim (by decide)

theorem nodup_precedence (env : JapaneseCharsets) :
    [env.japaneseJisx0208, env.japaneseJisx0208_1978, env.katakanaJisx0201].Nodup := by
  have hkanji : env.japaneseJisx0208 ≠ env.japaneseJisx0208_1978 := fun heq => by
    have hfinal := env.kanji_made.2.2
    rw [heq, env.old_made.1] at hfinal
    exact absurd hfinal (by decide)
  have hold : env.japaneseJisx0208_1978 ≠ env.katakanaJisx0201 := fun heq => by
    have hdim := env.old_made.2
    rw [heq, env.katakana_limits.1] at hdim
    exact absurd hdim (by decide)
  simp [hkanji, hold, katakana_ne_kanji.symm]

theorem precdyn_charsetPrecedence (env : JapaneseCharsets) :
    env.charsetPrecedence.precdyn = [env.japaneseJisx0208, env.japaneseJisx0208_1978, env.katakanaJisx0201] :=
  (Charsets.flags_foldl (@Charsets.flags_allocate env.toCharsets) (nodup_precedence env)).2

theorem icharToCharsetCodepoint_eq (hich : 0x80 ≤ ich) :
    env.icharToCharsetCodepoint ich env.charsetPrecedence =
      ((((env.charset env.japaneseJisx0208).unicodeConversion ich).map (Prod.mk env.japaneseJisx0208)).or
        ((((env.charset env.japaneseJisx0208_1978).unicodeConversion ich).map
          (Prod.mk env.japaneseJisx0208_1978)).or
        (((env.charset env.katakanaJisx0201).unicodeConversion ich).map (Prod.mk env.katakanaJisx0201)))).or
      (env.privateUnicodeToCharsetCodepoint ich) := by
  rw [Charsets.icharToCharsetCodepoint, if_neg (by omega), Charsets.unicodeToCharsetCodepointRaw,
    precdyn_charsetPrecedence]
  simp only [List.findSome?_cons, List.findSome?_nil]
  cases (env.charset env.japaneseJisx0208).unicodeConversion ich with
  | some c => rfl
  | none => cases (env.charset env.japaneseJisx0208_1978).unicodeConversion ich with
    | some c => rfl
    | none => cases (env.charset env.katakanaJisx0201).unicodeConversion ich <;> rfl

theorem not_errorOctet (h : ich ≤ unicodeOfficialMax ∨ 0x800000 ≤ ich) : ¬ unicodeErrorOctetCodeP ich = true := by
  rw [unicodeErrorOctetCodeP, Bool.and_eq_true, decide_eq_true_eq, decide_eq_true_eq, unicodeErrorOctetRangeStart]
  rw [unicodeOfficialMax] at h
  omega

theorem made_decoded (hmem : charset ∈ env.decoded) :
    env.made charset = true ∧ env.rightToLeft charset = false ∧ ∃ type, env.getCharsetIso2022Type charset = some type := by
  rcases List.mem_pair.mp hmem with rfl | rfl
  · refine ⟨env.kanji_made.1, env.kanji_made.2.1, ?_⟩
    have htype : (env.charset env.japaneseJisx0208).iso2022Type1 (env.final env.japaneseJisx0208) =
        some charsetType94x94 := by
      obtain ⟨hdim, hlimits⟩ := env.kanji_limits
      rw [LispCharset.iso2022Type1, hdim, (hlimits 0).1, (hlimits 0).2, (hlimits 1).1, (hlimits 1).2,
        env.kanji_made.2.2]
      rfl
    rw [CharsetRegistry.getCharsetIso2022Type, htype]
    split_ifs
    · exact ⟨_, rfl⟩
    · exact ⟨_, rfl⟩
  · refine ⟨env.katakana_made.1, env.katakana_made.2.1, ?_⟩
    have htype : (env.charset env.katakanaJisx0201).iso2022Type1 (env.final env.katakanaJisx0201) =
        some charsetType94 := by
      obtain ⟨hdim, hchars, hoffset⟩ := env.katakana_limits
      rw [LispCharset.iso2022Type1, hdim, hchars, hoffset, env.katakana_made.2.2]
      rfl
    rw [CharsetRegistry.getCharsetIso2022Type, htype]
    split_ifs
    · exact ⟨_, rfl⟩
    · exact ⟨_, rfl⟩

theorem private_decoded (hmem : charset ∈ env.decoded) (hpoint : env.Codepoint charset c1 c2) :
    (0x800000 ≤ env.charsetCodepointToPrivateUnicode charset c1 c2 ∧
        env.charsetCodepointToPrivateUnicode charset c1 c2 < 0x1000000) ∧
      env.privateUnicodeToCharsetCodepoint (env.charsetCodepointToPrivateUnicode charset c1 c2) =
        some (charset, c1, c2) := by
  obtain ⟨hmade, hleft, type, htype⟩ := made_decoded hmem
  have hback := (DefinedCharsets.goesBack_compatible htype hpoint).mpr (by
    rw [CharsetRegistry.Told, htype]
    exact fun hright => absurd (hleft.symm.trans hright) Bool.false_ne_true)
  have htype_lt := (CharsetRegistry.compatible htype).type_lt
  have hfinal_lt := env.defined.final_lt charset hmade
  have hprivate := @DefinedCharsets.private_compatible env.toDefinedCharsets charset type c1 c2 htype
  have hrange : 0x800000 ≤ env.charsetCodepointToPrivateUnicode charset c1 c2 ∧
      env.charsetCodepointToPrivateUnicode charset c1 c2 < 0x1000000 := by
    rw [hprivate, CharsetRegistry.mask_eq, CharsetRegistry.mask_eq]
    simp only [Nat.shiftLeft_eq]
    omega
  refine ⟨hrange, hback ?_⟩
  rw [cantConvertCharWhenEncodingUnicode]
  omega

theorem Loaded.not_ascii (h : env.Loaded) (hmem : charset ∈ env.decoded)
    (hcode : (env.charset charset).charsetCodepointToIchar c1 c2 = some ich) : 0x80 ≤ ich := by
  by_contra hlt
  have hbyte : (byte ich).val = ich := Nat.mod_eq_of_lt (by omega)
  have hascii := env.ascii_codes (byte ich) (Charsets.byteAsciiP_iff.mpr (by omega))
  rw [hbyte] at hascii
  exact h.ascii charset hmem hcode hascii

theorem valid_private (hge : 0x800000 ≤ ich) (hlt : ich < 0x1000000) : Coding.validUnicodeCodepointP ich = true :=
  CharsetRegistry.validUnicodeCodepointP_iff.mpr (by omega)

theorem Loaded.conversion_private (h : env.Loaded) (hmem : charset ∈ env.decoded) (hge : 0x800000 ≤ ich)
    (hlt : ich < 0x1000000) : (env.charset charset).unicodeConversion ich = none := by
  cases hconv : (env.charset charset).unicodeConversion ich with
  | none => rfl
  | some c =>
    have hcode := (h.inverse.inverse charset hmem (valid_private hge hlt)).mpr hconv
    have hofficial := h.official charset hmem hcode
    rw [unicodeOfficialMax] at hofficial
    omega

theorem Loaded.icharToCharsetCodepoint (h : env.Loaded) (hmem : charset ∈ env.decoded)
    (hpoint : env.Codepoint charset c1 c2)
    (hich : ich = ((env.charset charset).charsetCodepointToIchar c1 c2).getD
      (env.charsetCodepointToPrivateUnicode charset c1 c2)) :
    0x80 ≤ ich ∧ ¬ unicodeErrorOctetCodeP ich = true ∧
      env.icharToCharsetCodepoint ich env.charsetPrecedence = some (charset, c1, c2) := by
  have hkanji : env.japaneseJisx0208 ∈ env.decoded := List.mem_cons_self
  have hkatakana : env.katakanaJisx0201 ∈ env.decoded := List.mem_cons_of_mem _ (List.mem_singleton_self _)
  have hold (hvalid : Coding.validUnicodeCodepointP ich)
      (hnot : ¬ (ich ≤ unicodeOfficialMax ∧ (env.charset env.katakanaJisx0201).unicodeConversion ich = none)) :
      (env.charset env.japaneseJisx0208_1978).unicodeConversion ich = none := by
    cases hconv : (env.charset env.japaneseJisx0208_1978).unicodeConversion ich with
    | none => rfl
    | some c => exact absurd (h.old hvalid (by rw [hconv]; rfl)) hnot
  cases hcode : (env.charset charset).charsetCodepointToIchar c1 c2 with
  | some u =>
    obtain rfl : ich = u := by rw [hich, hcode]; rfl
    obtain ⟨hvalid, hconv⟩ := h.inverse.conversion hmem hcode
    have hge := h.not_ascii hmem hcode
    refine ⟨hge, not_errorOctet (.inl (h.official charset hmem hcode)), ?_⟩
    rw [icharToCharsetCodepoint_eq hge]
    rcases List.mem_pair.mp hmem with rfl | rfl
    · rw [hconv]
      rfl
    · have hnone : (env.charset env.japaneseJisx0208).unicodeConversion ich = none := by
        by_contra hsome
        exact katakana_ne_kanji (h.inverse.unshared _ hkatakana _ hkanji hvalid (by rw [hconv]; rfl)
          (Option.isSome_iff_ne_none.mpr hsome))
      rw [hnone, hold hvalid fun hboth => Option.some_ne_none _ (hconv.symm.trans hboth.2), hconv]
      rfl
  | none =>
    obtain ⟨⟨hge, hlt⟩, hback⟩ := private_decoded hmem hpoint
    obtain rfl : ich = env.charsetCodepointToPrivateUnicode charset c1 c2 := by rw [hich, hcode]; rfl
    refine ⟨by omega, not_errorOctet (.inr hge), ?_⟩
    rw [icharToCharsetCodepoint_eq (by omega), h.conversion_private hkanji hge hlt,
      h.conversion_private hkatakana hge hlt, hold (valid_private hge hlt) fun hboth => ?_, hback]
    · rfl
    · have hofficial := hboth.1
      rw [unicodeOfficialMax] at hofficial
      omega

theorem Loaded.encode_codepoint (h : env.Loaded) (hmem : charset ∈ env.decoded)
    (hpoint : env.Codepoint charset c1 c2) :
    env.shiftJisEncode (env.nonAsciiCharsetCodepointToDynarr charset c1 c2) =
      if charset = env.katakanaJisx0201 then [c2] else [(encodeShiftJis c1 c2).1, (encodeShiftJis c1 c2).2] := by
  obtain ⟨hge, hoctet, hfound⟩ := h.icharToCharsetCodepoint hmem hpoint rfl
  rw [shiftJisEncode, nonAsciiCharsetCodepointToDynarr, List.flatMap_singleton, encodeIchar, if_neg (by omega),
    if_neg hoctet, hfound]
  rcases List.mem_pair.mp hmem with rfl | rfl
  · simp [katakana_ne_kanji.symm]
  · simp

def Lead (ch : Option Byte) : Prop := ∀ b ∈ ch, byteShiftJisTwoByte1P b

theorem encode_errorOctet (octet : Byte) : env.shiftJisEncode (Charsets.decodeErrorOctet octet) = [octet] := by
  have hlarge : ¬ octet.val + unicodeErrorOctetRangeStart < 0x80 := by
    rw [unicodeErrorOctetRangeStart]
    omega
  have hcode : unicodeErrorOctetCodeP (octet.val + unicodeErrorOctetRangeStart) = true := by
    rw [unicodeErrorOctetCodeP, Bool.and_eq_true, decide_eq_true_eq, decide_eq_true_eq, unicodeErrorOctetRangeStart]
    omega
  have hmultibyte := @Charsets.encode_errorOctet env.toCharsets env.charsetPrecedence octet
  rw [Charsets.encodeIchar, if_pos hcode] at hmultibyte
  rw [shiftJisEncode, Charsets.decodeErrorOctet, List.flatMap_singleton, encodeIchar, if_neg hlarge, if_pos hcode,
    hmultibyte]

theorem Loaded.encode_kanji (h : env.Loaded) (hb : byteShiftJisTwoByte1P b) (hc : byteShiftJisTwoByte2P c) :
    env.shiftJisEncode (env.nonAsciiCharsetCodepointToDynarr env.japaneseJisx0208 (decodeShiftJis b c).1
      (decodeShiftJis b c).2) = [b, c] := by
  obtain ⟨hfirst, hsecond, hback⟩ := encodeShiftJis_decodeShiftJis hb hc
  obtain ⟨-, hlimits⟩ := env.kanji_limits
  have hpoint : env.Codepoint env.japaneseJisx0208 (decodeShiftJis b c).1 (decodeShiftJis b c).2 := by
    refine ⟨env.kanji_made.1, Charsets.valid_iff.mpr ?_⟩
    simp only [LispCharset.minCode, LispCharset.maxCode, (hlimits _).1, (hlimits _).2]
    omega
  rw [h.encode_codepoint List.mem_cons_self hpoint, if_neg katakana_ne_kanji.symm, hback]

theorem Loaded.encode_katakana (h : env.Loaded) (hc : byteShiftJisKatakanaP c) :
    env.shiftJisEncode (env.nonAsciiCharsetCodepointToDynarr env.katakanaJisx0201 0 c) = [c] := by
  rw [byteShiftJisKatakanaP, Bool.and_eq_true, decide_eq_true_eq, decide_eq_true_eq] at hc
  obtain ⟨hdim, hchars, hoffset⟩ := env.katakana_limits
  have hrow := (env.charset env.katakanaJisx0201).row hdim
  have hpoint : env.Codepoint env.katakanaJisx0201 0 c := by
    refine ⟨env.katakana_made.1, Charsets.valid_iff.mpr ?_⟩
    simp only [LispCharset.minCode, LispCharset.maxCode, hrow.1, hrow.2, hchars, hoffset]
    exact ⟨⟨Nat.zero_le _, le_refl 0⟩, by omega⟩
  rw [h.encode_codepoint (List.mem_cons_of_mem _ (List.mem_singleton_self _)) hpoint, if_pos rfl]

theorem Loaded.decodeByte (h : env.Loaded) (hch : Lead ch) (c : Byte) :
    Lead (env.decodeByte ch c).1 ∧
      env.shiftJisEncode (env.decodeByte ch c).2 ++ (env.decodeByte ch c).1.toList = ch.toList ++ [c] := by
  have hnone : Lead none := fun b hb => absurd hb (Option.not_mem_none b)
  cases ch with
  | some b =>
    unfold JapaneseCharsets.decodeByte
    simp only
    split_ifs with hc
    · exact ⟨hnone, (List.append_nil _).trans (h.encode_kanji (hch b rfl) hc)⟩
    · refine ⟨hnone, (List.append_nil _).trans ?_⟩
      rw [shiftJisEncode, List.flatMap_append]
      exact congrArg₂ _ (encode_errorOctet b) (encode_errorOctet c)
  | none =>
    unfold JapaneseCharsets.decodeByte
    simp only
    split_ifs with hlead hkatakana hascii
    · refine ⟨fun b hb => ?_, rfl⟩
      rwa [← Option.some.inj hb]
    · exact ⟨hnone, (List.append_nil _).trans (h.encode_katakana hkatakana)⟩
    · refine ⟨hnone, (List.append_nil _).trans ?_⟩
      have hle := Charsets.byteAsciiP_iff.mp hascii
      rw [shiftJisEncode, List.flatMap_singleton, encodeIchar, if_pos (by omega)]
      exact congrArg (fun b => [b]) (Fin.ext (Nat.mod_eq_of_lt c.isLt))
    · exact ⟨hnone, (List.append_nil _).trans (encode_errorOctet c)⟩

theorem Loaded.decodeLoop (h : env.Loaded) (hch : Lead ch) (src : List Byte) :
    Lead (env.decodeLoop ch src).1 ∧
      env.shiftJisEncode (env.decodeLoop ch src).2 ++ (env.decodeLoop ch src).1.toList = ch.toList ++ src := by
  induction src generalizing ch with
  | nil => exact ⟨hch, (List.append_nil _).symm⟩
  | cons c src ih =>
    obtain ⟨hlead, hbyte⟩ := h.decodeByte hch c
    obtain ⟨hlead', hrest⟩ := ih hlead
    refine ⟨hlead', ?_⟩
    calc env.shiftJisEncode ((env.decodeByte ch c).2 ++ (env.decodeLoop (env.decodeByte ch c).1 src).2) ++
          (env.decodeLoop (env.decodeByte ch c).1 src).1.toList
        = env.shiftJisEncode (env.decodeByte ch c).2 ++
            (env.shiftJisEncode (env.decodeLoop (env.decodeByte ch c).1 src).2 ++
              (env.decodeLoop (env.decodeByte ch c).1 src).1.toList) := by
          rw [shiftJisEncode, List.flatMap_append, List.append_assoc]
          rfl
      _ = env.shiftJisEncode (env.decodeByte ch c).2 ++ ((env.decodeByte ch c).1.toList ++ src) := by rw [hrest]
      _ = ch.toList ++ (c :: src) := by rw [← List.append_assoc, hbyte, List.append_assoc, List.singleton_append]

theorem Loaded.decodeEof (h : env.Loaded) (hch : Lead ch) (src : List Byte) :
    env.shiftJisEncode (env.shiftJisDecode ch src true).2 = ch.toList ++ src := by
  obtain ⟨-, hloop⟩ := h.decodeLoop hch src
  rw [← hloop, shiftJisDecode, if_pos rfl, shiftJisEncode, List.flatMap_append]
  refine congrArg _ ?_
  cases (env.decodeLoop ch src).1 with
  | none => rfl
  | some b => exact encode_errorOctet b

/-- A file that has been decoded in chunks, legal or not, is encoded as it was. -/
theorem shiftJisEncode_decodeChunks (h : env.Loaded) (chunks : List (List Byte)) :
    env.shiftJisEncode (env.decodeChunks none chunks) = chunks.flatten := by
  suffices hall : ∀ ch, Lead ch → chunks ≠ [] →
      env.shiftJisEncode (env.decodeChunks ch chunks) = ch.toList ++ chunks.flatten by
    by_cases hne : chunks = []
    · rw [hne]
      rfl
    · exact hall none (fun b hb => absurd hb (Option.not_mem_none b)) hne
  induction chunks with
  | nil => exact fun _ _ hne => absurd rfl hne
  | cons src chunks ih =>
    intro ch hch _
    cases chunks with
    | nil =>
      rw [decodeChunks, h.decodeEof hch, List.flatten_singleton]
    | cons chunk chunks =>
      obtain ⟨hlead, hloop⟩ := h.decodeLoop hch src
      have hrest := ih _ hlead (List.cons_ne_nil _ _)
      rw [decodeChunks, shiftJisDecode, if_neg Bool.false_ne_true]
      rw [shiftJisEncode] at hrest hloop ⊢
      rw [List.flatMap_append, hrest, ← List.append_assoc, hloop, List.append_assoc]
      rfl

end JapaneseCharsets

/-! ### Tables with one character -/

theorem two_dimensions : 2 = 1 ∨ 2 = 2 := Or.inr rfl

theorem one_dimension : 1 = 1 ∨ 1 = 2 := Or.inl rfl

def katakana : LispCharset where
  toCharset := Charset.initCharsetUnicodeTables (fun dim => if dim.val = 0 then 1 else 94)
    (fun dim => if dim.val = 0 then 0 else 161) (by decide) false
  dimension := 1
  dimension_eq := one_dimension
  row _ := ⟨rfl, rfl⟩
  chars_pos := by decide
  loaded h := absurd h Bool.false_ne_true
  valid h := absurd h (Option.some_ne_none _).symm
  counted h _ := absurd h (Option.some_ne_none _).symm

def jisx0208 : LispCharset where
  toCharset := { Charset.initCharsetUnicodeTables (fun _ => 94) (fun _ => 33) (by decide) false with
    toUnicodeTable := setUnicodeConversionCharToUnicode (some 0x4e9c) none 0x30 0x21
    fromUnicodeTable := setUnicodeConversionUnicodeToChar 0x4e9c (fun _ => fromUnicodeBlank 3) 0x3021 }
  dimension := 2
  dimension_eq := two_dimensions
  row h := absurd h (by decide)
  chars_pos := by decide
  loaded h := absurd h Bool.false_ne_true
  valid h := by
    rw [Charset.codeOf, Charset.codeOf_set] at h
    split_ifs at h
    · rw [← Option.some.inj h]
      decide
    · exact absurd h (Option.some_ne_none _).symm
  counted h hle := by
    rw [Charset.codeOf, Charset.codeOf_set] at h
    split_ifs at h
    · rw [← Option.some.inj h] at hle
      exact absurd hle (by decide)
    · exact absurd h (Option.some_ne_none _).symm

theorem one_ne_ascii : ¬ 1 = asciiAlone.ascii := Nat.one_ne_zero

theorem two_ne_ascii : ¬ 2 = asciiAlone.ascii := Nat.succ_ne_zero 1

theorem three_ne_ascii : ¬ 3 = asciiAlone.ascii := Nat.succ_ne_zero 2

def japaneseRegistry : CharsetRegistry :=
  ((asciiAlone.enter 1 jisx0208 256 0x42 false one_ne_ascii).enter 2 katakana 257 0x49 false two_ne_ascii).enter 3
    jisx0208 258 0x40 false three_ne_ascii

theorem defined_japaneseRegistry : japaneseRegistry.Defined :=
  ((asciiAlone_defined.enter one_ne_ascii (by decide) (fun _ => ⟨by decide, by decide, by rfl⟩) (by rfl)).enter
    two_ne_ascii (by decide) (fun _ => ⟨by decide, by decide, by rfl⟩) (by rfl)).enter
    three_ne_ascii (by decide) (fun _ => ⟨by decide, by decide, by rfl⟩) (by rfl)

def japanese : JapaneseCharsets where
  toCharsetRegistry := japaneseRegistry
  defined := defined_japaneseRegistry
  katakanaJisx0201 := 2
  japaneseJisx0208 := 1
  japaneseJisx0208_1978 := 3
  katakana_made := by decide
  katakana_limits := ⟨rfl, rfl, rfl⟩
  kanji_made := by decide
  kanji_limits := ⟨rfl, fun _ => ⟨rfl, rfl⟩⟩
  old_made := by decide

theorem katakana_unicodeConversion (u : ℕ) : katakana.unicodeConversion u = none := by
  have hwalk : walkCode u 3 katakana.fromUnicodeTable = badvalFromTable := walkCode_blank u 3
  have hconv : katakana.unicodeConversion u = katakana.codepointOf u := rfl
  rw [hconv, Charset.codepointOf, hwalk]
  exact if_neg fun h => absurd rfl h

theorem jisx0208_toIchar (c1 c2 : Byte) :
    jisx0208.charsetCodepointToIchar c1 c2 = if (c1, c2) = (0x30, 0x21) then some 0x4e9c else none :=
  toIchar_set rfl rfl c1 c2

theorem jisx0208_unicodeConversion {u : ℕ} (hu : u < 2 ^ 32) :
    jisx0208.unicodeConversion u = if u = 0x4e9c then some (0x30, 0x21) else none :=
  @unicodeConversion_set jisx0208 0x4e9c u 0x3021 rfl rfl rfl (by decide) (by decide) hu

theorem loaded_japanese : japanese.Loaded where
  inverse :=
    { inverse := fun charset hmem {c1 c2 u} hu => by
        rcases List.mem_pair.mp hmem with rfl | rfl
        · rw [show japanese.charset japanese.japaneseJisx0208 = jisx0208 from rfl, jisx0208_toIchar,
            jisx0208_unicodeConversion (Charset.lt_of_validUnicodeCodepointP hu), Option.ite_none_right_eq_some,
            Option.ite_none_right_eq_some, Option.some.injEq, Option.some.injEq]
          exact ⟨fun h => ⟨h.2.symm, h.1.symm⟩, fun h => ⟨h.2.symm, h.1.symm⟩⟩
        · rw [show japanese.charset japanese.katakanaJisx0201 = katakana from rfl, katakana_unicodeConversion]
          exact iff_of_false (Option.some_ne_none _).symm (Option.some_ne_none _).symm
      unshared := fun charset hmem ocharset homem {u} _ hfound hofound => by
        have hkatakana : ¬ ((japanese.charset japanese.katakanaJisx0201).unicodeConversion u).isSome := by
          rw [show japanese.charset japanese.katakanaJisx0201 = katakana from rfl, katakana_unicodeConversion]
          exact Bool.false_ne_true
        rcases List.mem_pair.mp hmem with rfl | rfl
        · rcases List.mem_pair.mp homem with rfl | rfl
          · rfl
          · exact absurd hofound hkatakana
        · exact absurd hfound hkatakana }
  official charset hmem {c1 c2 u} hcode := by
    rcases List.mem_pair.mp hmem with rfl | rfl
    · rw [show japanese.charset japanese.japaneseJisx0208 = jisx0208 from rfl, jisx0208_toIchar] at hcode
      rw [← Option.some.inj (Option.ite_none_right_eq_some.mp hcode).2]
      decide
    · exact absurd hcode (Option.some_ne_none _).symm
  ascii charset hmem {c1 c2 c u} hcode := by
    rcases List.mem_pair.mp hmem with rfl | rfl
    · rw [show japanese.charset japanese.japaneseJisx0208 = jisx0208 from rfl, jisx0208_toIchar] at hcode
      obtain rfl := Option.some.inj (Option.ite_none_right_eq_some.mp hcode).2
      intro hascii
      rw [show japanese.charset japanese.ascii = ascii from rfl, toIchar_of_loaded rfl] at hascii
      obtain ⟨hc, heq⟩ := Option.ite_none_right_eq_some.mp ((code_asciiTable 0 c).symm.trans hascii)
      have hlt := hc.2
      rw [Option.some.inj heq] at hlt
      exact absurd hlt (by decide)
    · exact absurd hcode (Option.some_ne_none _).symm
  old {u} hu hfound := by
    refine ⟨?_, katakana_unicodeConversion u⟩
    rw [show japanese.charset japanese.japaneseJisx0208_1978 = jisx0208 from rfl,
      jisx0208_unicodeConversion (Charset.lt_of_validUnicodeCodepointP hu)] at hfound
    by_cases heq : u = 0x4e9c
    · rw [heq]
      decide
    · rw [if_neg heq] at hfound
      exact absurd hfound Bool.false_ne_true

theorem shiftJisEncode_decodeChunks_japanese :
    japanese.shiftJisEncode (japanese.decodeChunks none [[0x88, 0x9f, 0x81], [0x40, 0xb1, 0x41, 0xe0, 0x0a], [0x9f]]) =
      [0x88, 0x9f, 0x81, 0x40, 0xb1, 0x41, 0xe0, 0x0a, 0x9f] :=
  JapaneseCharsets.shiftJisEncode_decodeChunks loaded_japanese _

end XEmacs.Coding.Multibyte
