import XEmacs.Coding.CharsetRegistry
import XEmacs.Coding.CompiledTables
import XEmacs.Coding.MultibyteTransparent
import XEmacs.Lib.Bits

/-! The private code points that stand for charset codepoints without a Unicode equivalent
(unicode.c). A charset compatible with ISO 2022 is told from the type and the final byte in the code
point, any other from its number; the direction is not in the code point. -/

namespace XEmacs.Coding.Multibyte

open Lib
open Unicode (Byte byte)

def cantConvertCharWhenEncodingUnicode : ℕ := 0xfffd

namespace CharsetRegistry

variable (env : CharsetRegistry)

/-- `charset_codepoint_to_private_unicode`; the sum of an incompatible charset wraps where an `int`
overflows, as the check for it expects. -/
def charsetCodepointToPrivateUnicode (charset : ℕ) (c1 c2 : Byte) : ℕ :=
  match env.getCharsetIso2022Type charset with
  | some type => 0x800000 + type <<< 21 + env.final charset <<< 14 + (c1.val &&& 127) <<< 7 + (c2.val &&& 127)
  | none =>
    let retval := toCInt (((256 + env.id charset) <<< 16 + c1.val <<< 8 + c2.val : ℕ) : ℤ)
    if 0 ≤ retval ∧ validUnicodeCodepointP retval.toNat then retval.toNat else cantConvertCharWhenEncodingUnicode

/-- A valid codepoint of a charset that has been made. -/
def Codepoint (charset : ℕ) (c1 c2 : Byte) : Prop :=
  env.made charset ∧ (env.charset charset).validCharsetCodepointP c1 c2

/-- No charset of its type and final byte goes the other way, if it goes from right to left, and the
number of an incompatible one does not wrap around to another's. -/
def Told (charset : ℕ) (c1 c2 : Byte) : Prop :=
  match env.getCharsetIso2022Type charset with
  | some type => env.rightToLeft charset → env.charsetByAttributes type (env.final charset) false = none
  | none => 256 + env.id charset < 2 ^ 16 ∨ 2 ^ 15 ≤ (256 + env.id charset) % 2 ^ 16 ∨
      (256 + env.id charset) % 2 ^ 16 = 0 ∧ (0xd8 ≤ c1.val ∧ c1.val ≤ 0xdf ∨ c1 = 0xff ∧ c2 = 0xfd)

theorem mask_eq (n : ℕ) : n &&& 127 = n % 128 := Nat.and_two_pow_sub_one_eq_mod n 7

/-- A charset of ISO 2022 lies in one half of the octets. -/
structure Compatible (cs : LispCharset) (type : ℕ) : Prop where
  type_lt : type < 4
  half : ∀ dim, cs.offset dim % 128 + cs.chars dim ≤ 128

theorem compatible_of_type1 {cs : LispCharset} {final type : ℕ} (h : cs.iso2022Type1 final = some type) :
    Compatible cs type := by
  rw [LispCharset.iso2022Type1, getCharsetIso2022Type1, mask_eq, mask_eq] at h
  have hrow := cs.row
  simp only [charsetType94, charsetType96, charsetType94x94, charsetType96x96] at h
  split_ifs at h with hfinal hone h94 h96 h94x94 h96x96 <;> obtain rfl := Option.some.inj h
  · obtain ⟨hoffset, hchars⟩ := hrow hone
    exact ⟨by decide, Fin.forall_fin_two.mpr ⟨by omega, by omega⟩⟩
  · obtain ⟨hoffset, hchars⟩ := hrow hone
    exact ⟨by decide, Fin.forall_fin_two.mpr ⟨by omega, by omega⟩⟩
  · exact ⟨by decide, Fin.forall_fin_two.mpr ⟨by omega, by omega⟩⟩
  · exact ⟨by decide, Fin.forall_fin_two.mpr ⟨by omega, by omega⟩⟩

theorem compatible {env : CharsetRegistry} {charset type : ℕ} (h : env.getCharsetIso2022Type charset = some type) :
    Compatible (env.charset charset) type := by
  rw [getCharsetIso2022Type] at h
  split_ifs at h with hascii
  · obtain rfl := Option.some.inj h
    subst hascii
    obtain ⟨hmin, hmax⟩ := env.ascii_limits
    obtain ⟨hoffset, hchars⟩ := (env.charset env.ascii).row env.ascii_dimension
    rw [LispCharset.minCode] at hmin
    rw [LispCharset.maxCode] at hmax
    exact ⟨by decide, Fin.forall_fin_two.mpr ⟨by omega, by omega⟩⟩
  · exact compatible_of_type1 h

theorem octet_eq {offset chars : ℕ} {c : Byte} (hle : offset ≤ c) (hlt : c < offset + chars)
    (hhalf : offset % 128 + chars ≤ 128) : byte ((c.val &&& 127) + if offset ≥ 128 then 128 else 0) = c := by
  rw [mask_eq]
  apply Fin.ext
  show (c.val % 128 + if offset ≥ 128 then 128 else 0) % 256 = c.val
  split_ifs <;> omega

theorem decode_compatible {env : Charsets} {type final a b : ℕ} (htype : type < 4) (hfinal : final < 128)
    (ha : a < 128) (hb : b < 128) :
    env.privateUnicodeToCharsetCodepoint (0x800000 + type <<< 21 + final <<< 14 + a <<< 7 + b) =
      (((env.charsetByAttributes type final false).or (env.charsetByAttributes type final true)).map fun charset =>
        (charset, byte (a + if (env.charset charset).offset 0 ≥ 128 then 128 else 0),
          byte (b + if (env.charset charset).offset 1 ≥ 128 then 128 else 0))).filter
        fun r => (env.charset r.1).validCharsetCodepointP r.2.1 r.2.2 := by
  obtain ⟨priv, hpriv⟩ : ∃ priv, priv = 0x800000 + type <<< 21 + final <<< 14 + a <<< 7 + b := ⟨_, rfl⟩
  have hfield1 : (priv - 0x800000) >>> 21 &&& 3 = type := (Bits.shiftRight_and_mask _ 21 2).trans (by omega)
  have hfield2 : (priv - 0x800000) >>> 14 &&& 0x7f = final := (Bits.shiftRight_and_mask _ 14 7).trans (by omega)
  have hfield3 : (priv - 0x800000) >>> 7 &&& 0x7f = a := (Bits.shiftRight_and_mask _ 7 7).trans (by omega)
  have hfield4 : (priv - 0x800000) &&& 0x7f = b := by
    rw [mask_eq]
    omega
  rw [← hpriv, Charsets.privateUnicodeToCharsetCodepoint, if_neg (by omega), if_pos (by omega)]
  simp only [hfield1, hfield2, hfield3, hfield4]

theorem decode_incompatible {env : Charsets} {n : ℕ} (hn : 256 ≤ n) (c1 c2 : Byte) :
    env.privateUnicodeToCharsetCodepoint (n <<< 16 + c1.val <<< 8 + c2.val) =
      ((env.charsetById (n - 256)).map fun charset => (charset, c1, c2)).filter
        fun r => (env.charset r.1).validCharsetCodepointP r.2.1 r.2.2 := by
  obtain ⟨priv, hpriv⟩ : ∃ priv, priv = n <<< 16 + c1.val <<< 8 + c2.val := ⟨_, rfl⟩
  have hfield1 : priv >>> 16 = n := by
    rw [Nat.shiftRight_eq_div_pow]
    omega
  have hfield2 : byte (priv >>> 8 &&& 0xff) = c1 := by
    apply Fin.ext
    have hand : priv >>> 8 &&& 0xff = priv / 2 ^ 8 % 2 ^ 8 := Bits.shiftRight_and_mask _ 8 8
    show (priv >>> 8 &&& 0xff) % 256 = c1.val
    omega
  have hfield3 : byte (priv &&& 0xff) = c2 := by
    apply Fin.ext
    have hand : priv &&& 0xff = priv % 2 ^ 8 := Nat.and_two_pow_sub_one_eq_mod priv 8
    show (priv &&& 0xff) % 256 = c2.val
    omega
  rw [← hpriv, Charsets.privateUnicodeToCharsetCodepoint, if_pos (by omega)]
  simp only [hfield1, hfield2, hfield3]

theorem compatible_of_decode {env : DefinedCharsets} {priv charset : ℕ} {c1 c2 : Byte} (hlt : priv < 0x1000000)
    (h : env.privateUnicodeToCharsetCodepoint priv = some (charset, c1, c2)) :
    env.getCharsetIso2022Type charset ≠ none := by
  rw [Charsets.privateUnicodeToCharsetCodepoint, if_neg (by omega)] at h
  obtain ⟨hfound, -⟩ := Option.filter_eq_some_iff.mp h
  split_ifs at hfound with hge
  · obtain ⟨found, hor, heq⟩ := Option.map_eq_some_iff.mp hfound
    obtain rfl : found = charset := congrArg Prod.fst heq
    have htype {type final : ℕ} {rightToLeft : Bool}
        (hlookup : env.charsetByAttributes type final rightToLeft = some found) :
        env.getCharsetIso2022Type found ≠ none := by
      rw [(env.defined.byAttributes.mp hlookup).2.1]
      exact Option.some_ne_none type
    rcases Option.or_eq_some_iff.mp hor with hleft | ⟨-, hright⟩
    · exact htype hleft
    · exact htype hright

theorem toCInt_private (n : ℕ) (c1 c2 : Byte) :
    toCInt ((n <<< 16 + c1.val <<< 8 + c2.val : ℕ) : ℤ) =
      ((n % 2 ^ 16 * 2 ^ 16 + c1.val * 2 ^ 8 + c2.val : ℕ) : ℤ) - if n % 2 ^ 16 < 2 ^ 15 then 0 else 2 ^ 32 := by
  have h1 := c1.isLt
  have h2 := c2.isLt
  rw [toCInt, Int.bmod_def, Nat.shiftLeft_eq, Nat.shiftLeft_eq]
  split_ifs <;> omega

theorem validUnicodeCodepointP_iff {ch : ℕ} :
    validUnicodeCodepointP ch = true ↔ ch ≤ 0x7fffffff ∧ ch / 2 ^ 11 % 2 ^ 20 ≠ 0x1b := by
  have hmask : ch &&& 0x7ffff800 = ch / 2 ^ 11 % 2 ^ 20 * 2 ^ 11 := Bits.and_mask_shiftLeft ch 20 11
  rw [validUnicodeCodepointP, Bool.and_eq_true, decide_eq_true_eq, bne_iff_ne, hmask]
  omega

end CharsetRegistry

namespace DefinedCharsets

variable {env : DefinedCharsets} {charset type : ℕ} {c1 c2 : Byte}

/-- The private code point is taken back to the charset codepoint, unless it is the replacement
character. -/
def GoesBack (env : DefinedCharsets) (charset : ℕ) (c1 c2 : Byte) : Prop :=
  env.charsetCodepointToPrivateUnicode charset c1 c2 ≠ cantConvertCharWhenEncodingUnicode →
    env.privateUnicodeToCharsetCodepoint (env.charsetCodepointToPrivateUnicode charset c1 c2) = some (charset, c1, c2)

theorem private_compatible (h : env.getCharsetIso2022Type charset = some type) :
    env.charsetCodepointToPrivateUnicode charset c1 c2 =
      0x800000 + type <<< 21 + env.final charset <<< 14 + (c1.val &&& 127) <<< 7 + (c2.val &&& 127) := by
  rw [CharsetRegistry.charsetCodepointToPrivateUnicode, h]

theorem goesBack_compatible (h : env.getCharsetIso2022Type charset = some type)
    (hpoint : env.Codepoint charset c1 c2) : GoesBack env charset c1 c2 ↔ env.Told charset c1 c2 := by
  obtain ⟨hmade, hvalid⟩ := hpoint
  have hcompatible := CharsetRegistry.compatible h
  obtain ⟨⟨hmin0, hmax0⟩, hmin1, hmax1⟩ := Charsets.valid_iff.mp hvalid
  have hand (n : ℕ) : n &&& 127 < 128 := Nat.lt_succ_of_le Nat.and_le_right
  have hlarge : env.charsetCodepointToPrivateUnicode charset c1 c2 ≠ cantConvertCharWhenEncodingUnicode := by
    rw [private_compatible h, cantConvertCharWhenEncodingUnicode]
    omega
  have hattributes : env.charsetByAttributes type (env.final charset) (env.rightToLeft charset) = some charset :=
    env.defined.byAttributes.mpr ⟨hmade, h, rfl, rfl⟩
  have hdecode := @CharsetRegistry.decode_compatible env.toCharsets type (env.final charset) _ _
    hcompatible.type_lt (env.defined.final_lt charset hmade) (hand c1.val) (hand c2.val)
  rw [← private_compatible h] at hdecode
  have hchars0 := (env.charset charset).chars_pos 0
  have hchars1 := (env.charset charset).chars_pos 1
  rw [LispCharset.minCode] at hmin0 hmin1
  rw [LispCharset.maxCode] at hmax0 hmax1
  have hoctet1 := CharsetRegistry.octet_eq hmin0 (by omega) (hcompatible.half 0)
  have hoctet2 := CharsetRegistry.octet_eq hmin1 (by omega) (hcompatible.half 1)
  rw [GoesBack, imp_iff_right hlarge, hdecode, CharsetRegistry.Told, h]
  cases hother : (env.charsetByAttributes type (env.final charset) false) with
  | none =>
    have hright : env.rightToLeft charset = true := by
      by_contra hleft
      rw [Bool.not_eq_true] at hleft
      rw [hleft, hother] at hattributes
      exact Option.some_ne_none _ hattributes.symm
    rw [hright] at hattributes
    rw [Option.none_or, hattributes, Option.map_some, hoctet1, hoctet2]
    exact iff_of_true (Option.filter_some_pos hvalid) fun _ => hother
  | some other =>
    rw [Option.some_or, Option.map_some]
    obtain ⟨-, -, -, hleft⟩ := env.defined.byAttributes.mp hother
    by_cases heq : other = charset
    · subst heq
      rw [hoctet1, hoctet2]
      refine iff_of_true (Option.filter_some_pos hvalid) fun hright => ?_
      exact absurd (hleft.symm.trans hright) Bool.false_ne_true
    · refine iff_of_false (fun hback => heq ?_) (fun hnone => ?_)
      · exact congrArg Prod.fst (Option.some.inj (Option.filter_eq_some_iff.mp hback).1)
      · have hright : env.rightToLeft charset = true := by
          by_contra hright
          rw [Bool.not_eq_true] at hright
          rw [hright, hother] at hattributes
          exact heq (Option.some.inj hattributes)
        exact Option.some_ne_none _ (hother.symm.trans (hnone hright))

theorem private_incompatible (h : env.getCharsetIso2022Type charset = none) :
    env.charsetCodepointToPrivateUnicode charset c1 c2 =
      if (256 + env.id charset) % 2 ^ 16 < 2 ^ 15 ∧
          ¬ ((256 + env.id charset) % 2 ^ 16 = 0 ∧ 0xd8 ≤ c1.val ∧ c1.val ≤ 0xdf) then
        ((256 + env.id charset) % 2 ^ 16) <<< 16 + c1.val <<< 8 + c2.val
      else cantConvertCharWhenEncodingUnicode := by
  have h1 := c1.isLt
  have h2 := c2.isLt
  rw [CharsetRegistry.charsetCodepointToPrivateUnicode, h]
  simp only [CharsetRegistry.toCInt_private, CharsetRegistry.validUnicodeCodepointP_iff]
  rw [Nat.shiftLeft_eq, Nat.shiftLeft_eq]
  have hmod : (256 + env.id charset) % 2 ^ 16 < 2 ^ 16 := Nat.mod_lt _ (by decide)
  generalize (256 + env.id charset) % 2 ^ 16 = m at hmod ⊢
  split_ifs <;> omega

theorem goesBack_incompatible (h : env.getCharsetIso2022Type charset = none)
    (hpoint : env.Codepoint charset c1 c2) : GoesBack env charset c1 c2 ↔ env.Told charset c1 c2 := by
  obtain ⟨hmade, hvalid⟩ := hpoint
  have h1 := c1.isLt
  have h2 := c2.isLt
  have hprivate := @private_incompatible env charset c1 c2 h
  have hnumber : env.charsetById (env.id charset) = some charset := env.defined.byId.mpr ⟨hmade, rfl⟩
  have hn : env.id charset = 256 + env.id charset - 256 := (Nat.add_sub_cancel_left _ _).symm
  rw [CharsetRegistry.Told, h, GoesBack, hprivate]
  simp only
  generalize hdef : 256 + env.id charset = n at hn ⊢
  split_ifs with hkept
  · obtain ⟨hpositive, hproper⟩ := hkept
    by_cases hsmall : n % 2 ^ 16 < 256
    · -- the number has wrapped, and the code point is read as one of another kind
      have hnot : env.privateUnicodeToCharsetCodepoint ((n % 2 ^ 16) <<< 16 + c1.val <<< 8 + c2.val) ≠
          some (charset, c1, c2) := by
        refine fun hback => CharsetRegistry.compatible_of_decode ?_ hback h
        rw [Nat.shiftLeft_eq, Nat.shiftLeft_eq]
        omega
      refine Iff.trans (imp_congr_right fun _ => iff_false_intro hnot) ?_
      rw [Nat.shiftLeft_eq, Nat.shiftLeft_eq, cantConvertCharWhenEncodingUnicode, imp_false, not_ne_iff]
      have hff : c1 = 0xff ↔ c1.val = 0xff := Fin.ext_iff
      have hfd : c2 = 0xfd ↔ c2.val = 0xfd := Fin.ext_iff
      rw [hff, hfd]
      omega
    · have hlarge : (n % 2 ^ 16) <<< 16 + c1.val <<< 8 + c2.val ≠ cantConvertCharWhenEncodingUnicode := by
        rw [Nat.shiftLeft_eq, Nat.shiftLeft_eq, cantConvertCharWhenEncodingUnicode]
        omega
      rw [imp_iff_right hlarge, CharsetRegistry.decode_incompatible (Nat.not_lt.mp hsmall)]
      by_cases hwrap : n < 2 ^ 16
      · rw [Nat.mod_eq_of_lt hwrap, ← hn, hnumber]
        exact iff_of_true (Option.filter_some_pos hvalid) (.inl hwrap)
      · refine iff_of_false (fun hback => ?_) (by omega)
        obtain ⟨found, hfound, heq⟩ := Option.map_eq_some_iff.mp (Option.filter_eq_some_iff.mp hback).1
        obtain rfl : found = charset := congrArg Prod.fst heq
        have hid := (env.defined.byId.mp hfound).2
        omega
  · refine iff_of_true (fun hne => absurd rfl hne) ?_
    omega

/-- A valid codepoint goes back exactly if its charset is told, and codepoints that go back have
private code points of their own. -/
theorem goesBack_iff (env : DefinedCharsets) :
    (∀ charset c1 c2, env.Codepoint charset c1 c2 → (GoesBack env charset c1 c2 ↔ env.Told charset c1 c2)) ∧
      ∀ charset c1 c2 charset' c1' c2', env.Codepoint charset c1 c2 → env.Codepoint charset' c1' c2' →
        env.Told charset c1 c2 → env.Told charset' c1' c2' →
        env.charsetCodepointToPrivateUnicode charset c1 c2 ≠ cantConvertCharWhenEncodingUnicode →
        env.charsetCodepointToPrivateUnicode charset c1 c2 = env.charsetCodepointToPrivateUnicode charset' c1' c2' →
        (charset, c1, c2) = (charset', c1', c2') := by
  have hiff (charset : ℕ) (c1 c2 : Byte) (h : env.Codepoint charset c1 c2) :
      GoesBack env charset c1 c2 ↔ env.Told charset c1 c2 := by
    cases htype : env.getCharsetIso2022Type charset with
    | none => exact goesBack_incompatible htype h
    | some type => exact goesBack_compatible htype h
  refine ⟨hiff, fun charset c1 c2 charset' c1' c2' h h' htold htold' hne heq => ?_⟩
  have hback := (hiff charset c1 c2 h).mpr htold hne
  have hback' := (hiff charset' c1' c2' h').mpr htold' (heq ▸ hne)
  rw [heq, hback'] at hback
  exact (Option.some.inj hback).symm

end DefinedCharsets

theorem hebrew_dimension : 1 = 1 ∨ 1 = 2 := Or.inl rfl

/-- The right half of ISO 8859-8, whose tables are blank. -/
def hebrew : LispCharset where
  toCharset := Charset.initCharsetUnicodeTables (fun dim => if dim.val = 0 then 1 else 96)
    (fun dim => if dim.val = 0 then 0 else 160) (by decide) false
  dimension := 1
  dimension_eq := hebrew_dimension
  row _ := ⟨rfl, rfl⟩
  chars_pos := by decide
  loaded h := absurd h Bool.false_ne_true
  valid h := absurd h (Option.some_ne_none _).symm
  counted h _ := absurd h (Option.some_ne_none _).symm

def asciiAlone : CharsetRegistry where
  charset _ := ascii
  ascii := 0
  charsetById id := if id = 128 then some 0 else none
  charsetByAttributes type final rightToLeft :=
    if type = 0 ∧ final = 0x42 ∧ rightToLeft = false then some 0 else none
  ascii_dimension := rfl
  ascii_limits := ⟨rfl, rfl⟩
  ascii_codes _ hc := ascii_toIchar (Nat.lt_succ_of_le (Charsets.byteAsciiP_iff.mp hc))
  made charset := charset = 0
  id _ := 128
  final _ := 0x42
  rightToLeft _ := false

theorem asciiAlone_defined : asciiAlone.Defined where
  ascii_made := by rfl
  ascii_final := by decide
  final_lt _ _ := (by decide : 0x42 < 128)
  byId {id charset} := by
    show (if id = 128 then some 0 else none) = some charset ↔ decide (charset = 0) = true ∧ 128 = id
    rw [Option.ite_none_right_eq_some, Option.some.injEq, decide_eq_true_eq]
    omega
  byAttributes {type final rightToLeft charset} := by
    show (if type = 0 ∧ final = 0x42 ∧ rightToLeft = false then some 0 else none) = some charset ↔
      decide (charset = 0) = true ∧ asciiAlone.getCharsetIso2022Type charset = some type ∧ 0x42 = final ∧
        false = rightToLeft
    rw [Option.ite_none_right_eq_some, Option.some.injEq, decide_eq_true_eq]
    constructor
    · rintro ⟨⟨rfl, rfl, rfl⟩, rfl⟩
      exact ⟨rfl, rfl, rfl, rfl⟩
    · rintro ⟨rfl, htype, rfl, rfl⟩
      exact ⟨⟨(Option.some.inj htype).symm, rfl, rfl⟩, rfl⟩

/-- `hebrew` goes from right to left; its reverse has been made after it. -/
def hebrewReversed : CharsetRegistry :=
  (asciiAlone.enter 1 hebrew 256 0x48 true Nat.one_ne_zero).enter 2 hebrew 257 0x48 false (Nat.succ_ne_zero 1)

theorem defined_hebrewReversed : hebrewReversed.Defined :=
  (asciiAlone_defined.enter Nat.one_ne_zero (by decide) (fun _ => ⟨by decide, by decide, by rfl⟩) (by rfl)).enter
    (Nat.succ_ne_zero 1) (by decide) (fun _ => ⟨by decide, by decide, by rfl⟩) (by rfl)

theorem goesBack_iff_hebrewReversed :
    DefinedCharsets.GoesBack ⟨hebrewReversed, defined_hebrewReversed⟩ 2 0 0xe0 ∧
      hebrewReversed.charsetCodepointToPrivateUnicode 2 0 0xe0 ≠
        hebrewReversed.charsetCodepointToPrivateUnicode 0 0 0x41 := by
  have h := DefinedCharsets.goesBack_iff ⟨hebrewReversed, defined_hebrewReversed⟩
  have hhebrew : hebrewReversed.Codepoint 2 0 0xe0 := ⟨by decide, by decide⟩
  have hascii : hebrewReversed.Codepoint 0 0 0x41 := ⟨by decide, by decide⟩
  have htold : hebrewReversed.Told 2 0 0xe0 := fun hright => absurd hright (by decide)
  refine ⟨(h.1 2 0 0xe0 hhebrew).mpr htold, fun heq => ?_⟩
  have hsame := h.2 2 0 0xe0 0 0 0x41 hhebrew hascii htold (fun hright => absurd hright (by decide)) (by decide) heq
  exact absurd (congrArg Prod.fst hsame) (by decide)

/-- The codepoint from right to left comes back as the one of its reverse. -/
theorem not_goesBack_hebrewReversed :
    ((asciiAlone.makeCharset 1 hebrew 256 0x48 true).bind fun env => env.makeCharset 2 hebrew 257 0x48 false) =
        some hebrewReversed ∧
      hebrewReversed.Codepoint 1 0 0xe0 ∧
      hebrewReversed.charsetCodepointToPrivateUnicode 1 0 0xe0 ≠ cantConvertCharWhenEncodingUnicode ∧
      hebrewReversed.privateUnicodeToCharsetCodepoint (hebrewReversed.charsetCodepointToPrivateUnicode 1 0 0xe0) =
        some (2, 0, 0xe0) ∧
      ¬ DefinedCharsets.GoesBack ⟨hebrewReversed, defined_hebrewReversed⟩ 1 0 0xe0 := by
  have hlarge : hebrewReversed.charsetCodepointToPrivateUnicode 1 0 0xe0 ≠ cantConvertCharWhenEncodingUnicode := by
    decide
  have hback : hebrewReversed.privateUnicodeToCharsetCodepoint
      (hebrewReversed.charsetCodepointToPrivateUnicode 1 0 0xe0) = some (2, 0, 0xe0) := by decide
  exact ⟨by rfl, ⟨by decide, by decide⟩, hlarge, hback, fun h => absurd (hback.symm.trans (h hlarge)) (by decide)⟩

end XEmacs.Coding.Multibyte
