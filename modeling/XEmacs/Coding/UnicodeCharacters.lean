import Mathlib.Data.Nat.Digits.Lemmas
import Mathlib.Tactic.NormNum
import Mathlib.Tactic.Ring
import XEmacs.Coding.UnicodeChunks

/-! What the decoders of the Unicode coding systems do with the bytes of one character. The
surrogates of a pair are taken out of a signed integer, so that the pair is never decoded. -/

namespace XEmacs.Coding.Unicode

open Lib

theorem validUnicodeLeadingSurrogate_iff {x : ℕ} : validUnicodeLeadingSurrogate x ↔ x / 2 ^ 10 % 2 ^ 21 = 0x36 := by
  have hmask : x &&& 0x7ffffc00 = x / 2 ^ 10 % 2 ^ 21 * 2 ^ 10 := Bits.and_mask_shiftLeft x 21 10
  rw [validUnicodeLeadingSurrogate, beq_iff_eq, hmask]
  omega

theorem validUnicodeTrailingSurrogate_iff {x : ℕ} : validUnicodeTrailingSurrogate x ↔ x / 2 ^ 10 % 2 ^ 21 = 0x37 := by
  have hmask : x &&& 0x7ffffc00 = x / 2 ^ 10 % 2 ^ 21 * 2 ^ 10 := Bits.and_mask_shiftLeft x 21 10
  rw [validUnicodeTrailingSurrogate, beq_iff_eq, hmask]
  omega

theorem validUnicodeSurrogate_iff {x : ℕ} : validUnicodeSurrogate x ↔ x / 2 ^ 11 % 2 ^ 20 = 0x1b := by
  have hmask : x &&& 0x7ffff800 = x / 2 ^ 11 % 2 ^ 20 * 2 ^ 11 := Bits.and_mask_shiftLeft x 20 11
  rw [validUnicodeSurrogate, beq_iff_eq, hmask]
  omega

theorem validUnicodeCodepointP_iff {u : ℤ} {allowPrivate : Bool} :
    validUnicodeCodepointP u allowPrivate ↔
      0 ≤ u ∧ u ≤ (if allowPrivate then 0x7fffffff else 0x10ffff) ∧ ¬ u.toNat / 2 ^ 11 % 2 ^ 20 = 0x1b := by
  rw [← validUnicodeSurrogate_iff]
  simp [validUnicodeCodepointP, and_assoc]

theorem and_ff (x : ℕ) : x &&& 0xff = x % 256 := Nat.and_two_pow_sub_one_eq_mod x 8

theorem and_ffff (x : ℕ) : x &&& 0xffff = x % 65536 := Nat.and_two_pow_sub_one_eq_mod x 16

namespace UnicodeCodingSystem

variable {cs : UnicodeCodingSystem} {data data' : UnicodeCodingStream} {l : List Byte} {c : Byte} {u : ℕ}

def errorOctets (l : List Byte) : List ℕ := l.map fun c => c.val + unicodeErrorOctetRangeStart

theorem decodeErrorOctet_eq (data : UnicodeCodingStream) (c : Byte) :
    cs.decodeErrorOctet data c = some ({ data with seenChar := true }, [c.val + unicodeErrorOctetRangeStart]) := by
  have hc := c.isLt
  have hvalid : validUnicodeCodepointP ((c.val : ℤ) + unicodeErrorOctetRangeStart) true := by
    rw [validUnicodeCodepointP_iff, unicodeErrorOctetRangeStart]
    simp only [if_true]
    omega
  have hbom : ¬ ((c.val : ℤ) + unicodeErrorOctetRangeStart = 0xfeff ∧ cs.needBom ∧ ¬ data.seenChar) := by
    rw [unicodeErrorOctetRangeStart]
    omega
  rw [decodeErrorOctet, decodeUnicodeToDynarr0, if_pos hvalid, if_neg hbom]
  rfl

theorem decodeErrorOctets_eq (data : UnicodeCodingStream) (l : List Byte) :
    cs.decodeErrorOctets data (l.map (·.val)) =
      some ({ data with seenChar := data.seenChar || !l.isEmpty }, errorOctets l) := by
  induction l generalizing data with
  | nil =>
    rw [decodeErrorOctets, List.map_nil, transduce, errorOctets, List.map_nil, List.isEmpty_nil, Bool.not_true,
      Bool.or_false]
  | cons c l ih =>
    rw [decodeErrorOctets, List.map_cons, transduce_cons (decodeErrorOctet_eq data c) (ih _)]
    simp [errorOctets]

theorem encodeUnicodeToDynarr_errorOctet (c : Byte) :
    cs.encodeUnicodeToDynarr (c.val + unicodeErrorOctetRangeStart) = [c] := by
  have hc := c.isLt
  have hcode : unicodeErrorOctetCodeP (c.val + unicodeErrorOctetRangeStart) := by
    rw [unicodeErrorOctetCodeP_iff, unicodeErrorOctetRangeStart]
    omega
  have hbyte : byte (c.val + unicodeErrorOctetRangeStart &&& 0xff) = c := by
    refine Fin.ext ?_
    simp only [byte, and_ff, unicodeErrorOctetRangeStart]
    omega
  rw [encodeUnicodeToDynarr, if_pos hcode, hbyte]

theorem flatMap_errorOctets (l : List Byte) : (errorOctets l).flatMap cs.encodeUnicodeToDynarr = l := by
  rw [errorOctets, List.flatMap_map]
  simp only [encodeUnicodeToDynarr_errorOctet]
  exact List.flatMap_singleton' l

theorem decodeUnicodeToDynarr0_eq (hvalid : validUnicodeCodepointP u true) (data : UnicodeCodingStream) :
    cs.decodeUnicodeToDynarr0 u data = some ({ data with seenChar := true },
      if u = 0xfeff ∧ cs.needBom ∧ ¬ data.seenChar then [] else [u]) := by
  rw [decodeUnicodeToDynarr0, if_pos hvalid]
  norm_cast

/-- The bits of the bytes of a character, in the order of the coding system. -/
def bitsOf (cs : UnicodeCodingSystem) (l : List Byte) : ℕ :=
  Nat.ofDigits 256 ((if cs.littleEndian then l else l.reverse).map (·.val))

theorem bitsOf_lt (l : List Byte) : cs.bitsOf l < 256 ^ l.length := by
  have hdigits : ∀ d ∈ (if cs.littleEndian then l else l.reverse).map (·.val), d < 256 := by
    intro d hd
    obtain ⟨c, -, rfl⟩ := List.mem_map.mp hd
    exact c.isLt
  have hlt := Nat.ofDigits_lt_base_pow_length (by decide) hdigits
  refine hlt.trans_eq (congrArg (256 ^ ·) ?_)
  split_ifs <;> simp

/-- The state holds the bytes of the start of a character. -/
structure Holds (cs : UnicodeCodingSystem) (data : UnicodeCodingStream) (l : List Byte) : Prop where
  counter_eq : data.counter = 8 * l.length
  ch_eq : data.ch = cs.bitsOf l

theorem bitsOf_append (l : List Byte) (c : Byte) :
    cs.bitsOf (l ++ [c]) =
      if cs.littleEndian then c.val * 256 ^ l.length + cs.bitsOf l else cs.bitsOf l * 256 + c.val := by
  simp only [bitsOf]
  split_ifs
  · rw [List.map_append, Nat.ofDigits_append, List.length_map, List.map_singleton, Nat.ofDigits_singleton]
    ring
  · rw [List.reverse_append, List.reverse_singleton, List.singleton_append, List.map_cons, Nat.ofDigits_cons]
    ring

theorem Holds.takeByte (h : cs.Holds data l) (hlength : l.length < 4) (c : Byte) :
    cs.Holds (cs.takeByte data c) (l ++ [c]) := by
  have hlt : cs.bitsOf l < 256 ^ l.length := bitsOf_lt l
  have hc := c.isLt
  have hpow : 2 ^ (8 * l.length) = 256 ^ l.length := by rw [pow_mul]; norm_num
  have hle : 256 ^ l.length ≤ 256 ^ 3 := Nat.pow_le_pow_right (by decide) (Nat.le_of_lt_succ hlength)
  refine ⟨?_, ?_⟩
  · rw [UnicodeCodingSystem.takeByte, List.length_append, List.length_singleton, h.counter_eq]
    ring
  · simp only [UnicodeCodingSystem.takeByte, h.counter_eq, h.ch_eq, bitsOf_append]
    split_ifs with hendian
    · rw [Nat.shiftLeft_eq, hpow, Nat.mod_eq_of_lt (by nlinarith),
        Bits.or_eq_add (i := 8 * l.length) (by rw [hpow]; exact Nat.dvd_mul_left _ _) (by rwa [hpow])]
    · rw [Nat.shiftLeft_eq, Nat.mod_eq_of_lt (by omega), Bits.or_eq_add (i := 8) (Nat.dvd_mul_left _ _) hc]
      rfl

theorem octets_bitsOf (l : List Byte) : cs.octets l.length (cs.bitsOf l) = l.map (·.val) := by
  have hlow (l : List Byte) : (List.range l.length).map
      (fun i => Nat.ofDigits 256 (l.map (·.val)) >>> (8 * i) &&& 0xff) = l.map (·.val) := by
    refine List.ext_getElem (by simp) fun i hi hi' => ?_
    have hpow : 2 ^ (8 * i) = 256 ^ i := by rw [pow_mul]; norm_num
    have hdigits : ∀ d ∈ l.map (·.val), d < 256 := by
      intro d hd
      obtain ⟨c, -, rfl⟩ := List.mem_map.mp hd
      exact c.isLt
    rw [List.getElem_map, List.getElem_range, and_ff, Nat.shiftRight_eq_div_pow, hpow,
      Nat.ofDigits_div_pow_eq_ofDigits_drop i (by decide) _ hdigits, List.drop_eq_getElem_cons hi', Nat.ofDigits_cons,
      Nat.add_mul_mod_self_left]
    exact Nat.mod_eq_of_lt (hdigits _ (List.getElem_mem hi'))
  simp only [octets, bitsOf]
  split_ifs
  · exact hlow l
  · have h := hlow l.reverse
    rw [List.length_reverse] at h
    rw [h, ← List.map_reverse, List.reverse_reverse]

theorem decodeErrorOctets_bitsOf {n : ℕ} (data : UnicodeCodingStream) (l : List Byte) (hn : l.length = n) :
    cs.decodeErrorOctets data (cs.octets n (cs.bitsOf l)) =
      some ({ data with seenChar := data.seenChar || !l.isEmpty }, errorOctets l) := by
  rw [← hn, octets_bitsOf, decodeErrorOctets_eq]

@[simp] theorem bitsOf_nil : cs.bitsOf [] = 0 := by
  rw [bitsOf]
  split_ifs <;> rfl

theorem holds_nil (hcounter : data.counter = 0) (hch : data.ch = 0) : cs.Holds data [] :=
  ⟨hcounter, hch.trans bitsOf_nil.symm⟩

theorem bitsOf_pair (a b : Byte) :
    cs.bitsOf [a, b] = if cs.littleEndian then a.val + 256 * b.val else 256 * a.val + b.val := by
  simp only [bitsOf]
  split_ifs
  · simp [Nat.ofDigits_cons]
  · simp [Nat.ofDigits_cons]
    omega

theorem bitsOf_four (a b c d : Byte) :
    cs.bitsOf [a, b, c, d] = if cs.littleEndian then cs.bitsOf [a, b] + 65536 * cs.bitsOf [c, d]
      else 65536 * cs.bitsOf [a, b] + cs.bitsOf [c, d] := by
  simp only [bitsOf]
  split_ifs
  · simp [Nat.ofDigits_cons]
    omega
  · simp [Nat.ofDigits_cons]
    omega

theorem bitsOf_pair_lt (a b : Byte) : cs.bitsOf [a, b] < 65536 :=
  (bitsOf_lt [a, b]).trans_eq (by norm_num)

theorem decodeUtf16_odd (h : cs.Holds data l) (hl : l.length = 0 ∨ l.length = 2) (c : Byte) :
    ∃ data', cs.decodeUtf16 data c = some (data', []) ∧ data'.seenChar = data.seenChar ∧
      cs.Holds data' (l ++ [c]) := by
  have htake := h.takeByte (by omega) c
  have hcounter := htake.counter_eq
  rw [List.length_append, List.length_singleton] at hcounter
  refine ⟨cs.takeByte data c, ?_, rfl, htake⟩
  rw [decodeUtf16, if_neg (by omega), if_neg (by omega), if_pos (by omega)]

theorem decodeUtf16_second {a : Byte} (h : cs.Holds data [a]) (b : Byte) :
    cs.decodeUtf16 data b =
      if validUnicodeLeadingSurrogate (cs.bitsOf [a, b]) then some (cs.takeByte data b, [])
      else if validUnicodeTrailingSurrogate (cs.bitsOf [a, b]) then
        (cs.decodeErrorOctets (reset (cs.takeByte data b)) (cs.octets 2 (cs.bitsOf [a, b]))).map (count 2)
      else (cs.decodeUnicodeToDynarr0 (cs.bitsOf [a, b]) (reset (cs.takeByte data b))).map (count 1) := by
  have htake := h.takeByte (by simp) b
  have hint : asInt (cs.bitsOf [a, b]) = cs.bitsOf [a, b] := if_pos ((bitsOf_pair_lt a b).trans (by decide))
  rw [decodeUtf16, if_pos (show (cs.takeByte data b).counter = 16 from htake.counter_eq), htake.ch_eq]
  simp only [List.singleton_append, hint]

theorem second_surrogate (a b c d : Byte) :
    validUnicodeTrailingSurrogate (asBits (cs.surrogates (cs.bitsOf [a, b, c, d])).2) ↔
      cs.littleEndian = false ∧ validUnicodeTrailingSurrogate (cs.bitsOf [c, d]) := by
  have hab : cs.bitsOf [a, b] < 65536 := bitsOf_pair_lt a b
  have hcd : cs.bitsOf [c, d] < 65536 := bitsOf_pair_lt c d
  rw [validUnicodeTrailingSurrogate_iff, validUnicodeTrailingSurrogate_iff, bitsOf_four, surrogates, asBits]
  cases cs.littleEndian with
  | false =>
    simp only [Bool.false_eq_true, if_false, and_ffff, true_and]
    omega
  | true =>
    simp only [if_true, Bool.true_eq_false, false_and, iff_false, Int.shiftRight_eq_div_pow, asInt]
    split_ifs <;> omega

theorem pair_negative (a b c d : Byte) (hendian : cs.littleEndian = false)
    (htrail : validUnicodeTrailingSurrogate (cs.bitsOf [c, d])) :
    utf16SurrogatesToCode (cs.surrogates (cs.bitsOf [a, b, c, d])).1 (cs.surrogates (cs.bitsOf [a, b, c, d])).2 < 0 := by
  have hab : cs.bitsOf [a, b] < 65536 := bitsOf_pair_lt a b
  have hcd : cs.bitsOf [c, d] < 65536 := bitsOf_pair_lt c d
  rw [validUnicodeTrailingSurrogate_iff] at htrail
  rw [bitsOf_four, surrogates, hendian, utf16SurrogatesToCode]
  simp only [Bool.false_eq_true, if_false, and_ffff, Int.shiftRight_eq_div_pow, asInt]
  split_ifs <;> omega

theorem decodeUtf16_fourth {a b c : Byte} (h : cs.Holds data [a, b, c]) (d : Byte) :
    cs.decodeUtf16 data d =
      if cs.littleEndian = false ∧ validUnicodeTrailingSurrogate (cs.bitsOf [c, d]) then none
      else (cs.decodeErrorOctets (reset (cs.takeByte data d)) (cs.octets 4 (cs.bitsOf [a, b, c, d]))).map
        (count 4) := by
  have htake := h.takeByte (by simp) d
  have hcounter := htake.counter_eq
  have hch : (cs.takeByte data d).ch = cs.bitsOf [a, b, c, d] := htake.ch_eq
  simp only [List.length_append, List.length_cons, List.length_nil] at hcounter
  rw [decodeUtf16, if_neg (by omega), if_pos (by omega), hch]
  simp only [second_surrogate]
  split_ifs with hpair
  · have hneg := pair_negative a b c d hpair.1 hpair.2
    rw [decodeUnicodeToDynarr0, if_neg, Option.map_none]
    rw [validUnicodeCodepointP_iff]
    omega
  · rfl

theorem decodeUtf32_early (h : cs.Holds data l) (hl : l.length < 3) (c : Byte) :
    ∃ data', cs.decodeUtf32 data c = some (data', []) ∧ data'.seenChar = data.seenChar ∧
      cs.Holds data' (l ++ [c]) := by
  have htake := h.takeByte (by omega) c
  have hcounter := htake.counter_eq
  rw [List.length_append, List.length_singleton] at hcounter
  refine ⟨cs.takeByte data c, ?_, rfl, htake⟩
  rw [decodeUtf32, if_neg (by omega)]

theorem decodeUtf32_fourth {a b c : Byte} (h : cs.Holds data [a, b, c]) (d : Byte) :
    cs.decodeUtf32 data d =
      if validUnicodeCodepointP (asInt (cs.bitsOf [a, b, c, d])) false ∨
          cs.type = .ucs4 ∧ validUnicodeCodepointP (asInt (cs.bitsOf [a, b, c, d])) true then
        (cs.decodeUnicodeToDynarr0 (asInt (cs.bitsOf [a, b, c, d])) (reset (cs.takeByte data d))).map (count 1)
      else (cs.decodeErrorOctets (reset (cs.takeByte data d)) (cs.octets 4 (cs.bitsOf [a, b, c, d]))).map
        (count 4) := by
  have htake := h.takeByte (by simp) d
  have hch : (cs.takeByte data d).ch = cs.bitsOf [a, b, c, d] := htake.ch_eq
  rw [decodeUtf32, if_pos (show (cs.takeByte data d).counter = 32 from htake.counter_eq), hch]

theorem add16BitChar_bitsOf (a b : Byte) : cs.add16BitChar (cs.bitsOf [a, b]) = [a, b] := by
  have ha := a.isLt
  have hb := b.isLt
  rw [add16BitChar, bitsOf_pair]
  split_ifs
  all_goals
    simp only [and_ff, Nat.shiftRight_eq_div_pow, byte, List.cons.injEq, Fin.ext_iff, and_true]
    omega

theorem exists_bytes_add16BitChar (hu : u < 0x10000) : ∃ a b, cs.add16BitChar u = [a, b] ∧ cs.bitsOf [a, b] = u := by
  rw [add16BitChar]
  split_ifs with hendian
  all_goals
    refine ⟨_, _, rfl, ?_⟩
    rw [bitsOf_pair]
    simp only [hendian, if_true, Bool.false_eq_true, if_false, and_ff, Nat.shiftRight_eq_div_pow, byte]
    omega

theorem encodeUtf32_bitsOf (a b c d : Byte) : cs.encodeUtf32 (cs.bitsOf [a, b, c, d]) = [a, b, c, d] := by
  have ha := a.isLt
  have hb := b.isLt
  have hc := c.isLt
  have hd := d.isLt
  rw [encodeUtf32, bitsOf_four, bitsOf_pair, bitsOf_pair]
  split_ifs
  all_goals
    simp only [and_ff, Nat.shiftRight_eq_div_pow, byte, List.cons.injEq, Fin.ext_iff, and_true]
    omega

theorem exists_bytes_encodeUtf32 (hu : u < 2 ^ 32) :
    ∃ a b c d, cs.encodeUtf32 u = [a, b, c, d] ∧ cs.bitsOf [a, b, c, d] = u := by
  rw [encodeUtf32]
  split_ifs with hendian
  all_goals
    refine ⟨_, _, _, _, rfl, ?_⟩
    rw [bitsOf_four, bitsOf_pair, bitsOf_pair]
    simp only [hendian, if_true, Bool.false_eq_true, if_false, and_ff, Nat.shiftRight_eq_div_pow, byte]
    omega

end UnicodeCodingSystem

end XEmacs.Coding.Unicode
