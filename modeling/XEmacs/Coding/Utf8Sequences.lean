import XEmacs.Coding.UnicodeCharacters

/-! The sequences of UTF-8. The decoder keeps the bits of the bytes it has seen; they are
the bytes themselves, which it puts out as error octets, and which the encoder makes out of
the code point that they are the bits of. -/

namespace XEmacs.Coding.Unicode

open Lib

variable {k n mask v x : ℕ} {c : Byte}

theorem and_3f (x : ℕ) : x &&& 0x3f = x % 64 := Nat.and_two_pow_sub_one_eq_mod x 6

theorem byte_val (c : Byte) : byte c = c := Fin.ext (Nat.mod_eq_of_lt c.isLt)

theorem map_byte_val (l : List Byte) : (l.map (·.val)).map byte = l := by
  rw [List.map_map]
  exact (List.map_congr_left fun c _ => byte_val c).trans (List.map_id l)

theorem continuation_or (hx : x < 64) : x ||| 0x80 = x + 0x80 := by
  rw [Nat.or_comm, Bits.or_eq_add (i := 7) (by decide) (by omega), Nat.add_comm]

theorem encoded_continuation (x : ℕ) : (x ||| 0x80) &&& 0xbf = x % 64 + 0x80 := by
  have hmask : (0xbf : ℕ) = 0x80 ||| 0x3f := by decide
  have habsorb (y : ℕ) : (x ||| y) &&& y = y :=
    Nat.eq_of_testBit_eq fun i => by
      rw [Nat.testBit_and, Nat.testBit_or]
      cases x.testBit i <;> cases y.testBit i <;> rfl
  rw [hmask, Nat.and_or_distrib_left, habsorb 0x80, Nat.and_or_distrib_right, and_3f, Nat.or_comm]
  exact (congrArg (· ||| 0x80) (Nat.or_zero _)).trans (continuation_or (Nat.mod_lt _ (by decide)))

namespace UnicodeCodingSystem

theorem storedOctets_append (hk : 0 < k) (hx : x < 64) :
    storedOctets (k + 1) mask (v * 64 + x) = storedOctets k mask v ++ [x + 0x80] := by
  have hshift (j : ℕ) : (v * 64 + x) >>> (6 * (j + 1)) = v >>> (6 * j) := by
    have hpow : 2 ^ (6 * (j + 1)) = 64 * 2 ^ (6 * j) := by rw [Nat.mul_succ, pow_add]; ring
    rw [Nat.shiftRight_eq_div_pow, Nat.shiftRight_eq_div_pow, hpow, ← Nat.div_div_eq_div_mul]
    congr 1
    omega
  induction k generalizing mask with
  | zero => exact absurd hk (lt_irrefl 0)
  | succ k ih =>
    rw [storedOctets, hshift, storedOctets.eq_2 mask v k, List.cons_append]
    refine congrArg (_ :: ·) ?_
    rcases Nat.eq_zero_or_pos k with rfl | hk
    · have hlast : (v * 64 + x) % 64 = x := by omega
      simp only [storedOctets, Nat.mul_zero, Nat.shiftRight_zero, and_3f, hlast, continuation_or hx, List.nil_append]
    · exact ih hk

theorem length_storedOctets (k mask x : ℕ) : (storedOctets k mask x).length = k := by
  induction k generalizing mask with
  | zero => rfl
  | succ k ih => rw [storedOctets, List.length_cons, ih]

theorem utf8Bytes_eq (hx : x < 64 ^ (k + 1)) : utf8Bytes mask (k + 1) x = (storedOctets (k + 1) mask x).map byte := by
  induction k generalizing x with
  | zero =>
    have hmod : x % 64 = x := Nat.mod_eq_of_lt (by simpa using hx)
    simp only [utf8Bytes, storedOctets, Nat.mul_zero, Nat.shiftRight_zero, and_3f, hmod, List.map_cons, List.map_nil]
  | succ k ih =>
    have hdiv : x / 64 < 64 ^ (k + 1) := by
      rw [Nat.div_lt_iff_lt_mul (by decide)]
      rwa [pow_succ] at hx
    have hsplit : x = x / 64 * 64 + x % 64 := by omega
    rw [utf8Bytes, Nat.shiftRight_eq_div_pow, encoded_continuation]
    conv_rhs => rw [hsplit, storedOctets_append (Nat.succ_pos k) (Nat.mod_lt _ (by decide))]
    rw [List.map_append, List.map_singleton]
    exact congrArg (· ++ _) (ih hdiv)

theorem first_byte_tests : ∀ c : Byte, (c.val &&& 0x80 = 0 ↔ c.val < 0x80) ∧
    (0x80 ≤ c.val → (c.val &&& 0x40 = 0 ↔ c.val < 0xc0)) ∧ (0xc0 ≤ c.val → (c.val &&& 0x20 = 0 ↔ c.val < 0xe0)) ∧
    (0xe0 ≤ c.val → (c.val &&& 0x10 = 0 ↔ c.val < 0xf0)) ∧ (0xf0 ≤ c.val → (c.val &&& 0x08 = 0 ↔ c.val < 0xf8)) ∧
    (0xc0 ≤ c.val → c.val < 0xe0 → c.val &&& 0x1f = c.val - 0xc0) ∧
    (0xe0 ≤ c.val → c.val < 0xf0 → c.val &&& 0x0f = c.val - 0xe0) ∧
    (0xf0 ≤ c.val → c.val < 0xf8 → c.val &&& 0x07 = c.val - 0xf0) := by
  decide +kernel

theorem bit7 (c : Byte) : c.val &&& 0x80 = 0 ↔ c.val < 0x80 := (first_byte_tests c).1

theorem bit6 (c : Byte) : 0x80 ≤ c.val → (c.val &&& 0x40 = 0 ↔ c.val < 0xc0) := (first_byte_tests c).2.1

theorem bit5 (c : Byte) : 0xc0 ≤ c.val → (c.val &&& 0x20 = 0 ↔ c.val < 0xe0) := (first_byte_tests c).2.2.1

theorem bit4 (c : Byte) : 0xe0 ≤ c.val → (c.val &&& 0x10 = 0 ↔ c.val < 0xf0) := (first_byte_tests c).2.2.2.1

theorem bit3 (c : Byte) : 0xf0 ≤ c.val → (c.val &&& 0x08 = 0 ↔ c.val < 0xf8) := (first_byte_tests c).2.2.2.2.1

theorem first_bits (c : Byte) : (0xc0 ≤ c.val → c.val < 0xe0 → c.val &&& 0x1f = c.val - 0xc0) ∧
    (0xe0 ≤ c.val → c.val < 0xf0 → c.val &&& 0x0f = c.val - 0xe0) ∧
    (0xf0 ≤ c.val → c.val < 0xf8 → c.val &&& 0x07 = c.val - 0xf0) := (first_byte_tests c).2.2.2.2.2

theorem first_byte_masks : (∀ v < 32, v &&& 0x3f ||| 0xc0 = v + 0xc0) ∧ (∀ v < 16, v &&& 0x3f ||| 0xe0 = v + 0xe0) ∧
    ∀ v < 8, v &&& 0x3f ||| 0xf0 = v + 0xf0 := by
  decide +kernel

variable {cs : UnicodeCodingSystem} {data data' : UnicodeCodingStream} {l : List Byte} {u : ℕ}

/-- The decoder is inside a sequence of up to four bytes, of which it has seen some. -/
structure Stored (data : UnicodeCodingStream) (l : List Byte) : Prop where
  waits : 0 < data.counter
  seen : 0 < l.length
  length_eq : l.length + data.counter = data.indicatedLength
  le_four : data.indicatedLength ≤ 4
  octets_eq : storedOctets l.length (firstbyteMask data.indicatedLength) data.ch = l.map (·.val)
  ch_lt : data.ch < 2 ^ (7 - data.indicatedLength) * 64 ^ (l.length - 1)

theorem decodeFirstByte_start (hk : 1 ≤ k ∧ k ≤ 3) (hv : v < 2 ^ (6 - k)) (hc : c.val = v + firstbyteMask (k + 1))
    (data : UnicodeCodingStream) : cs.decodeFirstByte data c = startSequence v k data := by
  obtain ⟨h1, h3⟩ := hk
  obtain rfl | rfl | rfl : k = 1 ∨ k = 2 ∨ k = 3 := by omega
  all_goals
    rw [firstbyteMask] at hc
    simp only [List.getD_cons_succ, List.getD_cons_zero] at hc
    norm_num at hv
    have h7 := mt (bit7 c).mp (by omega)
    have h6 := mt (bit6 c (by omega)).mp (by omega)
    rw [decodeFirstByte, if_neg h7, if_neg h6]
  · rw [if_pos ((bit5 c (by omega)).mpr (by omega)), (first_bits c).1 (by omega) (by omega), hc, Nat.add_sub_cancel]
  · rw [if_neg (mt (bit5 c (by omega)).mp (by omega)), if_pos ((bit4 c (by omega)).mpr (by omega)),
      (first_bits c).2.1 (by omega) (by omega), hc, Nat.add_sub_cancel]
  · rw [if_neg (mt (bit5 c (by omega)).mp (by omega)), if_neg (mt (bit4 c (by omega)).mp (by omega)),
      if_pos ((bit3 c (by omega)).mpr (by omega)), (first_bits c).2.2 (by omega) (by omega), hc, Nat.add_sub_cancel]

theorem storedOctets_first (hk : 1 ≤ k ∧ k ≤ 3) (hv : v < 2 ^ (6 - k)) :
    v &&& 0x3f ||| firstbyteMask (k + 1) = v + firstbyteMask (k + 1) := by
  obtain ⟨h1, h3⟩ := hk
  obtain rfl | rfl | rfl : k = 1 ∨ k = 2 ∨ k = 3 := by omega
  · exact first_byte_masks.1 v hv
  · exact first_byte_masks.2.1 v hv
  · exact first_byte_masks.2.2 v hv

theorem stored_first (hk : 1 ≤ k ∧ k ≤ 3) (hv : v < 2 ^ (6 - k)) (hc : c.val = v + firstbyteMask (k + 1))
    (data : UnicodeCodingStream) : Stored { data with ch := v, counter := k, indicatedLength := k + 1 } [c] where
  waits := hk.1
  seen := Nat.one_pos
  length_eq := Nat.add_comm 1 k
  le_four := Nat.succ_le_succ hk.2
  octets_eq := by
    simp only [List.length_singleton, storedOctets, Nat.mul_zero, Nat.shiftRight_zero, List.map_singleton, hc,
      storedOctets_first hk hv]
  ch_lt := by
    have hsub : 7 - (k + 1) = 6 - k := by omega
    simpa [hsub] using hv

theorem decodeFirstByte_cases (hprivate : cs.allowPrivate = false) (data : UnicodeCodingStream) (c : Byte)
    (hascii : 0x80 ≤ c.val) :
    cs.decodeFirstByte data c = (cs.decodeErrorOctet data c).map (count 1) ∨
      ∃ data', cs.decodeFirstByte data c = some (data', []) ∧ Stored data' [c] := by
  by_cases h6 : c.val < 0xc0
  · left
    rw [decodeFirstByte, if_neg (mt (bit7 c).mp (not_lt.mpr hascii)), if_pos ((bit6 c hascii).mpr h6)]
  · by_cases h3 : c.val < 0xf8
    · right
      obtain ⟨k, v, hk, hv, hc⟩ : ∃ k v, (1 ≤ k ∧ k ≤ 3) ∧ v < 2 ^ (6 - k) ∧ c.val = v + firstbyteMask (k + 1) := by
        by_cases h5 : c.val < 0xe0
        · exact ⟨1, c.val - 0xc0, by decide, show _ < 32 by omega, show _ = _ + 0xc0 by omega⟩
        · by_cases h4 : c.val < 0xf0
          · exact ⟨2, c.val - 0xe0, by decide, show _ < 16 by omega, show _ = _ + 0xe0 by omega⟩
          · exact ⟨3, c.val - 0xf0, by decide, show _ < 8 by omega, show _ = _ + 0xf0 by omega⟩
      exact ⟨_, decodeFirstByte_start hk hv hc data, stored_first hk hv hc data⟩
    · left
      rw [decodeFirstByte, if_neg (mt (bit7 c).mp (by omega)), if_neg (mt (bit6 c (by omega)).mp (by omega)),
        if_neg (mt (bit5 c (by omega)).mp (by omega)), if_neg (mt (bit4 c (by omega)).mp (by omega)),
        if_neg (mt (bit3 c (by omega)).mp h3), if_neg (by simp [hprivate]), if_neg (by simp [hprivate])]

theorem decodeErrorOctets_ne_nil (l : List Byte) (hl : l ≠ []) (data : UnicodeCodingStream) :
    cs.decodeErrorOctets data (l.map (·.val)) = some ({ data with seenChar := true }, errorOctets l) := by
  rw [decodeErrorOctets_eq]
  cases l with
  | nil => exact absurd rfl hl
  | cons c l => simp

theorem Stored.ne_nil (h : Stored data l) : l ≠ [] := List.ne_nil_of_length_pos h.seen

theorem Stored.indicateInvalidUtf8 (h : Stored data l) (data' : UnicodeCodingStream) :
    cs.indicateInvalidUtf8 data.indicatedLength data.counter data.ch data' =
      some ({ data' with seenChar := true }, errorOctets l) := by
  have hlength : data.indicatedLength - data.counter = l.length := by
    have := h.length_eq
    omega
  rw [UnicodeCodingSystem.indicateInvalidUtf8, hlength, h.octets_eq, decodeErrorOctets_ne_nil l h.ne_nil]

theorem Stored.decodeInterruption (h : Stored data l) (hc : c.val &&& 0x80 = 0 ∨ c.val &&& 0x40 ≠ 0) :
    ∃ data' ch, cs.decodeUtf8 data c = some (data', errorOctets l ++ [ch]) ∧ data'.counter = 0 ∧
      (cs.type = .utf8 → cs.encodeUnicodeToDynarr ch = [c]) := by
  have hcounter : data.counter ≠ 0 := h.waits.ne'
  rw [decodeUtf8, if_neg hcounter, if_pos hc, UnicodeCodingSystem.decodeInterruption, h.indicateInvalidUtf8,
    Option.bind_some]
  simp only
  by_cases h7 : c.val &&& 0x80 = 0
  · have hlt := (bit7 c).mp h7
    have hvalid : validUnicodeCodepointP c.val true := by
      rw [validUnicodeCodepointP_iff]
      simp only [if_true]
      omega
    have hbom : ¬ (c.val = 0xfeff ∧ cs.needBom ∧ ¬ true = true) := by tauto
    rw [if_neg (not_not.mpr h7), decodeUnicodeToDynarr0_eq hvalid, if_neg hbom]
    refine ⟨_, _, rfl, rfl, fun htype => ?_⟩
    rw [encodeUnicodeToDynarr_ascii hlt htype, byte_val]
  · rw [if_pos h7, decodeErrorOctet_eq]
    exact ⟨_, _, rfl, rfl, fun _ => encodeUnicodeToDynarr_errorOctet c⟩

def continued (data : UnicodeCodingStream) (x : ℕ) : UnicodeCodingStream :=
  { data with ch := data.ch * 64 + x, counter := data.counter - 1 }

theorem low_bits (c : Byte) (hc : 0x80 ≤ c.val) (hc' : c.val < 0xc0) : c.val = c.val % 64 + 0x80 := by omega

theorem decodeUtf8_continuation (hcounter : data.counter ≠ 0) (h7 : 0x80 ≤ c.val) (h6 : c.val < 0xc0) :
    cs.decodeUtf8 data c = if data.counter = 1 then cs.decodeSequence (continued data (c.val % 64))
      else some (continued data (c.val % 64), []) := by
  have hbits : ¬ (c.val &&& 0x80 = 0 ∨ c.val &&& 0x40 ≠ 0) := by
    rw [bit7, ne_eq, bit6 c h7]
    omega
  have hch : data.ch <<< 6 ||| c.val &&& 0x3f = data.ch * 64 + c.val % 64 := by
    rw [and_3f]
    exact Bits.shiftLeft_or (i := 6) (Nat.mod_lt _ (by decide))
  have hone : data.counter - 1 = 0 ↔ data.counter = 1 := by omega
  rw [decodeUtf8, if_neg hcounter, if_neg hbits, hch]
  simp only [hone]
  rfl

theorem Stored.octets_continued (h : Stored data l) (h7 : 0x80 ≤ c.val) (h6 : c.val < 0xc0) :
    storedOctets (l.length + 1) (firstbyteMask data.indicatedLength) (continued data (c.val % 64)).ch =
      (l ++ [c]).map (·.val) := by
  rw [continued, storedOctets_append h.seen (Nat.mod_lt _ (by decide)), h.octets_eq, List.map_append,
    List.map_singleton, ← low_bits c h7 h6]

theorem Stored.ch_continued_lt (h : Stored data l) :
    (continued data (c.val % 64)).ch < 2 ^ (7 - data.indicatedLength) * 64 ^ l.length := by
  have hlt := h.ch_lt
  have hpow : 64 ^ l.length = 64 ^ (l.length - 1) * 64 := by
    rw [← pow_succ, Nat.sub_add_cancel h.seen]
  have hmod := Nat.mod_lt c.val (by decide : 0 < 64)
  rw [hpow, ← Nat.mul_assoc, continued]
  simp only
  omega

theorem Stored.continued (h : Stored data l) (h7 : 0x80 ≤ c.val) (h6 : c.val < 0xc0) (hmore : data.counter ≠ 1) :
    Stored (UnicodeCodingSystem.continued data (c.val % 64)) (l ++ [c]) where
  waits := by
    have := h.waits
    simp only [UnicodeCodingSystem.continued]
    omega
  seen := by simp
  length_eq := by
    have := h.length_eq
    have := h.waits
    simp only [UnicodeCodingSystem.continued, List.length_append, List.length_singleton]
    omega
  le_four := h.le_four
  octets_eq := by
    rw [List.length_append, List.length_singleton]
    exact h.octets_continued h7 h6
  ch_lt := by
    rw [List.length_append, List.length_singleton, Nat.add_sub_cancel]
    exact h.ch_continued_lt

theorem encodeUtf8_eq (hn : 2 ≤ n ∧ n ≤ 4) (hleast : ∀ least ∈ leastCode n, least ≤ u)
    (hlt : u < 2 ^ (7 - n) * 64 ^ (n - 1)) (hmax : u ≤ 0x10ffff) :
    cs.encodeUtf8 u = (storedOctets n (firstbyteMask n) u).map byte := by
  obtain ⟨k, rfl⟩ := Nat.exists_eq_add_of_le' (Nat.one_le_of_lt hn.1)
  have hlength : 0x7f < u ∧ utf8Length u = k + 1 ∧ u < 64 ^ (k + 1) := by
    obtain rfl | rfl | rfl : k = 1 ∨ k = 2 ∨ k = 3 := by omega
    all_goals
      have hle := hleast _ rfl
      simp only [utf8Length]
      norm_num at hlt ⊢
      split_ifs <;> omega
  rw [encodeUtf8, if_neg (not_le.mpr hlength.1), if_pos (.inl hmax)]
  simp only [hlength.2.1]
  exact utf8Bytes_eq hlength.2.2

theorem encodeUnicodeToDynarr_utf8 (htype : cs.type = .utf8) (hmax : u ≤ 0x10ffff) :
    cs.encodeUnicodeToDynarr u = cs.encodeUtf8 u := by
  have hoctet : ¬ unicodeErrorOctetCodeP u = true := by
    rw [unicodeErrorOctetCodeP_iff]
    omega
  rw [encodeUnicodeToDynarr, if_neg hoctet, htype]

theorem Stored.decodeSequence (h : Stored data l) (h7 : 0x80 ≤ c.val) (h6 : c.val < 0xc0) (hlast : data.counter = 1)
    (hprivate : cs.allowPrivate = false) (hbom : cs.needBom = false) (htype : cs.type = .utf8) :
    ∃ data' out, cs.decodeSequence (UnicodeCodingSystem.continued data (c.val % 64)) = some (data', out) ∧
      data'.counter = 0 ∧ out.flatMap cs.encodeUnicodeToDynarr = l ++ [c] := by
  have hlength := h.length_eq
  have hseen := h.seen
  have hle := h.le_four
  rw [hlast] at hlength
  have hoctets := h.octets_continued h7 h6
  have hlt := h.ch_continued_lt (c := c)
  have hcounter : (UnicodeCodingSystem.continued data (c.val % 64)).counter = 0 := by
    simp only [UnicodeCodingSystem.continued, hlast]
  have hindicated : (UnicodeCodingSystem.continued data (c.val % 64)).indicatedLength = l.length + 1 := hlength.symm
  rw [← hlength] at hoctets hlt
  generalize UnicodeCodingSystem.continued data (c.val % 64) = data₁ at *
  obtain ⟨least, hleast⟩ : ∃ least, leastCode (l.length + 1) = some least := by
    obtain h1 | h2 | h3 : l.length = 1 ∨ l.length = 2 ∨ l.length = 3 := by omega
    · exact ⟨_, by rw [h1]; rfl⟩
    · exact ⟨_, by rw [h2]; rfl⟩
    · exact ⟨_, by rw [h3]; rfl⟩
  rw [UnicodeCodingSystem.decodeSequence, hindicated, hleast, Option.bind_some]
  by_cases hinvalid : data₁.ch < least ∨ ¬ validUnicodeCodepointP data₁.ch cs.allowPrivate
  · rw [if_pos hinvalid, UnicodeCodingSystem.indicateInvalidUtf8, hcounter, Nat.sub_zero, hoctets,
      decodeErrorOctets_ne_nil _ (by simp)]
    exact ⟨_, _, rfl, hcounter, flatMap_errorOctets _⟩
  · rw [not_or, not_not, hprivate] at hinvalid
    have hvalid := validUnicodeCodepointP_iff.mp hinvalid.2
    simp only [Bool.false_eq_true, if_false] at hvalid
    have hpriv : validUnicodeCodepointP data₁.ch true := by
      rw [validUnicodeCodepointP_iff]
      simp only [if_true]
      exact ⟨hvalid.1, by omega, hvalid.2.2⟩
    have hmark : ¬ (data₁.ch = 0xfeff ∧ cs.needBom ∧ ¬ data₁.seenChar) := by simp [hbom]
    rw [if_neg (by rw [hprivate]; tauto), decodeUnicodeToDynarr0_eq hpriv, if_neg hmark]
    refine ⟨_, [data₁.ch], rfl, hcounter, ?_⟩
    rw [List.flatMap_singleton, encodeUnicodeToDynarr_utf8 htype (by omega),
      encodeUtf8_eq (n := l.length + 1) (by omega) (fun m hm => ?_) (by rwa [Nat.add_sub_cancel]) (by omega), hoctets,
      map_byte_val]
    rw [hleast, Option.mem_some_iff] at hm
    omega

def Pending (data : UnicodeCodingStream) (l : List Byte) : Prop := data.counter = 0 ∧ l = [] ∨ Stored data l

theorem decodeUtf8Step_pending (hprivate : cs.allowPrivate = false) (hbom : cs.needBom = false)
    (htype : cs.type = .utf8) (h : Pending data l) (c : Byte) :
    ∃ data' out l', cs.decodeUtf8Step data c = some (data', out) ∧ Pending data' l' ∧
      out.flatMap cs.encodeUnicodeToDynarr ++ l' = l ++ [c] := by
  rcases h with ⟨hcounter, rfl⟩ | h
  · by_cases hascii : c.val < 0x80
    · refine ⟨_, _, [], if_pos ⟨hcounter, by simpa [byteAsciiP, Fin.lt_def] using hascii⟩, .inl ⟨hcounter, rfl⟩, ?_⟩
      rw [List.flatMap_singleton, encodeUnicodeToDynarr_ascii hascii htype, byte_val]
      rfl
    · have hstep : cs.decodeUtf8Step data c = cs.decodeFirstByte data c := by
        rw [decodeUtf8Step, if_neg (by simp [byteAsciiP, Fin.lt_def, hascii]), decodeUtf8, if_pos hcounter]
      rw [hstep]
      rcases decodeFirstByte_cases hprivate data c (not_lt.mp hascii) with herror | ⟨data', hstart, hstored⟩
      · rw [herror, decodeErrorOctet_eq]
        refine ⟨_, _, [], rfl, .inl ⟨hcounter, rfl⟩, ?_⟩
        rw [List.flatMap_singleton, encodeUnicodeToDynarr_errorOctet]
        rfl
      · exact ⟨data', [], [c], hstart, .inr hstored, rfl⟩
  · have hstep : cs.decodeUtf8Step data c = cs.decodeUtf8 data c := if_neg fun hzero => h.waits.ne' hzero.1
    rw [hstep]
    by_cases hinterrupts : c.val &&& 0x80 = 0 ∨ c.val &&& 0x40 ≠ 0
    · obtain ⟨data', ch, hout, hcounter, henc⟩ := @Stored.decodeInterruption c cs _ _ h hinterrupts
      refine ⟨data', _, [], hout, .inl ⟨hcounter, rfl⟩, ?_⟩
      rw [List.flatMap_append, flatMap_errorOctets, List.flatMap_singleton, henc htype, List.append_nil]
    · rw [not_or, not_not, bit7, not_lt] at hinterrupts
      have h7 := hinterrupts.1
      have h6 := (bit6 c h7).mp hinterrupts.2
      rw [decodeUtf8_continuation h.waits.ne' h7 h6]
      by_cases hlast : data.counter = 1
      · obtain ⟨data', out, hout, hcounter, henc⟩ := h.decodeSequence h7 h6 hlast hprivate hbom htype
        refine ⟨data', out, [], by rw [if_pos hlast, hout], .inl ⟨hcounter, rfl⟩, ?_⟩
        rw [henc, List.append_nil]
      · exact ⟨_, [], _, if_neg hlast, .inr (h.continued h7 h6 hlast), rfl⟩

end UnicodeCodingSystem

end XEmacs.Coding.Unicode
