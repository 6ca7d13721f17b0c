import XEmacs.Coding.Utf8Sequences

/-! Which files come back unchanged when they are decoded and encoded again: in UTF-8 all of them,
in the other encodings not those that end in three bytes in the wrong order or hold a surrogate
pair. -/

namespace XEmacs.Coding.Unicode.UnicodeCodingSystem

open Lib

variable {cs : UnicodeCodingSystem} {data : UnicodeCodingStream} {l l' src : List Byte}
  {a b c d : Byte}

/-- The bytes of UTF-16 in which the file leaves a character unfinished. -/
def leftUtf16 (cs : UnicodeCodingSystem) : List Byte → List Byte
  | a :: b :: c :: d :: src =>
    if validUnicodeLeadingSurrogate (cs.bitsOf [a, b]) then cs.leftUtf16 src else cs.leftUtf16 (c :: d :: src)
  | [a, b, c] => if validUnicodeLeadingSurrogate (cs.bitsOf [a, b]) then [a, b, c] else [c]
  | [a, b] => if validUnicodeLeadingSurrogate (cs.bitsOf [a, b]) then [a, b] else []
  | l => l

/-- The bytes of UTF-32 in which the file leaves a character unfinished. -/
def leftUtf32 : List Byte → List Byte
  | _ :: _ :: _ :: _ :: src => leftUtf32 src
  | l => l

/-- The bytes that the file leaves in a character of 16 or 32 bits. -/
def left (cs : UnicodeCodingSystem) (src : List Byte) : List Byte :=
  match cs.type with
  | .utf8 => []
  | .utf16 => cs.leftUtf16 src
  | _ => leftUtf32 src

/-- A surrogate pair is among the characters of UTF-16. -/
def meetsPair (cs : UnicodeCodingSystem) : List Byte → Bool
  | a :: b :: c :: d :: src =>
    if validUnicodeLeadingSurrogate (cs.bitsOf [a, b]) then
      validUnicodeTrailingSurrogate (cs.bitsOf [c, d]) || cs.meetsPair src
    else cs.meetsPair (c :: d :: src)
  | _ => false

theorem encode_eq (hbom : cs.needBom = false) (text : List ℕ) :
    cs.encode text = text.flatMap cs.encodeUnicodeToDynarr := by
  rw [encode, unicodeEncode, if_neg (by simp [hbom]), encodeLoop_eq]

/-- The bytes in the order in which they are put out at the end of the file. -/
def leftOrder (cs : UnicodeCodingSystem) : List Byte → List Byte
  | [a, b, c] => if cs.littleEndian then [c, a, b] else [a, b, c]
  | l => l

theorem leftOrder_eq_self_iff :
    cs.leftOrder l = l ↔ (cs.littleEndian → ∀ a b c, l = [a, b, c] → a = b ∧ b = c) := by
  rw [leftOrder.eq_def]
  split
  · cases cs.littleEndian
    · simp
    · simp only [if_true, List.cons.injEq, and_true, true_implies]
      constructor
      · rintro ⟨rfl, rfl, -⟩ _ _ _ ⟨rfl, rfl, rfl⟩
        exact ⟨rfl, rfl⟩
      · intro h
        obtain ⟨rfl, rfl⟩ := h _ _ _ ⟨rfl, rfl, rfl⟩
        exact ⟨rfl, rfl, rfl⟩
  · rename_i hthree
    exact iff_of_true rfl fun _ a b c heq => absurd heq (hthree a b c)

theorem leftOctets_eq (h : cs.Holds data l) (hne : l ≠ []) (hlt : l.length < 4) :
    cs.leftOctets data.counter data.ch = some ((cs.leftOrder l).map (·.val)) := by
  rw [h.counter_eq, h.ch_eq]
  match l with
  | [] => exact absurd rfl hne
  | [a] => simp [leftOctets, leftOrder, bitsOf]
  | [a, b] =>
    have hoctets := @octets_bitsOf cs [a, b]
    exact (congrArg some hoctets :)
  | [a, b, c] =>
    have ha := a.isLt
    have hb := b.isLt
    have hc := c.isLt
    have hbits : cs.bitsOf [a, b, c] = if cs.littleEndian then a.val + 256 * b.val + 65536 * c.val
        else 65536 * a.val + 256 * b.val + c.val := by
      have happend := @bitsOf_append cs [a, b] c
      rw [List.cons_append, List.cons_append, List.nil_append, bitsOf_pair] at happend
      rw [happend]
      split_ifs
      · simp
        omega
      · omega
    simp only [leftOctets, leftOrder, hbits, List.length_cons, List.length_nil, and_ff, Nat.shiftRight_eq_div_pow]
    norm_num
    split_ifs
    all_goals
      simp only [List.map_cons, List.map_nil, Option.some.injEq, List.cons.injEq, and_true]
      omega
  | _ :: _ :: _ :: _ :: _ => exact absurd hlt (by simp)

theorem Holds.decodeLeft (h : cs.Holds data l) (hlt : l.length < 4) (htype : cs.type ≠ .utf8) :
    ∃ data', cs.decodeLeft data = some (data', errorOctets (cs.leftOrder l)) := by
  rw [UnicodeCodingSystem.decodeLeft]
  by_cases hne : l = []
  · subst hne
    rw [if_pos (show data.counter = 0 from h.counter_eq)]
    exact ⟨data, rfl⟩
  · have hcounter : data.counter ≠ 0 := by
      have := List.length_pos_of_ne_nil hne
      rw [h.counter_eq]
      omega
    rw [if_neg hcounter]
    split
    · rename_i hutf8
      exact absurd hutf8 htype
    · rw [leftOctets_eq h hne hlt, Option.bind_some, decodeErrorOctets_eq]
      exact ⟨_, rfl⟩

/-- From a state between characters on, the bytes are put out so that they come back when
encoded, but for those that are left in the state. -/
def Returns (cs : UnicodeCodingSystem)
    (step : UnicodeCodingStream → Byte → Option (UnicodeCodingStream × List ℕ)) (src left : List Byte) : Prop :=
  ∀ data, cs.Holds data [] → ∃ data' out, transduce step data src = some (data', out) ∧ cs.Holds data' left ∧
    out.flatMap cs.encodeUnicodeToDynarr ++ left = src

variable {step : UnicodeCodingStream → Byte → Option (UnicodeCodingStream × List ℕ)}

theorem Returns.append (h : cs.Returns step l []) (h' : cs.Returns step src l') : cs.Returns step (l ++ src) l' := by
  intro data hdata
  obtain ⟨data₁, out, hrun, hholds, hout⟩ := h data hdata
  obtain ⟨data₂, out', hrun', hholds', hout'⟩ := h' data₁ hholds
  refine ⟨data₂, _, transduce_append_some hrun hrun', hholds', ?_⟩
  rw [List.append_nil] at hout
  rw [List.flatMap_append, List.append_assoc, hout, hout']

theorem returns_nil : cs.Returns step [] [] := fun data h => ⟨data, [], rfl, h, rfl⟩

theorem encodeUnicodeToDynarr_bitsOf (htype : cs.type = .utf16) (a b : Byte) :
    cs.encodeUnicodeToDynarr (cs.bitsOf [a, b]) = [a, b] := by
  have hlt := @bitsOf_pair_lt cs a b
  have hoctet : ¬ unicodeErrorOctetCodeP (cs.bitsOf [a, b]) = true := by
    rw [unicodeErrorOctetCodeP_iff]
    omega
  rw [encodeUnicodeToDynarr, if_neg hoctet, htype]
  exact (if_pos hlt).trans (add16BitChar_bitsOf a b)

theorem returns_byte (a : Byte) : cs.Returns cs.decodeUtf16 [a] [a] := by
  intro data h
  obtain ⟨data', hrun, -, hholds⟩ := decodeUtf16_odd h (.inl rfl) a
  exact ⟨data', [], (transduce_singleton _ _ _).trans hrun, hholds, rfl⟩

theorem returns_pair (hbom : cs.needBom = false) (htype : cs.type = .utf16)
    (hlead : ¬ validUnicodeLeadingSurrogate (cs.bitsOf [a, b])) : cs.Returns cs.decodeUtf16 [a, b] [] := by
  intro data h
  obtain ⟨data₁, hfirst, -, h₁⟩ := decodeUtf16_odd h (.inl rfl) a
  have hsecond := decodeUtf16_second h₁ b
  rw [if_neg hlead] at hsecond
  by_cases htrail : validUnicodeTrailingSurrogate (cs.bitsOf [a, b])
  · rw [if_pos htrail, decodeErrorOctets_bitsOf (n := 2) (reset _) [a, b] rfl] at hsecond
    refine ⟨_, _, transduce_cons hfirst (transduce_cons hsecond rfl), holds_nil rfl rfl, ?_⟩
    rw [List.append_nil]
    exact flatMap_errorOctets [a, b]
  · have hlt := @bitsOf_pair_lt cs a b
    have hvalid : validUnicodeCodepointP (cs.bitsOf [a, b]) true := by
      rw [validUnicodeCodepointP_iff]
      rw [validUnicodeLeadingSurrogate_iff] at hlead
      rw [validUnicodeTrailingSurrogate_iff] at htrail
      simp only [if_true]
      omega
    rw [if_neg htrail, decodeUnicodeToDynarr0_eq hvalid, if_neg (by simp [hbom])] at hsecond
    refine ⟨_, _, transduce_cons hfirst (transduce_cons hsecond rfl), holds_nil rfl rfl, ?_⟩
    rw [List.nil_append, List.append_nil, List.append_nil, List.flatMap_singleton, encodeUnicodeToDynarr_bitsOf htype]

theorem transduce_lead (h : cs.Holds data []) (hlead : validUnicodeLeadingSurrogate (cs.bitsOf [a, b])) :
    ∃ data', transduce cs.decodeUtf16 data [a, b] = some (data', []) ∧ cs.Holds data' [a, b] := by
  obtain ⟨data₁, hfirst, -, h₁⟩ := decodeUtf16_odd h (.inl rfl) a
  have hsecond := decodeUtf16_second h₁ b
  rw [if_pos hlead] at hsecond
  exact ⟨_, transduce_cons hfirst (transduce_cons hsecond rfl), h₁.takeByte (by simp) b⟩

theorem returns_lead (hlead : validUnicodeLeadingSurrogate (cs.bitsOf [a, b])) :
    cs.Returns cs.decodeUtf16 [a, b] [a, b] := by
  intro data h
  obtain ⟨data', hrun, hholds⟩ := transduce_lead h hlead
  exact ⟨data', [], hrun, hholds, rfl⟩

theorem transduce_lead_byte (h : cs.Holds data []) (hlead : validUnicodeLeadingSurrogate (cs.bitsOf [a, b]))
    (c : Byte) : ∃ data', transduce cs.decodeUtf16 data ([a, b] ++ [c]) = some (data', []) ∧
      cs.Holds data' [a, b, c] := by
  obtain ⟨data₂, hpair, h₂⟩ := transduce_lead h hlead
  obtain ⟨data₃, hthird, -, h₃⟩ := decodeUtf16_odd h₂ (.inr rfl) c
  exact ⟨data₃, (transduce_append_silent hpair [c]).trans ((transduce_singleton _ _ _).trans hthird), h₃⟩

theorem returns_lead_byte (hlead : validUnicodeLeadingSurrogate (cs.bitsOf [a, b])) (c : Byte) :
    cs.Returns cs.decodeUtf16 [a, b, c] [a, b, c] := by
  intro data h
  obtain ⟨data', hrun, hholds⟩ := transduce_lead_byte h hlead c
  exact ⟨data', [], hrun, hholds, rfl⟩

theorem transduce_surrogates (h : cs.Holds data []) (hlead : validUnicodeLeadingSurrogate (cs.bitsOf [a, b]))
    (c d : Byte) : ∃ data', cs.Holds data' [] ∧ transduce cs.decodeUtf16 data [a, b, c, d] =
      if cs.littleEndian = false ∧ validUnicodeTrailingSurrogate (cs.bitsOf [c, d]) then none
      else some (data', errorOctets [a, b, c, d]) := by
  obtain ⟨data₃, hrun, h₃⟩ := transduce_lead_byte h hlead c
  have hfourth := decodeUtf16_fourth h₃ d
  rw [decodeErrorOctets_bitsOf (n := 4) (reset _) [a, b, c, d] rfl] at hfourth
  have hsilent := transduce_append_silent hrun [d]
  rw [transduce_singleton, hfourth] at hsilent
  exact ⟨_, holds_nil rfl rfl, hsilent⟩

theorem returns_surrogates (hlead : validUnicodeLeadingSurrogate (cs.bitsOf [a, b]))
    (hpair : ¬ (cs.littleEndian = false ∧ validUnicodeTrailingSurrogate (cs.bitsOf [c, d]))) :
    cs.Returns cs.decodeUtf16 [a, b, c, d] [] := by
  intro data h
  obtain ⟨data', hholds, hrun⟩ := transduce_surrogates h hlead c d
  rw [if_neg hpair] at hrun
  exact ⟨data', _, hrun, hholds, by rw [List.append_nil, flatMap_errorOctets]⟩

theorem returns_utf16 (hbom : cs.needBom = false) (htype : cs.type = .utf16)
    (hpair : cs.littleEndian = false → ¬ cs.meetsPair src) : cs.Returns cs.decodeUtf16 src (cs.leftUtf16 src) := by
  induction src using leftUtf16.induct cs with
  | case1 a b c d src hlead ih =>
    simp only [meetsPair, if_pos hlead, Bool.or_eq_true, not_or] at hpair
    rw [leftUtf16, if_pos hlead]
    have hfour := returns_surrogates hlead fun hboth => (hpair hboth.1).1 hboth.2
    exact hfour.append (ih fun hendian => (hpair hendian).2)
  | case2 a b c d src hlead ih =>
    simp only [meetsPair, if_neg hlead] at hpair
    rw [leftUtf16, if_neg hlead]
    exact (returns_pair hbom htype hlead).append (ih hpair)
  | case3 a b c hlead =>
    rw [leftUtf16, if_pos hlead]
    exact returns_lead_byte hlead c
  | case4 a b c hlead =>
    rw [leftUtf16, if_neg hlead]
    exact (returns_pair hbom htype hlead).append (returns_byte c)
  | case5 a b hlead =>
    rw [leftUtf16, if_pos hlead]
    exact returns_lead hlead
  | case6 a b hlead =>
    rw [leftUtf16, if_neg hlead]
    exact returns_pair hbom htype hlead
  | case7 l h4 h3 h2 =>
    match l with
    | [] => exact returns_nil
    | [a] => exact returns_byte a
    | [a, b] => exact absurd rfl (h2 a b)
    | [a, b, c] => exact absurd rfl (h3 a b c)
    | a :: b :: c :: d :: src => exact absurd rfl (h4 a b c d src)

theorem transduce_meetsPair (hbom : cs.needBom = false) (htype : cs.type = .utf16) (hendian : cs.littleEndian = false)
    (hpair : cs.meetsPair src) (h : cs.Holds data []) : transduce cs.decodeUtf16 data src = none := by
  induction src using meetsPair.induct cs generalizing data with
  | case1 a b c d src hlead ih =>
    rw [meetsPair, if_pos hlead, Bool.or_eq_true] at hpair
    obtain ⟨data', hholds, hrun⟩ := transduce_surrogates h hlead c d
    rw [show a :: b :: c :: d :: src = [a, b, c, d] ++ src from rfl, transduce_append, hrun]
    split_ifs with htrail
    · exact Option.bind_none _
    · rw [Option.bind_some, ih (hpair.resolve_left fun ht => htrail ⟨hendian, ht⟩) hholds, Option.map_none]
  | case2 a b c d src hlead ih =>
    rw [meetsPair, if_neg hlead] at hpair
    obtain ⟨data', out, hrun, hholds, -⟩ := returns_pair hbom htype hlead data h
    rw [show a :: b :: c :: d :: src = [a, b] ++ c :: d :: src from rfl, transduce_append, hrun, Option.bind_some,
      ih hpair hholds, Option.map_none]
  | case3 src hshort =>
    rw [meetsPair.eq_def] at hpair
    split at hpair
    · exact absurd rfl (hshort _ _ _ _ _)
    · exact absurd hpair Bool.false_ne_true

theorem transduce_utf32_short (h : cs.Holds data []) (hlt : l.length < 4) :
    ∃ data', transduce cs.decodeUtf32 data l = some (data', []) ∧ data'.seenChar = data.seenChar ∧
      cs.Holds data' l := by
  induction l using List.reverseRecOn with
  | nil => exact ⟨data, rfl, rfl, h⟩
  | append_singleton l c ih =>
    rw [List.length_append, List.length_singleton] at hlt
    obtain ⟨data₁, hrun, hseen, h₁⟩ := ih (by omega)
    obtain ⟨data₂, hstep, hseen', h₂⟩ := decodeUtf32_early h₁ (by omega) c
    exact ⟨data₂, (transduce_append_silent hrun [c]).trans ((transduce_singleton _ _ _).trans hstep),
      hseen'.trans hseen, h₂⟩

theorem encodeUnicodeToDynarr_utf32 (htype : cs.type = .utf32) {u : ℕ} (hu : u ≤ 0x10ffff) :
    cs.encodeUnicodeToDynarr u = cs.encodeUtf32 u := by
  have hoctet : ¬ unicodeErrorOctetCodeP u = true := by
    rw [unicodeErrorOctetCodeP_iff]
    omega
  rw [encodeUnicodeToDynarr, if_neg hoctet, htype]

theorem returns_four (hbom : cs.needBom = false) (htype : cs.type = .utf32) (a b c d : Byte) :
    cs.Returns cs.decodeUtf32 [a, b, c, d] [] := by
  intro data h
  obtain ⟨data₃, hthree, -, h₃⟩ := @transduce_utf32_short cs data [a, b, c] h (by simp)
  have hfourth := decodeUtf32_fourth h₃ d
  have hrun := transduce_append_silent hthree [d]
  rw [transduce_singleton, hfourth] at hrun
  by_cases hvalid : validUnicodeCodepointP (asInt (cs.bitsOf [a, b, c, d])) false
  · have hcode := validUnicodeCodepointP_iff.mp hvalid
    have hlt : cs.bitsOf [a, b, c, d] < 2 ^ 32 := (bitsOf_lt [a, b, c, d]).trans_eq (by norm_num)
    have hint : asInt (cs.bitsOf [a, b, c, d]) = cs.bitsOf [a, b, c, d] := by
      rw [asInt] at hcode ⊢
      split_ifs at hcode ⊢ <;> omega
    have hprivate : validUnicodeCodepointP (cs.bitsOf [a, b, c, d]) true := by
      rw [hint] at hcode
      rw [validUnicodeCodepointP_iff]
      simp only [Bool.false_eq_true, if_false, if_true] at hcode ⊢
      omega
    rw [if_pos (.inl hvalid), hint, decodeUnicodeToDynarr0_eq hprivate, if_neg (by simp [hbom])] at hrun
    refine ⟨_, _, hrun, holds_nil rfl rfl, ?_⟩
    rw [hint] at hcode
    simp only [Bool.false_eq_true, if_false] at hcode
    rw [List.append_nil]
    exact (List.flatMap_singleton _ _).trans
      ((encodeUnicodeToDynarr_utf32 htype (by omega)).trans (encodeUtf32_bitsOf a b c d))
  · rw [if_neg (by simp [hvalid, htype]), decodeErrorOctets_bitsOf (n := 4) (reset _) [a, b, c, d] rfl] at hrun
    refine ⟨_, _, hrun, holds_nil rfl rfl, ?_⟩
    rw [List.append_nil]
    exact flatMap_errorOctets [a, b, c, d]

theorem returns_utf32 (hbom : cs.needBom = false) (htype : cs.type = .utf32) (src : List Byte) :
    cs.Returns cs.decodeUtf32 src (leftUtf32 src) := by
  induction src using leftUtf32.induct with
  | case1 a b c d src ih => exact (returns_four hbom htype a b c d).append ih
  | case2 l hshort =>
    have hlt : l.length < 4 := by
      match l with
      | [] | [_] | [_, _] | [_, _, _] => simp
      | a :: b :: c :: d :: src => exact absurd rfl (hshort a b c d src)
    have hleft : leftUtf32 l = l := by
      rw [leftUtf32.eq_def]
      split
      · exact absurd rfl (hshort _ _ _ _ _)
      · rfl
    rw [hleft]
    intro data h
    obtain ⟨data', hrun, -, hholds⟩ := transduce_utf32_short h hlt
    exact ⟨data', [], hrun, hholds, rfl⟩

theorem length_leftUtf16_lt (src : List Byte) : (cs.leftUtf16 src).length < 4 := by
  induction src using leftUtf16.induct cs with
  | case1 a b c d src hlead ih => rwa [leftUtf16, if_pos hlead]
  | case2 a b c d src hlead ih => rwa [leftUtf16, if_neg hlead]
  | case3 a b c hlead => simp [leftUtf16, hlead]
  | case4 a b c hlead => simp [leftUtf16, hlead]
  | case5 a b hlead => simp [leftUtf16, hlead]
  | case6 a b hlead => simp [leftUtf16, hlead]
  | case7 l h4 h3 h2 =>
    match l with
    | [] | [_] => simp [leftUtf16]
    | [a, b] => exact absurd rfl (h2 a b)
    | [a, b, c] => exact absurd rfl (h3 a b c)
    | a :: b :: c :: d :: src => exact absurd rfl (h4 a b c d src)

theorem length_leftUtf32_lt (src : List Byte) : (leftUtf32 src).length < 4 := by
  induction src using leftUtf32.induct with
  | case1 a b c d src ih => rwa [leftUtf32]
  | case2 l hshort =>
    match l with
    | [] | [_] | [_, _] | [_, _, _] => simp [leftUtf32]
    | a :: b :: c :: d :: src => exact absurd rfl (hshort a b c d src)

theorem Returns.decode (h : cs.Returns cs.decodeStep src l) (hlt : l.length < 4) (hbom : cs.needBom = false)
    (htype : cs.type ≠ .utf8) : (cs.decode src).map cs.encode = some src ↔ cs.leftOrder l = l := by
  obtain ⟨data, out, hrun, hholds, hout⟩ := h .fresh (holds_nil rfl rfl)
  obtain ⟨data', hleft⟩ := hholds.decodeLeft hlt htype
  rw [decode_eq, decodeFrom, hrun, Option.bind_some, hleft, Option.map_some, Option.map_some, encode_eq hbom,
    List.flatMap_append, flatMap_errorOctets, Option.some.injEq]
  conv_lhs => rw [← hout]
  exact List.append_right_inj _

theorem encode_decode_utf8 (hprivate : cs.allowPrivate = false) (hbom : cs.needBom = false) (htype : cs.type = .utf8)
    (src : List Byte) : (cs.decode src).map cs.encode = some src := by
  have hstep : cs.decodeStep = cs.decodeUtf8Step := by rw [decodeStep, htype]
  let P (data : UnicodeCodingStream) (as : List Byte) (out : List ℕ) : Prop :=
    ∃ l, Pending data l ∧ out.flatMap cs.encodeUnicodeToDynarr ++ l = as
  have hP : ∀ data as out c, P data as out →
      ∃ data' out', cs.decodeUtf8Step data c = some (data', out') ∧ P data' (as ++ [c]) (out ++ out') := by
    rintro data as out c ⟨l, hpending, rfl⟩
    obtain ⟨data', out', l', hrun, hpending', hout⟩ := decodeUtf8Step_pending hprivate hbom htype hpending c
    refine ⟨data', out', hrun, l', hpending', ?_⟩
    rw [List.flatMap_append, List.append_assoc, hout, List.append_assoc]
  have hfresh : P .fresh [] [] := ⟨[], .inl ⟨rfl, rfl⟩, rfl⟩
  obtain ⟨data, out, hrun, l, hpending, hout⟩ := exists_transduce hP hfresh src
  rw [List.nil_append, List.nil_append] at hout
  rw [decode_eq, decodeFrom, hstep, hrun, Option.bind_some, decodeLeft, htype]
  rcases hpending with ⟨hcounter, rfl⟩ | hstored
  · rw [if_pos hcounter, Option.map_some, Option.map_some, List.append_nil, encode_eq hbom, ← hout, List.append_nil]
  · rw [if_neg hstored.waits.ne', hstored.indicateInvalidUtf8, Option.map_some, Option.map_some, Option.map_some,
      encode_eq hbom, List.flatMap_append]
    exact congrArg some ((congrArg (_ ++ ·) (flatMap_errorOctets l)).trans hout)

/-- A file comes back unchanged, but for the pairs of UTF-16 in big endian, and for three bytes
that are left in little endian. -/
theorem encode_decode_iff (hprivate : cs.allowPrivate = false) (hbom : cs.needBom = false) (hucs4 : cs.type ≠ .ucs4)
    (src : List Byte) : (cs.decode src).map cs.encode = some src ↔
      (cs.type = .utf16 → cs.littleEndian = false → ¬ cs.meetsPair src) ∧
        (cs.littleEndian → ∀ a b c, cs.left src = [a, b, c] → a = b ∧ b = c) := by
  rw [← leftOrder_eq_self_iff, left]
  cases htype : cs.type with
  | utf8 => exact iff_of_true (encode_decode_utf8 hprivate hbom htype src) ⟨fun heq => absurd heq (by decide), rfl⟩
  | utf16 =>
    simp only [true_implies]
    have hstep : cs.decodeStep = cs.decodeUtf16 := by rw [decodeStep, htype]
    by_cases hpair : cs.littleEndian = false → ¬ cs.meetsPair src
    · have hreturns := returns_utf16 hbom htype hpair
      rw [← hstep] at hreturns
      rw [hreturns.decode (length_leftUtf16_lt src) hbom (by simp [htype]), and_iff_right hpair]
    · have hnone : cs.decode src = none := by
        rw [Classical.not_imp, not_not] at hpair
        rw [decode_eq, decodeFrom, hstep, transduce_meetsPair hbom htype hpair.1 hpair.2 (holds_nil rfl rfl),
          Option.bind_none]
      rw [hnone, Option.map_none]
      exact iff_of_false (Option.some_ne_none src).symm fun hboth => hpair hboth.1
  | ucs4 => exact absurd htype hucs4
  | utf32 =>
    have hreturns := returns_utf32 hbom htype src
    rw [show cs.decodeUtf32 = cs.decodeStep by rw [decodeStep, htype]] at hreturns
    rw [hreturns.decode (length_leftUtf32_lt src) hbom (by simp [htype])]
    exact (and_iff_right fun heq => absurd heq (by decide)).symm

theorem encode_decode_lead :
    ((⟨.utf16, false, false, false⟩ : UnicodeCodingSystem).decode [0xd8, 0, 0, 0x41]).map
      (⟨.utf16, false, false, false⟩ : UnicodeCodingSystem).encode = some [0xd8, 0, 0, 0x41] :=
  (encode_decode_iff rfl rfl (by decide) [0xd8, 0, 0, 0x41]).mpr (by decide)

/-- Three bytes of UTF-32 in little endian come back in another order, and a pair of UTF-16 in
big endian does not come back at all. -/
theorem encode_decode_left :
    ((⟨.utf32, true, false, false⟩ : UnicodeCodingSystem).decode [1, 2, 3]).map
        (⟨.utf32, true, false, false⟩ : UnicodeCodingSystem).encode ≠ some [1, 2, 3] ∧
      ((⟨.utf16, false, false, false⟩ : UnicodeCodingSystem).decode [0xd8, 0, 0xdc, 0]).map
        (⟨.utf16, false, false, false⟩ : UnicodeCodingSystem).encode ≠ some [0xd8, 0, 0xdc, 0] := by
  have hleft : (⟨.utf32, true, false, false⟩ : UnicodeCodingSystem).decode [1, 2, 3] =
      some [0x200003, 0x200001, 0x200002] := by decide
  have hpair : (⟨.utf16, false, false, false⟩ : UnicodeCodingSystem).decode [0xd8, 0, 0xdc, 0] = none := by decide
  rw [hleft, hpair, Option.map_some, Option.map_none, encode_eq rfl]
  decide

end XEmacs.Coding.Unicode.UnicodeCodingSystem
