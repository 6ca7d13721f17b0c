import XEmacs.Coding.Base64
import XEmacs.Lib.Bits

/-! Base64 text decodes to what was encoded, whatever other characters are inserted into it,
and how long the output of either direction can get. -/

namespace XEmacs.Coding.Base64

open Lib.Bits

variable {a b c k : ℕ} {lineBreak : Bool} {s t t' : List ℕ}

theorem charToValue_valueToChar : ∀ v < 64, charToValue (valueToChar v) = v := by decide

theorem valueToChar_isBase64 : ∀ v < 64, IsBase64 (valueToChar v) ∧ valueToChar v ≠ pad := by decide

def sextet₁ (a : ℕ) : ℕ := a / 4

def sextet₂ (a b : ℕ) : ℕ := a % 4 * 16 + b / 16

def sextet₃ (b c : ℕ) : ℕ := b % 16 * 4 + c / 64

def sextet₄ (c : ℕ) : ℕ := c % 64

theorem sextet₁_lt (ha : a < 256) : sextet₁ a < 64 := by unfold sextet₁; omega

theorem sextet₂_lt (hb : b < 256) : sextet₂ a b < 64 := by unfold sextet₂; omega

theorem sextet₃_lt (hc : c < 256) : sextet₃ b c < 64 := by unfold sextet₃; omega

theorem sextet₄_lt : sextet₄ c < 64 := by unfold sextet₄; omega

theorem encode_sextet₁ (ha : a < 256) : 0x3f &&& a >>> 2 = sextet₁ a := by
  rw [show 0x3f = 2 ^ 6 - 1 from rfl, mask_and, Nat.shiftRight_eq_div_pow, sextet₁]
  omega

theorem encode_sextet₂ (hb : b < 256) : (0x03 &&& a) <<< 4 ||| 0x0f &&& b >>> 4 = sextet₂ a b := by
  rw [show 0x03 = 2 ^ 2 - 1 from rfl, show 0x0f = 2 ^ 4 - 1 from rfl, mask_and, mask_and,
    shiftLeft_or (Nat.mod_lt _ (by decide)), Nat.shiftRight_eq_div_pow, sextet₂]
  omega

theorem encode_sextet₃ (hc : c < 256) : (0x0f &&& b) <<< 2 ||| 0x03 &&& c >>> 6 = sextet₃ b c := by
  rw [show 0x03 = 2 ^ 2 - 1 from rfl, show 0x0f = 2 ^ 4 - 1 from rfl, mask_and, mask_and,
    shiftLeft_or (Nat.mod_lt _ (by decide)), Nat.shiftRight_eq_div_pow, sextet₃]
  omega

theorem encode_sextet₄ : 0x3f &&& c = sextet₄ c := by
  rw [show 0x3f = 2 ^ 6 - 1 from rfl, mask_and]
  rfl

theorem encode_last₂ : (0x03 &&& a) <<< 4 = sextet₂ a 0 := by
  rw [show 0x03 = 2 ^ 2 - 1 from rfl, mask_and, Nat.shiftLeft_eq, sextet₂]
  omega

theorem encode_last₃ : (0x0f &&& b) <<< 2 = sextet₃ b 0 := by
  rw [show 0x0f = 2 ^ 4 - 1 from rfl, mask_and, Nat.shiftLeft_eq, sextet₃]
  omega

variable {v₁ v₂ v₃ v₄ : ℕ}

theorem collect₂ (h₂ : v₂ < 64) : v₁ <<< 18 ||| v₂ <<< 12 = v₁ * 2 ^ 18 + v₂ * 2 ^ 12 := by
  rw [Nat.shiftLeft_eq v₂, shiftLeft_or (by omega)]

theorem collect₃ (h₂ : v₂ < 64) (h₃ : v₃ < 64) :
    v₁ <<< 18 ||| v₂ <<< 12 ||| v₃ <<< 6 = v₁ * 2 ^ 18 + v₂ * 2 ^ 12 + v₃ * 2 ^ 6 := by
  rw [collect₂ h₂, Nat.shiftLeft_eq, or_eq_add (i := 12)]
  · omega
  · omega

theorem collect₄ (h₂ : v₂ < 64) (h₃ : v₃ < 64) (h₄ : v₄ < 64) :
    v₁ <<< 18 ||| v₂ <<< 12 ||| v₃ <<< 6 ||| v₄ =
      v₁ * 2 ^ 18 + v₂ * 2 ^ 12 + v₃ * 2 ^ 6 + v₄ := by
  rw [collect₃ h₂ h₃, or_eq_add (i := 6)]
  · omega
  · exact h₄

def significant (t : List ℕ) : List ℕ := t.filter fun ec => IsBase64 ec ∨ ec = pad

theorem significant_of_none {p q : ℕ} {rest : List ℕ} (h : advanceInput t p = (none, q, rest)) :
    significant t = [] := by
  induction t generalizing p with
  | nil => rfl
  | cons ec t ih =>
    rw [advanceInput] at h
    split at h
    · cases h
    · next hec => simpa [significant, hec] using ih h

theorem significant_of_some {p q : ℕ} {rest : List ℕ} (h : advanceInput t p = (some c, q, rest)) :
    significant t = c :: significant rest := by
  induction t generalizing p with
  | nil => cases h
  | cons ec t ih =>
    rw [advanceInput] at h
    split at h
    · next hec =>
      cases h
      simp [significant, hec]
    · next hec => simpa [significant, hec] using ih h

def byte₁ (c₁ c₂ : ℕ) : ℕ := (charToValue c₁ <<< 18 ||| charToValue c₂ <<< 12) >>> 16 % 256

def byte₂ (c₁ c₂ c₃ : ℕ) : ℕ :=
  (0xff &&& (charToValue c₁ <<< 18 ||| charToValue c₂ <<< 12 ||| charToValue c₃ <<< 6) >>> 8) % 256

def byte₃ (c₁ c₂ c₃ c₄ : ℕ) : ℕ :=
  (0xff &&& (charToValue c₁ <<< 18 ||| charToValue c₂ <<< 12 ||| charToValue c₃ <<< 6 |||
    charToValue c₄)) % 256

/-- What is decoded from text without insignificant characters, and whether that is all of it. -/
def quads : List ℕ → List ℕ × Bool
  | [] => ([], true)
  | [_] => ([], false)
  | [c₁, c₂] => if c₁ = pad ∨ c₂ = pad then ([], false) else ([byte₁ c₁ c₂], false)
  | [c₁, c₂, c₃] =>
    if c₁ = pad ∨ c₂ = pad then ([], false)
    else if c₃ = pad then ([byte₁ c₁ c₂], false)
    else ([byte₁ c₁ c₂, byte₂ c₁ c₂ c₃], false)
  | c₁ :: c₂ :: c₃ :: c₄ :: cs =>
    if c₁ = pad ∨ c₂ = pad then ([], false)
    else if c₃ = pad then
      if c₄ = pad then (byte₁ c₁ c₂ :: (quads cs).1, (quads cs).2) else ([byte₁ c₁ c₂], false)
    else if c₄ = pad then (byte₁ c₁ c₂ :: byte₂ c₁ c₂ c₃ :: (quads cs).1, (quads cs).2)
    else
      (byte₁ c₁ c₂ :: byte₂ c₁ c₂ c₃ :: byte₃ c₁ c₂ c₃ c₄ :: (quads cs).1, (quads cs).2)

theorem quads_pad₁ : ∀ cs, quads (pad :: cs) = ([], false)
  | [] => rfl
  | [_] => rfl
  | [_, _] => rfl
  | _ :: _ :: _ :: _ => by simp [quads]

theorem quads_pad₂ (c : ℕ) : ∀ cs, quads (c :: pad :: cs) = ([], false)
  | [] => by simp [quads]
  | [_] => by simp [quads]
  | _ :: _ :: _ => by simp [quads]

theorem decodeLoop_quads (t : List ℕ) (p : ℕ) :
    ((decodeLoop t p).written, (decodeLoop t p).error.isNone) = quads (significant t) := by
  induction hn : t.length using Nat.strong_induction_on generalizing t p with
  | _ n ih =>
    rw [decodeLoop]
    split
    · next h₁ => rw [significant_of_none h₁]; rfl
    next c₁ q₁ t₁ h₁ =>
    rw [significant_of_some h₁]
    have l₁ := advanceInput_length h₁
    split
    · next hp => rw [hp, quads_pad₁]; rfl
    next hp₁ =>
    dsimp only
    split
    · next h₂ => rw [significant_of_none h₂]; rfl
    next c₂ q₂ t₂ h₂ =>
    rw [significant_of_some h₂]
    have l₂ := advanceInput_length h₂
    split
    · next hp => rw [hp, quads_pad₂]; rfl
    next hp₂ =>
    dsimp only [Conversion.store]
    split
    · next h₃ => rw [significant_of_none h₃]; simp [quads, hp₁, hp₂, byte₁]
    next c₃ q₃ t₃ h₃ =>
    rw [significant_of_some h₃]
    have l₃ := advanceInput_length h₃
    split
    · next hp₃ =>
      split
      · next h₄ => rw [significant_of_none h₄]; simp [quads, hp₁, hp₂, hp₃, byte₁]
      next c₄ q₄ t₄ h₄ =>
      rw [significant_of_some h₄]
      have l₄ := advanceInput_length h₄
      split
      · next hp₄ => simp [quads, hp₁, hp₂, hp₃, hp₄, byte₁]
      next hp₄ =>
      rw [not_not] at hp₄
      have := ih _ (by omega) t₄ q₄ rfl
      simp [quads, hp₁, hp₂, hp₃, hp₄, byte₁, ← this]
    next hp₃ =>
    split
    · next h₄ => rw [significant_of_none h₄]; simp [quads, hp₁, hp₂, hp₃, byte₁, byte₂]
    next c₄ q₄ t₄ h₄ =>
    rw [significant_of_some h₄]
    have l₄ := advanceInput_length h₄
    have := ih _ (by omega) t₄ q₄ rfl
    split
    · next hp₄ => simp [quads, hp₁, hp₂, hp₃, hp₄, byte₁, byte₂, ← this]
    · next hp₄ => simp [quads, hp₁, hp₂, hp₃, hp₄, byte₁, byte₂, byte₃, ← this]

theorem encodeLoop_one (ha : a < 256) :
    encodeLoop lineBreak k [a] =
      ⟨groupBreak lineBreak k ++
        [valueToChar (sextet₁ a), valueToChar (sextet₂ a 0), pad, pad], none⟩ := by
  rw [encodeLoop, if_neg (by omega), encode_sextet₁ ha, encode_last₂]
  simp [Conversion.store]

theorem encodeLoop_two (ha : a < 256) (hb : b < 256) :
    encodeLoop lineBreak k [a, b] =
      ⟨groupBreak lineBreak k ++
        [valueToChar (sextet₁ a), valueToChar (sextet₂ a b), valueToChar (sextet₃ b 0), pad], none⟩ := by
  rw [encodeLoop, if_neg (by omega), encode_sextet₁ ha]
  dsimp only
  rw [if_neg (by omega), encode_sextet₂ hb, encode_last₃]
  simp [Conversion.store]

theorem encodeLoop_three (ha : a < 256) (hb : b < 256) (hc : c < 256) :
    encodeLoop lineBreak k (a :: b :: c :: s) =
      .store (groupBreak lineBreak k ++
        [valueToChar (sextet₁ a), valueToChar (sextet₂ a b), valueToChar (sextet₃ b c),
          valueToChar (sextet₄ c)])
        (encodeLoop lineBreak (groupCount lineBreak k) s) := by
  rw [encodeLoop, if_neg (by omega), encode_sextet₁ ha]
  dsimp only
  rw [if_neg (by omega), encode_sextet₂ hb, if_neg (by omega), encode_sextet₃ hc, encode_sextet₄]
  simp [Conversion.store]

theorem byte₁_sextets (hb : b < 256) (ha : a < 256) :
    byte₁ (valueToChar (sextet₁ a)) (valueToChar (sextet₂ a b)) = a := by
  rw [byte₁, charToValue_valueToChar _ (sextet₁_lt ha), charToValue_valueToChar _ (sextet₂_lt hb),
    collect₂ (sextet₂_lt hb), Nat.shiftRight_eq_div_pow, sextet₁, sextet₂]
  omega

theorem byte₂_sextets (ha : a < 256) (hb : b < 256) (hc : c < 256) :
    byte₂ (valueToChar (sextet₁ a)) (valueToChar (sextet₂ a b)) (valueToChar (sextet₃ b c)) = b := by
  rw [byte₂, charToValue_valueToChar _ (sextet₁_lt ha), charToValue_valueToChar _ (sextet₂_lt hb),
    charToValue_valueToChar _ (sextet₃_lt hc), collect₃ (sextet₂_lt hb) (sextet₃_lt hc),
    show 0xff = 2 ^ 8 - 1 from rfl, mask_and, Nat.shiftRight_eq_div_pow, sextet₁, sextet₂, sextet₃]
  omega

theorem byte₃_sextets (ha : a < 256) (hb : b < 256) (hc : c < 256) :
    byte₃ (valueToChar (sextet₁ a)) (valueToChar (sextet₂ a b)) (valueToChar (sextet₃ b c))
      (valueToChar (sextet₄ c)) = c := by
  rw [byte₃, charToValue_valueToChar _ (sextet₁_lt ha), charToValue_valueToChar _ (sextet₂_lt hb),
    charToValue_valueToChar _ (sextet₃_lt hc), charToValue_valueToChar _ sextet₄_lt,
    collect₄ (sextet₂_lt hb) (sextet₃_lt hc) sextet₄_lt,
    show 0xff = 2 ^ 8 - 1 from rfl, mask_and, sextet₁, sextet₂, sextet₃, sextet₄]
  omega

theorem significant_groupBreak : significant (groupBreak lineBreak k) = [] := by
  unfold groupBreak
  split
  · decide
  · rfl

theorem significant_append : significant (s ++ t) = significant s ++ significant t := List.filter_append ..

theorem significant_value {v : ℕ} (h : v < 64) :
    significant (valueToChar v :: t) = valueToChar v :: significant t := by
  simp [significant, (valueToChar_isBase64 v h).1]

theorem significant_pad : significant (pad :: t) = pad :: significant t := by simp [significant]

theorem encodeLoop_decodes (lineBreak : Bool) : ∀ (s : List ℕ) (k : ℕ), (∀ c ∈ s, c < 256) →
    (encodeLoop lineBreak k s).error = none ∧
      quads (significant (encodeLoop lineBreak k s).written) = (s, true)
  | [], k, _ => by simp [encodeLoop, significant, quads]
  | [a], k, h => by
    have ha : a < 256 := h a (by simp)
    rw [encodeLoop_one ha, significant_append, significant_groupBreak, List.nil_append,
      significant_value (sextet₁_lt ha), significant_value (sextet₂_lt (by decide)),
      significant_pad, significant_pad]
    simp [significant, quads, byte₁_sextets, ha, (valueToChar_isBase64 _ (sextet₁_lt ha)).2,
      (valueToChar_isBase64 _ (sextet₂_lt (a := a) (b := 0) (by decide))).2]
  | [a, b], k, h => by
    have ha : a < 256 := h a (by simp)
    have hb : b < 256 := h b (by simp)
    rw [encodeLoop_two ha hb, significant_append, significant_groupBreak, List.nil_append,
      significant_value (sextet₁_lt ha), significant_value (sextet₂_lt hb),
      significant_value (sextet₃_lt (by decide)), significant_pad]
    simp [significant, quads, byte₁_sextets, byte₂_sextets, ha, hb,
      (valueToChar_isBase64 _ (sextet₁_lt ha)).2, (valueToChar_isBase64 _ (sextet₂_lt hb)).2,
      (valueToChar_isBase64 _ (sextet₃_lt (b := b) (c := 0) (by decide))).2]
  | a :: b :: c :: s, k, h => by
    have ha : a < 256 := h a (by simp)
    have hb : b < 256 := h b (by simp)
    have hc : c < 256 := h c (by simp)
    obtain ⟨herr, hrest⟩ := encodeLoop_decodes lineBreak s (groupCount lineBreak k)
      fun x hx => h x (by simp [hx])
    rw [encodeLoop_three ha hb hc]
    refine ⟨herr, ?_⟩
    simp only [Conversion.store, List.append_assoc]
    rw [significant_append, significant_groupBreak, List.nil_append, List.cons_append,
      List.cons_append, List.cons_append, List.cons_append, List.nil_append,
      significant_value (sextet₁_lt ha), significant_value (sextet₂_lt hb),
      significant_value (sextet₃_lt hc), significant_value sextet₄_lt]
    simp [quads, byte₁_sextets, byte₂_sextets, byte₃_sextets, ha, hb, hc, hrest,
      (valueToChar_isBase64 _ (sextet₁_lt ha)).2, (valueToChar_isBase64 _ (sextet₂_lt hb)).2,
      (valueToChar_isBase64 _ (sextet₃_lt hc)).2, (valueToChar_isBase64 _ (sextet₄_lt (c := c))).2]

theorem written_length (lineBreak : Bool) (s : List ℕ) : ∀ k, (∀ c ∈ s, c < 256) →
    18 * (encodeLoop lineBreak k s).written.length ≤ 73 * ((s.length + 2) / 3) + k := by
  have hbreak : ∀ k, 18 * (groupBreak lineBreak k).length + groupCount lineBreak k ≤ k + 1 := by
    intro k
    unfold groupBreak groupCount
    split
    · next h =>
      have := h.2
      simp only [mimeLineLength, List.length_singleton] at this ⊢
      omega
    · simp
  match s with
  | [] => simp [encodeLoop]
  | [a] =>
    intro k h
    have := hbreak k
    rw [encodeLoop_one (h a (by simp))]
    simp only [List.length_append, List.length_cons, List.length_nil]
    omega
  | [a, b] =>
    intro k h
    have := hbreak k
    rw [encodeLoop_two (h a (by simp)) (h b (by simp))]
    simp only [List.length_append, List.length_cons, List.length_nil]
    omega
  | a :: b :: c :: s =>
    intro k h
    have := hbreak k
    have hrest := written_length lineBreak s (groupCount lineBreak k)
      fun x hx => h x (by simp [hx])
    rw [encodeLoop_three (h a (by simp)) (h b (by simp)) (h c (by simp))]
    simp only [Conversion.store, List.length_append, List.length_cons, List.length_nil]
    omega

theorem encode1_length (h : ∀ c ∈ s, c < 256) :
    (encode1 s lineBreak).written.length ≤ allength s.length := by
  have := written_length lineBreak s 0 h
  simp only [encode1, allength, mimeLineLength]
  omega

theorem quads_length : ∀ cs, (quads cs).1.length ≤ cs.length
  | [] => by simp [quads]
  | [_] => by simp [quads]
  | [_, _] => by rw [quads]; split <;> simp
  | [_, _, _] => by rw [quads]; split_ifs <;> simp
  | _ :: _ :: _ :: _ :: cs => by
    have := quads_length cs
    rw [quads]
    split_ifs <;> simp <;> omega

theorem decode1_length (t : List ℕ) : (decode1 t).written.length ≤ t.length := by
  have hquads := congrArg Prod.fst (decodeLoop_quads t 0)
  calc (decode1 t).written.length = (quads (significant t)).1.length := congrArg List.length hquads
    _ ≤ (significant t).length := quads_length _
    _ ≤ t.length := List.length_filter_le ..

/-- Every line of a text is short enough, where its first line continues one of `n` characters. -/
def LinesFit : ℕ → List ℕ → Prop
  | n, [] => n ≤ mimeLineLength
  | n, c :: cs => if c = newline then n ≤ mimeLineLength ∧ LinesFit 0 cs else LinesFit (n + 1) cs

theorem LinesFit.splitOn {n : ℕ} (h : LinesFit n t) :
    ∃ l ls, t.splitOn newline = l :: ls ∧ n + l.length ≤ mimeLineLength ∧
      ∀ l ∈ ls, l.length ≤ mimeLineLength := by
  induction t generalizing n with
  | nil => exact ⟨[], [], rfl, h, by simp⟩
  | cons c t ih =>
    rw [LinesFit] at h
    split at h
    · next hc =>
      obtain ⟨l, ls, heq, hl, hls⟩ := ih h.2
      refine ⟨[], l :: ls, ?_, h.1, ?_⟩
      · rw [List.splitOn, List.splitOnP_cons_eq_if_modifyHead, if_pos (by simp [hc]), ← heq, List.splitOn]
      · simpa using ⟨by simpa using hl, hls⟩
    · next hc =>
      obtain ⟨l, ls, heq, hl, hls⟩ := ih h
      refine ⟨c :: l, ls, ?_, by rw [List.length_cons]; omega, hls⟩
      rw [List.splitOn, List.splitOnP_cons_eq_if_modifyHead, if_neg (by simpa using hc), ← List.splitOn, heq]
      rfl

theorem linesFit_append {n : ℕ} {cs : List ℕ} (hcs : newline ∉ cs) :
    LinesFit n (cs ++ t) ↔ LinesFit (n + cs.length) t := by
  induction cs generalizing n with
  | nil => rfl
  | cons c cs ih =>
    simp only [List.mem_cons, not_or] at hcs
    rw [List.cons_append, LinesFit, if_neg (Ne.symm hcs.1), ih hcs.2, List.length_cons]
    rw [Nat.add_assoc, Nat.add_comm 1]

theorem valueToChar_ne_newline : ∀ v < 64, valueToChar v ≠ newline := by decide

theorem newline_ne_pad : newline ≠ pad := by decide

theorem linesFit_group {cs : List ℕ} (hk : k ≤ 18) (hcs : newline ∉ cs) (hlen : cs.length = 4)
    (h : ∀ k' ≤ 18, k' = groupCount true k → LinesFit (4 * k') t) :
    LinesFit (4 * k) (groupBreak true k ++ cs ++ t) := by
  have hcount := h _ ?_ rfl
  · unfold groupBreak
    unfold groupCount at hcount
    simp only [mimeLineLength] at hcount ⊢
    split
    · next hfull =>
      rw [if_pos hfull] at hcount
      rw [List.singleton_append, List.cons_append, LinesFit, if_pos rfl, linesFit_append hcs, hlen]
      exact ⟨by rw [mimeLineLength]; omega, hcount⟩
    · next hfull =>
      rw [if_neg hfull] at hcount
      rw [List.nil_append, linesFit_append hcs, hlen]
      exact hcount
  · unfold groupCount mimeLineLength
    split
    · decide
    · next hfull =>
      simp only [true_and, not_not] at hfull
      omega

theorem encodeLoop_linesFit (s : List ℕ) : ∀ k ≤ 18, (∀ c ∈ s, c < 256) →
    LinesFit (4 * k) (encodeLoop true k s).written := by
  have hmem : ∀ v < 64, newline ≠ valueToChar v := fun v hv => (valueToChar_ne_newline v hv).symm
  match s with
  | [] =>
    intro k hk _
    rw [encodeLoop, LinesFit, mimeLineLength]
    omega
  | [a] =>
    intro k hk h
    rw [encodeLoop_one (h a (by simp)), ← List.append_nil (_ ++ _)]
    refine linesFit_group hk ?_ rfl fun k' hk' _ => by rw [LinesFit, mimeLineLength]; omega
    simp [hmem _ (sextet₁_lt (h a (by simp))), hmem _ (sextet₂_lt (a := a) (b := 0) (by decide)),
      newline_ne_pad]
  | [a, b] =>
    intro k hk h
    rw [encodeLoop_two (h a (by simp)) (h b (by simp)), ← List.append_nil (_ ++ _)]
    refine linesFit_group hk ?_ rfl fun k' hk' _ => by rw [LinesFit, mimeLineLength]; omega
    simp [hmem _ (sextet₁_lt (h a (by simp))), hmem _ (sextet₂_lt (a := a) (h b (by simp))),
      hmem _ (sextet₃_lt (b := b) (c := 0) (by decide)), newline_ne_pad]
  | a :: b :: c :: s =>
    intro k hk h
    rw [encodeLoop_three (h a (by simp)) (h b (by simp)) (h c (by simp))]
    refine linesFit_group hk ?_ rfl fun k' hk' heq => ?_
    · simp [hmem _ (sextet₁_lt (h a (by simp))), hmem _ (sextet₂_lt (a := a) (h b (by simp))),
        hmem _ (sextet₃_lt (b := b) (h c (by simp))), hmem _ (sextet₄_lt (c := c))]
    · rw [← heq]
      exact encodeLoop_linesFit s k' hk' fun x hx => h x (by simp [hx])

theorem groupBreak_false : groupBreak false k = [] := by simp [groupBreak]

theorem encodeLoop_oneLine (s : List ℕ) : ∀ k, (∀ c ∈ s, c < 256) →
    newline ∉ (encodeLoop false k s).written := by
  have hmem : ∀ v < 64, newline ≠ valueToChar v := fun v hv => (valueToChar_ne_newline v hv).symm
  match s with
  | [] => intro k _; simp [encodeLoop]
  | [a] =>
    intro k h
    rw [encodeLoop_one (h a (by simp)), groupBreak_false]
    simp [hmem _ (sextet₁_lt (h a (by simp))), hmem _ (sextet₂_lt (a := a) (b := 0) (by decide)),
      newline_ne_pad]
  | [a, b] =>
    intro k h
    rw [encodeLoop_two (h a (by simp)) (h b (by simp)), groupBreak_false]
    simp [hmem _ (sextet₁_lt (h a (by simp))), hmem _ (sextet₂_lt (a := a) (h b (by simp))),
      hmem _ (sextet₃_lt (b := b) (c := 0) (by decide)), newline_ne_pad]
  | a :: b :: c :: s =>
    intro k h
    rw [encodeLoop_three (h a (by simp)) (h b (by simp)) (h c (by simp)), groupBreak_false]
    have hrest := encodeLoop_oneLine s (groupCount false k) fun x hx => h x (by simp [hx])
    simp [Conversion.store, hrest, hmem _ (sextet₁_lt (h a (by simp))),
      hmem _ (sextet₂_lt (a := a) (h b (by simp))), hmem _ (sextet₃_lt (b := b) (h c (by simp))),
      hmem _ (sextet₄_lt (c := c))]

/-- A character outside the base64 alphabet; the padding character is one of the alphabet. -/
def Foreign (ec : ℕ) : Prop := ¬ IsBase64 ec ∧ ec ≠ pad

/-- `WithForeign t t'`: foreign characters have been inserted into `t`. -/
inductive WithForeign : List ℕ → List ℕ → Prop
  | nil : WithForeign [] []
  | keep (ec : ℕ) {t t' : List ℕ} : WithForeign t t' → WithForeign (ec :: t) (ec :: t')
  | insert {ec : ℕ} {t t' : List ℕ} : Foreign ec → WithForeign t t' → WithForeign t (ec :: t')

theorem WithForeign.significant (h : WithForeign t t') : significant t' = significant t := by
  induction h with
  | nil => rfl
  | keep ec _ ih => simp only [Base64.significant, List.filter_cons] at ih ⊢; rw [ih]
  | insert hec _ ih => simpa [Base64.significant, hec.1, hec.2] using ih

theorem decodeString_eq_ok : decodeString t = .ok s ↔ quads (significant t) = (s, true) := by
  rw [← decodeLoop_quads t 0, decodeString, decode1, Prod.mk.injEq]
  rcases decodeLoop t 0 with ⟨written, _ | e⟩ <;> simp

theorem encodeString_eq_ok (h : ∀ c ∈ s, c < 256) (noLineBreak : Bool) :
    encodeString s noLineBreak = .ok (encode1 s !noLineBreak).written := by
  have herr := (encodeLoop_decodes (!noLineBreak) s 0 h).1
  rw [encodeString, encode1] at *
  rcases hr : encodeLoop (!noLineBreak) 0 s with ⟨written, _ | e⟩
  · rfl
  · rw [hr] at herr
    cases herr

/-- Base64 text decodes to what was encoded, fits the room allocated for it and is in lines of 72
characters at most. -/
theorem encodeString_decodeString (h : ∀ c ∈ s, c < 256) (noLineBreak : Bool) :
    ∃ encoded, encodeString s noLineBreak = .ok encoded ∧
      decodeString encoded = .ok s ∧
      encoded.length ≤ allength s.length ∧
      (noLineBreak = false → ∀ line ∈ encoded.splitOn newline, line.length ≤ 72) ∧
      (noLineBreak = true → newline ∉ encoded) ∧
      (∀ t, (decode1 t).written.length ≤ t.length) ∧
      (∀ t, WithForeign encoded t → decodeString t = .ok s) := by
  have hquads := (encodeLoop_decodes (!noLineBreak) s 0 h).2
  refine ⟨_, encodeString_eq_ok h noLineBreak, decodeString_eq_ok.mpr hquads, encode1_length h, ?_, ?_,
    decode1_length, fun t ht => ?_⟩
  · rintro rfl line hline
    obtain ⟨l, ls, heq, hl, hls⟩ := (encodeLoop_linesFit s 0 (by decide) h).splitOn
    have hline : line ∈ l :: ls := heq ▸ hline
    rcases List.mem_cons.mp hline with rfl | hline
    · simpa [mimeLineLength] using hl
    · exact hls line hline
  · rintro rfl
    exact encodeLoop_oneLine s 0 h
  · rw [decodeString_eq_ok, ht.significant]
    exact hquads

theorem encodeString_decodeString_foo :
    ∃ encoded, encodeString [102, 111, 111] false = .ok encoded ∧
      decodeString encoded = .ok [102, 111, 111] := by
  obtain ⟨encoded, hok, hdecode, -⟩ :=
    encodeString_decodeString (s := [102, 111, 111]) (by decide) false
  exact ⟨encoded, hok, hdecode⟩

/-- Without line breaks a line can be longer than 72 characters. -/
theorem encodeString_longLine :
    ∃ encoded, encodeString (List.replicate 55 0) true = .ok encoded ∧
      ∃ line ∈ encoded.splitOn newline, ¬ line.length ≤ 72 := by
  refine ⟨(encode1 (List.replicate 55 0) false).written, rfl,
    (encode1 (List.replicate 55 0) false).written, ?_, ?_⟩ <;> decide

end XEmacs.Coding.Base64
