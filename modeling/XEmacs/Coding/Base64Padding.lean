import XEmacs.Coding.Base64RoundTrip
import XEmacs.Text.Buffer

/-! The decoder of fns.c accepts base64 that is padded exactly. Other text gives the octets that are
complete and an error, and leaves a region of a buffer as it was. -/

namespace XEmacs.Coding.Base64

open Lib.Bits

/-! ### `base64-decode-region` -/

/-- What `base64-decode-region` can signal. -/
inductive RegionError
  | argsOutOfRange
  | bufferReadOnly
  | conversion (e : ConversionError)
  /-- There is no room for what is inserted. -/
  | bufferOverflow
  deriving DecidableEq

section Region

open Text

/-- `itext_ichar` and `set_itext_ichar`, for characters of internal text. -/
structure Itext where
  rep : UInt8 → ℕ
  ichar : List UInt8 → ℕ
  setIchar : ℕ → List UInt8

variable (itext : Itext)

def Itext.ichars : ℕ → List UInt8 → List ℕ
  | 0, _ => []
  | n + 1, bytes =>
    let len := itext.rep (bytes.headD 0)
    itext.ichar (bytes.take len) :: Itext.ichars n (bytes.drop len)

def bufferInputStream (b : Buffer) (begv zv : ℤ) : List ℕ :=
  itext.ichars (zv - begv).toNat (b.text.drop (b.charbposToBytebpos itext.rep begv - 1).toNat)

/-- `get_buffer_pos_char`, with `GB_NO_ERROR_IF_BAD`. -/
def getBufferPosChar (b : Buffer) (pos : ℤ) : ℤ :=
  if pos < b.bufbegv ∨ pos > b.bufzv then -1 else pos

/-- `get_buffer_range_char` without flags. -/
def getBufferRangeChar (b : Buffer) (start stop : ℤ) : Option (ℤ × ℤ) :=
  let fromOut := getBufferPosChar b start
  let toOut := getBufferPosChar b stop
  if fromOut < 0 ∨ toOut < 0 then none
  else if fromOut > toOut then some (toOut, fromOut)
  else some (fromOut, toOut)

def bufSetPt (b : Buffer) (pos : ℤ) : Buffer :=
  b.setBufferPoint pos (b.charbposToBytebpos itext.rep pos)

/-- `base64-decode-region`: the buffer afterwards and what is returned or signalled. -/
def decodeRegion (readOnly : ℤ → ℤ → Bool) (b : Buffer) (start stop : ℤ) :
    Buffer × Except RegionError ℕ :=
  match getBufferRangeChar b start stop with
  | none => (b, .error .argsOutOfRange)
  | some (begv, zv) =>
    if readOnly begv zv then (b, .error .bufferReadOnly)
    else
      let oldPt := b.bufpt
      match decode1 (bufferInputStream itext b begv zv) with
      | ⟨_, some e⟩ => (b, .error (.conversion e))
      | ⟨decoded, none⟩ =>
        let b := bufSetPt itext b begv
        match b.bufferInsertString1 itext.rep begv (decoded.flatMap itext.setIchar) false with
        | none => (b, .error .bufferOverflow)
        | some b =>
          let b := b.bufferDeleteRange itext.rep (begv + decoded.length) (zv + decoded.length)
          (if oldPt ≥ begv ∧ oldPt < zv then bufSetPt itext b begv else b, .ok decoded.length)

end Region

/-! ### Groups -/

/-- Four characters, of which the last one or the last two can be padding. -/
def IsGroup (g : List ℕ) : Prop :=
  ∃ body k, k ≤ 2 ∧ body.length + k = 4 ∧ (∀ c ∈ body, IsBase64 c) ∧ g = body ++ List.replicate k pad

def Padded (cs : List ℕ) : Prop := ∃ groups : List (List ℕ), cs = groups.flatten ∧ ∀ g ∈ groups, IsGroup g

/-- The octets that are complete in the sextets of at most four characters. -/
def octets (cs : List ℕ) : List ℕ :=
  match cs.map charToValue with
  | [v₁, v₂] => [v₁ * 4 + v₂ / 16]
  | [v₁, v₂, v₃] => [v₁ * 4 + v₂ / 16, v₂ % 16 * 16 + v₃ / 4]
  | [v₁, v₂, v₃, v₄] => [v₁ * 4 + v₂ / 16, v₂ % 16 * 16 + v₃ / 4, v₃ % 4 * 64 + v₄]
  | _ => []

/-- The octets that are complete in a group before its padding, or before where it breaks. -/
def groupOctets (g : List ℕ) : List ℕ := octets (g.takeWhile (· ≠ pad))

variable {c c₁ c₂ c₃ c₄ : ℕ} {g cs rest t : List ℕ} {groups : List (List ℕ)}

theorem not_isBase64_pad : ¬ IsBase64 pad := by decide

theorem IsBase64.ne_pad (h : IsBase64 c) : c ≠ pad := by
  rintro rfl
  exact not_isBase64_pad h

theorem charToValue_lt (c : ℕ) : charToValue c < 64 := by
  have htable : ∀ v ∈ base64CharToValue, v.toNat < 64 := by decide +kernel
  rw [charToValue, List.getD_eq_getElem?_getD]
  cases hc : base64CharToValue[c]? with
  | none => decide
  | some v => exact htable v (List.mem_of_getElem? hc)

theorem byte₁_eq (c₁ c₂ : ℕ) : byte₁ c₁ c₂ = charToValue c₁ * 4 + charToValue c₂ / 16 := by
  have h₁ := charToValue_lt c₁
  have h₂ := charToValue_lt c₂
  rw [byte₁, collect₂ h₂, Nat.shiftRight_eq_div_pow]
  omega

theorem byte₂_eq (c₁ c₂ c₃ : ℕ) :
    byte₂ c₁ c₂ c₃ = charToValue c₂ % 16 * 16 + charToValue c₃ / 4 := by
  have h₂ := charToValue_lt c₂
  have h₃ := charToValue_lt c₃
  rw [byte₂, collect₃ h₂ h₃, show 0xff = 2 ^ 8 - 1 from rfl, mask_and, Nat.shiftRight_eq_div_pow]
  omega

theorem byte₃_eq (c₁ c₂ c₃ c₄ : ℕ) :
    byte₃ c₁ c₂ c₃ c₄ = charToValue c₃ % 4 * 64 + charToValue c₄ := by
  have h₂ := charToValue_lt c₂
  have h₃ := charToValue_lt c₃
  have h₄ := charToValue_lt c₄
  rw [byte₃, collect₄ h₂ h₃ h₄, show 0xff = 2 ^ 8 - 1 from rfl, mask_and]
  omega

theorem octets_two (c₁ c₂ : ℕ) : octets [c₁, c₂] = [byte₁ c₁ c₂] := by rw [byte₁_eq]; rfl

theorem octets_three (c₁ c₂ c₃ : ℕ) : octets [c₁, c₂, c₃] = [byte₁ c₁ c₂, byte₂ c₁ c₂ c₃] := by
  rw [byte₁_eq, byte₂_eq]; rfl

theorem octets_four (c₁ c₂ c₃ c₄ : ℕ) :
    octets [c₁, c₂, c₃, c₄] = [byte₁ c₁ c₂, byte₂ c₁ c₂ c₃, byte₃ c₁ c₂ c₃ c₄] := by
  rw [byte₁_eq, byte₂_eq, byte₃_eq]; rfl

theorem isGroup_iff : IsGroup g ↔ ∃ c₁ c₂ c₃ c₄, g = [c₁, c₂, c₃, c₄] ∧ IsBase64 c₁ ∧ IsBase64 c₂ ∧
    (IsBase64 c₃ ∧ (IsBase64 c₄ ∨ c₄ = pad) ∨ c₃ = pad ∧ c₄ = pad) := by
  constructor
  · rintro ⟨body, k, hk, hlen, hbody, rfl⟩
    match k, body, hk, hlen with
    | 0, [c₁, c₂, c₃, c₄], _, _ =>
      simp only [List.mem_cons, List.not_mem_nil, or_false, forall_eq_or_imp, forall_eq] at hbody
      exact ⟨c₁, c₂, c₃, c₄, rfl, hbody.1, hbody.2.1, Or.inl ⟨hbody.2.2.1, Or.inl hbody.2.2.2⟩⟩
    | 1, [c₁, c₂, c₃], _, _ =>
      simp only [List.mem_cons, List.not_mem_nil, or_false, forall_eq_or_imp, forall_eq] at hbody
      exact ⟨c₁, c₂, c₃, pad, rfl, hbody.1, hbody.2.1, Or.inl ⟨hbody.2.2, Or.inr rfl⟩⟩
    | 2, [c₁, c₂], _, _ =>
      simp only [List.mem_cons, List.not_mem_nil, or_false, forall_eq_or_imp, forall_eq] at hbody
      exact ⟨c₁, c₂, pad, pad, rfl, hbody.1, hbody.2, Or.inr ⟨rfl, rfl⟩⟩
  · rintro ⟨c₁, c₂, c₃, c₄, rfl, h₁, h₂, ⟨h₃, h₄ | rfl⟩ | ⟨rfl, rfl⟩⟩
    · exact ⟨[c₁, c₂, c₃, c₄], 0, by decide, rfl, by simp [h₁, h₂, h₃, h₄], rfl⟩
    · exact ⟨[c₁, c₂, c₃], 1, by decide, rfl, by simp [h₁, h₂, h₃], rfl⟩
    · exact ⟨[c₁, c₂], 2, by decide, rfl, by simp [h₁, h₂], rfl⟩

theorem quads_group (hg : IsGroup g) (cs : List ℕ) :
    quads (g ++ cs) = (groupOctets g ++ (quads cs).1, (quads cs).2) := by
  obtain ⟨c₁, c₂, c₃, c₄, rfl, h₁, h₂, hend⟩ := isGroup_iff.mp hg
  have hp₁ := h₁.ne_pad
  have hp₂ := h₂.ne_pad
  simp only [List.cons_append, List.nil_append, quads, hp₁, hp₂, or_self, ↓reduceIte]
  rcases hend with ⟨h₃, h₄ | rfl⟩ | ⟨rfl, rfl⟩
  · simp [groupOctets, hp₁, hp₂, h₃.ne_pad, h₄.ne_pad, octets_four]
  · simp [groupOctets, hp₁, hp₂, h₃.ne_pad, octets_three]
  · simp [groupOctets, hp₁, hp₂, octets_two]

theorem quads_broken (hcs : ∀ c ∈ cs, IsBase64 c ∨ c = pad) (hbroken : ∀ g, IsGroup g → ¬ g <+: cs) :
    (quads cs).1 = groupOctets cs ∧ ((quads cs).2 = true ↔ cs = []) := by
  match cs with
  | [] => exact ⟨rfl, by simp [quads]⟩
  | [c₁] =>
    by_cases hp₁ : c₁ = pad <;> simp [quads, groupOctets, octets, hp₁]
  | [c₁, c₂] =>
    by_cases hp₁ : c₁ = pad
    · simp [quads, groupOctets, octets, hp₁]
    by_cases hp₂ : c₂ = pad
    · simp [quads, groupOctets, octets, hp₁, hp₂]
    simp [quads, groupOctets, octets_two, hp₁, hp₂]
  | [c₁, c₂, c₃] =>
    by_cases hp₁ : c₁ = pad
    · simp [quads, groupOctets, octets, hp₁]
    by_cases hp₂ : c₂ = pad
    · simp [quads, groupOctets, octets, hp₁, hp₂]
    by_cases hp₃ : c₃ = pad
    · simp [quads, groupOctets, octets_two, hp₁, hp₂, hp₃]
    simp [quads, groupOctets, octets_three, hp₁, hp₂, hp₃]
  | c₁ :: c₂ :: c₃ :: c₄ :: rest =>
    have hstart : ¬ IsGroup [c₁, c₂, c₃, c₄] := fun hg => hbroken _ hg ⟨rest, rfl⟩
    by_cases hp₁ : c₁ = pad
    · simp [quads, groupOctets, octets, hp₁]
    by_cases hp₂ : c₂ = pad
    · simp [quads, groupOctets, octets, hp₁, hp₂]
    have h₁ : IsBase64 c₁ := (hcs c₁ (by simp)).resolve_right hp₁
    have h₂ : IsBase64 c₂ := (hcs c₂ (by simp)).resolve_right hp₂
    -- only a lone padding character in the third place is no start of a group
    have hp₃ : c₃ = pad := by
      by_contra hp₃
      exact hstart (isGroup_iff.mpr ⟨c₁, c₂, c₃, c₄, rfl, h₁, h₂,
        Or.inl ⟨(hcs c₃ (by simp)).resolve_right hp₃, hcs c₄ (by simp)⟩⟩)
    have hp₄ : c₄ ≠ pad := fun hp₄ =>
      hstart (isGroup_iff.mpr ⟨c₁, c₂, c₃, c₄, rfl, h₁, h₂, Or.inr ⟨hp₃, hp₄⟩⟩)
    simp [quads, groupOctets, octets_two, hp₁, hp₂, hp₃, hp₄]

theorem exists_groups (cs : List ℕ) : ∃ groups rest, cs = List.flatten groups ++ rest ∧
    (∀ g ∈ groups, IsGroup g) ∧ ∀ g, IsGroup g → ¬ g <+: rest := by
  induction hn : cs.length using Nat.strong_induction_on generalizing cs with
  | _ n ih =>
    by_cases hbroken : ∀ g, IsGroup g → ¬ g <+: cs
    · exact ⟨[], cs, rfl, by simp, hbroken⟩
    · simp only [not_forall, not_not] at hbroken
      obtain ⟨g, hg, rest, rfl⟩ := hbroken
      have hlen : rest.length < n := by
        obtain ⟨c₁, c₂, c₃, c₄, rfl, -⟩ := isGroup_iff.mp hg
        simp only [← hn, List.length_append, List.length_cons]
        omega
      obtain ⟨groups, last, rfl, hgroups, hlast⟩ := ih _ hlen rest rfl
      refine ⟨g :: groups, last, by rw [List.flatten_cons, List.append_assoc], ?_, hlast⟩
      exact List.forall_mem_cons.mpr ⟨hg, hgroups⟩

theorem quads_groups (hgroups : ∀ g ∈ groups, IsGroup g) (cs : List ℕ) :
    quads (groups.flatten ++ cs) = (groups.flatMap groupOctets ++ (quads cs).1, (quads cs).2) := by
  induction groups with
  | nil => rfl
  | cons g groups ih =>
    obtain ⟨hg, hgroups⟩ := List.forall_mem_cons.mp hgroups
    rw [List.flatten_cons, List.append_assoc, quads_group hg, ih hgroups, List.flatMap_cons,
      List.append_assoc]

theorem mem_significant (hc : c ∈ significant t) : IsBase64 c ∨ c = pad := by
  simpa using (List.mem_filter.mp hc).2

theorem padded_iff_quads : Padded (significant t) ↔ (quads (significant t)).2 = true := by
  constructor
  · rintro ⟨groups, heq, hgroups⟩
    have hquads := quads_groups hgroups []
    rw [List.append_nil, ← heq] at hquads
    rw [hquads]
    rfl
  · intro htrue
    obtain ⟨groups, rest, heq, hgroups, hbroken⟩ := exists_groups (significant t)
    have hrest : ∀ c ∈ rest, IsBase64 c ∨ c = pad := fun c hc =>
      mem_significant (heq ▸ List.mem_append_right _ hc)
    rw [heq, quads_groups hgroups] at htrue
    obtain rfl := (quads_broken hrest hbroken).2.mp htrue
    exact ⟨groups, by rw [heq, List.append_nil], hgroups⟩

theorem decode1_error_eq_none : (decode1 t).error = none ↔ Padded (significant t) := by
  rw [padded_iff_quads, ← decodeLoop_quads t 0, Option.isNone_iff_eq_none, decode1]

theorem decode1_written (t : List ℕ) : ∃ groups rest, significant t = List.flatten groups ++ rest ∧
    (∀ g ∈ groups, IsGroup g) ∧ (∀ g, IsGroup g → ¬ g <+: rest) ∧
    (decode1 t).written = groups.flatMap groupOctets ++ groupOctets rest := by
  obtain ⟨groups, rest, heq, hgroups, hbroken⟩ := exists_groups (significant t)
  have hrest : ∀ c ∈ rest, IsBase64 c ∨ c = pad := fun c hc =>
    mem_significant (heq ▸ List.mem_append_right _ hc)
  refine ⟨groups, rest, heq, hgroups, hbroken, ?_⟩
  have hquads := congrArg Prod.fst (decodeLoop_quads t 0)
  rw [heq, quads_groups hgroups, (quads_broken hrest hbroken).1] at hquads
  exact hquads

section Region

open Text

variable {itext : Itext} {readOnly : ℤ → ℤ → Bool} {b : Buffer} {start stop begv zv : ℤ}

theorem decodeRegion_of_error {e : ConversionError} (hrange : getBufferRangeChar b start stop = some (begv, zv))
    (hreadOnly : readOnly begv zv = false) (he : (decode1 (bufferInputStream itext b begv zv)).error = some e) :
    decodeRegion itext readOnly b start stop = (b, .error (.conversion e)) := by
  rcases hdecode : decode1 (bufferInputStream itext b begv zv) with ⟨decoded, error⟩
  rw [hdecode] at he
  subst he
  simp only [decodeRegion, hrange, hreadOnly, hdecode, Bool.false_eq_true, ↓reduceIte]

theorem decodeRegion_of_ok (hrange : getBufferRangeChar b start stop = some (begv, zv))
    (hreadOnly : readOnly begv zv = false) (hok : (decode1 (bufferInputStream itext b begv zv)).error = none)
    (e : ConversionError) : (decodeRegion itext readOnly b start stop).2 ≠ .error (.conversion e) := by
  rcases hdecode : decode1 (bufferInputStream itext b begv zv) with ⟨decoded, error⟩
  rw [hdecode] at hok
  subst hok
  simp only [decodeRegion, hrange, hreadOnly, hdecode, Bool.false_eq_true, ↓reduceIte]
  cases (bufSetPt itext b begv).bufferInsertString1 itext.rep begv (decoded.flatMap itext.setIchar) false with
  | none => exact fun h => by cases h
  | some b => exact fun h => by cases h

theorem decodeRegion_conversion_iff (hrange : getBufferRangeChar b start stop = some (begv, zv))
    (hreadOnly : readOnly begv zv = false) :
    ((∃ e, (decodeRegion itext readOnly b start stop).2 = .error (.conversion e)) ↔
      ¬ Padded (significant (bufferInputStream itext b begv zv))) ∧
    (¬ Padded (significant (bufferInputStream itext b begv zv)) →
      (decodeRegion itext readOnly b start stop).1 = b) := by
  rw [← decode1_error_eq_none]
  cases he : (decode1 (bufferInputStream itext b begv zv)).error with
  | none =>
    refine ⟨iff_of_false ?_ (not_not_intro rfl), fun h => absurd rfl h⟩
    rintro ⟨e, hconversion⟩
    exact decodeRegion_of_ok hrange hreadOnly he e hconversion
  | some e =>
    rw [decodeRegion_of_error hrange hreadOnly he]
    exact ⟨iff_of_true ⟨e, rfl⟩ (Option.some_ne_none e), fun _ => rfl⟩

/-- Base64 text is decoded exactly if it is padded groups, foreign characters apart. Otherwise an
error is signalled after the complete octets, and a region is left as it was. -/
theorem decode1_exact :
    (∀ t, (decode1 t).error = none ↔ Padded (significant t)) ∧
    (∀ t, ∃ groups rest, significant t = List.flatten groups ++ rest ∧
      (∀ g ∈ groups, IsGroup g) ∧ (∀ g, IsGroup g → ¬ g <+: rest) ∧
      (decode1 t).written = groups.flatMap groupOctets ++ groupOctets rest) ∧
    ∀ (itext : Itext) (readOnly : ℤ → ℤ → Bool) (b : Buffer) (start stop begv zv : ℤ),
      getBufferRangeChar b start stop = some (begv, zv) → readOnly begv zv = false →
      ((∃ e, (decodeRegion itext readOnly b start stop).2 = .error (.conversion e)) ↔
        ¬ Padded (significant (bufferInputStream itext b begv zv))) ∧
      (¬ Padded (significant (bufferInputStream itext b begv zv)) →
        (decodeRegion itext readOnly b start stop).1 = b) := by
  refine ⟨fun t => decode1_error_eq_none, decode1_written, ?_⟩
  intro itext readOnly b start stop begv zv hrange hreadOnly
  exact decodeRegion_conversion_iff hrange hreadOnly

/-- A buffer whose text is one `A`. -/
def bufferA : Buffer :=
  { Buffer.init fun _ => 65 with
    beg := fun _ => 65, gpt := 2, bufgpt := 2, z := 2, bufz := 2, gapSize := 19, zv := 2, bufzv := 2 }

def byteItext : Itext := ⟨fun _ => 1, fun bytes => (bytes.headD 0).toNat, fun c => [UInt8.ofNat c]⟩

theorem decode1_exact_bufferA :
    (decode1 [65]).error ≠ none ∧ (decodeRegion byteItext (fun _ _ => false) bufferA 1 2).1 = bufferA := by
  obtain ⟨herror, -, hregion⟩ := decode1_exact
  have hpadded : ¬ Padded (significant [65]) := by
    rw [← herror]
    decide +kernel
  have htext : bufferInputStream byteItext bufferA 1 2 = [65] := by decide +kernel
  refine ⟨fun h => hpadded ((herror _).mp h), ?_⟩
  refine (hregion byteItext (fun _ _ => false) bufferA 1 2 1 2 (by decide) rfl).2 ?_
  rw [htext]
  exact hpadded

end Region

end XEmacs.Coding.Base64
