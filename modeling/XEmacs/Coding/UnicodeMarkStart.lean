import XEmacs.Coding.UnicodeMark

/-! When the byte-order mark that is missing is at the start: always, but in UTF-8 where ASCII and
then at once a mark come first. The decoder of UTF-8 never fails an assertion, and a mark comes
out of its three bytes only. -/

namespace XEmacs.Coding.Unicode.UnicodeCodingSystem

open Lib

variable {cs : UnicodeCodingSystem} {data data' : UnicodeCodingStream} {c : Byte} {src : List Byte} {out : List ℕ}
  {r : UnicodeCodingStream × List ℕ}

/-! ### The decoder of UTF-8 is defined -/

/-- A sequence that has begun has two to six bytes, of which some have come. -/
def Sound (data : UnicodeCodingStream) : Prop :=
  data.counter ≠ 0 → 2 ≤ data.indicatedLength ∧ data.indicatedLength ≤ 6 ∧ data.counter < data.indicatedLength

theorem storedOctets_lt {k mask ch : ℕ} (hmask : mask < 256) : ∀ octet ∈ storedOctets k mask ch, octet < 256 := by
  induction k generalizing mask with
  | zero => exact fun octet h => absurd h (List.not_mem_nil)
  | succ k ih =>
    intro octet h
    rcases List.mem_cons.mp h with rfl | h
    · have hlow : ch >>> (6 * k) &&& 0x3f < 2 ^ 8 := by
        rw [and_3f]
        omega
      exact Nat.or_lt_two_pow hlow hmask
    · exact ih (by decide) octet h

theorem firstbyteMask_lt (n : ℕ) : firstbyteMask n < 256 := by
  rw [firstbyteMask]
  rcases Nat.lt_or_ge n 7 with h | h
  · interval_cases n <;> decide
  · rw [List.getD_eq_default _ _ h]
    decide

theorem exists_decodeErrorOctets {octets : List ℕ} (h : ∀ octet ∈ octets, octet < 256) (data : UnicodeCodingStream) :
    ∃ r, cs.decodeErrorOctets data octets = some r := by
  have hbytes : (octets.map byte).map (·.val) = octets := by
    rw [List.map_map]
    exact (List.map_congr_left fun octet hoctet => Nat.mod_eq_of_lt (h octet hoctet)).trans (List.map_id _)
  rw [← hbytes, decodeErrorOctets_eq]
  exact ⟨_, rfl⟩

theorem exists_indicateInvalidUtf8 (indicatedLength counter ch : ℕ) (data : UnicodeCodingStream) :
    ∃ r, cs.indicateInvalidUtf8 indicatedLength counter ch data = some r :=
  exists_decodeErrorOctets (storedOctets_lt (firstbyteMask_lt _)) data

theorem exists_decodeErrorOctet (c : Byte) (data : UnicodeCodingStream) : ∃ r, cs.decodeErrorOctet data c = some r :=
  ⟨_, decodeErrorOctet_eq data c⟩

theorem exists_decodeUnicodeToDynarr0 {u : ℤ} (h0 : 0 ≤ u) (hascii : u < 0x80) (data : UnicodeCodingStream) :
    ∃ r, cs.decodeUnicodeToDynarr0 u data = some r := by
  have hvalid : validUnicodeCodepointP u true := by
    rw [validUnicodeCodepointP_iff]
    simp only [if_true]
    omega
  rw [decodeUnicodeToDynarr0, if_pos hvalid]
  exact ⟨_, rfl⟩

theorem validUnicodeCodepointP_private {u : ℤ} {allowPrivate : Bool} (h : validUnicodeCodepointP u allowPrivate) :
    validUnicodeCodepointP u true := by
  rw [validUnicodeCodepointP_iff] at h ⊢
  have hmax : (if allowPrivate = true then (0x7fffffff : ℤ) else 0x10ffff) ≤ 0x7fffffff := by
    cases allowPrivate <;> decide
  exact ⟨h.1, h.2.1.trans hmax, h.2.2⟩

theorem exists_decodeFirstByte (data : UnicodeCodingStream) (c : Byte) : ∃ r, cs.decodeFirstByte data c = some r ∧
    (r.1.counter = data.counter ∨ r.1.counter ≠ 0 ∧ r.1.counter ≤ 5 ∧ r.1.indicatedLength = r.1.counter + 1) := by
  have herror : ∃ r, (cs.decodeErrorOctet data c).map (count 1) = some r ∧
      (r.1.counter = data.counter ∨ r.1.counter ≠ 0 ∧ r.1.counter ≤ 5 ∧ r.1.indicatedLength = r.1.counter + 1) := by
    rw [decodeErrorOctet_eq]
    exact ⟨_, rfl, .inl rfl⟩
  have hstart (ch counter : ℕ) (hcounter : counter ≠ 0 ∧ counter ≤ 5) : ∃ r, startSequence ch counter data = some r ∧
      (r.1.counter = data.counter ∨ r.1.counter ≠ 0 ∧ r.1.counter ≤ 5 ∧ r.1.indicatedLength = r.1.counter + 1) :=
    ⟨_, rfl, .inr ⟨hcounter.1, hcounter.2, rfl⟩⟩
  rw [decodeFirstByte]
  split_ifs with h7
  · have hlt := (bit7 c).mp h7
    obtain ⟨r, hr⟩ := @exists_decodeUnicodeToDynarr0 cs c.val (by omega) (by omega) data
    obtain ⟨hvalid, hr'⟩ := Option.ite_none_right_eq_some.mp (decodeUnicodeToDynarr0.eq_1 cs _ _ ▸ hr)
    rw [hr, Option.map_some]
    refine ⟨_, rfl, .inl ?_⟩
    rw [← Option.some.inj hr']
    rfl
  · exact herror
  · exact hstart _ 1 (by decide)
  · exact hstart _ 2 (by decide)
  · exact hstart _ 3 (by decide)
  · exact hstart _ 4 (by decide)
  · exact hstart _ 5 (by decide)
  · exact herror

theorem Sound.decodeUtf8 (hbom : cs.needBom = false) (h : Sound data) (c : Byte) :
    ∃ r, cs.decodeUtf8 data c = some r ∧ Sound r.1 := by
  have hsome : ∃ r, cs.decodeUtf8 data c = some r ∧ (r.1.counter ≠ 0 → r.1.indicatedLength ≤ 6) := by
    rw [UnicodeCodingSystem.decodeUtf8]
    by_cases hfirst : data.counter = 0
    · obtain ⟨r, hr, hcounter⟩ := @exists_decodeFirstByte cs data c
      rw [if_pos hfirst, hr]
      refine ⟨r, rfl, fun hne => ?_⟩
      omega
    rw [if_neg hfirst]
    by_cases hint : c.val &&& 0x80 = 0 ∨ c.val &&& 0x40 ≠ 0
    · rw [if_pos hint, decodeInterruption]
      obtain ⟨r₁, hr₁⟩ := @exists_indicateInvalidUtf8 cs data.indicatedLength data.counter data.ch data
      rw [hr₁, Option.bind_some]
      obtain ⟨r₂, hr₂⟩ : ∃ r, (if c.val &&& 0x80 ≠ 0 then cs.decodeErrorOctet r₁.1 c
          else cs.decodeUnicodeToDynarr0 c r₁.1) = some r := by
        split_ifs with h7
        · exact exists_decodeErrorOctet c r₁.1
        · have hlt := (bit7 c).mp (not_not.mp h7)
          exact exists_decodeUnicodeToDynarr0 (by omega) (by omega) r₁.1
      rw [hr₂]
      exact ⟨_, rfl, fun hne => absurd rfl hne⟩
    rw [if_neg hint]
    simp only
    obtain ⟨h2, h6, hlt⟩ := h hfirst
    split_ifs with hlast
    · obtain ⟨least, hleast⟩ : ∃ least, leastCode data.indicatedLength = some least := by
        generalize data.indicatedLength = n at h2 h6
        interval_cases n <;> exact ⟨_, rfl⟩
      rw [decodeSequence, hleast, Option.bind_some]
      simp only
      split_ifs with hinvalid
      · obtain ⟨r, hr⟩ := @exists_indicateInvalidUtf8 cs data.indicatedLength (data.counter - 1)
          (data.ch <<< 6 ||| c.val &&& 0x3f)
          { data with ch := data.ch <<< 6 ||| c.val &&& 0x3f, counter := data.counter - 1 }
        rw [hr, Option.map_some, Option.map_some]
        refine ⟨_, rfl, fun hne => absurd ?_ hne⟩
        rw [decodeErrorOctets_spec hr]
        exact hlast
      · rw [not_or, not_not] at hinvalid
        rw [decodeUnicodeToDynarr0, if_pos (validUnicodeCodepointP_private hinvalid.2)]
        exact ⟨_, rfl, fun hne => absurd hlast hne⟩
    · exact ⟨_, rfl, fun _ => h6⟩
  obtain ⟨r, hr, hsix⟩ := hsome
  refine ⟨r, hr, fun hne => ⟨?_, hsix hne, ?_⟩⟩
  · have hcases := (decodeUtf8_spec hbom hr).2
    rcases hcases with ⟨-, hzero⟩ | ⟨-, -, hnew | ⟨hsame, hcounter⟩⟩
    · exact absurd hzero hne
    · omega
    · have := h (by omega)
      omega
  · have hcases := (decodeUtf8_spec hbom hr).2
    rcases hcases with ⟨-, hzero⟩ | ⟨-, -, hnew | ⟨hsame, hcounter⟩⟩
    · exact absurd hzero hne
    · omega
    · have := h (by omega)
      omega

theorem Sound.decodeStep (hbom : cs.needBom = false) (htype : cs.type = .utf8) (h : Sound data) (c : Byte) :
    ∃ r, cs.decodeStep data c = some r ∧ Sound r.1 := by
  by_cases hshort : cs.shortcut data c
  · rw [decodeStep_shortcut hshort]
    exact ⟨_, rfl, h⟩
  · rw [decodeStep_utf8 htype hshort]
    exact h.decodeUtf8 hbom c

theorem decodeFrom_cons (data : UnicodeCodingStream) (c : Byte) (src : List Byte) : cs.decodeFrom data (c :: src) =
    (cs.decodeStep data c).bind fun r => (cs.decodeFrom r.1 src).map (r.2 ++ ·) := by
  rw [← transduce_singleton cs.decodeStep]
  exact decodeFrom_append data [c] src

theorem Sound.decodeFrom (hbom : cs.needBom = false) (htype : cs.type = .utf8) (h : Sound data) (src : List Byte) :
    ∃ text, cs.decodeFrom data src = some text := by
  induction src generalizing data with
  | nil =>
    rw [UnicodeCodingSystem.decodeFrom, transduce, Option.bind_some, decodeLeft, htype]
    obtain ⟨r, hr⟩ := @exists_indicateInvalidUtf8 cs data.indicatedLength data.counter data.ch data
    split_ifs
    · exact ⟨_, rfl⟩
    · simp only [hr]
      exact ⟨_, rfl⟩
  | cons c src ih =>
    obtain ⟨r, hr, hsound⟩ := h.decodeStep hbom htype c
    obtain ⟨text, htext⟩ := ih hsound
    rw [decodeFrom_cons, hr, Option.bind_some, htext]
    exact ⟨_, rfl⟩

/-! ### The bytes of a mark -/

def continuedBits (ch : ℕ) (l : List Byte) : ℕ := l.foldl (fun ch d => ch <<< 6 ||| d.val &&& 0x3f) ch

theorem head?_append_ne {text : List ℕ} (hne : out ≠ []) (h : (out ++ text).head? = some 0xfeff) : out.head? = some 0xfeff := by
  rwa [List.head?_append_of_ne_nil _ hne] at h

theorem mark_of_decodeSequence (hbom : cs.needBom = false) (h : cs.decodeSequence data = some r)
    (hmark : r.2.head? = some 0xfeff) :
    data.ch = 0xfeff ∧ ∃ least, leastCode data.indicatedLength = some least ∧ least ≤ 0xfeff := by
  obtain ⟨least, hleast, h⟩ := Option.bind_eq_some_iff.mp h
  obtain ⟨r, hr, rfl⟩ := Option.map_eq_some_iff.mp h
  split_ifs at hr with hinvalid
  · obtain ⟨r₁, hr₁, rfl⟩ := Option.map_eq_some_iff.mp hr
    exact absurd hmark (errorOctets_head? hr₁ : r₁.2.head? ≠ some 0xfeff)
  · obtain ⟨r₁, hr₁, rfl⟩ := Option.map_eq_some_iff.mp hr
    rw [decodeUnicodeToDynarr0_spec hbom hr₁] at hmark
    have hch : data.ch = 0xfeff := by
      have hout : [data.ch].head? = some 0xfeff := hmark
      rwa [List.head?_cons, Option.some.injEq] at hout
    exact ⟨hch, least, hleast, by omega⟩

theorem mark_of_sequence (hbom : cs.needBom = false) (htype : cs.type = .utf8) (hcounter : data.counter ≠ 0) {text : List ℕ}
    (h : cs.decodeFrom data src = some text) (hmark : text.head? = some 0xfeff) : ∃ l rest, src = l ++ rest ∧
      l.length = data.counter ∧ (∀ d ∈ l, 0x80 ≤ d.val ∧ d.val < 0xc0) ∧ continuedBits data.ch l = 0xfeff ∧
      ∃ least, leastCode data.indicatedLength = some least ∧ least ≤ 0xfeff := by
  induction src generalizing data text with
  | nil =>
    rw [UnicodeCodingSystem.decodeFrom, transduce, Option.bind_some] at h
    obtain ⟨r, hr, rfl⟩ := Option.map_eq_some_iff.mp h
    exact absurd hmark (decodeLeft_spec hr).2
  | cons c src ih =>
    rw [decodeFrom_cons, decodeStep_utf8 htype fun hshort => hcounter hshort.2.1] at h
    obtain ⟨r, hr, h⟩ := Option.bind_eq_some_iff.mp h
    obtain ⟨text, htext, rfl⟩ := Option.map_eq_some_iff.mp h
    rw [UnicodeCodingSystem.decodeUtf8, if_neg hcounter] at hr
    by_cases hint : c.val &&& 0x80 = 0 ∨ c.val &&& 0x40 ≠ 0
    · rw [if_pos hint] at hr
      exact absurd (head?_append_ne (decodeInterruption_spec hbom hr).2.1 hmark) (decodeInterruption_head? hbom hr)
    rw [if_neg hint] at hr
    rw [not_or, not_not, bit7, not_lt] at hint
    have h6 := (bit6 c hint.1).mp hint.2
    simp only at hr
    split_ifs at hr with hlast
    · have hout := (decodeSequence_spec hbom hlast hr).2.1
      obtain ⟨hbits, hleast⟩ := mark_of_decodeSequence hbom hr (head?_append_ne hout hmark)
      refine ⟨[c], src, rfl, ?_, ?_, hbits, hleast⟩
      · rw [List.length_singleton]
        omega
      · intro d hd
        rw [List.mem_singleton.mp hd]
        exact ⟨hint.1, h6⟩
    · obtain rfl := Option.some.inj hr
      obtain ⟨l, rest, rfl, hlength, hbytes, hbits, hleast⟩ := ih hlast htext hmark
      refine ⟨c :: l, rest, rfl, ?_, ?_, hbits, hleast⟩
      · rw [List.length_cons, hlength]
        exact Nat.succ_pred_eq_of_ne_zero hcounter
      · intro d hd
        rcases List.mem_cons.mp hd with rfl | hd
        · exact ⟨hint.1, h6⟩
        · exact hbytes d hd

theorem continuedBits_cons (ch : ℕ) (d : Byte) (l : List Byte) :
    continuedBits ch (d :: l) = continuedBits (ch * 64 + d.val % 64) l := by
  have hbits : ch <<< 6 ||| d.val &&& 0x3f = ch * 64 + d.val % 64 := by
    rw [and_3f, ← Nat.shiftLeft_add_eq_or_of_lt (show d.val % 64 < 2 ^ 6 by omega), Nat.shiftLeft_eq]
  rw [continuedBits, List.foldl_cons, hbits]
  rfl

theorem mark_of_first (hbom : cs.needBom = false) (htype : cs.type = .utf8) (hcounter : data.counter = 0)
    (hascii : 0x80 ≤ c.val) {text : List ℕ} (h : cs.decodeFrom data (c :: src) = some text)
    (hmark : text.head? = some 0xfeff) : (c :: src).take 3 = [0xef, 0xbb, 0xbf] := by
  have hshort : ¬ cs.shortcut data c := fun hshort => by
    have hlt : c.val < 0x80 := by simpa [byteAsciiP, Fin.lt_def] using hshort.2.2
    omega
  rw [decodeFrom_cons, decodeStep_utf8 htype hshort, UnicodeCodingSystem.decodeUtf8, if_pos hcounter] at h
  obtain ⟨r, hr, h⟩ := Option.bind_eq_some_iff.mp h
  obtain ⟨text, htext, rfl⟩ := Option.map_eq_some_iff.mp h
  have herror (h : (cs.decodeErrorOctet data c).map (count 1) = some r) : False := by
    rw [decodeErrorOctet_eq] at h
    obtain rfl := Option.some.inj h
    have hout := head?_append_ne (List.cons_ne_nil _ _) hmark
    exact head?_cons_ne (errorOctet_ne_mark c) hout
  -- a sequence of the length that begins with `c`, and what follows in it
  have hsequence {ch counter : ℕ} (hne : counter ≠ 0) (h : startSequence ch counter data = some r) : ∃ l rest,
      src = l ++ rest ∧ l.length = counter ∧ (∀ d ∈ l, 0x80 ≤ d.val ∧ d.val < 0xc0) ∧ continuedBits ch l = 0xfeff ∧
      ∃ least, leastCode (counter + 1) = some least ∧ least ≤ 0xfeff := by
    obtain rfl := Option.some.inj h
    exact mark_of_sequence hbom htype hne htext hmark
  have hlong {ch counter : ℕ} (hne : counter ≠ 0) (h : startSequence ch counter data = some r)
      (hmax : ∀ least ∈ leastCode (counter + 1), 0xfeff < least) : False := by
    obtain ⟨-, -, -, -, -, -, least, hleast, hle⟩ := hsequence hne h
    exact absurd hle (not_le.mpr (hmax least hleast))
  rw [decodeFirstByte] at hr
  split_ifs at hr with h7 h6 h5 h4 h3 h2 h1
  · exact absurd ((bit7 c).mp h7) (not_lt.mpr hascii)
  · exact (herror hr).elim
  · obtain ⟨l, -, -, hlength, -, hbits, -⟩ := hsequence (by decide) hr
    obtain ⟨d, rfl⟩ := List.length_eq_one_iff.mp hlength
    have hch : c.val &&& 0x1f = c.val % 32 := Nat.and_two_pow_sub_one_eq_mod _ 5
    rw [continuedBits_cons, hch, continuedBits, List.foldl_nil] at hbits
    omega
  · obtain ⟨l, rest, rfl, hlength, hbytes, hbits, -⟩ := hsequence (by decide) hr
    obtain ⟨d, e, rfl⟩ := List.length_eq_two.mp hlength
    have hc6 := mt (bit6 c hascii).mpr h6
    have hc5 := mt (bit5 c (not_lt.mp hc6)).mpr h5
    have hc4 := (bit4 c (not_lt.mp hc5)).mp h4
    have hch : c.val &&& 0x0f = c.val % 16 := Nat.and_two_pow_sub_one_eq_mod _ 4
    have hd := hbytes d List.mem_cons_self
    have he := hbytes e (List.mem_cons_of_mem d List.mem_cons_self)
    rw [continuedBits_cons, continuedBits_cons, hch, continuedBits, List.foldl_nil] at hbits
    have hc' : c = 0xef := Fin.ext (by show c.val = 0xef; omega)
    have hd' : d = 0xbb := Fin.ext (by show d.val = 0xbb; omega)
    have he' : e = 0xbf := Fin.ext (by show e.val = 0xbf; omega)
    rw [hc', hd', he']
    rfl
  · exact (hlong (by decide) hr (by decide)).elim
  · exact (hlong (by decide) hr (by decide)).elim
  · exact (hlong (by decide) hr (by decide)).elim
  · exact (herror hr).elim

theorem decodeSequence_three (hbom : cs.needBom = false) {u : ℕ} (hleast : 0x800 ≤ u)
    (hvalid : validUnicodeCodepointP u cs.allowPrivate = true) (data : UnicodeCodingStream) (hch : data.ch = u)
    (hcounter : data.counter = 0) (hlength : data.indicatedLength = 3) :
    ∃ data', cs.decodeSequence data = some (data', [u]) ∧ data'.counter = 0 := by
  have hnone : ¬ (u = 0xfeff ∧ cs.needBom = true ∧ ¬ data.seenChar = true) := fun h => Bool.false_ne_true (hbom.symm.trans h.2.1)
  have hgood : ¬ (u < 0x800 ∨ ¬ validUnicodeCodepointP u cs.allowPrivate = true) := by
    rw [not_or, not_not, not_lt]
    exact ⟨hleast, hvalid⟩
  rw [decodeSequence, hlength, leastCode, Option.bind_some]
  simp only
  rw [hch, if_neg hgood, decodeUnicodeToDynarr0_eq (validUnicodeCodepointP_private hvalid), if_neg hnone]
  exact ⟨_, rfl, hcounter⟩

theorem transduce_mark (hbom : cs.needBom = false) (htype : cs.type = .utf8) (hcounter : data.counter = 0) :
    ∃ data', transduce cs.decodeStep data [0xef, 0xbb, 0xbf] = some (data', [0xfeff]) ∧ Sound data' := by
  have hstep (data : UnicodeCodingStream) (c : Byte) (hc : ¬ byteAsciiP c = true) :
      cs.decodeStep data c = cs.decodeUtf8 data c := decodeStep_utf8 htype fun hshort => hc hshort.2.2
  have hfirst : cs.decodeUtf8 data 0xef = some ({ data with ch := 0xf, counter := 2, indicatedLength := 3 }, []) := by
    rw [UnicodeCodingSystem.decodeUtf8, if_pos hcounter]
    rfl
  have hsecond : cs.decodeUtf8 { data with ch := 0xf, counter := 2, indicatedLength := 3 } 0xbb =
      some ({ data with ch := 0x3fb, counter := 1, indicatedLength := 3 }, []) := by
    simp [UnicodeCodingSystem.decodeUtf8]
  have hthird : cs.decodeUtf8 { data with ch := 0x3fb, counter := 1, indicatedLength := 3 } 0xbf =
      cs.decodeSequence { data with ch := 0xfeff, counter := 0, indicatedLength := 3 } := by
    have hbits : (0x3fb <<< 6 ||| (0xbf : Byte).val &&& 0x3f) = 0xfeff := by decide
    rw [UnicodeCodingSystem.decodeUtf8, if_neg Nat.one_ne_zero, if_neg (by decide)]
    simp only [hbits]
    exact if_pos trivial
  have hvalid : validUnicodeCodepointP ((0xfeff : ℕ) : ℤ) cs.allowPrivate = true := by
    cases cs.allowPrivate <;> decide
  have hchar := decodeSequence_three hbom (by decide) hvalid { data with ch := 0xfeff, counter := 0, indicatedLength := 3 } rfl rfl rfl
  obtain ⟨data', hlast, hzero⟩ := hchar
  have hthree := transduce_cons ((hstep _ 0xef (by decide)).trans hfirst) (transduce_cons
    ((hstep _ 0xbb (by decide)).trans hsecond) ((transduce_singleton _ _ _).trans
      (((hstep _ 0xbf (by decide)).trans hthird).trans hlast)))
  exact ⟨data', hthree, fun hne => absurd hzero hne⟩

theorem mark_iff (hbom : cs.needBom = false) (htype : cs.type = .utf8) (hcounter : data.counter = 0)
    (hascii : ∀ c ∈ src.head?, 0x80 ≤ c.val) :
    (∃ text, cs.decodeFrom data src = some text ∧ text.head? = some 0xfeff) ↔ src.take 3 = [0xef, 0xbb, 0xbf] := by
  constructor
  · rintro ⟨text, h, hmark⟩
    cases src with
    | nil =>
      rw [UnicodeCodingSystem.decodeFrom, transduce, Option.bind_some] at h
      obtain ⟨r, hr, rfl⟩ := Option.map_eq_some_iff.mp h
      exact absurd hmark (decodeLeft_spec hr).2
    | cons c src => exact mark_of_first hbom htype hcounter (hascii c rfl) h hmark
  · intro htake
    obtain ⟨data', hrun, hsound⟩ := @transduce_mark cs data hbom htype hcounter
    obtain ⟨text, htext⟩ := hsound.decodeFrom hbom htype (src.drop 3)
    refine ⟨0xfeff :: text, ?_, rfl⟩
    rw [← List.take_append_drop 3 src, htake, decodeFrom_append, hrun, Option.bind_some, htext]
    rfl

def marksAfterAscii (src : List Byte) : Prop :=
  src.takeWhile byteAsciiP ≠ [] ∧ (src.dropWhile byteAsciiP).take 3 = utf8Mark

instance (src : List Byte) : Decidable (marksAfterAscii src) := inferInstanceAs (Decidable (_ ∧ _))

theorem decodeFrom_ascii (htype : cs.type = .utf8) (src : List Byte) : ∃ data, data.counter = 0 ∧ data.seenChar = false ∧
    ∀ needBom, (cs.withBom needBom).decodeFrom .fresh src =
      ((cs.withBom needBom).decodeFrom data (src.dropWhile byteAsciiP)).map ((src.takeWhile byteAsciiP).map (·.val) ++ ·) := by
  refine ⟨{ UnicodeCodingStream.fresh with charactersSeen := 0 + (src.takeWhile byteAsciiP).length }, rfl, rfl, fun needBom => ?_⟩
  have hrun := @transduce_ascii (cs.withBom needBom) .fresh (src.takeWhile byteAsciiP) rfl fun c hc => List.mem_takeWhile_imp hc
  have hstep : (cs.withBom needBom).decodeStep = (cs.withBom needBom).decodeUtf8Step := by
    rw [decodeStep, show (cs.withBom needBom).type = .utf8 from htype]
  conv_lhs => rw [← List.takeWhile_append_dropWhile (p := byteAsciiP) (l := src)]
  rw [decodeFrom_append, hstep, hrun, Option.bind_some]
  rfl

/-- With a mark needed the same characters are put out without a mark at their start, just not in
UTF-8 where ASCII comes first and a mark follows. -/
theorem decodeChunks_withBom_iff (cs : UnicodeCodingSystem) (chunks : List (List Byte)) :
    (cs.withBom true).decodeChunks .fresh chunks = ((cs.withBom false).decodeChunks .fresh chunks).map dropMark ↔
      ¬ (cs.type = .utf8 ∧ marksAfterAscii chunks.flatten) := by
  by_cases hne : chunks = []
  · subst hne
    simp [decodeChunks, marksAfterAscii, utf8Mark]
  rw [decodeChunks_eq _ hne, decodeChunks_eq _ hne]
  set src := chunks.flatten
  by_cases htype : cs.type = .utf8
  swap
  · refine iff_of_true (decodeFrom_unseen rfl fun c _ hshort => htype hshort.1) fun h => htype h.1
  obtain ⟨data, hcounter, hseen, hfrom⟩ := decodeFrom_ascii htype src
  have hascii : ∀ c ∈ (src.dropWhile byteAsciiP).head?, 0x80 ≤ c.val := fun c hc => by
    have hnot := List.head?_dropWhile_not byteAsciiP src
    rw [Option.mem_def.mp hc] at hnot
    simpa [byteAsciiP, Fin.le_def] using hnot
  have hmark := @mark_iff (cs.withBom false) _ _ rfl htype hcounter hascii
  obtain ⟨text, htext⟩ := @Sound.decodeFrom (cs.withBom false) data rfl htype (fun hne => absurd hcounter hne)
    (src.dropWhile byteAsciiP)
  have hshort : ∀ c ∈ (src.dropWhile byteAsciiP).head?, ¬ (cs.withBom false).shortcut data c := fun c hc hshort => by
    have hlt : c.val < 0x80 := by simpa [byteAsciiP, Fin.lt_def] using hshort.2.2
    exact absurd (hascii c hc) (not_le.mpr hlt)
  rw [hfrom, hfrom, decodeFrom_unseen hseen hshort, htext, Option.map_some, Option.map_some, Option.map_some,
    Option.map_some, Option.some.injEq]
  have hiff : text.head? = some 0xfeff ↔ (src.dropWhile byteAsciiP).take 3 = [0xef, 0xbb, 0xbf] := by
    rw [← hmark]
    constructor
    · exact fun h => ⟨text, htext, h⟩
    · rintro ⟨text', h, h'⟩
      rwa [Option.some.inj (htext.symm.trans h)]
  cases hrun : src.takeWhile byteAsciiP with
  | nil => simp [marksAfterAscii, utf8Mark, hrun]
  | cons c run =>
    have hlt : c.val < 0x80 := by
      have hc : byteAsciiP c = true := List.mem_takeWhile_imp (hrun ▸ List.mem_cons_self)
      simpa [byteAsciiP, Fin.lt_def] using hc
    have hkeeps : dropMark ((c :: run).map (·.val) ++ text) = (c :: run).map (·.val) ++ text :=
      dropMark_of_ne (head?_cons_ne (u := c.val) (by omega))
    rw [hkeeps, List.append_cancel_left_eq, dropMark_eq_self_iff, ne_eq, hiff]
    simp [marksAfterAscii, utf8Mark, hrun, htype]

/-- A mark after a letter is lost. -/
theorem decodeChunks_withBom_letter :
    ¬ ((⟨.utf8, false, true, false⟩ : UnicodeCodingSystem).decodeChunks .fresh [[0x61, 0xef, 0xbb, 0xbf]] =
      ((⟨.utf8, false, false, false⟩ : UnicodeCodingSystem).decodeChunks .fresh [[0x61, 0xef, 0xbb, 0xbf]]).map dropMark) := by
  rw [decodeChunks_eq _ (List.cons_ne_nil _ _), decodeChunks_eq _ (List.cons_ne_nil _ _)]
  decide

end XEmacs.Coding.Unicode.UnicodeCodingSystem
