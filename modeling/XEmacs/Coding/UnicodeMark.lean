import XEmacs.Coding.Utf8Sequences

/-! The byte-order mark at the start of what is decoded. A coding system that needs one decodes like
the same system that needs none, but what it puts out first may lack its mark; in UTF-8 also a mark
after ASCII at the start. -/

namespace XEmacs.Coding.Unicode.UnicodeCodingSystem

open Lib

variable {cs : UnicodeCodingSystem} {data data' : UnicodeCodingStream} {c : Byte} {src : List Byte} {out out' : List ℕ}
  {r : UnicodeCodingStream × List ℕ}

def withBom (cs : UnicodeCodingSystem) (needBom : Bool) : UnicodeCodingSystem := { cs with needBom := needBom }

/-- A text without the mark that it may start with. -/
def dropMark : List ℕ → List ℕ
  | [] => []
  | u :: text => if u = 0xfeff then text else u :: text

theorem dropMark_of_ne {text : List ℕ} (h : text.head? ≠ some 0xfeff) : dropMark text = text := by
  cases text with
  | nil => rfl
  | cons u text => exact if_neg fun hu => h (congrArg some hu)

theorem nil_head?_ne : ([] : List ℕ).head? ≠ some 0xfeff := (Option.some_ne_none _).symm

theorem head?_cons_ne {u : ℕ} {text : List ℕ} (hu : u ≠ 0xfeff) : (u :: text).head? ≠ some 0xfeff :=
  fun h => hu (Option.some.inj h)

theorem dropMark_append (hne : out ≠ []) : dropMark (out ++ out') = dropMark out ++ out' := by
  cases out with
  | nil => exact absurd rfl hne
  | cons u out =>
    rw [List.cons_append, dropMark, dropMark]
    split_ifs <;> rfl

theorem dropMark_eq_self_iff {text : List ℕ} : dropMark text = text ↔ text.head? ≠ some 0xfeff := by
  refine ⟨fun h => ?_, dropMark_of_ne⟩
  cases text with
  | nil => exact nil_head?_ne
  | cons u text =>
    intro hu
    rw [dropMark, if_pos (Option.some.inj hu)] at h
    exact absurd (congrArg List.length h) (by simp)

theorem decodeUnicodeToDynarr0_spec (hbom : cs.needBom = false) {u : ℤ} (h : cs.decodeUnicodeToDynarr0 u data = some r) :
    r = ({ data with seenChar := true }, [u.toNat]) := by
  have hmark : ¬ (u = 0xfeff ∧ cs.needBom ∧ ¬ data.seenChar) := fun hmark => Bool.false_ne_true (hbom.symm.trans hmark.2.1)
  rw [decodeUnicodeToDynarr0] at h
  obtain ⟨-, h⟩ := Option.ite_none_right_eq_some.mp h
  simp only [hmark, if_false] at h
  exact (Option.some.inj h).symm

theorem decodeErrorOctet_spec {octet : ℕ} (h : cs.decodeErrorOctet data octet = some r) :
    r = ({ data with seenChar := true }, [octet + unicodeErrorOctetRangeStart]) := by
  have hmark : ¬ ((octet : ℤ) + unicodeErrorOctetRangeStart = 0xfeff ∧ cs.needBom ∧ ¬ data.seenChar) := by
    rw [unicodeErrorOctetRangeStart]
    omega
  rw [decodeErrorOctet, decodeUnicodeToDynarr0] at h
  obtain ⟨-, h⟩ := Option.ite_none_right_eq_some.mp h
  rw [if_neg hmark] at h
  exact (Option.some.inj h).symm

theorem errorOctet_ne_mark (octet : ℕ) : octet + unicodeErrorOctetRangeStart ≠ 0xfeff := by
  rw [unicodeErrorOctetRangeStart]
  omega

theorem decodeErrorOctets_spec {octets : List ℕ} (h : cs.decodeErrorOctets data octets = some r) :
    r = ({ data with seenChar := data.seenChar || !octets.isEmpty },
      octets.map (· + unicodeErrorOctetRangeStart)) := by
  rw [decodeErrorOctets] at h
  induction octets generalizing data r with
  | nil =>
    rw [← Option.some.inj h]
    simp
  | cons octet octets ih =>
    obtain ⟨r₁, h₁, h⟩ := Option.bind_eq_some_iff.mp h
    obtain ⟨r₂, h₂, rfl⟩ := Option.map_eq_some_iff.mp h
    rw [decodeErrorOctet_spec h₁] at h₂ ⊢
    rw [ih h₂]
    simp

theorem decodeErrorOctet_withBom (cs : UnicodeCodingSystem) (data : UnicodeCodingStream) (octet : ℕ) :
    (cs.withBom true).decodeErrorOctet data octet = (cs.withBom false).decodeErrorOctet data octet := by
  have hmark : ¬ (octet : ℤ) + unicodeErrorOctetRangeStart = 0xfeff := by
    rw [unicodeErrorOctetRangeStart]
    omega
  rw [decodeErrorOctet, decodeErrorOctet, decodeUnicodeToDynarr0, decodeUnicodeToDynarr0]
  simp only [hmark, false_and, if_false]

theorem decodeErrorOctets_withBom (cs : UnicodeCodingSystem) (data : UnicodeCodingStream) (octets : List ℕ) :
    (cs.withBom true).decodeErrorOctets data octets = (cs.withBom false).decodeErrorOctets data octets := by
  rw [decodeErrorOctets, decodeErrorOctets]
  exact congrArg (transduce · data octets) (funext₂ fun data octet => decodeErrorOctet_withBom cs data octet)

/-- What a system that needs a mark puts out, from what the same system puts out that needs none. -/
def marked (seen : Bool) (r : UnicodeCodingStream × List ℕ) : UnicodeCodingStream × List ℕ :=
  (r.1, if seen then r.2 else dropMark r.2)

theorem marked_of_ne {seen : Bool} (h : r.2.head? ≠ some 0xfeff) : marked seen r = r := by
  rw [marked, dropMark_of_ne h, ite_self]

theorem decodeUnicodeToDynarr0_withBom (cs : UnicodeCodingSystem) (data : UnicodeCodingStream) (u : ℤ) :
    (cs.withBom true).decodeUnicodeToDynarr0 u data =
      ((cs.withBom false).decodeUnicodeToDynarr0 u data).map (marked data.seenChar) := by
  rw [decodeUnicodeToDynarr0, decodeUnicodeToDynarr0]
  by_cases hvalid : validUnicodeCodepointP u true = true
  · rw [if_pos hvalid, if_pos hvalid, Option.map_some, Option.some.injEq, marked]
    cases data.seenChar with
    | true => simp
    | false =>
      by_cases hu : u = 0xfeff
      · simp [hu, withBom, dropMark]
      · have hnat : u.toNat ≠ 0xfeff := by omega
        simp [hu, withBom, dropMark, hnat]
  · rw [if_neg hvalid, if_neg hvalid, Option.map_none]

theorem map_marked {seen : Bool} {o : Option (UnicodeCodingStream × List ℕ)}
    (h : ∀ r, o = some r → r.2.head? ≠ some 0xfeff) : o.map (marked seen) = o := by
  cases o with
  | none => rfl
  | some r => rw [Option.map_some, marked_of_ne (h r rfl)]

theorem map_marked_silent (seen : Bool) (data : UnicodeCodingStream) : (some (data, [])).map (marked seen) = some (data, []) := by
  rw [Option.map_some, marked_of_ne nil_head?_ne]

theorem map_marked_count (seen : Bool) (o : Option (UnicodeCodingStream × List ℕ)) (n : ℕ) :
    (o.map (marked seen)).map (count n) = (o.map (count n)).map (marked seen) := by
  rw [Option.map_map, Option.map_map]
  rfl

theorem errorOctets_head? {octets : List ℕ} (h : cs.decodeErrorOctets data octets = some r) :
    r.2.head? ≠ some 0xfeff := by
  rw [decodeErrorOctets_spec h]
  cases octets with
  | nil => exact nil_head?_ne
  | cons octet octets =>
    exact head?_cons_ne (errorOctet_ne_mark octet)

/-! ### Steps -/

theorem ascii_ne_mark (h7 : c.val &&& 0x80 = 0) : ((c.val : ℕ) : ℤ) ≠ 0xfeff := by
  have hlt := (bit7 c).mp h7
  omega

theorem indicateInvalidUtf8_withBom (cs : UnicodeCodingSystem) (indicatedLength counter ch : ℕ) (data : UnicodeCodingStream) :
    (cs.withBom true).indicateInvalidUtf8 indicatedLength counter ch data =
      (cs.withBom false).indicateInvalidUtf8 indicatedLength counter ch data :=
  decodeErrorOctets_withBom cs data _

theorem decodeFirstByte_withBom (cs : UnicodeCodingSystem) (data : UnicodeCodingStream) (c : Byte) :
    (cs.withBom true).decodeFirstByte data c =
      ((cs.withBom false).decodeFirstByte data c).map (marked data.seenChar) := by
  have herror : ((cs.withBom true).decodeErrorOctet data c).map (count 1) =
      (((cs.withBom false).decodeErrorOctet data c).map (count 1)).map (marked data.seenChar) := by
    rw [decodeErrorOctet_withBom, map_marked]
    intro r hr
    obtain ⟨r₁, hr₁, rfl⟩ := Option.map_eq_some_iff.mp hr
    rw [decodeErrorOctet_spec hr₁]
    have hne : [c.val + unicodeErrorOctetRangeStart].head? ≠ some 0xfeff := head?_cons_ne (errorOctet_ne_mark c)
    exact hne
  have hstart (ch counter : ℕ) : startSequence ch counter data =
      (startSequence ch counter data).map (marked data.seenChar) := by
    rw [map_marked]
    intro r hr
    rw [← Option.some.inj hr]
    exact nil_head?_ne
  rw [decodeFirstByte, decodeFirstByte, decodeUnicodeToDynarr0_withBom]
  simp only [apply_ite (Option.map (marked data.seenChar)), ← herror, ← hstart]
  exact congrArg (ite _ · _) (map_marked_count _ _ _)

theorem decodeInterruption_head? (hbom : cs.needBom = false) (h : cs.decodeInterruption data c = some r) :
    r.2.head? ≠ some 0xfeff := by
  obtain ⟨r₁, h₁, hr⟩ := Option.bind_eq_some_iff.mp h
  obtain ⟨r₂, hr₂, rfl⟩ := Option.map_eq_some_iff.mp hr
  obtain ⟨r₂, h₂, rfl⟩ := Option.map_eq_some_iff.mp hr₂
  have hfirst := errorOctets_head? h₁
  have hlast : r₂.2.head? ≠ some 0xfeff := by
    split_ifs at h₂ with h7
    · rw [decodeErrorOctet_spec h₂]
      exact head?_cons_ne (errorOctet_ne_mark c)
    · rw [decodeUnicodeToDynarr0_spec hbom h₂]
      have hlt := (bit7 c).mp (not_not.mp h7)
      exact head?_cons_ne (by omega)
  show (r₁.2 ++ r₂.2).head? ≠ some 0xfeff
  rw [List.head?_append]
  cases hout : r₁.2.head? with
  | none => exact hlast
  | some u =>
    rw [Option.some_or, ← hout]
    exact hfirst

theorem decodeInterruption_withBom (cs : UnicodeCodingSystem) (data : UnicodeCodingStream) (c : Byte) :
    (cs.withBom true).decodeInterruption data c =
      ((cs.withBom false).decodeInterruption data c).map (marked data.seenChar) := by
  have hchar (data : UnicodeCodingStream) : (if c.val &&& 0x80 ≠ 0 then (cs.withBom true).decodeErrorOctet data c
      else (cs.withBom true).decodeUnicodeToDynarr0 c data) = if c.val &&& 0x80 ≠ 0 then
        (cs.withBom false).decodeErrorOctet data c else (cs.withBom false).decodeUnicodeToDynarr0 c data := by
    split_ifs with h7
    · exact decodeErrorOctet_withBom cs data c
    · rw [decodeUnicodeToDynarr0, decodeUnicodeToDynarr0]
      simp only [ascii_ne_mark (not_not.mp h7), false_and, if_false]
  rw [map_marked fun r hr => decodeInterruption_head? rfl hr, decodeInterruption, decodeInterruption,
    indicateInvalidUtf8_withBom]
  simp only [hchar]

theorem decodeSequence_withBom (cs : UnicodeCodingSystem) (data : UnicodeCodingStream) :
    (cs.withBom true).decodeSequence data = ((cs.withBom false).decodeSequence data).map (marked data.seenChar) := by
  rw [decodeSequence, decodeSequence, Option.map_bind]
  refine congrArg (Option.bind _) (funext fun least => ?_)
  have hinvalid : ((cs.withBom false).indicateInvalidUtf8 data.indicatedLength data.counter data.ch data).map
      (marked data.seenChar) = (cs.withBom false).indicateInvalidUtf8 data.indicatedLength data.counter data.ch data :=
    map_marked fun r hr => errorOctets_head? hr
  have hreset (o : Option (UnicodeCodingStream × List ℕ)) : ((o.map (marked data.seenChar)).map fun r =>
      ({ r.1 with ch := 0 }, r.2)) = (o.map fun r => ({ r.1 with ch := 0 }, r.2)).map (marked data.seenChar) := by
    rw [Option.map_map, Option.map_map]
    rfl
  rw [Function.comp_apply, ← hreset]
  refine congrArg (Option.map _) ?_
  rw [apply_ite (Option.map (marked data.seenChar)), ← map_marked_count, ← map_marked_count, hinvalid,
    indicateInvalidUtf8_withBom, decodeUnicodeToDynarr0_withBom]
  rfl

theorem decodeUtf8Step_withBom (cs : UnicodeCodingSystem) (data : UnicodeCodingStream) (c : Byte) :
    (cs.withBom true).decodeUtf8Step data c =
      ((cs.withBom false).decodeUtf8Step data c).map (marked data.seenChar) := by
  by_cases hascii : data.counter = 0 ∧ byteAsciiP c = true
  · have hlt : c.val < 0x80 := by simpa [byteAsciiP, Fin.lt_def] using hascii.2
    rw [decodeUtf8Step, decodeUtf8Step, if_pos hascii, if_pos hascii, Option.map_some, marked_of_ne]
    exact head?_cons_ne (by omega)
  rw [decodeUtf8Step, decodeUtf8Step, if_neg hascii, if_neg hascii, decodeUtf8, decodeUtf8]
  by_cases hfirst : data.counter = 0
  · rw [if_pos hfirst, if_pos hfirst, decodeFirstByte_withBom]
  rw [if_neg hfirst, if_neg hfirst]
  by_cases hinterrupts : c.val &&& 0x80 = 0 ∨ c.val &&& 0x40 ≠ 0
  · rw [if_pos hinterrupts, if_pos hinterrupts, decodeInterruption_withBom]
  rw [if_neg hinterrupts, if_neg hinterrupts]
  by_cases hlast : data.counter - 1 = 0
  · simp only [hlast, if_true, decodeSequence_withBom]
  · simp only [hlast, if_false, map_marked_silent]

theorem decodeStep_withBom (cs : UnicodeCodingSystem) (data : UnicodeCodingStream) (c : Byte) :
    (cs.withBom true).decodeStep data c = ((cs.withBom false).decodeStep data c).map (marked data.seenChar) := by
  have htake : (cs.withBom true).takeByte data c = (cs.withBom false).takeByte data c := rfl
  have hsurrogates : (cs.withBom true).surrogates = (cs.withBom false).surrogates := rfl
  have htype (b : Bool) : (cs.withBom b).type = cs.type := rfl
  have hchar (u : ℤ) : (cs.withBom true).decodeUnicodeToDynarr0 u (reset ((cs.withBom false).takeByte data c)) =
      ((cs.withBom false).decodeUnicodeToDynarr0 u (reset ((cs.withBom false).takeByte data c))).map
        (marked data.seenChar) := decodeUnicodeToDynarr0_withBom cs _ u
  have hoctets (data' : UnicodeCodingStream) (n k ch : ℕ) :
      ((cs.withBom true).decodeErrorOctets data' ((cs.withBom true).octets n ch)).map (count k) =
        (((cs.withBom false).decodeErrorOctets data' ((cs.withBom false).octets n ch)).map (count k)).map
          (marked data.seenChar) := by
    rw [← map_marked_count, decodeErrorOctets_withBom, map_marked fun r hr => errorOctets_head? hr]
    rfl
  have hutf32 : (cs.withBom true).decodeUtf32 data c =
      ((cs.withBom false).decodeUtf32 data c).map (marked data.seenChar) := by
    rw [decodeUtf32, decodeUtf32]
    simp only [htake, htype, hchar, hoctets, map_marked_count, apply_ite (Option.map (marked data.seenChar)),
      map_marked_silent]
  rw [decodeStep, decodeStep, htype, htype]
  cases cs.type with
  | utf8 => exact decodeUtf8Step_withBom cs data c
  | utf16 =>
    show (cs.withBom true).decodeUtf16 data c = ((cs.withBom false).decodeUtf16 data c).map (marked data.seenChar)
    rw [decodeUtf16, decodeUtf16]
    simp only [htake, hsurrogates, hchar, hoctets, map_marked_count, apply_ite (Option.map (marked data.seenChar)),
      map_marked_silent, Option.map_none]
  | ucs4 => exact hutf32
  | utf32 => exact hutf32

theorem decodeLeft_withBom (cs : UnicodeCodingSystem) (data : UnicodeCodingStream) :
    (cs.withBom true).decodeLeft data = (cs.withBom false).decodeLeft data := by
  have htype (b : Bool) : (cs.withBom b).type = cs.type := rfl
  have hoctets : (cs.withBom true).leftOctets data.counter data.ch = (cs.withBom false).leftOctets data.counter data.ch := rfl
  rw [decodeLeft, decodeLeft, htype, htype, indicateInvalidUtf8_withBom, hoctets]
  simp only [decodeErrorOctets_withBom]

/-! ### What a step puts out and counts -/

/-- A step puts out characters, of which it does not count some, or none; only by putting one out
does it see a character. -/
structure Steps (data : UnicodeCodingStream) (missed : ℕ) (r : UnicodeCodingStream × List ℕ) : Prop where
  counted : r.1.charactersSeen + missed = data.charactersSeen + r.2.length
  seen : r.2 = [] ∧ r.1.seenChar = data.seenChar ∨ r.2 ≠ [] ∧ r.1.seenChar = true

theorem steps_silent (hcount : data'.charactersSeen = data.charactersSeen) (hseen : data'.seenChar = data.seenChar) :
    Steps data 0 (data', []) := ⟨hcount, .inl ⟨rfl, hseen⟩⟩

theorem steps_char (hbom : cs.needBom = false) {u : ℤ} (hcount : data'.charactersSeen = data.charactersSeen)
    (h : (cs.decodeUnicodeToDynarr0 u data').map (count 1) = some r) :
    Steps data 0 r ∧ r.2 ≠ [] ∧ r.1.counter = data'.counter := by
  obtain ⟨r, hr, rfl⟩ := Option.map_eq_some_iff.mp h
  rw [decodeUnicodeToDynarr0_spec hbom hr]
  refine ⟨⟨?_, .inr ⟨List.cons_ne_nil _ _, rfl⟩⟩, List.cons_ne_nil _ _, rfl⟩
  exact congrArg (· + 1) hcount

theorem steps_octets {octets : List ℕ} {n : ℕ} (hn : octets.length = n + 1) (hcount : data'.charactersSeen = data.charactersSeen)
    (h : (cs.decodeErrorOctets data' octets).map (count (n + 1)) = some r) :
    Steps data 0 r ∧ r.2 ≠ [] ∧ r.1.counter = data'.counter := by
  obtain ⟨r, hr, rfl⟩ := Option.map_eq_some_iff.mp h
  have hne : octets ≠ [] := List.ne_nil_of_length_eq_add_one hn
  rw [decodeErrorOctets_spec hr]
  refine ⟨⟨?_, .inr ⟨by simpa [count] using hne, ?_⟩⟩, by simpa [count] using hne, rfl⟩
  · simp [count, hn, hcount]
  · simp [count, hne]

theorem steps_octet {octet : ℕ} (hcount : data'.charactersSeen = data.charactersSeen)
    (h : (cs.decodeErrorOctet data' octet).map (count 1) = some r) :
    Steps data 0 r ∧ r.2 ≠ [] ∧ r.1.counter = data'.counter := by
  obtain ⟨r, hr, rfl⟩ := Option.map_eq_some_iff.mp h
  rw [decodeErrorOctet_spec hr]
  refine ⟨⟨?_, .inr ⟨List.cons_ne_nil _ _, rfl⟩⟩, List.cons_ne_nil _ _, rfl⟩
  exact congrArg (· + 1) hcount

theorem decodeFirstByte_spec (hbom : cs.needBom = false) (h : cs.decodeFirstByte data c = some r) : Steps data 0 r ∧
    (r.2 ≠ [] ∧ r.1.counter = data.counter ∨ r.2 = [] ∧ r.1.counter ≠ 0 ∧ r.1.indicatedLength = r.1.counter + 1) := by
  have hstart {ch counter : ℕ} (hne : counter ≠ 0) (h : startSequence ch counter data = some r) : Steps data 0 r ∧
      (r.2 ≠ [] ∧ r.1.counter = data.counter ∨ r.2 = [] ∧ r.1.counter ≠ 0 ∧ r.1.indicatedLength = r.1.counter + 1) := by
    obtain rfl := Option.some.inj h
    exact ⟨steps_silent rfl rfl, .inr ⟨rfl, hne, rfl⟩⟩
  rw [decodeFirstByte] at h
  split_ifs at h
  · exact (steps_char hbom rfl h).imp_right .inl
  · exact (steps_octet rfl h).imp_right .inl
  · exact hstart (by decide) h
  · exact hstart (by decide) h
  · exact hstart (by decide) h
  · exact hstart (by decide) h
  · exact hstart (by decide) h
  · exact (steps_octet rfl h).imp_right .inl

theorem decodeInterruption_spec (hbom : cs.needBom = false) (h : cs.decodeInterruption data c = some r) :
    Steps data (data.indicatedLength - data.counter) r ∧ r.2 ≠ [] ∧ r.1.counter = 0 := by
  obtain ⟨r₁, h₁, h⟩ := Option.bind_eq_some_iff.mp h
  obtain ⟨r₂, h₂, rfl⟩ := Option.map_eq_some_iff.mp h
  have hfirst := decodeErrorOctets_spec h₁
  have hlast : Steps r₁.1 0 r₂ ∧ r₂.2 ≠ [] ∧ r₂.1.counter = r₁.1.counter := by
    rw [apply_ite (Option.map (count 1))] at h₂
    split_ifs at h₂
    · exact steps_octet rfl h₂
    · exact steps_char hbom rfl h₂
  refine ⟨⟨?_, .inr ⟨List.append_ne_nil_of_right_ne_nil _ hlast.2.1, ?_⟩⟩, List.append_ne_nil_of_right_ne_nil _ hlast.2.1, rfl⟩
  · have hcount := hlast.1.counted
    have hsame : r₁.1.charactersSeen = data.charactersSeen := by rw [hfirst]
    have hlength : r₁.2.length = data.indicatedLength - data.counter := by rw [hfirst, List.length_map, length_storedOctets]
    show r₂.1.charactersSeen + _ = data.charactersSeen + (r₁.2 ++ r₂.2).length
    rw [List.length_append]
    omega
  · exact (hlast.1.seen.resolve_left fun h => hlast.2.1 h.1).2

theorem decodeSequence_spec (hbom : cs.needBom = false) (hcounter : data.counter = 0) (h : cs.decodeSequence data = some r) :
    Steps data 0 r ∧ r.2 ≠ [] ∧ r.1.counter = 0 := by
  obtain ⟨least, hleast, h⟩ := Option.bind_eq_some_iff.mp h
  obtain ⟨r, hr, rfl⟩ := Option.map_eq_some_iff.mp h
  have hlength : ∃ n, data.indicatedLength - data.counter = n + 1 := by
    rw [hcounter, Nat.sub_zero]
    refine Nat.exists_eq_succ_of_ne_zero fun hzero => ?_
    rw [hzero] at hleast
    exact Option.some_ne_none _ hleast.symm
  have hstep : Steps data 0 r ∧ r.2 ≠ [] ∧ r.1.counter = data.counter := by
    split_ifs at hr
    · obtain ⟨n, hn⟩ := hlength
      rw [hn] at hr
      exact steps_octets (by rw [length_storedOctets, hn]) rfl hr
    · exact steps_char hbom rfl hr
  exact ⟨⟨hstep.1.counted, hstep.1.seen⟩, hstep.2.1, hstep.2.2.trans hcounter⟩

def interrupts (data : UnicodeCodingStream) (c : Byte) : Prop :=
  data.counter ≠ 0 ∧ (c.val &&& 0x80 = 0 ∨ c.val &&& 0x40 ≠ 0)

instance (data : UnicodeCodingStream) (c : Byte) : Decidable (interrupts data c) := inferInstanceAs (Decidable (_ ∧ _))

def shortcut (cs : UnicodeCodingSystem) (data : UnicodeCodingStream) (c : Byte) : Prop :=
  cs.type = .utf8 ∧ data.counter = 0 ∧ byteAsciiP c = true

theorem decodeUtf8_spec (hbom : cs.needBom = false) (h : cs.decodeUtf8 data c = some r) :
    Steps data (if interrupts data c then data.indicatedLength - data.counter else 0) r ∧
      (r.2 ≠ [] ∧ r.1.counter = 0 ∨ r.2 = [] ∧ r.1.counter ≠ 0 ∧
        (r.1.indicatedLength = r.1.counter + 1 ∨
          r.1.indicatedLength = data.indicatedLength ∧ r.1.counter + 1 = data.counter)) := by
  rw [decodeUtf8] at h
  by_cases hfirst : data.counter = 0
  · rw [if_pos hfirst] at h
    obtain ⟨hstep, hcases⟩ := decodeFirstByte_spec hbom h
    rw [if_neg fun hint => hint.1 hfirst]
    refine ⟨hstep, hcases.imp (fun hout => ⟨hout.1, hout.2.trans hfirst⟩) fun hout => ⟨hout.1, hout.2.1, .inl hout.2.2⟩⟩
  rw [if_neg hfirst] at h
  by_cases hint : c.val &&& 0x80 = 0 ∨ c.val &&& 0x40 ≠ 0
  · rw [if_pos hint] at h
    rw [if_pos ⟨hfirst, hint⟩]
    obtain ⟨hstep, hout⟩ := decodeInterruption_spec hbom h
    exact ⟨hstep, .inl hout⟩
  rw [if_neg hint] at h
  rw [if_neg fun h => hint h.2]
  simp only at h
  split_ifs at h with hlast
  · obtain ⟨hstep, hout⟩ := decodeSequence_spec hbom hlast h
    exact ⟨⟨hstep.counted, hstep.seen⟩, .inl hout⟩
  · obtain rfl := Option.some.inj h
    exact ⟨steps_silent rfl rfl, .inr ⟨rfl, hlast, .inr ⟨rfl, Nat.succ_pred_eq_of_ne_zero hfirst⟩⟩⟩

theorem length_octets (cs : UnicodeCodingSystem) (n ch : ℕ) : (cs.octets n ch).length = n := by
  rw [octets]
  split_ifs <;> simp

theorem decodeUtf16_spec (hbom : cs.needBom = false) (h : cs.decodeUtf16 data c = some r) : Steps data 0 r := by
  rw [decodeUtf16] at h
  split_ifs at h
  · obtain rfl := Option.some.inj h
    exact steps_silent rfl rfl
  · have hstep := (steps_octets (length_octets cs 2 _) rfl h).1
    exact ⟨hstep.counted, hstep.seen⟩
  · have hstep := (steps_char hbom rfl h).1
    exact ⟨hstep.counted, hstep.seen⟩
  · have hstep := (steps_char hbom rfl h).1
    exact ⟨hstep.counted, hstep.seen⟩
  · have hstep := (steps_octets (length_octets cs 4 _) rfl h).1
    exact ⟨hstep.counted, hstep.seen⟩
  · obtain rfl := Option.some.inj h
    exact steps_silent rfl rfl

theorem decodeUtf32_spec (hbom : cs.needBom = false) (h : cs.decodeUtf32 data c = some r) : Steps data 0 r := by
  rw [decodeUtf32] at h
  split_ifs at h
  · have hstep := (steps_char hbom rfl h).1
    exact ⟨hstep.counted, hstep.seen⟩
  · have hstep := (steps_octets (length_octets cs 4 _) rfl h).1
    exact ⟨hstep.counted, hstep.seen⟩
  · obtain rfl := Option.some.inj h
    exact steps_silent rfl rfl

theorem decodeStep_shortcut (hshort : cs.shortcut data c) :
    cs.decodeStep data c = some ({ data with charactersSeen := data.charactersSeen + 1 }, [c.val]) := by
  rw [decodeStep, hshort.1]
  exact if_pos hshort.2

theorem decodeStep_utf8 (htype : cs.type = .utf8) (hshort : ¬ cs.shortcut data c) :
    cs.decodeStep data c = cs.decodeUtf8 data c := by
  rw [decodeStep, htype]
  exact if_neg fun h => hshort ⟨htype, h⟩

theorem decodeStep_spec (hbom : cs.needBom = false) (hshort : ¬ cs.shortcut data c) (h : cs.decodeStep data c = some r) :
    Steps data (if cs.type = .utf8 ∧ interrupts data c then data.indicatedLength - data.counter else 0) r ∧
      (cs.type = .utf8 → r.2 = [] → r.1.counter ≠ 0) := by
  by_cases htype : cs.type = .utf8
  · rw [decodeStep_utf8 htype hshort] at h
    obtain ⟨hstep, hcases⟩ := decodeUtf8_spec hbom h
    simp only [htype, true_and]
    exact ⟨hstep, fun _ hout => (hcases.resolve_left fun hne => hne.1 hout).2.1⟩
  · rw [if_neg fun hint => htype hint.1]
    refine ⟨?_, fun h => absurd h htype⟩
    rw [decodeStep] at h
    cases hcase : cs.type with
    | utf8 => exact absurd hcase htype
    | utf16 =>
      rw [hcase] at h
      exact decodeUtf16_spec hbom h
    | ucs4 =>
      rw [hcase] at h
      exact decodeUtf32_spec hbom h
    | utf32 =>
      rw [hcase] at h
      exact decodeUtf32_spec hbom h

theorem transduce_seen (hseen : data.seenChar = true) (src : List Byte) :
    transduce (cs.withBom true).decodeStep data src = transduce (cs.withBom false).decodeStep data src := by
  induction src generalizing data with
  | nil => rw [transduce, transduce]
  | cons c src ih =>
    have hsame (r : UnicodeCodingStream × List ℕ) : marked data.seenChar r = r := by
      rw [marked, hseen, if_pos rfl]
    rw [transduce, transduce, decodeStep_withBom, funext hsame, Option.map_id']
    cases hr : (cs.withBom false).decodeStep data c with
    | none => rw [Option.bind_none, Option.bind_none]
    | some r =>
      rw [Option.bind_some, Option.bind_some, ih]
      by_cases hshort : (cs.withBom false).shortcut data c
      · rw [decodeStep_shortcut hshort] at hr
        rw [← Option.some.inj hr]
        exact hseen
      · rcases (decodeStep_spec rfl hshort hr).1.seen with ⟨-, h⟩ | ⟨-, h⟩
        · rw [h, hseen]
        · exact h

theorem transduce_unseen (hseen : data.seenChar = false) (hshort : ∀ c ∈ src.head?, ¬ (cs.withBom false).shortcut data c) :
    transduce (cs.withBom true).decodeStep data src =
      (transduce (cs.withBom false).decodeStep data src).map (marked false) := by
  induction src generalizing data with
  | nil => exact (map_marked_silent false data).symm
  | cons c src ih =>
    rw [transduce, transduce, decodeStep_withBom, hseen]
    cases hr : (cs.withBom false).decodeStep data c with
    | none => rfl
    | some r =>
      obtain ⟨hstep, hcounter⟩ := decodeStep_spec rfl (hshort c rfl) hr
      rw [Option.map_some, Option.bind_some, Option.bind_some, Option.map_map]
      rcases hstep.seen with ⟨hout, hseen'⟩ | ⟨hout, hseen'⟩
      · have hnext := ih (hseen'.trans hseen) fun d _ hd => hcounter hd.1 hout hd.2.1
        rw [marked_of_ne (hout ▸ nil_head?_ne), hnext, Option.map_map]
        refine congrArg (Option.map · _) (funext fun r' => ?_)
        simp [marked, hout]
      · rw [show (marked false r).1 = r.1 from rfl, transduce_seen hseen']
        refine congrArg (Option.map · _) (funext fun r' => ?_)
        simp [marked, dropMark_append hout]

theorem decodeLeft_spec (h : cs.decodeLeft data = some r) :
    r.1.charactersSeen = data.charactersSeen + r.2.length ∧ r.2.head? ≠ some 0xfeff := by
  rw [decodeLeft] at h
  split_ifs at h with hzero
  · obtain rfl := Option.some.inj h
    exact ⟨rfl, nil_head?_ne⟩
  have hoctets (octets : List ℕ) (data' : UnicodeCodingStream) (hcount : data'.charactersSeen = data.charactersSeen)
      (r : UnicodeCodingStream × List ℕ) (h : (cs.decodeErrorOctets data' octets).map (count octets.length) = some r) :
      r.1.charactersSeen = data.charactersSeen + r.2.length ∧ r.2.head? ≠ some 0xfeff := by
    obtain ⟨r, hr, rfl⟩ := Option.map_eq_some_iff.mp h
    refine ⟨?_, (errorOctets_head? hr : r.2.head? ≠ some 0xfeff)⟩
    rw [decodeErrorOctets_spec hr]
    simp [count, hcount]
  cases htype : cs.type with
  | utf8 =>
    rw [htype] at h
    obtain ⟨r, hr, rfl⟩ := Option.map_eq_some_iff.mp h
    refine ⟨?_, (errorOctets_head? hr : r.2.head? ≠ some 0xfeff)⟩
    rw [decodeErrorOctets_spec hr]
    simp [count, reset, length_storedOctets]
  | utf16 =>
    rw [htype] at h
    obtain ⟨octets, -, h⟩ := Option.bind_eq_some_iff.mp h
    exact hoctets octets (reset data) rfl r h
  | ucs4 =>
    rw [htype] at h
    obtain ⟨octets, -, h⟩ := Option.bind_eq_some_iff.mp h
    exact hoctets octets (reset data) rfl r h
  | utf32 =>
    rw [htype] at h
    obtain ⟨octets, -, h⟩ := Option.bind_eq_some_iff.mp h
    exact hoctets octets (reset data) rfl r h

theorem decodeFrom_unseen (hseen : data.seenChar = false) (hshort : ∀ c ∈ src.head?, ¬ (cs.withBom false).shortcut data c) :
    (cs.withBom true).decodeFrom data src = ((cs.withBom false).decodeFrom data src).map dropMark := by
  rw [decodeFrom, decodeFrom, transduce_unseen hseen hshort, Option.bind_map, Option.map_bind]
  refine congrArg (Option.bind _) (funext fun r => ?_)
  rw [Function.comp_apply, Function.comp_apply, decodeLeft_withBom, Option.map_map]
  cases hleft : (cs.withBom false).decodeLeft r.1 with
  | none =>
    rw [show (marked false r).1 = r.1 from rfl, hleft]
    rfl
  | some left =>
    rw [show (marked false r).1 = r.1 from rfl, hleft, Option.map_some, Option.map_some, Option.some.injEq]
    show dropMark r.2 ++ left.2 = dropMark (r.2 ++ left.2)
    by_cases hout : r.2 = []
    · rw [hout, List.nil_append, dropMark_of_ne (decodeLeft_spec hleft).2]
      rfl
    · rw [dropMark_append hout]

end XEmacs.Coding.Unicode.UnicodeCodingSystem
