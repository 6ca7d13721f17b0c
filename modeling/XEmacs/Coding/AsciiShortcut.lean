import XEmacs.Coding.AsciiMappings
import XEmacs.Coding.MultibyteTransparent
import XEmacs.Coding.PrecedenceArrays

/-! Where the shortcut over ASCII is taken, the search through the array finds ASCII too. The flags
of the array do not tell of conversions that are set later in a charset before ASCII. -/

namespace XEmacs.Coding.Multibyte

open Lib
open Unicode (Byte byte)

/-- Each ASCII code is that of its own codepoint, and is converted to it. -/
structure AsciiTable (cs : Charset) : Prop where
  limits : ∀ c1 c2, cs.validCharsetCodepointP c1 c2 → c1 = 0 ∧ c2.val ≤ 127
  loaded : cs.doAutoload = false
  toUnicode : ∀ c : Byte, c.val ≤ 127 → cs.toUnicode (0, c) = some c.val
  codepointOf : ∀ u, u ≤ 127 → cs.codepointOf u = some (0, byte u)

theorem codepointOf_of_walk {cs : Charset} {u : ℕ} (h : walkCode u 3 cs.fromUnicodeTable ≠ badvalFromTable) :
    cs.codepointOf u = some (Charset.octets (walkCode u 3 cs.fromUnicodeTable)) := if_pos h

theorem AsciiTable.walk_ne {cs : Charset} {u : ℕ} (h : AsciiTable cs) (hu : u ≤ 127) :
    walkCode u 3 cs.fromUnicodeTable ≠ badvalFromTable := by
  intro hwalk
  have hcode := h.codepointOf u hu
  rw [Charset.codepointOf, hwalk, if_neg (not_not.mpr rfl)] at hcode
  have hoctets := Option.some.inj (Option.ite_none_right_eq_some.mp hcode).2
  have hfirst : (1 : Byte) = 0 := congrArg Prod.fst hoctets
  exact absurd hfirst (by decide)

theorem AsciiTable.step {cs cs' : Charset} {op : CharsetOp} (h : AsciiTable cs) (hop : asciiConversionP op)
    (hs : cs.step op = some cs') : AsciiTable cs' := by
  cases op with
  | set code c1 c2 =>
    obtain ⟨⟨hvalid, -⟩, hs⟩ := Option.ite_none_right_eq_some.mp hs
    have hsets := Charset.sets_of_setUnicodeConversion hs
    obtain ⟨rfl, hc2⟩ := h.limits c1 c2 hvalid
    obtain rfl : code = some c2.val := beq_iff_eq.mp hop
    have hold : cs.oldCode (0, c2) = some c2.val := by
      rw [Charset.oldCode, if_neg (by rw [h.loaded]; exact Bool.false_ne_true)]
      exact h.toUnicode c2 hc2
    have hlt : ∀ v ∈ some c2.val, v < 2 ^ 32 := by
      intro v hv
      have hsame := Option.some.inj hv
      omega
    have hwalk {u : ℕ} (hu : u ≤ 127) : walkCode u 3 cs'.fromUnicodeTable =
        if some c2.val = some u then (0 : Byte).val <<< 8 + c2.val else walkCode u 3 cs.fromUnicodeTable := by
      rw [hsets.fromUnicode_eq, hold, Charset.walkCode_replaceCode (by omega) hlt hlt]
      split_ifs <;> rfl
    refine ⟨fun d1 d2 hd => h.limits d1 d2 ?_, hsets.doAutoload_eq.trans h.loaded, fun c hc => ?_, fun u hu => ?_⟩
    · rw [Charset.validCharsetCodepointP, hsets.chars_eq, hsets.offset_eq] at hd
      exact hd
    · rw [hsets.toUnicode_eq]
      by_cases heq : c = c2
      · rw [heq, Function.update_self]
      · rw [Function.update_of_ne fun hpair => heq (congrArg Prod.snd hpair)]
        exact h.toUnicode c hc
    · by_cases heq : some c2.val = some u
      · have hself := (hwalk hu).trans (if_pos heq)
        have hne : (0 : Byte).val <<< 8 + c2.val ≠ badvalFromTable := by
          rw [Fin.val_zero, Nat.zero_shiftLeft, badvalFromTable]
          omega
        rw [codepointOf_of_walk (hself.trans_ne hne), hself, Charset.octets_combined, ← Option.some.inj heq]
        exact congrArg (fun c => some ((0 : Byte), c)) (Fin.ext (Nat.mod_eq_of_lt c2.isLt).symm)
      · have hother := (hwalk hu).trans (if_neg heq)
        rw [codepointOf_of_walk (hother.trans_ne (h.walk_ne hu)), hother, ← codepointOf_of_walk (h.walk_ne hu)]
        exact h.codepointOf u hu
  | hold c1 offset len =>
    obtain ⟨-, hs⟩ := Option.ite_none_right_eq_some.mp hs
    obtain rfl := Option.some.inj hs
    refine ⟨h.limits, h.loaded, fun c hc => ?_, h.codepointOf⟩
    exact (Charset.codeOf_ensure cs.toUnicodeTable c1 offset len true 0 c).trans (h.toUnicode c hc)
  | autoloaded =>
    obtain ⟨hauto, -⟩ := Option.ite_none_right_eq_some.mp hs
    exact absurd (h.loaded.symm.trans hauto.1) Bool.false_ne_true
  | autoloadFails =>
    obtain ⟨hauto, -⟩ := Option.ite_none_right_eq_some.mp hs
    exact absurd (h.loaded.symm.trans hauto.1) Bool.false_ne_true

def ConvertsAscii (cs : Charset) : Prop := ∃ u ≤ 127, (cs.codepointOf u).isSome

/-- A call on the tables gives an ASCII code to a codepoint. -/
def setsAscii : CharsetOp → Bool
  | .set code _ _ => Charset.asciiCode code
  | _ => false

theorem convertsAscii_of_step {cs cs' : Charset} {op : CharsetOp} (h : Charset.AsciiCounted cs)
    (hop : setsAscii op = false) (hs : cs.step op = some cs') (hascii : ConvertsAscii cs') : ConvertsAscii cs := by
  cases op with
  | set code c1 c2 =>
    obtain ⟨u, hu, hsome⟩ := hascii
    obtain ⟨⟨-, hcode⟩, hs⟩ := Option.ite_none_right_eq_some.mp hs
    have hsets := Charset.sets_of_setUnicodeConversion hs
    have hnew : ∀ v ∈ code, v < 2 ^ 32 := by
      rintro v rfl
      exact Charset.lt_of_validUnicodeCodepointP hcode
    have hold : ∀ v ∈ cs.oldCode (c1, c2), v < 2 ^ 32 := fun v hv => h.lt (Charset.oldCode_eq_some hv).2
    rcases hsets.isSome_codepointOf (by omega) hnew hold hsome with heq | ⟨-, hbefore⟩
    · rw [heq] at hop
      exact absurd (hop.symm.trans (decide_eq_true hu)) Bool.false_ne_true
    · exact ⟨u, hu, hbefore⟩
  | hold c1 offset len =>
    obtain ⟨-, hs⟩ := Option.ite_none_right_eq_some.mp hs
    obtain rfl := Option.some.inj hs
    exact hascii
  | autoloaded =>
    obtain ⟨-, hs⟩ := Option.ite_none_right_eq_some.mp hs
    obtain rfl := Option.some.inj hs
    exact hascii
  | autoloadFails =>
    obtain ⟨-, hs⟩ := Option.ite_none_right_eq_some.mp hs
    obtain rfl := Option.some.inj hs
    exact hascii

namespace PrecedenceState

variable {env : Charsets} {s s' : PrecedenceState} {op : PrecedenceOp} {ops : List PrecedenceOp}
  {code charset : ℕ} {predicate : Option (ℕ → Bool)} {precdyn : List ℕ}

def beforeAscii (env : Charsets) (precdyn : List ℕ) : List ℕ := precdyn.takeWhile (· ≠ env.ascii)

/-- A call after which the flags still tell of every charset before ASCII that converts an ASCII
code. -/
def FlagsTell (env : Charsets) (s : PrecedenceState) : PrecedenceOp → Prop
  | .addCharsetToPrecedenceArray charset =>
    charset ∉ s.charsetsSeen → charset ≠ env.ascii → ConvertsAscii (s.charset charset) →
      env.ascii ∉ s.precarr.precdyn → s.precarr.seenAscii → s.precarr.hasOverridingAscii
  | .table charset op =>
    setsAscii op → charset ∈ beforeAscii env s.precarr.precdyn → s.precarr.hasOverridingAscii
  | _ => True

/-- No charset before ASCII converts an ASCII code where the shortcut is taken. -/
structure Shortcut (env : Charsets) (s : PrecedenceState) : Prop where
  counted : ∀ charset, Charset.AsciiCounted (s.charset charset)
  ascii : AsciiTable (s.charset env.ascii)
  before : s.precarr.hasOverridingAscii = false → ∀ charset ∈ beforeAscii env s.precarr.precdyn,
    ¬ ConvertsAscii (s.charset charset)

theorem mem_beforeAscii_append (h : charset ∈ beforeAscii env (precdyn ++ [code])) :
    charset ∈ beforeAscii env precdyn ∨ charset = code ∧ code ≠ env.ascii ∧ env.ascii ∉ precdyn := by
  rw [beforeAscii, List.takeWhile_append] at h
  split_ifs at h with hall
  · have hsame : beforeAscii env precdyn = precdyn :=
      List.IsPrefix.eq_of_length (List.takeWhile_prefix _) hall
    rcases List.mem_append.mp h with hold | hnew
    · exact .inl (hsame.symm ▸ hold)
    · have hne := List.mem_takeWhile_imp hnew
      rw [List.mem_singleton.mp ((List.takeWhile_sublist _).subset hnew)] at hne ⊢
      refine .inr ⟨rfl, of_decide_eq_true hne, fun hascii => ?_⟩
      rw [← hsame] at hascii
      have hself := List.mem_takeWhile_imp hascii
      exact absurd rfl (of_decide_eq_true hself)
  · exact .inl h

theorem Shortcut.add (h : Shortcut env s) (hok : FlagsTell env s (.addCharsetToPrecedenceArray charset)) :
    Shortcut env (s.addCharsetToPrecedenceArray env charset) := by
  rw [PrecedenceState.addCharsetToPrecedenceArray]
  dsimp only
  split_ifs with hseen hascii hmappings
  · exact h
  · refine ⟨h.counted, h.ascii, fun hflag c hmem => ?_⟩
    rcases mem_beforeAscii_append hmem with hold | ⟨-, hne, -⟩
    · exact h.before hflag c hold
    · exact absurd hascii hne
  · exact ⟨h.counted, h.ascii, fun hflag => absurd hflag.symm Bool.false_ne_true⟩
  · refine ⟨h.counted, h.ascii, fun hflag c hmem => ?_⟩
    rcases mem_beforeAscii_append hmem with hold | ⟨rfl, hne, hnotmem⟩
    · exact h.before hflag c hold
    · intro hconverts
      have hcount : (s.charset c).numberOfAsciiMappings > 0 := by
        obtain ⟨u, hu, hsome⟩ := hconverts
        by_contra hzero
        rw [(h.counted c).codepointOf_eq_none (Nat.eq_zero_of_not_pos hzero) hu] at hsome
        exact absurd hsome Bool.false_ne_true
      have hstale : s.precarr.seenAscii = true := by
        by_contra hnot
        exact hmappings ⟨hcount, hnot⟩
      have hset := hok hseen hne hconverts hnotmem hstale
      exact absurd (hflag.symm.trans hset) Bool.false_ne_true

theorem Shortcut.table {cop : CharsetOp} (h : Shortcut env s) (hok : FlagsTell env s (.table charset cop))
    (hs : s.step env (.table charset cop) = some s') : Shortcut env s' := by
  obtain ⟨hascii, hs⟩ := Option.ite_none_left_eq_some.mp hs
  obtain ⟨cs, hcs, rfl⟩ := Option.map_eq_some_iff.mp hs
  refine ⟨fun other => ?_, ?_, fun hflag other hmem => ?_⟩ <;> dsimp only
  · by_cases heq : other = charset
    · subst heq
      rw [Function.update_self]
      exact (h.counted other).step hcs
    · rw [Function.update_of_ne heq]
      exact h.counted other
  · by_cases heq : env.ascii = charset
    · subst heq
      rw [Function.update_self]
      exact h.ascii.step (not_not.mp fun hop => hascii ⟨rfl, hop⟩) hcs
    · rw [Function.update_of_ne heq]
      exact h.ascii
  · have hbefore := h.before hflag other hmem
    by_cases heq : other = charset
    · subst heq
      rw [Function.update_self]
      refine mt (convertsAscii_of_step (h.counted other) ?_ hcs) hbefore
      by_contra hsets
      have hset := hok (Bool.not_eq_false _ ▸ hsets) hmem
      exact absurd (hflag.symm.trans hset) Bool.false_ne_true
    · rw [Function.update_of_ne heq]
      exact hbefore

theorem Shortcut.step (h : Shortcut env s) (hok : FlagsTell env s op) (hs : s.step env op = some s') :
    Shortcut env s' := by
  cases op with
  | resetPrecedenceArray =>
    obtain rfl := Option.some.inj hs
    exact ⟨h.counted, h.ascii, fun _ _ hmem => absurd hmem List.not_mem_nil⟩
  | beginPrecedenceArrayGeneration =>
    obtain rfl := Option.some.inj hs
    exact ⟨h.counted, h.ascii, h.before⟩
  | addCharsetToPrecedenceArray charset =>
    obtain rfl := Option.some.inj hs
    exact h.add hok
  | table charset op => exact h.table hok hs

theorem searchArray_eq (hascii : AsciiTable (s.charset env.ascii)) (hcode : code ≤ 127)
    (hbefore : ∀ charset ∈ beforeAscii env precdyn, ¬ ConvertsAscii (s.charset charset))
    (hmem : env.ascii ∈ precdyn) (hpasses : passes predicate env.ascii) {found : Option (ℕ × Byte × Byte)}
    (h : s.searchArray code predicate precdyn = some found) : found = some (env.ascii, 0, byte code) := by
  induction precdyn with
  | nil => exact absurd hmem List.not_mem_nil
  | cons charset precdyn ih =>
    rw [searchArray] at h
    by_cases heq : charset = env.ascii
    · rw [heq, if_pos hpasses, Charset.getUnicodeConversion1,
        if_neg (by rw [hascii.loaded]; exact Bool.false_ne_true), Option.bind_some, hascii.codepointOf code hcode] at h
      exact (Option.some.inj h).symm
    · have hfirst : beforeAscii env (charset :: precdyn) = charset :: beforeAscii env precdyn :=
        List.takeWhile_cons_of_pos (decide_eq_true heq)
      rw [hfirst] at hbefore
      obtain ⟨hnone, hlater⟩ := List.forall_mem_cons.mp hbefore
      have hrest := ih hlater (List.mem_of_ne_of_mem (Ne.symm heq) hmem)
      split_ifs at h
      · obtain ⟨conversion, hconversion, h⟩ := Option.bind_eq_some_iff.mp h
        rw [Charset.getUnicodeConversion1] at hconversion
        have hconverted : conversion = none := by
          split_ifs at hconversion
          · exact (Option.some.inj hconversion).symm
          · rw [← Option.some.inj hconversion, ← Option.not_isSome_iff_eq_none]
            exact fun hsome => hnone ⟨code, hcode, hsome⟩
        subst hconverted
        exact hrest h
      · exact hrest h

theorem searchArray_isSome (hloaded : ∀ charset ∈ precdyn, (s.charset charset).doAutoload = true →
    (s.charset charset).autoloadFailed = true) : (s.searchArray code predicate precdyn).isSome := by
  induction precdyn with
  | nil => rfl
  | cons charset precdyn ih =>
    obtain ⟨hfirst, hlater⟩ := List.forall_mem_cons.mp hloaded
    have hreturns : (Charset.getUnicodeConversion1 code (s.charset charset)).isSome := by
      rw [Charset.getUnicodeConversion1]
      split_ifs with hauto hfailed
      · rfl
      · exact absurd (hfirst hauto) hfailed
      · rfl
    obtain ⟨conversion, hconversion⟩ := Option.isSome_iff_exists.mp hreturns
    rw [searchArray, hconversion, Option.bind_some]
    split_ifs
    · cases conversion with
      | none => exact ih hlater
      | some c => rfl
    · exact ih hlater

structure Starts (env : Charsets) (s : PrecedenceState) : Prop where
  precarr : s.precarr = allocatePrecedenceArray
  counted : ∀ charset, Charset.AsciiCounted (s.charset charset)
  ascii : AsciiTable (s.charset env.ascii)

/-- In a run whose calls keep what the flags tell, the shortcut finds what the search finds. -/
theorem filteredUnicodeToCharsetCodepoint_eq {s₀ : PrecedenceState} (hstart : Starts env s₀)
    (hrun : Run (PrecedenceState.step env) (FlagsTell env) s₀ ops s) (hmem : env.ascii ∈ s.precarr.precdyn)
    (hcode : code ≤ 0x7f) (predicate : Option (ℕ → Bool)) :
    (∀ found, s.unicodeToCharsetCodepointRaw env code predicate = some found →
        s.filteredUnicodeToCharsetCodepoint env code predicate = some found) ∧
      ((∀ charset ∈ s.precarr.precdyn, (s.charset charset).doAutoload = true →
        (s.charset charset).autoloadFailed = true) → (s.unicodeToCharsetCodepointRaw env code predicate).isSome) := by
  have hshortcut : Shortcut env s := by
    refine hrun.invariant ⟨hstart.counted, hstart.ascii, fun _ charset hcharset => ?_⟩ fun _ _ _ h hok hs =>
      h.step hok hs
    rw [hstart.precarr] at hcharset
    exact absurd hcharset List.not_mem_nil
  constructor
  · intro found hfound
    rw [filteredUnicodeToCharsetCodepoint]
    split_ifs with htaken
    · obtain ⟨-, hflag, hpasses⟩ := htaken
      obtain ⟨searched, hsearched, hfound⟩ := Option.map_eq_some_iff.mp hfound
      have hbefore := hshortcut.before (Bool.not_eq_true _ ▸ hflag)
      rw [← hfound, searchArray_eq hshortcut.ascii hcode hbefore hmem hpasses hsearched, Option.some_or]
    · exact hfound
  · intro hloaded
    rw [unicodeToCharsetCodepointRaw, Option.isSome_map]
    exact searchArray_isSome hloaded

end PrecedenceState

def asciiCodes : Fin 256 → FromUnicodeTable 3 := fun u4 =>
  if u4 = 0 then some fun u3 => if u3 = 0 then some fun u2 => if u2 = 0 then
    some fun u1 => if u1.val ≤ 127 then u1.val else badvalFromTable else none else none else none

def asciiCharset : Charset :=
  { ascii.toCharset with fromUnicodeTable := asciiCodes }

theorem toUnicode_asciiCharset (c : Byte × Byte) :
    asciiCharset.toUnicode c = if c.1 = 0 ∧ c.2.val < 128 then some c.2.val else none := code_asciiTable c.1 c.2

theorem asciiTable_asciiCharset : AsciiTable asciiCharset where
  limits c1 c2 h := by
    have hlimits : (decide (0 ≤ c1.val) && decide (c1.val < 0 + 1) && decide (0 ≤ c2.val) &&
        decide (c2.val < 0 + 128)) = true := h
    simp only [Bool.and_eq_true, decide_eq_true_eq] at hlimits
    exact ⟨Fin.ext (by rw [Fin.val_zero]; omega), by omega⟩
  loaded := rfl
  toUnicode c hc := by
    rw [toUnicode_asciiCharset, if_pos ⟨rfl, Nat.lt_succ_of_le hc⟩]
  codepointOf u hu := by
    have hall : ∀ u : Fin 128, asciiCharset.codepointOf u.val = some (0, byte u.val) := by decide +kernel
    exact hall ⟨u, Nat.lt_succ_of_le hu⟩

theorem asciiCounted_asciiCharset : Charset.AsciiCounted asciiCharset where
  lt h := by
    rw [toUnicode_asciiCharset] at h
    obtain ⟨hc, h⟩ := Option.ite_none_right_eq_some.mp h
    have hcode := Option.some.inj h
    omega
  card_le := by
    have hcodes : Charset.outdatedCodes asciiCharset = ∅ := by
      refine Finset.eq_empty_of_forall_notMem fun u hu => ?_
      obtain ⟨hlt, -, hnone⟩ := Charset.mem_outdatedCodes.mp hu
      apply hnone (0, byte u)
      have hbyte : (byte u).val = u := Nat.mod_eq_of_lt (by omega)
      rw [toUnicode_asciiCharset, if_pos ⟨rfl, hbyte.trans_lt hlt⟩, hbyte]
    have hpoints : Charset.asciiCodepoints asciiCharset.toUnicode ⊆
        (Finset.range 128).image fun u => ((0 : Byte), byte u) := by
      intro c hc
      rw [Charset.mem_asciiCodepoints, toUnicode_asciiCharset] at hc
      split_ifs at hc with hrange
      · refine Finset.mem_image.mpr ⟨c.2.val, Finset.mem_range.mpr hrange.2, ?_⟩
        exact Prod.ext hrange.1.symm (Fin.ext (Nat.mod_eq_of_lt c.2.isLt))
      · exact absurd hc Bool.false_ne_true
    rw [hcodes, Finset.card_empty]
    exact (Finset.card_le_card hpoints).trans (Finset.card_image_le.trans (Finset.card_range 128).le)

def sampleState : PrecedenceState where
  charset n := if n = 0 then asciiCharset else Charset.initLatin
  charsetsSeen := []
  precarr := allocatePrecedenceArray

theorem starts_sampleState : PrecedenceState.Starts sampleCharsets sampleState where
  precarr := rfl
  counted n := by
    rw [sampleState]
    dsimp only
    split_ifs
    · exact asciiCounted_asciiCharset
    · exact Charset.asciiCounted_init _ _ _ _
  ascii := asciiTable_asciiCharset

theorem filteredUnicodeToCharsetCodepoint_eq_sampleState : ∃ s,
    Run (PrecedenceState.step sampleCharsets) (PrecedenceState.FlagsTell sampleCharsets) sampleState
        [.addCharsetToPrecedenceArray 1, .addCharsetToPrecedenceArray 0, .table 1 (.set (some 0xe9) 0 65)] s ∧
      s.unicodeToCharsetCodepointRaw sampleCharsets 0x41 none =
        s.filteredUnicodeToCharsetCodepoint sampleCharsets 0x41 none := by
  obtain ⟨cs, hcs⟩ := Option.isSome_iff_exists.mp
    (show (Charset.initLatin.step (.set (some 0xe9) 0 65)).isSome = true by decide +kernel)
  have hset : Charset.setUnicodeConversion (some 0xe9) Charset.initLatin 0 65 = some cs := by
    rw [Charset.step] at hcs
    exact (Option.ite_none_right_eq_some.mp hcs).2
  have hauto : cs.doAutoload = false := (Charset.sets_of_setUnicodeConversion hset).doAutoload_eq
  obtain ⟨s, hs⟩ : ∃ s, s = (sampleState.addCharsetToPrecedenceArray sampleCharsets 1).addCharsetToPrecedenceArray
      sampleCharsets 0 := ⟨_, rfl⟩
  have hrun : Run (PrecedenceState.step sampleCharsets) (PrecedenceState.FlagsTell sampleCharsets) sampleState
      [.addCharsetToPrecedenceArray 1, .addCharsetToPrecedenceArray 0, .table 1 (.set (some 0xe9) 0 65)]
      { s with charset := Function.update s.charset 1 cs } := by
    subst hs
    refine .cons (fun _ _ _ _ hseen => absurd hseen Bool.false_ne_true) rfl
      (.cons (fun _ hne => absurd rfl hne) rfl (.single (fun hascii => absurd hascii Bool.false_ne_true) ?_))
    have hlatin : ((sampleState.addCharsetToPrecedenceArray sampleCharsets 1).addCharsetToPrecedenceArray
        sampleCharsets 0).charset 1 = Charset.initLatin := rfl
    rw [PrecedenceState.step, if_neg fun h => absurd h.1 Nat.one_ne_zero, hlatin, hcs]
    rfl
  have hprecdyn : s.precarr.precdyn = [1, 0] := by rw [hs]; rfl
  have h := PrecedenceState.filteredUnicodeToCharsetCodepoint_eq starts_sampleState hrun
    (by rw [hprecdyn]; exact List.mem_cons_of_mem 1 List.mem_cons_self) (Nat.le_add_left 0x41 62) none
  refine ⟨_, hrun, ?_⟩
  have hloaded : ∀ charset ∈ s.precarr.precdyn, (Function.update s.charset 1 cs charset).doAutoload = true →
      (Function.update s.charset 1 cs charset).autoloadFailed = true := by
    rw [hprecdyn]
    refine List.forall_mem_cons.mpr ⟨fun hwaits => ?_, List.forall_mem_singleton.mpr fun hwaits => ?_⟩
    · rw [Function.update_self, hauto] at hwaits
      exact absurd hwaits Bool.false_ne_true
    · rw [Function.update_of_ne Nat.zero_ne_one, hs] at hwaits
      exact absurd hwaits Bool.false_ne_true
  obtain ⟨found, hfound⟩ := Option.isSome_iff_exists.mp (h.2 hloaded)
  exact hfound.trans (h.1 found hfound).symm

/-- An ASCII code is set in the charset before ASCII: the search finds it there, the shortcut does not. -/
theorem filteredUnicodeToCharsetCodepoint_overridden : ∃ s,
    Run (PrecedenceState.step sampleCharsets) anyStep sampleState
        [.addCharsetToPrecedenceArray 1, .addCharsetToPrecedenceArray 0, .table 1 (.set (some 0x41) 0 66)] s ∧
      sampleCharsets.ascii ∈ s.precarr.precdyn ∧
      s.unicodeToCharsetCodepointRaw sampleCharsets 0x41 none = some (some (1, 0, 66)) ∧
      s.filteredUnicodeToCharsetCodepoint sampleCharsets 0x41 none = some (some (0, 0, 0x41)) := by
  refine exists_run_of_exec ?_
  decide +kernel

end XEmacs.Coding.Multibyte
