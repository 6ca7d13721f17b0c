import Mathlib.Data.List.Pairwise
import XEmacs.Coding.Multibyte
import XEmacs.Lib.Failure

/-! What the lists of charsets that `multibyte_putprop` accepts are like: a byte that is a character
by itself starts no character of two bytes, and a character that has been decoded is encoded as the
bytes it came from. -/

namespace XEmacs.Coding.Multibyte

open Lib
open Unicode (Byte byte byteAsciiP unicodeErrorOctetRangeStart unicodeErrorOctetCodeP)

variable {env : Charsets} {precarr : PrecedenceArray} {charset ocharset : ℕ} {charsets value : List ℕ}
  {b c c1 c2 : Byte} {dimension ich : ℕ}

namespace Charsets

def Apart (env : Charsets) (ocharset charset : ℕ) : Prop :=
  ocharset ≠ charset ∧ env.charsetsOverlap charset ocharset = false

theorem apart_of_checkCharset (h : env.checkCharset charset charsets = .ok ()) :
    ∀ ocharset ∈ charsets, Apart env ocharset charset := by
  induction charsets with
  | nil => exact fun _ h => absurd h List.not_mem_nil
  | cons ocharset charsets ih =>
    rw [checkCharset] at h
    split_ifs at h with heq hoverlap
    intro other hother
    rcases List.mem_cons.mp hother with rfl | hother
    · exact ⟨heq, Bool.eq_false_iff.mpr hoverlap⟩
    · exact ih h other hother

theorem apart_of_checkCharsets {r : List ℕ} (hapart : charsets.Pairwise (Apart env))
    (h : env.checkCharsets charsets value = .ok r) : r = charsets ++ value ∧ r.Pairwise (Apart env) := by
  induction value generalizing charsets with
  | nil =>
    obtain rfl := Except.ok.inj h
    exact ⟨(List.append_nil _).symm, hapart⟩
  | cons charset value ih =>
    rw [checkCharsets] at h
    obtain ⟨⟨⟩, hcheck, h⟩ := exists_of_bind_eq_ok h
    have happend : (charsets ++ [charset]).Pairwise (Apart env) := by
      refine List.pairwise_append.mpr ⟨hapart, List.pairwise_singleton _ _, fun o ho a ha => ?_⟩
      rw [List.mem_singleton.mp ha]
      exact apart_of_checkCharset hcheck o ho
    obtain ⟨hr, hpair⟩ := ih happend h
    exact ⟨by rw [hr, List.append_assoc, List.singleton_append], hpair⟩

structure Flags (env : Charsets) (precarr : PrecedenceArray) : Prop where
  seen : precarr.seenAscii ↔ env.ascii ∈ precarr.precdyn
  overriding : precarr.hasOverridingAscii = false → ∀ charset ∈ precarr.precdyn, charset ≠ env.ascii →
    0 < (env.charset charset).numberOfAsciiMappings → env.ascii ∈ precarr.precdyn

theorem flags_allocate : Flags env allocatePrecedenceArray :=
  ⟨iff_of_false Bool.false_ne_true List.not_mem_nil, fun _ _ h => absurd h List.not_mem_nil⟩

theorem addCharset_precdyn (hnew : charset ∉ precarr.precdyn) :
    (env.addCharsetToPrecedenceArray precarr charset).precdyn = precarr.precdyn ++ [charset] := by
  rw [addCharsetToPrecedenceArray, if_neg hnew]
  simp only
  split_ifs <;> rfl

theorem Flags.addCharset (h : Flags env precarr) (hnew : charset ∉ precarr.precdyn) :
    Flags env (env.addCharsetToPrecedenceArray precarr charset) := by
  have hprecdyn := @addCharset_precdyn env _ _ hnew
  rw [addCharsetToPrecedenceArray, if_neg hnew] at hprecdyn ⊢
  simp only at hprecdyn ⊢
  split_ifs at hprecdyn ⊢ with hascii hmappings
  · have hmem : env.ascii ∈ precarr.precdyn ++ [charset] := List.mem_append_right _ (hascii ▸ List.mem_singleton_self _)
    exact ⟨iff_of_true rfl hmem, fun _ _ _ _ _ => hmem⟩
  · refine ⟨?_, fun hover => absurd hover (by simp)⟩
    simp only [List.mem_append, List.mem_singleton, h.seen, Ne.symm hascii, or_false]
  · refine ⟨?_, fun hover other hother hne hcount => ?_⟩
    · simp only [List.mem_append, List.mem_singleton, h.seen, Ne.symm hascii, or_false]
    · rcases List.mem_append.mp hother with hold | hsame
      · exact List.mem_append_left _ (h.overriding hover other hold hne hcount)
      · rw [List.mem_singleton.mp hsame] at hcount
        have hseen : precarr.seenAscii = true := by
          by_contra hseen
          exact hmappings ⟨hcount, hseen⟩
        exact List.mem_append_left _ (h.seen.mp hseen)

theorem flags_foldl (h : Flags env precarr) (hnodup : (precarr.precdyn ++ charsets).Nodup) :
    Flags env (charsets.foldl env.addCharsetToPrecedenceArray precarr) ∧
      (charsets.foldl env.addCharsetToPrecedenceArray precarr).precdyn = precarr.precdyn ++ charsets := by
  induction charsets generalizing precarr with
  | nil => exact ⟨h, (List.append_nil _).symm⟩
  | cons charset charsets ih =>
    have hnew : charset ∉ precarr.precdyn := fun hmem =>
      (List.nodup_append.mp hnodup).2.2 charset hmem charset List.mem_cons_self rfl
    have hprecdyn := @addCharset_precdyn env _ _ hnew
    have hnodup' : ((env.addCharsetToPrecedenceArray precarr charset).precdyn ++ charsets).Nodup := by
      rw [hprecdyn, List.append_assoc]
      exact hnodup
    obtain ⟨hflags, hall⟩ := ih (h.addCharset hnew) hnodup'
    refine ⟨hflags, ?_⟩
    rw [List.foldl_cons, hall, hprecdyn, List.append_assoc, List.singleton_append]

structure Accepted (env : Charsets) (precarr : PrecedenceArray) : Prop extends Flags env precarr where
  apart : precarr.precdyn.Pairwise (Apart env)

theorem accepted_of_multibytePutprop (h : env.multibytePutprop value = .ok precarr) :
    precarr.precdyn = value ∧ Accepted env precarr := by
  rw [multibytePutprop] at h
  obtain ⟨charsets, hcheck, h⟩ := exists_of_bind_eq_ok h
  obtain rfl := Except.ok.inj h
  obtain ⟨rfl, hapart⟩ := apart_of_checkCharsets List.Pairwise.nil hcheck
  have hnodup : (allocatePrecedenceArray.precdyn ++ charsets).Nodup := hapart.imp fun h => h.1
  obtain ⟨hflags, hprecdyn⟩ := flags_foldl (@flags_allocate env) hnodup
  refine ⟨hprecdyn, hflags, ?_⟩
  rw [hprecdyn]
  exact hapart

theorem rangesOverlap_iff {from1 to1 from2 to2 : ℕ} :
    rangesOverlap from1 to1 from2 to2 = true ↔ from2 ≤ to1 ∧ from1 ≤ to2 := by
  simp only [rangesOverlap, Bool.not_eq_true', Bool.or_eq_false_iff, decide_eq_false_iff_not, not_lt]

theorem rangesOverlap_comm (from1 to1 from2 to2 : ℕ) :
    rangesOverlap from1 to1 from2 to2 = rangesOverlap from2 to2 from1 to1 :=
  Bool.eq_iff_iff.mpr (by rw [rangesOverlap_iff, rangesOverlap_iff, and_comm])

theorem charsetsOverlap_comm (cseta csetb : ℕ) : env.charsetsOverlap cseta csetb = env.charsetsOverlap csetb cseta := by
  simp only [charsetsOverlap]
  rw [rangesOverlap_comm, rangesOverlap_comm (rectangle (env.charset cseta)).2.1]

theorem Accepted.not_overlap (h : Accepted env precarr) (hmem : charset ∈ precarr.precdyn)
    (homem : ocharset ∈ precarr.precdyn) (hne : charset ≠ ocharset) :
    env.charsetsOverlap charset ocharset = false := by
  have hsymm : Std.Symm fun a b => env.charsetsOverlap a b = false :=
    ⟨fun a b h => (charsetsOverlap_comm b a).trans h⟩
  have hapart : precarr.precdyn.Pairwise fun a b => env.charsetsOverlap a b = false :=
    h.apart.imp fun {a b} h => (charsetsOverlap_comm a b).trans h.2
  exact hapart.forall hmem homem hne

theorem valid_iff {cs : LispCharset} : cs.validCharsetCodepointP c1 c2 = true ↔
    (cs.minCode 0 ≤ c1 ∧ c1 ≤ cs.maxCode 0) ∧ cs.minCode 1 ≤ c2 ∧ c2 ≤ cs.maxCode 1 := by
  have h0 := cs.chars_pos 0
  have h1 := cs.chars_pos 1
  simp only [Charset.validCharsetCodepointP, Bool.and_eq_true, decide_eq_true_eq, LispCharset.minCode,
    LispCharset.maxCode]
  omega

theorem Accepted.not_lead (h : Accepted env precarr) (hmem : charset ∈ precarr.precdyn)
    (hdim : (env.charset charset).dimension = 1) (hmin : (env.charset charset).minCode 1 ≤ b)
    (hmax : b ≤ (env.charset charset).maxCode 1) (c : Byte) : env.tryToDeriveCharacter b c 2 precarr = none := by
  refine List.findSome?_eq_none_iff.mpr fun ocharset homem => if_neg fun hvalid => ?_
  have hne : charset ≠ ocharset := by
    rintro rfl
    exact absurd (hdim.symm.trans hvalid.1) (by decide)
  have hoverlap := h.not_overlap hmem homem hne
  obtain ⟨⟨hmin0, hmax0⟩, hmin1, hmax1⟩ := valid_iff.mp hvalid.2
  have hodim : ¬ (env.charset ocharset).dimension = 1 := by rw [hvalid.1]; decide
  have hover : env.charsetsOverlap charset ocharset = true := by
    simp only [charsetsOverlap, rectangle, if_pos hdim, if_neg hodim, Bool.and_eq_true, rangesOverlap_iff]
    omega
  exact absurd (hover.symm.trans hoverlap) Bool.noConfusion

theorem derive_eq_some (h : env.tryToDeriveCharacter c1 c2 dimension precarr = some ich) :
    ∃ charset ∈ precarr.precdyn, (env.charset charset).dimension = dimension ∧
      (env.charset charset).validCharsetCodepointP c1 c2 ∧
      (env.charset charset).charsetCodepointToIchar c1 c2 = some ich := by
  obtain ⟨charset, hmem, hcode⟩ := List.exists_of_findSome?_eq_some h
  obtain ⟨⟨hdim, hvalid⟩, hcode⟩ := Option.ite_none_right_eq_some.mp hcode
  exact ⟨charset, hmem, hdim, hvalid, hcode⟩

theorem Accepted.not_lead_of_derive (h : Accepted env precarr)
    (hone : env.tryToDeriveCharacter 0 b 1 precarr = some ich) (c : Byte) :
    env.tryToDeriveCharacter b c 2 precarr = none := by
  obtain ⟨charset, hmem, hdim, hvalid, -⟩ := derive_eq_some hone
  obtain ⟨-, hmin, hmax⟩ := valid_iff.mp hvalid
  exact h.not_lead hmem hdim hmin hmax c

theorem byteAsciiP_iff : byteAsciiP b = true ↔ b.val ≤ 127 :=
  decide_eq_true_iff.trans Nat.lt_succ_iff

theorem skipAsciiP_iff : skipAsciiP precarr = true ↔
    precarr.seenAscii = true ∧ precarr.hasOverridingAscii = false := by
  simp only [skipAsciiP, Bool.and_eq_true, Bool.not_eq_true']

theorem Accepted.not_lead_of_ascii (h : Accepted env precarr) (hskip : skipAsciiP precarr) (hb : byteAsciiP b)
    (c : Byte) : env.tryToDeriveCharacter b c 2 precarr = none := by
  have hmem := h.seen.mp (skipAsciiP_iff.mp hskip).1
  have hle := byteAsciiP_iff.mp hb
  refine h.not_lead hmem env.ascii_dimension ?_ ?_ c
  · rw [env.ascii_limits.1]
    exact Nat.zero_le _
  · rw [env.ascii_limits.2]
    exact hle

/-- The tables of each charset are inverse to each other, and no character is in two charsets. -/
structure Inverse (env : Charsets) (charsets : List ℕ) : Prop where
  inverse : ∀ charset ∈ charsets, ∀ {c1 c2 u}, Coding.validUnicodeCodepointP u →
    ((env.charset charset).charsetCodepointToIchar c1 c2 = some u ↔
      (env.charset charset).unicodeConversion u = some (c1, c2))
  unshared : ∀ charset ∈ charsets, ∀ ocharset ∈ charsets, ∀ {u}, Coding.validUnicodeCodepointP u →
    ((env.charset charset).unicodeConversion u).isSome → ((env.charset ocharset).unicodeConversion u).isSome →
    charset = ocharset

theorem codeOf_eq_some {cs : LispCharset} (h : cs.charsetCodepointToIchar c1 c2 = some ich) :
    cs.codeOf c1 c2 = some ich := by
  rw [LispCharset.charsetCodepointToIchar, Charset.charsetCodepointToUnicode,
    Charset.charsetCodepointToUnicodeRaw1] at h
  split_ifs at h
  · exact absurd h (Option.some_ne_none _).symm
  · exact absurd h (Option.some_ne_none _).symm
  · exact h

theorem Inverse.conversion (h : Inverse env charsets) (hmem : charset ∈ charsets)
    (hcode : (env.charset charset).charsetCodepointToIchar c1 c2 = some ich) :
    Coding.validUnicodeCodepointP ich ∧ (env.charset charset).unicodeConversion ich = some (c1, c2) := by
  have hvalid := (env.charset charset).valid (codeOf_eq_some hcode)
  exact ⟨hvalid, (h.inverse charset hmem hvalid).mp hcode⟩

theorem byte_of_le {n : ℕ} (h : n ≤ 127) : (byte n).val = n := Nat.mod_eq_of_lt (by omega)

theorem Accepted.eq_ascii (h : Accepted env precarr) (hinv : Inverse env precarr.precdyn)
    (hmem : charset ∈ precarr.precdyn) (hcode : (env.charset charset).charsetCodepointToIchar c1 c2 = some ich)
    (hle : ich ≤ 127) (hover : precarr.hasOverridingAscii = false) : charset = env.ascii := by
  by_contra hne
  have hcount := (env.charset charset).counted (codeOf_eq_some hcode) hle
  have hascii := h.overriding hover charset hmem hne hcount
  obtain ⟨hvalid, hconv⟩ := hinv.conversion hmem hcode
  have hbyte : byteAsciiP (byte ich) := byteAsciiP_iff.mpr (by rwa [byte_of_le hle])
  have hcode' := env.ascii_codes (byte ich) hbyte
  rw [byte_of_le hle] at hcode'
  have hconv' := (hinv.inverse env.ascii hascii hvalid).mp hcode'
  exact hne (hinv.unshared charset hmem env.ascii hascii hvalid (by rw [hconv]; rfl) (by rw [hconv']; rfl))

theorem Accepted.codepoint_of_derive (h : Accepted env precarr) (hinv : Inverse env precarr.precdyn)
    (hderive : env.tryToDeriveCharacter c1 c2 dimension precarr = some ich) :
    ∃ charset, (env.charset charset).dimension = dimension ∧
      env.icharToCharsetCodepoint ich precarr = some (charset, c1, c2) := by
  obtain ⟨charset, hmem, hdim, hvalid, hcode⟩ := derive_eq_some hderive
  refine ⟨charset, hdim, ?_⟩
  rw [icharToCharsetCodepoint]
  split_ifs with hshort
  · obtain rfl := h.eq_ascii hinv hmem hcode hshort.1 (Bool.eq_false_iff.mpr hshort.2)
    obtain ⟨⟨-, hmax0⟩, -, hmax1⟩ := valid_iff.mp hvalid
    have hrow := (env.charset env.ascii).row env.ascii_dimension
    rw [LispCharset.maxCode, hrow.1, hrow.2] at hmax0
    rw [env.ascii_limits.2] at hmax1
    have hc1 : c1 = 0 := Fin.ext (Nat.le_zero.mp hmax0)
    have hc2 : byteAsciiP c2 := byteAsciiP_iff.mpr hmax1
    subst hc1
    obtain rfl := Option.some.inj ((env.ascii_codes c2 hc2).symm.trans hcode)
    rw [Fin.ext (byte_of_le hmax1)]
  · obtain ⟨hcodepoint, hconv⟩ := hinv.conversion hmem hcode
    rw [unicodeToCharsetCodepointRaw, Option.or_eq_some_iff]
    left
    cases hfind : precarr.precdyn.findSome? fun charset =>
        ((env.charset charset).unicodeConversion ich).map fun c => (charset, c) with
    | none =>
      have hnone := List.findSome?_eq_none_iff.mp hfind charset hmem
      rw [hconv] at hnone
      exact absurd hnone (Option.some_ne_none _)
    | some found =>
      obtain ⟨ocharset, homem, hfound⟩ := List.exists_of_findSome?_eq_some hfind
      obtain ⟨c, hc, rfl⟩ := Option.map_eq_some_iff.mp hfound
      obtain rfl := hinv.unshared charset hmem ocharset homem hcodepoint (by rw [hconv]; rfl) (by rw [hc]; rfl)
      rw [Option.some.inj (hc.symm.trans hconv)]

theorem Accepted.encode_derived (h : Accepted env precarr) (hinv : Inverse env precarr.precdyn)
    (hderive : env.tryToDeriveCharacter c1 c2 dimension precarr = some ich)
    (hoctet : ¬ unicodeErrorOctetCodeP ich = true) :
    env.encodeIchar precarr ich = if dimension = 2 then [c1, c2] else [c2] := by
  obtain ⟨charset, hdim, hcodepoint⟩ := h.codepoint_of_derive hinv hderive
  rw [encodeIchar, if_neg hoctet, hcodepoint]
  simp only [hdim]

theorem encode_errorOctet (octet : Byte) :
    env.encodeIchar precarr (octet + unicodeErrorOctetRangeStart) = [octet] := by
  have hlt := octet.isLt
  have hcode : unicodeErrorOctetCodeP (octet + unicodeErrorOctetRangeStart) = true := by
    rw [unicodeErrorOctetCodeP, Bool.and_eq_true, decide_eq_true_eq, decide_eq_true_eq, unicodeErrorOctetRangeStart]
    omega
  have hand : (octet.val + unicodeErrorOctetRangeStart) &&& 0xff = octet.val := by
    rw [show 0xff = 2 ^ 8 - 1 from rfl, Nat.and_two_pow_sub_one_eq_mod, unicodeErrorOctetRangeStart]
    omega
  rw [encodeIchar, if_pos hcode, hand]
  exact congrArg (fun b => [b]) (Fin.ext (Nat.mod_eq_of_lt hlt))

theorem Accepted.eq_of_derive_ascii (h : Accepted env precarr) (hskip : skipAsciiP precarr) (hb : byteAsciiP b)
    (hderive : env.tryToDeriveCharacter 0 b 1 precarr = some ich) : ich = b.val := by
  obtain ⟨charset, hmem, hdim, hvalid, hcode⟩ := derive_eq_some hderive
  obtain ⟨-, hmin, hmax⟩ := valid_iff.mp hvalid
  have hle := byteAsciiP_iff.mp hb
  by_cases heq : charset = env.ascii
  · subst heq
    exact Option.some.inj (hcode.symm.trans (env.ascii_codes b hb))
  · have hoverlap := h.not_overlap hmem (h.seen.mp (skipAsciiP_iff.mp hskip).1) heq
    have hover : env.charsetsOverlap charset env.ascii = true := by
      simp only [charsetsOverlap, rectangle, if_pos hdim, if_pos env.ascii_dimension, Bool.and_eq_true,
        rangesOverlap_iff, env.ascii_limits]
      omega
    exact absurd (hover.symm.trans hoverlap) Bool.noConfusion

theorem encode_ascii (hskip : skipAsciiP precarr) (hb : byteAsciiP b) : env.encodeIchar precarr b.val = [b] := by
  have hle := byteAsciiP_iff.mp hb
  have hoctet : ¬ unicodeErrorOctetCodeP b.val = true := by
    rw [unicodeErrorOctetCodeP, Bool.and_eq_true, decide_eq_true_eq, unicodeErrorOctetRangeStart]
    omega
  have hover : ¬ precarr.hasOverridingAscii = true := Bool.eq_false_iff.mp (skipAsciiP_iff.mp hskip).2
  have hdim : ¬ (env.charset env.ascii).dimension = 2 := by
    rw [env.ascii_dimension]
    decide
  rw [encodeIchar, if_neg hoctet, icharToCharsetCodepoint, if_pos ⟨hle, hover⟩]
  simp only [if_neg hdim]
  exact congrArg (fun b => [b]) (Fin.ext (byte_of_le hle))

end Charsets

end XEmacs.Coding.Multibyte
