import XEmacs.Coding.CharsetConsistency

/-! `number_of_ascii_mappings` is at least the number of codepoints with an ASCII code, and of ASCII
codes that are still converted though no codepoint has them any more. So a charset with a count of 0
converts no ASCII code. -/

namespace XEmacs.Coding.Charset

open Lib

variable {cs cs' : Charset} {new : Option ℕ} {c : Fin 256 × Fin 256} {u : ℕ} {op : CharsetOp}

theorem codepointOf_isSome : (cs.codepointOf u).isSome ↔
    walkCode u 3 cs.fromUnicodeTable ≠ badvalFromTable ∨ some u = cs.badvalUnicodeCode := by
  rw [codepointOf]
  split_ifs with hwalk hbadval
  · exact iff_of_true rfl (.inl hwalk)
  · exact iff_of_true rfl (.inr hbadval)
  · exact iff_of_false Bool.false_ne_true (not_or.mpr ⟨hwalk, hbadval⟩)

theorem Sets.isSome_codepointOf (hs : Sets cs new c cs') (hu : u < 2 ^ 32) (hnew : ∀ v ∈ new, v < 2 ^ 32)
    (hold : ∀ v ∈ cs.oldCode c, v < 2 ^ 32) (h : (cs'.codepointOf u).isSome) :
    new = some u ∨ cs.oldCode c ≠ some u ∧ (cs.codepointOf u).isSome := by
  by_cases hstored : new = some u
  · exact .inl hstored
  · have hbadval : some u = cs'.badvalUnicodeCode → cs.oldCode c ≠ some u ∧ some u = cs.badvalUnicodeCode := by
      intro heq
      rw [hs.badval_eq] at heq
      by_cases hc : c = octets badvalFromTable
      · rw [if_pos hc] at heq
        exact absurd heq.symm hstored
      · rw [if_neg hc] at heq
        obtain ⟨hne, hsame⟩ := Option.ite_none_left_eq_some.mp heq.symm
        exact ⟨fun hold => hne (hsame.trans hold.symm), hsame.symm⟩
    rw [codepointOf_isSome, hs.fromUnicode_eq, walkCode_replaceCode hu hnew hold, if_neg hstored] at h
    rw [codepointOf_isSome]
    rcases h with hwalk | hcode
    · by_cases herased : cs.oldCode c = some u
      · rw [if_pos herased] at hwalk
        exact absurd rfl hwalk
      · rw [if_neg herased] at hwalk
        exact .inr ⟨herased, .inl hwalk⟩
    · exact .inr ⟨(hbadval hcode).1, .inr (hbadval hcode).2⟩

/-- The ASCII codes that are converted to a codepoint although no codepoint has them. -/
@[irreducible] def outdatedCodes (cs : Charset) : Finset ℕ :=
  (Finset.range 128).filter fun u => (cs.codepointOf u).isSome ∧ ∀ c, cs.toUnicode c ≠ some u

theorem mem_outdatedCodes :
    u ∈ outdatedCodes cs ↔ u < 128 ∧ (cs.codepointOf u).isSome ∧ ∀ c, cs.toUnicode c ≠ some u := by
  simp only [outdatedCodes, Finset.mem_filter, Finset.mem_range]

structure AsciiCounted (cs : Charset) : Prop where
  lt : ∀ {c u}, cs.toUnicode c = some u → u < 2 ^ 32
  card_le : (asciiCodepoints cs.toUnicode).card + (outdatedCodes cs).card ≤ cs.numberOfAsciiMappings

theorem Sets.outdatedCodes_subset (hs : Sets cs new c cs') (hnew : ∀ v ∈ new, v < 2 ^ 32)
    (hold : ∀ v ∈ cs.oldCode c, v < 2 ^ 32) :
    outdatedCodes cs' ⊆ if cs.doAutoload then outdatedCodes cs ∪ (cs.toUnicode c).toFinset.filter (· < 128)
      else outdatedCodes cs := by
  intro u hmem
  obtain ⟨hlt, hsome, hnone⟩ := mem_outdatedCodes.mp hmem
  rw [hs.toUnicode_eq] at hnone
  have hself : new ≠ some u := by
    have h := hnone c
    rwa [Function.update_self] at h
  have hother (d : Fin 256 × Fin 256) (hd : d ≠ c) : cs.toUnicode d ≠ some u := by
    have h := hnone d
    rwa [Function.update_of_ne hd] at h
  rcases hs.isSome_codepointOf (by omega) hnew hold hsome with heq | ⟨hne, hbefore⟩
  · exact absurd heq hself
  · split_ifs with hauto
    · by_cases hc : cs.toUnicode c = some u
      · exact Finset.mem_union_right _ (Finset.mem_filter.mpr ⟨Option.mem_toFinset.mpr hc, hlt⟩)
      · refine Finset.mem_union_left _ (mem_outdatedCodes.mpr ⟨hlt, hbefore, fun d => ?_⟩)
        by_cases hd : d = c
        · exact hd ▸ hc
        · exact hother d hd
    · rw [oldCode, if_neg hauto] at hne
      refine mem_outdatedCodes.mpr ⟨hlt, hbefore, fun d => ?_⟩
      by_cases hd : d = c
      · exact hd ▸ hne
      · exact hother d hd

theorem card_asciiCode_le (code : Option ℕ) :
    (code.toFinset.filter (· < 128)).card ≤ if asciiCode code then 1 else 0 := by
  cases code with
  | none => exact Nat.zero_le _
  | some u =>
    rw [Option.toFinset_some, Finset.filter_singleton, asciiCode]
    by_cases hu : u < 128
    · rw [if_pos hu, if_pos (by simpa using Nat.lt_succ_iff.mp hu)]
      exact le_refl _
    · rw [if_neg hu]
      exact Nat.zero_le _

theorem AsciiCounted.set (h : AsciiCounted cs) (hs : Sets cs new c cs') (hnew : ∀ v ∈ new, v < 2 ^ 32) :
    AsciiCounted cs' := by
  have hold : ∀ v ∈ cs.oldCode c, v < 2 ^ 32 := fun v hv => h.lt (oldCode_eq_some hv).2
  refine ⟨fun {d u} hd => ?_, ?_⟩
  · rw [hs.toUnicode_eq] at hd
    by_cases heq : d = c
    · rw [heq, Function.update_self] at hd
      exact hnew u hd
    · rw [Function.update_of_ne heq] at hd
      exact h.lt hd
  · have hcard := h.card_le
    have hpoints := card_asciiCodepoints_update cs.toUnicode c new
    rw [← hs.toUnicode_eq] at hpoints
    have hcodes := Finset.card_le_card (hs.outdatedCodes_subset hnew hold)
    have hpositive : (if asciiCode (cs.toUnicode c) then 1 else 0) ≤ (asciiCodepoints cs.toUnicode).card := by
      split_ifs with hascii
      · exact Finset.card_pos.mpr ⟨c, mem_asciiCodepoints.mpr hascii⟩
      · exact Nat.zero_le _
    rw [countAscii] at hpoints
    by_cases hauto : cs.doAutoload = true
    · -- the old code is not taken off the count
      have hnumber : cs'.numberOfAsciiMappings =
          if asciiCode new then cs.numberOfAsciiMappings + 1 else cs.numberOfAsciiMappings :=
        hs.number_eq.trans (by rw [oldCode, if_pos hauto]; rfl)
      have hone := (hcodes.trans_eq (congrArg Finset.card (if_pos hauto))).trans
        ((Finset.card_union_le _ _).trans (Nat.add_le_add_left (card_asciiCode_le (cs.toUnicode c)) _))
      rw [hnumber]
      clear hcodes hnumber
      split_ifs at hpoints hone hpositive ⊢ <;> omega
    · have hnumber := hs.number_eq
      rw [oldCode, if_neg hauto, countAscii] at hnumber
      rw [if_neg hauto] at hcodes
      rw [hnumber]
      clear hnumber
      split_ifs at hpoints hpositive ⊢ <;> omega

theorem AsciiCounted.congr (h : AsciiCounted cs) (hto : cs'.toUnicode = cs.toUnicode)
    (hfrom : ∀ u, cs'.codepointOf u = cs.codepointOf u)
    (hnumber : cs'.numberOfAsciiMappings = cs.numberOfAsciiMappings) : AsciiCounted cs' := by
  have hcodes : outdatedCodes cs' = outdatedCodes cs := by
    apply Finset.ext
    intro u
    rw [mem_outdatedCodes, mem_outdatedCodes, hto, hfrom]
  refine ⟨fun hc => h.lt (hto ▸ hc), ?_⟩
  rw [hto, hcodes, hnumber]
  exact h.card_le

theorem AsciiCounted.step (h : AsciiCounted cs) (hs : cs.step op = some cs') : AsciiCounted cs' := by
  cases op with
  | set new c1 c2 =>
    obtain ⟨⟨-, hnew⟩, hs⟩ := Option.ite_none_right_eq_some.mp hs
    refine h.set (sets_of_setUnicodeConversion hs) ?_
    rintro v rfl
    exact lt_of_validUnicodeCodepointP hnew
  | hold c1 offset len =>
    obtain ⟨-, hs⟩ := Option.ite_none_right_eq_some.mp hs
    obtain rfl := Option.some.inj hs
    exact h.congr (funext fun c => codeOf_ensure cs.toUnicodeTable c1 offset len true c.1 c.2) (fun _ => rfl) rfl
  | autoloaded =>
    obtain ⟨-, hs⟩ := Option.ite_none_right_eq_some.mp hs
    obtain rfl := Option.some.inj hs
    exact h.congr rfl (fun _ => rfl) rfl
  | autoloadFails =>
    obtain ⟨-, hs⟩ := Option.ite_none_right_eq_some.mp hs
    obtain rfl := Option.some.inj hs
    exact h.congr rfl (fun _ => rfl) rfl

theorem asciiCounted_init (chars offset : Fin 2 → ℕ) (fits : ∀ dim, offset dim + chars dim ≤ 256) (doAutoload : Bool) :
    AsciiCounted (initCharsetUnicodeTables chars offset fits doAutoload) := by
  have hpoints : asciiCodepoints (initCharsetUnicodeTables chars offset fits doAutoload).toUnicode = ∅ :=
    Finset.eq_empty_of_forall_notMem fun c hc => Bool.false_ne_true (mem_asciiCodepoints.mp hc)
  have hcodes : outdatedCodes (initCharsetUnicodeTables chars offset fits doAutoload) = ∅ := by
    refine Finset.eq_empty_of_forall_notMem fun u hu => ?_
    rcases codepointOf_isSome.mp (mem_outdatedCodes.mp hu).2.1 with hwalk | hbadval
    · exact hwalk (walkCode_blank u 3)
    · exact Option.some_ne_none u hbadval
  refine ⟨fun hc => absurd hc (Option.some_ne_none _).symm, ?_⟩
  rw [hpoints, hcodes]
  exact Nat.zero_le _

theorem AsciiCounted.codepointOf_eq_none (h : AsciiCounted cs) (hzero : cs.numberOfAsciiMappings = 0) (hu : u ≤ 127) :
    cs.codepointOf u = none := by
  have hcard := h.card_le
  rw [← Option.not_isSome_iff_eq_none]
  intro hsome
  by_cases hcode : ∃ c, cs.toUnicode c = some u
  · obtain ⟨c, hc⟩ := hcode
    have hascii : asciiCode (cs.toUnicode c) := by
      rw [hc]
      exact decide_eq_true hu
    have hpositive := Finset.card_pos.mpr ⟨c, mem_asciiCodepoints.mpr hascii⟩
    omega
  · have hmem : u ∈ outdatedCodes cs :=
      mem_outdatedCodes.mpr ⟨by omega, hsome, fun c hc => hcode ⟨c, hc⟩⟩
    have hpositive := Finset.card_pos.mpr ⟨u, hmem⟩
    omega

end XEmacs.Coding.Charset
