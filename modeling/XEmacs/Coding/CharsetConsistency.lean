import Mathlib.Data.Finset.Card
import Mathlib.Data.Fintype.Prod
import Mathlib.Tactic.NormNum
import Mathlib.Tactic.Positivity
import Mathlib.Tactic.Ring
import XEmacs.Coding.CharsetTables
import XEmacs.Lib.ReverseIndex

/-! The two directions of a charset's conversion tables stay consistent as long as a codepoint whose
code changes was the only one with its old code, and its charset was not waiting for its tables to
be loaded. -/

namespace XEmacs.Coding

open Lib

variable {offset len newMin newPastMax level u u' v : ℕ} {exact : Bool} {c1 c2 d1 d2 c : Fin 256}

theorem newRange_fst_le : (newRange newMin newPastMax exact).1 ≤ newMin := by
  cases exact
  · exact Nat.sub_le _ _
  · exact le_refl _

theorem le_newRange_snd : newPastMax ≤ (newRange newMin newPastMax exact).2 := by
  cases exact
  · exact Nat.le_add_right _ _
  · exact le_refl _

namespace ToUnicodeBase

theorem code_some (t : ToUnicodeBase) (c : Fin 256) :
    code (some t) c = if c < t.offset then none else (t.array[c.val - t.offset]?).join := by
  by_cases hlt : c < t.offset
  · rw [code, if_pos (.inl hlt), if_pos hlt]
  · by_cases hge : c.val ≥ t.offset + t.array.length
    · rw [code, if_pos (.inr hge), if_neg hlt, List.getElem?_eq_none (by omega), Option.join_none]
    · rw [code, if_neg (by tauto), if_neg hlt]

theorem code_store (t : ToUnicodeBase) (v : Option ℕ) (hle : t.offset ≤ c2)
    (hlt : c2 < t.offset + t.array.length) :
    code (some (t.store c2 v)) c = if c = c2 then v else code (some t) c := by
  rw [code_some, code_some, store]
  simp only [List.getElem?_set]
  by_cases heq : c = c2
  · subst heq
    rw [if_pos rfl, if_neg (by omega), if_pos rfl, if_pos (by omega), Option.join_some]
  · have hne : c.val ≠ c2.val := fun h => heq (Fin.ext h)
    rw [if_neg heq]
    by_cases hbelow : c < t.offset
    · rw [if_pos hbelow, if_pos hbelow]
    · rw [if_neg hbelow, if_neg hbelow, if_neg (by omega)]

end ToUnicodeBase

open ToUnicodeBase

theorem code_resize (t : Option ToUnicodeBase) (offset len : ℕ) (exact : Bool) (c : Fin 256) :
    ToUnicodeBase.code (some (resize t offset len exact)) c = ToUnicodeBase.code t c := by
  cases t with
  | none =>
    rw [code_some, resize]
    simp only [List.getElem?_replicate]
    split_ifs <;> rfl
  | some t =>
    rw [resize]
    split_ifs with hgrow
    · have hmin : (newRange (min offset t.offset) (max (offset + len) (t.offset + t.array.length)) exact).1 ≤
          t.offset := newRange_fst_le.trans (min_le_right _ _)
      rw [code_some, code_some]
      simp only [List.append_assoc, List.getElem?_append, List.getElem?_replicate, List.length_replicate]
      generalize (newRange (min offset t.offset) (max (offset + len) (t.offset + t.array.length)) exact).1 = m at *
      by_cases hbelow : c < t.offset
      · rw [if_pos hbelow]
        split_ifs <;> first | rfl | omega
      · rw [if_neg hbelow, if_neg (by omega), if_neg (by omega)]
        have hindex : c.val - m - (t.offset - m) = c.val - t.offset := by omega
        rw [hindex]
        split_ifs with hin hlast
        · rfl
        · rw [List.getElem?_eq_none (by omega)]; rfl
        · rw [List.getElem?_eq_none (by omega)]
    · rfl

theorem resize_holds (t : Option ToUnicodeBase) (hle : offset ≤ c) (hlt : c < offset + len) :
    (resize t offset len exact).offset ≤ c ∧
      c < (resize t offset len exact).offset + (resize t offset len exact).array.length := by
  cases t with
  | none =>
    have hmin : (newRange offset (offset + len) exact).1 ≤ offset := newRange_fst_le
    have hmax : offset + len ≤ (newRange offset (offset + len) exact).2 := le_newRange_snd
    simp only [resize, List.length_replicate]
    omega
  | some t =>
    rw [resize]
    split_ifs with hgrow
    · have hmin : (newRange (min offset t.offset) (max (offset + len) (t.offset + t.array.length)) exact).1 ≤
          min offset t.offset := newRange_fst_le
      have hmax : max (offset + len) (t.offset + t.array.length) ≤
          (newRange (min offset t.offset) (max (offset + len) (t.offset + t.array.length)) exact).2 :=
        le_newRange_snd
      simp only [List.length_append, List.length_replicate]
      omega
    · omega

theorem resize_holds_self (t : Option ToUnicodeBase) (c : Fin 256) (exact : Bool) :
    (resize t c 1 exact).offset ≤ c ∧ c < (resize t c 1 exact).offset + (resize t c 1 exact).array.length :=
  resize_holds t (le_refl _) (Nat.lt_succ_self _)

namespace Charset

variable {cs cs' : Charset} {new : Option ℕ}

def toUnicode (cs : Charset) (c : Fin 256 × Fin 256) : Option ℕ := cs.codeOf c.1 c.2

theorem codeOf_ensure (t : ToUnicodeTable) (c1 : Fin 256) (offset len : ℕ) (exact : Bool) (d1 d2 : Fin 256) :
    ToUnicodeBase.code ((ensureToUnicodeHoldsRange t c1 offset len exact).bind fun toTable2 => toTable2 d1) d2 =
      ToUnicodeBase.code (t.bind fun toTable2 => toTable2 d1) d2 := by
  have hget : (t.getD fun _ => none) d1 = t.bind fun toTable2 => toTable2 d1 := by cases t <;> rfl
  rw [ensureToUnicodeHoldsRange, Option.bind_some, ← hget]
  by_cases hd : d1 = c1
  · subst hd
    rw [Function.update_self, code_resize]
  · rw [Function.update_of_ne hd]

theorem codeOf_set (t : ToUnicodeTable) (new : Option ℕ) (c1 c2 d1 d2 : Fin 256) :
    ToUnicodeBase.code
        ((setUnicodeConversionCharToUnicode new t c1 c2).bind fun toTable2 => toTable2 d1) d2 =
      if (d1, d2) = (c1, c2) then new else ToUnicodeBase.code (t.bind fun toTable2 => toTable2 d1) d2 := by
  rw [setUnicodeConversionCharToUnicode, ← codeOf_ensure t c1 c2 1 false]
  simp only [ensureToUnicodeHoldsRange, Option.map_some, Option.bind_some, Function.update_self]
  by_cases hd : d1 = c1
  · subst hd
    have hholds := resize_holds_self ((t.getD fun _ => none) d1) c2 false
    rw [Function.update_self, code_store _ _ hholds.1 hholds.2, Function.update_self]
    simp only [Prod.mk.injEq, true_and]
  · have hne : (d1, d2) ≠ (c1, c2) := fun h => hd (Prod.mk.inj h).1
    rw [Function.update_of_ne hd, if_neg hne]

end Charset

theorem FromUnicodeTable.entries_own (tab : Fin 256 → FromUnicodeTable level) :
    (FromUnicodeTable.own tab).entries = tab := rfl

def SameWay (level u u' : ℕ) : Prop := ∀ i ≤ level, breakup i u = breakup i u'

theorem walkCode_storeCode_self (u v : ℕ) (level : ℕ) (table : Fin 256 → FromUnicodeTable level) :
    walkCode u level (storeCode u v level table) = v := by
  induction level with
  | zero => exact Function.update_self ..
  | succ level ih =>
    rw [storeCode, walkCode, Function.update_self, FromUnicodeTable.entries_own]
    exact ih _

theorem walkCode_storeCode_of_ne (h : ¬ SameWay level u u') (table : Fin 256 → FromUnicodeTable level) :
    walkCode u' level (storeCode u v level table) = walkCode u' level table := by
  induction level with
  | zero =>
    have hne : breakup 0 u' ≠ breakup 0 u := fun heq => h fun i hi => by rw [Nat.le_zero.mp hi, heq]
    exact Function.update_of_ne hne ..
  | succ level ih =>
    rw [storeCode, walkCode, walkCode]
    by_cases heq : breakup (level + 1) u' = breakup (level + 1) u
    · rw [heq, Function.update_self, FromUnicodeTable.entries_own]
      refine ih (fun hsame => h fun i hi => ?_) _
      rcases Nat.le_succ_iff.mp hi with hi | rfl
      · exact hsame i hi
      · exact heq.symm
    · rw [Function.update_of_ne heq]

theorem SameWay.eq (h : SameWay 3 u u') (hu : u < 2 ^ 32) (hu' : u' < 2 ^ 32) : u = u' := by
  have hdigit (i : ℕ) (hi : i ≤ 3) : u >>> (8 * i) % 256 = u' >>> (8 * i) % 256 := congrArg Fin.val (h i hi)
  have h0 := hdigit 0 (by decide)
  have h1 := hdigit 1 (by decide)
  have h2 := hdigit 2 (by decide)
  have h3 := hdigit 3 (by decide)
  simp only [Nat.shiftRight_eq_div_pow] at h0 h1 h2 h3
  omega

theorem walkCode_storeCode (hu : u < 2 ^ 32) (hu' : u' < 2 ^ 32) (table : Fin 256 → FromUnicodeTable 3) :
    walkCode u' 3 (storeCode u v 3 table) = if u' = u then v else walkCode u' 3 table := by
  by_cases heq : u' = u
  · rw [if_pos heq, heq, walkCode_storeCode_self]
  · rw [if_neg heq, walkCode_storeCode_of_ne fun hsame => heq (hsame.eq hu hu').symm]

theorem walkCode_blank (u : ℕ) (level : ℕ) :
    walkCode u level (fun _ => fromUnicodeBlank level) = badvalFromTable := by
  induction level with
  | zero => rfl
  | succ level ih => exact ih

namespace Charset

variable {cs cs' : Charset} {old new : Option ℕ}

theorem octets_combined (c1 c2 : Fin 256) : octets (c1.val <<< 8 + c2.val) = (c1, c2) := by
  have h1 := c1.isLt
  have h2 := c2.isLt
  refine Prod.ext (Fin.ext ?_) (Fin.ext ?_)
  · simp only [octets, Nat.shiftRight_eq_div_pow, Nat.shiftLeft_eq]
    omega
  · simp only [octets, Nat.shiftLeft_eq]
    omega

theorem combined_eq_badval : c1.val <<< 8 + c2.val = badvalFromTable ↔ (c1, c2) = octets badvalFromTable := by
  refine ⟨fun h => by rw [← h, octets_combined], fun h => ?_⟩
  obtain ⟨rfl, rfl⟩ := Prod.mk.inj h
  rfl

/-- The old code that `set_unicode_conversion` looks at. -/
def oldCode (cs : Charset) (c : Fin 256 × Fin 256) : Option ℕ := if cs.doAutoload then none else cs.toUnicode c

/-- What a call of `set_unicode_conversion` does. -/
structure Sets (cs : Charset) (new : Option ℕ) (c : Fin 256 × Fin 256) (cs' : Charset) : Prop where
  chars_eq : cs'.chars = cs.chars
  offset_eq : cs'.offset = cs.offset
  doAutoload_eq : cs'.doAutoload = cs.doAutoload
  toUnicode_eq : cs'.toUnicode = Function.update cs.toUnicode c new
  fromUnicode_eq : cs'.fromUnicodeTable =
    replaceCode cs.fromUnicodeTable (cs.oldCode c) new (c.1.val <<< 8 + c.2.val)
  badval_eq : cs'.badvalUnicodeCode =
    if c = octets badvalFromTable then new
    else if cs.badvalUnicodeCode = cs.oldCode c then none else cs.badvalUnicodeCode
  number_eq : cs'.numberOfAsciiMappings = countAscii cs.numberOfAsciiMappings (cs.oldCode c) new

theorem toUnicode_set (cs : Charset) (new : Option ℕ) (c1 c2 : Fin 256) (d : Fin 256 × Fin 256) :
    ToUnicodeBase.code ((setUnicodeConversionCharToUnicode new cs.toUnicodeTable c1 c2).bind
      fun toTable2 => toTable2 d.1) d.2 = Function.update cs.toUnicode (c1, c2) new d := by
  rw [codeOf_set, Function.update_apply]
  rfl

theorem oldCode_eq (cs : Charset) (c1 c2 : Fin 256) :
    (if cs.doAutoload then some none else cs.charsetCodepointToUnicode c1 c2) = some (cs.oldCode (c1, c2)) := by
  rw [charsetCodepointToUnicode, charsetCodepointToUnicodeRaw1, oldCode]
  split_ifs <;> rfl

theorem sets_of_setUnicodeConversion (h : setUnicodeConversion new cs c1 c2 = some cs') :
    Sets cs new (c1, c2) cs' := by
  rw [setUnicodeConversion] at h
  simp only [oldCode_eq, Option.bind_some] at h
  obtain ⟨-, h⟩ := Option.ite_none_left_eq_some.mp h
  obtain rfl := Option.some.inj h
  refine ⟨rfl, rfl, rfl, funext fun d => toUnicode_set cs new c1 c2 d, rfl, ?_, rfl⟩
  simp only [combined_eq_badval]

theorem walkCode_replaceCode (hu : u < 2 ^ 32) (hnew : ∀ v ∈ new, v < 2 ^ 32) (hold : ∀ v ∈ old, v < 2 ^ 32)
    (table : Fin 256 → FromUnicodeTable 3) (combined : ℕ) :
    walkCode u 3 (replaceCode table old new combined) =
      if new = some u then combined else if old = some u then badvalFromTable else walkCode u 3 table := by
  have hstore (table : Fin 256 → FromUnicodeTable 3) (w : ℕ) (hw : w < 2 ^ 32) (v : ℕ) :
      walkCode u 3 (setUnicodeConversionUnicodeToChar w table v) =
        if some w = some u then v else walkCode u 3 table := by
    simp only [setUnicodeConversionUnicodeToChar, walkCode_storeCode hw hu, Option.some.injEq, eq_comm]
  cases new with
  | none =>
    cases old with
    | none => rfl
    | some o =>
      simp only [replaceCode, ne_eq, reduceCtorEq, not_false_eq_true, if_true, if_false]
      exact hstore table o (hold o rfl) _
  | some n =>
    cases old with
    | none => exact hstore table n (hnew n rfl) _
    | some o =>
      simp only [replaceCode]
      by_cases hne : some o ≠ some n
      · rw [if_pos hne, hstore _ o (hold o rfl), hstore _ n (hnew n rfl)]
        split_ifs with ho hn
        · exact absurd (ho.trans hn.symm) hne
        all_goals rfl
      · rw [if_neg hne, hstore _ n (hnew n rfl), not_not.mp hne]
        split_ifs <;> rfl

def fromUnicode (cs : Charset) (u : ℕ) : Option (Fin 256 × Fin 256) :=
  if u < 2 ^ 32 then cs.codepointOf u else none

/-- The two directions agree, and only valid codepoints have codes. -/
structure Consistent (cs : Charset) : Prop where
  valid : ∀ {c u}, cs.toUnicode c = some u → cs.validCharsetCodepointP c.1 c.2 ∧ validUnicodeCodepointP u
  badval : ∀ {u}, cs.badvalUnicodeCode = some u → cs.toUnicode (octets badvalFromTable) = some u
  index : IsReverseIndex cs.toUnicode cs.fromUnicode

/-- A codepoint whose code changes was the only one with its old code, and its charset does
not wait for its tables to be loaded. -/
def OnlyCodepoint (cs : Charset) : CharsetOp → Prop
  | .set new c1 c2 => ∀ u, cs.toUnicode (c1, c2) = some u → new ≠ some u →
      cs.doAutoload = false ∧ ∀ d, cs.toUnicode d = some u → d = (c1, c2)
  | _ => True

theorem lt_of_validUnicodeCodepointP (h : validUnicodeCodepointP u) : u < 2 ^ 32 := by
  simp only [validUnicodeCodepointP, Bool.and_eq_true, decide_eq_true_eq] at h
  omega

theorem Consistent.lt (h : Consistent cs) {c : Fin 256 × Fin 256} (hc : cs.toUnicode c = some u) : u < 2 ^ 32 :=
  lt_of_validUnicodeCodepointP (h.valid hc).2

theorem oldCode_eq_some {c : Fin 256 × Fin 256} (h : cs.oldCode c = some u) :
    cs.doAutoload = false ∧ cs.toUnicode c = some u := by
  rw [oldCode] at h
  split_ifs at h with hauto
  exact ⟨Bool.eq_false_iff.mpr hauto, h⟩

theorem Consistent.fromUnicode_eq (h : Consistent cs) {c : Fin 256 × Fin 256} (hs : Sets cs new c cs')
    (hnew : ∀ v ∈ new, v < 2 ^ 32) (hok : ∀ v, cs.toUnicode c = some v → new ≠ some v →
      cs.doAutoload = false ∧ ∀ d, cs.toUnicode d = some v → d = c) :
    cs'.fromUnicode = reindex cs.fromUnicode c (cs.oldCode c) new := by
  have hold : ∀ v ∈ cs.oldCode c, v < 2 ^ 32 := fun v hv => h.lt (oldCode_eq_some hv).2
  funext u
  by_cases hu : u < 2 ^ 32
  · rw [fromUnicode, if_pos hu, codepointOf, hs.fromUnicode_eq, walkCode_replaceCode hu hnew hold, hs.badval_eq]
    by_cases hstored : new = some u
    · rw [if_pos hstored, reindex, if_pos hstored, octets_combined]
      by_cases hc : c = octets badvalFromTable
      · rw [if_neg (not_not.mpr (combined_eq_badval.mpr hc)), if_pos hc, if_pos hstored.symm, ← hc]
      · rw [if_pos (mt combined_eq_badval.mp hc)]
    · rw [if_neg hstored, reindex, if_neg hstored]
      by_cases herased : cs.oldCode c = some u
      · have hbadval : ¬ some u = (if c = octets badvalFromTable then new
            else if cs.badvalUnicodeCode = cs.oldCode c then none else cs.badvalUnicodeCode) := by
          split_ifs with hc hb
          · exact fun heq => hstored heq.symm
          · exact id
          · exact fun heq => hb (heq.symm.trans herased.symm)
        rw [if_pos herased, if_pos herased, if_neg (not_not.mpr rfl), if_neg hbadval]
      · have hbadval : some u = (if c = octets badvalFromTable then new
            else if cs.badvalUnicodeCode = cs.oldCode c then none else cs.badvalUnicodeCode) ↔
            some u = cs.badvalUnicodeCode := by
          split_ifs with hc hb
          · refine ⟨fun heq => absurd heq.symm hstored, fun heq => ?_⟩
            -- the code of the codepoint itself is not lost: it would have been erased
            have hcode := hc ▸ h.badval heq.symm
            exact absurd (by rw [oldCode, (hok u hcode hstored).1]; exact hcode) herased
          · rw [hb, eq_comm (b := cs.oldCode c)]
            exact ⟨False.elim, fun heq => absurd heq herased⟩
          · rfl
        rw [if_neg herased, if_neg herased, fromUnicode, if_pos hu, codepointOf]
        simp only [hbadval]
  · have hnone : new ≠ some u := fun heq => hu (hnew u heq)
    rw [fromUnicode, if_neg hu, reindex, if_neg hnone, fromUnicode, if_neg hu, ite_self]

theorem Consistent.set (h : Consistent cs) (hvalid : cs.validCharsetCodepointP c1 c2)
    (hnew : ∀ v ∈ new, validUnicodeCodepointP v) (hok : cs.OnlyCodepoint (.set new c1 c2))
    (hs : Sets cs new (c1, c2) cs') : Consistent cs' := by
  have hvalidP (d : Fin 256 × Fin 256) : cs'.validCharsetCodepointP d.1 d.2 = cs.validCharsetCodepointP d.1 d.2 := by
    rw [validCharsetCodepointP, validCharsetCodepointP, hs.chars_eq, hs.offset_eq]
  refine ⟨fun {d u} hd => ?_, fun {u} hb => ?_, ?_⟩
  · rw [hs.toUnicode_eq] at hd
    rw [hvalidP]
    by_cases heq : d = (c1, c2)
    · rw [heq, Function.update_self] at hd
      exact ⟨heq ▸ hvalid, hnew u hd⟩
    · rw [Function.update_of_ne heq] at hd
      exact h.valid hd
  · rw [hs.badval_eq] at hb
    rw [hs.toUnicode_eq]
    split_ifs at hb with hc hbadval
    · rw [← hc, Function.update_self, hb]
    · rw [Function.update_of_ne (Ne.symm hc)]
      exact h.badval hb
  · rw [hs.toUnicode_eq, h.fromUnicode_eq hs (fun v hv => lt_of_validUnicodeCodepointP (hnew v hv)) hok]
    refine h.index.update (fun v hv hne => ?_) fun v hv hne d hd => ?_
    · rw [oldCode, (hok v hv hne).1]
      exact hv
    · exact (hok v (oldCode_eq_some hv).2 hne).2 d hd

theorem consistent_init (chars offset : Fin 2 → ℕ) (fits : ∀ dim, offset dim + chars dim ≤ 256) (doAutoload : Bool) :
    Consistent (initCharsetUnicodeTables chars offset fits doAutoload) := by
  have hcode (c : Fin 256 × Fin 256) : (initCharsetUnicodeTables chars offset fits doAutoload).toUnicode c = none := rfl
  have hfound (u : ℕ) : (initCharsetUnicodeTables chars offset fits doAutoload).fromUnicode u = none := by
    rw [fromUnicode, codepointOf, initCharsetUnicodeTables]
    simp [walkCode_blank]
  refine ⟨fun hc => ?_, fun hb => ?_, ⟨fun hg => ?_, fun hc => ?_⟩⟩
  · rw [hcode] at hc; exact absurd hc (Option.some_ne_none _).symm
  · exact absurd hb (Option.some_ne_none _).symm
  · rw [hfound] at hg; exact absurd hg (Option.some_ne_none _).symm
  · rw [hcode] at hc; exact absurd hc (Option.some_ne_none _).symm

def codeSet (c : Fin 256 × Fin 256) : CharsetOp → Option (Option ℕ)
  | .set new c1 c2 => if (c1, c2) = c then some new else none
  | _ => none

def lastCode (c : Fin 256 × Fin 256) (ops : List CharsetOp) : Option ℕ := (ops.reverse.findSome? (codeSet c)).join

theorem lastCode_append (c : Fin 256 × Fin 256) (ops : List CharsetOp) (op : CharsetOp) :
    lastCode c (ops ++ [op]) = (codeSet c op).getD (lastCode c ops) := by
  rw [lastCode, List.reverse_append, List.reverse_singleton, List.singleton_append, List.findSome?_cons]
  cases codeSet c op <;> rfl

/-- A charset whose codes are the given ones, and whose two directions agree. -/
structure HasCodes (chars offset : Fin 2 → ℕ) (f : Fin 256 × Fin 256 → Option ℕ) (cs : Charset) : Prop where
  chars_eq : cs.chars = chars
  offset_eq : cs.offset = offset
  toUnicode_eq : cs.toUnicode = f
  consistent : Consistent cs

variable {chars offset : Fin 2 → ℕ} {fits : ∀ dim, offset dim + chars dim ≤ 256} {doAutoload : Bool}
  {f : Fin 256 × Fin 256 → Option ℕ} {op : CharsetOp} {ops : List CharsetOp}

theorem Consistent.congr (h : Consistent cs) (hchars : cs'.chars = cs.chars) (hoffset : cs'.offset = cs.offset)
    (hto : cs'.toUnicode = cs.toUnicode) (hfrom : cs'.fromUnicode = cs.fromUnicode)
    (hbadval : cs'.badvalUnicodeCode = cs.badvalUnicodeCode) : Consistent cs' := by
  refine ⟨fun hc => ?_, fun hb => ?_, by rw [hto, hfrom]; exact h.index⟩
  · rw [hto] at hc
    rw [validCharsetCodepointP, hchars, hoffset]
    exact h.valid hc
  · rw [hto]
    exact h.badval (hbadval ▸ hb)

theorem HasCodes.step (h : HasCodes chars offset f cs) (hok : cs.OnlyCodepoint op) (hs : cs.step op = some cs') :
    HasCodes chars offset (fun c => (codeSet c op).getD (f c)) cs' := by
  cases op with
  | set new c1 c2 =>
    obtain ⟨⟨hvalid, hnew⟩, hs⟩ := Option.ite_none_right_eq_some.mp hs
    have hsets := sets_of_setUnicodeConversion hs
    have hcodes : ∀ v ∈ new, validUnicodeCodepointP v := by
      rintro v rfl
      exact hnew
    refine ⟨hsets.chars_eq.trans h.chars_eq, hsets.offset_eq.trans h.offset_eq, ?_,
      h.consistent.set hvalid hcodes hok hsets⟩
    funext c
    rw [hsets.toUnicode_eq, h.toUnicode_eq, Function.update_apply, codeSet]
    by_cases hc : c = (c1, c2)
    · rw [if_pos hc, if_pos hc.symm, Option.getD_some]
    · rw [if_neg hc, if_neg (Ne.symm hc), Option.getD_none]
  | hold c1 offset len =>
    obtain ⟨-, hs⟩ := Option.ite_none_right_eq_some.mp hs
    obtain rfl := Option.some.inj hs
    have hto := funext fun c : Fin 256 × Fin 256 => codeOf_ensure cs.toUnicodeTable c1 offset len true c.1 c.2
    exact ⟨h.chars_eq, h.offset_eq, hto.trans h.toUnicode_eq, h.consistent.congr rfl rfl hto rfl rfl⟩
  | autoloaded =>
    obtain ⟨-, hs⟩ := Option.ite_none_right_eq_some.mp hs
    obtain rfl := Option.some.inj hs
    exact ⟨h.chars_eq, h.offset_eq, h.toUnicode_eq, h.consistent.congr rfl rfl rfl rfl rfl⟩
  | autoloadFails =>
    obtain ⟨-, hs⟩ := Option.ite_none_right_eq_some.mp hs
    obtain rfl := Option.some.inj hs
    exact ⟨h.chars_eq, h.offset_eq, h.toUnicode_eq, h.consistent.congr rfl rfl rfl rfl rfl⟩

theorem run_hasCodes
    (h : Run step OnlyCodepoint (initCharsetUnicodeTables chars offset fits doAutoload) ops cs) :
    HasCodes chars offset (fun c => lastCode c ops) cs := by
  induction h with
  | nil => exact ⟨rfl, rfl, rfl, consistent_init chars offset fits doAutoload⟩
  | snoc _ hok hs ih =>
    have hstep := ih.step hok hs
    simpa only [lastCode_append] using hstep

/-- In a run that changes a code only of the one codepoint that had the old code, the two directions
are inverse and hold the codes last set. -/
theorem run_conversion_consistent
    (h : Run step OnlyCodepoint (initCharsetUnicodeTables chars offset fits doAutoload) ops cs)
    (hload : cs.doAutoload = false) :
    (∀ c1 c2, charsetCodepointToUnicode cs c1 c2 = some (lastCode (c1, c2) ops)) ∧
      ∀ u, validUnicodeCodepointP u → ∃ found, unicodeToOneCharsetCodepoint u cs = some found ∧
        (found.isSome ↔ ∃ c, cs.validCharsetCodepointP c.1 c.2 ∧ lastCode c ops = some u) ∧
        ∀ c, found = some c → cs.validCharsetCodepointP c.1 c.2 ∧
          charsetCodepointToUnicode cs c.1 c.2 = some (some u) := by
  have hcodes := run_hasCodes h
  have hto (c : Fin 256 × Fin 256) : charsetCodepointToUnicode cs c.1 c.2 = some (lastCode c ops) := by
    rw [← congrFun hcodes.toUnicode_eq c, charsetCodepointToUnicode, charsetCodepointToUnicodeRaw1,
      if_neg (by rw [hload]; exact Bool.false_ne_true)]
    rfl
  refine ⟨fun c1 c2 => hto (c1, c2), fun u hu => ⟨cs.fromUnicode u, ?_, ?_, fun c hc => ?_⟩⟩
  · rw [unicodeToOneCharsetCodepoint, getUnicodeConversion1, if_neg (by rw [hload]; exact Bool.false_ne_true),
      fromUnicode, if_pos (lt_of_validUnicodeCodepointP hu)]
  · rw [hcodes.consistent.index.isSome_iff, hcodes.toUnicode_eq]
    refine exists_congr fun c => ⟨fun hc => ⟨?_, hc⟩, fun hc => hc.2⟩
    exact (hcodes.consistent.valid ((congrFun hcodes.toUnicode_eq c).trans hc)).1
  · have hsound := hcodes.consistent.index.sound hc
    rw [hto, ← congrFun hcodes.toUnicode_eq c, hsound]
    exact ⟨(hcodes.consistent.valid hsound).1, rfl⟩

section Count

variable {α : Type*} [Fintype α] [DecidableEq α]

@[irreducible] def asciiCodepoints (f : α → Option ℕ) : Finset α :=
  Finset.univ.filter fun c => asciiCode (f c)

omit [DecidableEq α] in
theorem mem_asciiCodepoints {f : α → Option ℕ} {c : α} : c ∈ asciiCodepoints f ↔ asciiCode (f c) := by
  simp [asciiCodepoints]

theorem asciiCodepoints_update_subset (f : α → Option ℕ) (c : α) (new : Option ℕ) :
    asciiCodepoints (Function.update f c new) ⊆
      if asciiCode new then insert c ((asciiCodepoints f).erase c) else (asciiCodepoints f).erase c := by
  intro d hd
  rw [mem_asciiCodepoints, Function.update_apply] at hd
  by_cases hdc : d = c
  · rw [if_pos hdc] at hd
    rw [if_pos hd, hdc]
    exact Finset.mem_insert_self _ _
  · rw [if_neg hdc] at hd
    have hin : d ∈ (asciiCodepoints f).erase c := Finset.mem_erase.mpr ⟨hdc, mem_asciiCodepoints.mpr hd⟩
    split_ifs
    · exact Finset.mem_insert_of_mem hin
    · exact hin

theorem card_asciiCodepoints_update (f : α → Option ℕ) (c : α) (new : Option ℕ) :
    (asciiCodepoints (Function.update f c new)).card ≤ countAscii (asciiCodepoints f).card (f c) new := by
  have hcard : ((asciiCodepoints f).erase c).card =
      if asciiCode (f c) then (asciiCodepoints f).card - 1 else (asciiCodepoints f).card := by
    rw [Finset.card_erase_eq_ite]
    simp only [mem_asciiCodepoints]
  refine (Finset.card_le_card (asciiCodepoints_update_subset f c new)).trans ?_
  rw [countAscii, ← hcard]
  split_ifs
  · exact Finset.card_insert_le _ _
  · exact le_refl _

end Count

def initLatin : Charset :=
  initCharsetUnicodeTables (fun dim => if dim.val = 0 then 1 else 96) (fun dim => if dim.val = 0 then 0 else 32)
    (by decide) false

theorem run_conversion_consistent_remapped : ∃ cs,
    Run step OnlyCodepoint initLatin [.set (some 0x3b1) 0 65, .set (some 0x3b2) 0 65] cs ∧
      charsetCodepointToUnicode cs 0 65 = some (some 0x3b2) := by
  obtain ⟨cs₁, hs₁, h⟩ := (Option.any_eq_true _ _).mp
    (show ((initLatin.step (.set (some 0x3b1) 0 65)).any fun cs => !cs.doAutoload &&
      (cs.step (.set (some 0x3b2) 0 65)).any fun cs => !cs.doAutoload) = true by decide +kernel)
  obtain ⟨hload₁, h⟩ := (Bool.and_eq_true _ _).mp h
  obtain ⟨cs₂, hs₂, hload₂⟩ := (Option.any_eq_true _ _).mp h
  have hrun₁ : Run step OnlyCodepoint initLatin [.set (some 0x3b1) 0 65] cs₁ :=
    .single (fun u hu => absurd hu (Option.some_ne_none u).symm) hs₁
  have hok : cs₁.OnlyCodepoint (.set (some 0x3b2) 0 65) := by
    refine fun u _ _ => ⟨by simpa using hload₁, fun d hd => ?_⟩
    rw [(run_hasCodes hrun₁).toUnicode_eq] at hd
    by_contra hne
    simp [lastCode, codeSet, Ne.symm hne] at hd
  have hrun₂ := hrun₁.snoc hok hs₂
  refine ⟨cs₂, hrun₂, ((run_conversion_consistent hrun₂ (by simpa using hload₂)).1 0 65).trans ?_⟩
  decide

/-- Two codepoints of one code, of which one gets another code: the code is not found any
more, though it still is the code of the other. -/
theorem unicodeToOneCharsetCodepoint_erased : ∃ cs,
    Run step anyStep initLatin
      [.set (some 0x3b1) 0 65, .set (some 0x3b1) 0 66, .set (some 0x3b2) 0 65] cs ∧
    charsetCodepointToUnicode cs 0 66 = some (some 0x3b1) ∧ unicodeToOneCharsetCodepoint 0x3b1 cs = some none := by
  refine exists_run_of_exec ?_
  decide +kernel

end Charset

end XEmacs.Coding
