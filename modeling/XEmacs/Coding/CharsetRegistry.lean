import XEmacs.Coding.Multibyte

/-! The tables by which a charset that has been made is found (mule-charset.c, charset.h): from its
number, and, where it is compatible with ISO 2022, from its type, final byte and direction. A final byte
of 0 is none. `make_charset` keeps the tables true. Left out are the properties by which no charset is
found, and the names of charsets, which are numbers here. -/

namespace XEmacs.Coding.Multibyte

open Unicode (Byte)

def charsetType94 : ℕ := 0

def charsetType96 : ℕ := 1

def charsetType94x94 : ℕ := 2

def charsetType96x96 : ℕ := 3

/-- `get_charset_iso2022_type_1`, none for -1. -/
def getCharsetIso2022Type1 (dimension size0 size1 offset0 offset1 final : ℕ) : Option ℕ :=
  let offset0 := offset0 &&& 127
  let offset1 := offset1 &&& 127
  let type :=
    if dimension = 1 then
      if size1 = 94 ∧ offset1 = 33 then some charsetType94
      else if size1 = 96 ∧ offset1 = 32 then some charsetType96
      else none
    else
      if size0 = 94 ∧ offset0 = 33 ∧ size1 = 94 ∧ offset1 = 33 then some charsetType94x94
      else if size0 = 96 ∧ offset0 = 32 ∧ size1 = 96 ∧ offset1 = 32 then some charsetType96x96
      else none
  if final ≠ 0 then type else none

/-- `get_charset_iso2022_type_1` as called on the properties of a charset. -/
def LispCharset.iso2022Type1 (cs : LispCharset) (final : ℕ) : Option ℕ :=
  getCharsetIso2022Type1 cs.dimension (cs.chars 0) (cs.chars 1) (cs.offset 0) (cs.offset 1) final

/-- Charsets with those of their properties by which they are found. -/
structure CharsetRegistry extends Charsets where
  made : ℕ → Bool
  id : ℕ → ℕ
  final : ℕ → ℕ
  rightToLeft : ℕ → Bool

namespace CharsetRegistry

variable (env : CharsetRegistry)

/-- `get_charset_iso2022_type`, none for -1. -/
def getCharsetIso2022Type (charset : ℕ) : Option ℕ :=
  if charset = env.ascii then some charsetType94 else (env.charset charset).iso2022Type1 (env.final charset)

section Making

variable {env} {obj : ℕ} (cs : LispCharset)

theorem charset_ascii_update (hobj : ¬ obj = env.ascii) :
    Function.update env.charset obj cs env.ascii = env.charset env.ascii :=
  Function.update_of_ne (Ne.symm hobj) cs env.charset

theorem ascii_dimension_update (hobj : ¬ obj = env.ascii) :
    (Function.update env.charset obj cs env.ascii).dimension = 1 := by
  rw [charset_ascii_update cs hobj]
  exact env.ascii_dimension

theorem ascii_limits_update (hobj : ¬ obj = env.ascii) :
    (Function.update env.charset obj cs env.ascii).minCode 1 = 0 ∧
      (Function.update env.charset obj cs env.ascii).maxCode 1 = 127 := by
  rw [charset_ascii_update cs hobj]
  exact env.ascii_limits

theorem ascii_codes_update (hobj : ¬ obj = env.ascii) (c : Byte) (hc : Unicode.byteAsciiP c) :
    (Function.update env.charset obj cs env.ascii).charsetCodepointToIchar 0 c = some c.val := by
  rw [charset_ascii_update cs hobj]
  exact env.ascii_codes c hc

end Making

def withCharset (obj : ℕ) (cs : LispCharset) (hobj : ¬ obj = env.ascii) : CharsetRegistry :=
  { env with
    charset := Function.update env.charset obj cs
    ascii_dimension := ascii_dimension_update cs hobj
    ascii_limits := ascii_limits_update cs hobj
    ascii_codes := ascii_codes_update cs hobj }

/-- The charset is put into the slot of its type, final byte and direction. -/
def setByAttributes (obj : ℕ) (type : Option ℕ) (final : ℕ) (rightToLeft : Bool) : ℕ → ℕ → Bool → Option ℕ :=
  fun t f dir => if final ≠ 0 ∧ type = some t ∧ f = final ∧ dir = rightToLeft then some obj
    else env.charsetByAttributes t f dir

/-- A charset that had not been made is entered into the tables. -/
def enter (obj : ℕ) (cs : LispCharset) (id final : ℕ) (rightToLeft : Bool) (hobj : ¬ obj = env.ascii) :
    CharsetRegistry :=
  { env.withCharset obj cs hobj with
    made := Function.update env.made obj true
    id := Function.update env.id obj id
    final := Function.update env.final obj final
    rightToLeft := Function.update env.rightToLeft obj rightToLeft
    charsetById := Function.update env.charsetById id (some obj)
    charsetByAttributes := env.setByAttributes obj (cs.iso2022Type1 final) final rightToLeft }

/-- `make_charset` for charsets other than ASCII, which is there from the start; none where it fails
an assertion. With `overwrite` the charset has been made before. -/
def makeCharset (obj : ℕ) (cs : LispCharset) (id final : ℕ) (rightToLeft : Bool) : Option CharsetRegistry :=
  let type := cs.iso2022Type1 final
  let found := type.bind fun type => env.charsetByAttributes type final rightToLeft
  if hobj : obj = env.ascii then none
  else if env.made obj then
    if final > 0 ∧ found = some obj ∧ id = env.id obj then some (env.withCharset obj cs hobj) else none
  else if (final ≠ 0 → final < 128 ∧ type.isSome ∧ found = none) ∧ env.charsetById id = none then
    some (env.enter obj cs id final rightToLeft hobj)
  else none

/-- The charset is found from this type, final byte and direction. -/
def HasAttributes (charset type final : ℕ) (rightToLeft : Bool) : Prop :=
  env.made charset ∧ env.getCharsetIso2022Type charset = some type ∧ env.final charset = final ∧
    env.rightToLeft charset = rightToLeft

/-- The two tables find the charsets that have been made. -/
structure Defined : Prop where
  ascii_made : env.made env.ascii
  ascii_final : env.final env.ascii ≠ 0
  final_lt : ∀ charset, env.made charset → env.final charset < 128
  byId : ∀ {id charset}, env.charsetById id = some charset ↔ env.made charset ∧ env.id charset = id
  byAttributes : ∀ {type final rightToLeft charset},
    env.charsetByAttributes type final rightToLeft = some charset ↔ env.HasAttributes charset type final rightToLeft

end CharsetRegistry

structure DefinedCharsets extends CharsetRegistry where
  defined : toCharsetRegistry.Defined

namespace CharsetRegistry

variable {env env' : CharsetRegistry} {obj id final : ℕ} {cs : LispCharset} {rightToLeft : Bool}

theorem iso2022Type1_eq_some {type : ℕ} (h : cs.iso2022Type1 final = some type) : final ≠ 0 := by
  rintro rfl
  rw [LispCharset.iso2022Type1, getCharsetIso2022Type1] at h
  exact absurd ((if_neg (not_not_intro rfl)).symm.trans h) (Option.some_ne_none _).symm

theorem enter_self (hobj : ¬ obj = env.ascii) :
    (env.enter obj cs id final rightToLeft hobj).made obj = true ∧
      (env.enter obj cs id final rightToLeft hobj).id obj = id ∧
      (env.enter obj cs id final rightToLeft hobj).final obj = final ∧
      (env.enter obj cs id final rightToLeft hobj).rightToLeft obj = rightToLeft ∧
      (env.enter obj cs id final rightToLeft hobj).getCharsetIso2022Type obj = cs.iso2022Type1 final := by
  refine ⟨Function.update_self .., Function.update_self .., Function.update_self .., Function.update_self .., ?_⟩
  refine (if_neg hobj).trans ?_
  have hcharset : (env.enter obj cs id final rightToLeft hobj).charset obj = cs := Function.update_self ..
  have hfinal : (env.enter obj cs id final rightToLeft hobj).final obj = final := Function.update_self ..
  rw [hcharset, hfinal]

theorem enter_of_ne {charset : ℕ} (hobj : ¬ obj = env.ascii) (hne : charset ≠ obj) :
    (env.enter obj cs id final rightToLeft hobj).made charset = env.made charset ∧
      (env.enter obj cs id final rightToLeft hobj).id charset = env.id charset ∧
      (env.enter obj cs id final rightToLeft hobj).final charset = env.final charset ∧
      (env.enter obj cs id final rightToLeft hobj).rightToLeft charset = env.rightToLeft charset ∧
      (env.enter obj cs id final rightToLeft hobj).getCharsetIso2022Type charset =
        env.getCharsetIso2022Type charset := by
  refine ⟨Function.update_of_ne hne .., Function.update_of_ne hne .., Function.update_of_ne hne ..,
    Function.update_of_ne hne .., ?_⟩
  refine congrArg (fun type => if charset = env.ascii then some charsetType94 else type) ?_
  have hcharset : (env.enter obj cs id final rightToLeft hobj).charset charset = env.charset charset :=
    Function.update_of_ne hne ..
  have hfinal : (env.enter obj cs id final rightToLeft hobj).final charset = env.final charset :=
    Function.update_of_ne hne ..
  rw [hcharset, hfinal]

theorem Defined.enter (h : env.Defined) (hobj : ¬ obj = env.ascii) (hmade : ¬ env.made obj = true)
    (hfree : final ≠ 0 → final < 128 ∧ (cs.iso2022Type1 final).isSome ∧
      ((cs.iso2022Type1 final).bind fun type => env.charsetByAttributes type final rightToLeft) = none)
    (hid : env.charsetById id = none) : (env.enter obj cs id final rightToLeft hobj).Defined := by
  have hself := @enter_self env obj id final cs rightToLeft hobj
  have hother {charset : ℕ} := @enter_of_ne env obj id final cs rightToLeft charset hobj
  have hascii : env.ascii ≠ obj := Ne.symm hobj
  refine ⟨(hother hascii).1.trans h.ascii_made, ?_, fun charset hcharset => ?_, fun {n charset} => ?_,
    fun {type f dir charset} => ?_⟩
  · exact fun hzero => h.ascii_final ((hother hascii).2.2.1.symm.trans hzero)
  · by_cases heq : charset = obj
    · subst heq
      rw [hself.2.2.1]
      by_cases hfinal : final = 0
      · omega
      · exact (hfree hfinal).1
    · rw [(hother heq).2.2.1]
      exact h.final_lt charset ((hother heq).1.symm.trans hcharset)
  · have hlookup : (env.enter obj cs id final rightToLeft hobj).charsetById n =
        if n = id then some obj else env.charsetById n := Function.update_apply ..
    rw [hlookup]
    by_cases heq : charset = obj
    · subst heq
      rw [hself.1, hself.2.1]
      by_cases hn : n = id
      · rw [if_pos hn]
        exact iff_of_true rfl ⟨rfl, hn.symm⟩
      · rw [if_neg hn]
        exact iff_of_false (fun hfound => hmade (h.byId.mp hfound).1) fun hsame => hn hsame.2.symm
    · rw [(hother heq).1, (hother heq).2.1, ← h.byId]
      by_cases hn : n = id
      · rw [if_pos hn, hn, hid]
        exact iff_of_false (fun hfound => heq (Option.some.inj hfound).symm) (Option.some_ne_none _).symm
      · rw [if_neg hn]
  · have hlookup : (env.enter obj cs id final rightToLeft hobj).charsetByAttributes type f dir =
        if final ≠ 0 ∧ cs.iso2022Type1 final = some type ∧ f = final ∧ dir = rightToLeft then some obj
        else env.charsetByAttributes type f dir := rfl
    rw [hlookup, HasAttributes]
    by_cases heq : charset = obj
    · subst heq
      rw [hself.1, hself.2.2.1, hself.2.2.2.1, hself.2.2.2.2]
      by_cases hslot : final ≠ 0 ∧ cs.iso2022Type1 final = some type ∧ f = final ∧ dir = rightToLeft
      · rw [if_pos hslot]
        exact iff_of_true rfl ⟨rfl, hslot.2.1, hslot.2.2.1.symm, hslot.2.2.2.symm⟩
      · rw [if_neg hslot]
        refine iff_of_false (fun hfound => hmade (h.byAttributes.mp hfound).1) ?_
        rintro ⟨-, htype, rfl, rfl⟩
        exact hslot ⟨iso2022Type1_eq_some htype, htype, rfl, rfl⟩
    · rw [(hother heq).1, (hother heq).2.2.1, (hother heq).2.2.2.1, (hother heq).2.2.2.2]
      refine Iff.trans ?_ h.byAttributes
      by_cases hslot : final ≠ 0 ∧ cs.iso2022Type1 final = some type ∧ f = final ∧ dir = rightToLeft
      · have hnone := (hfree hslot.1).2.2
        rw [hslot.2.1, Option.bind_some] at hnone
        rw [if_pos hslot, hslot.2.2.1, hslot.2.2.2, hnone]
        exact iff_of_false (fun hfound => heq (Option.some.inj hfound).symm) (Option.some_ne_none _).symm
      · rw [if_neg hslot]

end CharsetRegistry

end XEmacs.Coding.Multibyte
