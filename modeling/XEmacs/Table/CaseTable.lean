import Mathlib.Data.List.Nodup
import XEmacs.Lib.Circular
import XEmacs.Table.CharTableReadExact

/-! Case tables (casetab.c). From the tables for the two cases come `canon`, which has one character for all that
differ in case, and `eqv`, which links these in circular lists; both are computed again when one is read after
a change. Old-style tables of strings are left out. -/

namespace XEmacs.Table

open Lib CharBuild

/-- `Ichar`. -/
abbrev CharBuild.Ichar (B : CharBuild) := {ch : ℕ // B.validIcharP ch}

/-- A generic table from characters to characters. -/
structure TrtTable (B : CharBuild) where
  table : CharTable
  stored : Stored B .generic table
  chars : table.table.All fun v => ∃ ch : B.Ichar, v = .char ch.val

variable {B : CharBuild}

theorem valid_toNat {ch : ℤ} (h : B.validIcharP ch) : B.validIcharP ch.toNat := by
  rwa [Int.toNat_of_nonneg (B.bound ch h).1]

/-- `XCHAR`; none of what is no character. -/
def xchar (B : CharBuild) : TableValue → Option B.Ichar
  | .char ch => if h : B.validIcharP ch then some ⟨ch.toNat, valid_toNat h⟩ else none
  | _ => none

/-- The valid characters of a range. -/
def ichars (B : CharBuild) (r : MapRange) : List B.Ichar :=
  (List.range' r.start (r.stop + 1 - r.start)).filterMap fun (code : ℕ) =>
    if h : B.validIcharP code then some ⟨code, h⟩ else none

namespace TrtTable

/-- `MAKE_TRT_TABLE`. -/
def make : TrtTable B := ⟨makeCharTable .generic, stored_makeCharTable B .generic, fun v hv => absurd hv (Option.not_mem_none v)⟩

/-- `TRT_TABLE_OF`. -/
def of (t : TrtTable B) (ch : B.Ichar) : B.Ichar := (xchar B (getCharTable ch.val t.table)).getD ch

theorem all_char (ch : B.Ichar) : ∀ x ∈ some (TableValue.char ch.val), ∃ c : B.Ichar, x = .char c.val :=
  fun _ hx => ⟨ch, (Option.mem_some_iff.mp hx).symm⟩

/-- `SET_TRT_TABLE_OF`. -/
def set (t : TrtTable B) (ch1 ch2 : B.Ichar) : TrtTable B where
  table := B.putCharTable t.table ch1.val ch1.val (some (.char ch2.val))
  stored := t.stored.putCharTable fun _ _ => ⟨rfl, rfl⟩
  chars := all_putCharTable t.chars (all_char ch2)

end TrtTable

/-- What the mappers have in common: the loop over the valid characters of a range. -/
def charMapper {σ : Type} (body : B.Ichar → B.Ichar → σ → σ) (r : MapRange) (s : σ) : ℤ × σ :=
  match xchar B r.val with
  | some val => (0, (ichars B r).foldl (fun s code => body code val s) s)
  | none => (0, s)

def computeCanonMapper (downcase upcase : TrtTable B) : MapRange → TrtTable B → ℤ × TrtTable B :=
  charMapper fun code val canon => canon.set code (downcase.of (upcase.of val))

def initializeIdentityMapper : MapRange → TrtTable B → ℤ × TrtTable B :=
  charMapper fun code _ trt => trt.set code code

def computeUpOrEqvMapper : MapRange → TrtTable B → ℤ × TrtTable B :=
  charMapper fun code toch inverse =>
    if code = toch then inverse
    else
      let c := inverse.of toch
      (inverse.set toch code).set code c

structure CaseTable (B : CharBuild) where
  downcase : TrtTable B
  upcase : TrtTable B
  caseCanon : TrtTable B
  caseEqv : TrtTable B
  dirty : Bool

namespace CaseTable

/-- `make-case-table`. -/
def make : CaseTable B := ⟨.make, .make, .make, .make, false⟩

def recomputeCaseTable (R : CharRounding B) (ct : CaseTable B) : CaseTable B :=
  let canon := (mapCharTable R (computeCanonMapper ct.downcase ct.upcase) ct.downcase.table .all ct.caseCanon).2
  let eqv := (mapCharTable R initializeIdentityMapper canon.table .all ct.caseEqv).2
  { ct with
    caseCanon := canon
    caseEqv := (mapCharTable R computeUpOrEqvMapper canon.table .all eqv).2
    dirty := false }

/-- `XCASE_TABLE_UPDATE`, through which `canon` and `eqv` are read. -/
def xcaseTableUpdate (R : CharRounding B) (ct : CaseTable B) : CaseTable B := if ct.dirty then recomputeCaseTable R ct else ct

inductive CharCase where
  | downcase
  | upcase

def fputCaseTable (charCase : CharCase) (character value : B.Ichar) (ct : CaseTable B) : CaseTable B :=
  match charCase with
  | .downcase =>
    { ct with
      downcase := ct.downcase.set character value
      upcase := ct.upcase.set character value
      dirty := true }
  | .upcase =>
    { ct with
      upcase := ct.upcase.set character value
      downcase := ct.downcase.set character character
      dirty := true }

def fputCaseTablePair (uc lc : B.Ichar) (ct : CaseTable B) : CaseTable B :=
  { ct with
    downcase := (ct.downcase.set lc lc).set uc lc
    upcase := (ct.upcase.set uc lc).set lc uc
    dirty := true }

inductive Op (B : CharBuild) where
  | put (charCase : CharCase) (character value : B.Ichar)
  | putPair (uc lc : B.Ichar)
  /-- `canon` or `eqv` is read. -/
  | read

def step (R : CharRounding B) (ct : CaseTable B) : Op B → Option (CaseTable B)
  | .put charCase character value => some (fputCaseTable charCase character value ct)
  | .putPair uc lc => some (fputCaseTablePair uc lc ct)
  | .read => some (xcaseTableUpdate R ct)

end CaseTable

namespace TrtTable

variable {t : TrtTable B} {a b c : B.Ichar}

/-- The character has an entry of its own. -/
def IsSet (t : TrtTable B) (ch : B.Ichar) : Prop := (getCharTableRaw ch.val t.table).isSome

theorem xchar_char (ch : B.Ichar) : xchar B (.char ch.val) = some ch := by
  rw [xchar, dif_pos ch.property]
  rfl

theorem raw_of_isSet (h : t.IsSet c) : getCharTableRaw c.val t.table = some (.char (t.of c).val) := by
  obtain ⟨v, hv⟩ := Option.isSome_iff_exists.mp h
  obtain ⟨d, rfl⟩ := t.chars.getCharTableRaw c.val v hv
  rw [hv, of, getCharTable, hv, Option.getD_some, xchar_char, Option.getD_some]

theorem of_eq_self (h : ¬t.IsSet c) : t.of c = c := by
  have hraw : getCharTableRaw c.val t.table = none := Option.not_isSome_iff_eq_none.mp h
  rw [of, getCharTable, hraw, t.stored.default_eq]
  rfl

theorem raw_set : getCharTableRaw c.val (t.set a b).table = if c = a then some (.char b.val) else getCharTableRaw c.val t.table := by
  rw [set, getCharTableRaw_putCharTable t.stored.leveled (lt_limit c.property) (fillsGrowth_char t.stored.leveled a.val)]
  refine if_congr ?_ rfl rfl
  rw [Subtype.ext_iff]
  omega

theorem isSet_set : (t.set a b).IsSet c ↔ c = a ∨ t.IsSet c := by
  rw [IsSet, raw_set]
  split_ifs with h
  · simp [h]
  · simp [h, IsSet]

theorem of_set (t : TrtTable B) (a b : B.Ichar) : (t.set a b).of = Function.update t.of a b := by
  funext c
  by_cases h : c = a
  · subst h
    rw [Function.update_self, of, getCharTable, raw_set, if_pos rfl, Option.getD_some, xchar_char, Option.getD_some]
  · rw [Function.update_of_ne h, of, of, getCharTable, getCharTable, raw_set, if_neg h, (t.set a b).stored.default_eq,
      t.stored.default_eq]

theorem not_isSet_make : ¬(make : TrtTable B).IsSet c := by
  rw [IsSet, show (make : TrtTable B).table = initChartabTables (makeCharTable .generic) from rfl,
    getCharTableRaw_initChartabTables]
  exact Bool.false_ne_true

end TrtTable

section Mapping

variable {R : CharRounding B} {t : TrtTable B} {σ : Type}

def codes (R : CharRounding B) (t : TrtTable B) : List B.Ichar := (calls R t.table .all).flatMap (ichars B)

theorem mem_ichars {r : MapRange} {c : B.Ichar} : c ∈ ichars B r ↔ r.start ≤ c.val ∧ c.val ≤ r.stop := by
  rw [ichars, List.mem_filterMap]
  constructor
  · rintro ⟨code, hcode, hc⟩
    split_ifs at hc with hvalid
    obtain rfl := Option.some.inj hc
    rw [List.mem_range'_1] at hcode
    dsimp only
    omega
  · intro h
    exact ⟨c.val, List.mem_range'_1.mpr (by omega), dif_pos c.property⟩

theorem exact_codes (R : CharRounding B) (t : TrtTable B) : Exact B t.table .all (calls R t.table .all) :=
  (exact_calls_iff t.stored.leveled).mpr id

theorem mem_codes {c : B.Ichar} : c ∈ codes R t ↔ t.IsSet c := by
  have hcovers := (exact_codes R t).covers c.val
  rw [codes, List.mem_flatMap]
  constructor
  · rintro ⟨r, hr, hc⟩
    exact Option.isSome_iff_exists.mpr ⟨_, ((hcovers r.val c.property).mp ⟨r, hr, mem_ichars.mp hc, rfl⟩).2⟩
  · intro h
    obtain ⟨r, hr, hin, -⟩ := (hcovers _ c.property).mpr ⟨trivial, TrtTable.raw_of_isSet h⟩
    exact ⟨r, hr, mem_ichars.mpr hin⟩

theorem nodup_codes : (codes R t).Nodup := by
  rw [codes, List.nodup_flatMap]
  constructor
  · intro r _
    refine List.Nodup.filterMap ?_ List.nodup_range'
    intro a a' c hc hc'
    rw [Option.mem_def, Option.dite_none_right_eq_some] at hc hc'
    obtain ⟨_, hc⟩ := hc
    obtain ⟨_, hc'⟩ := hc'
    exact congrArg Subtype.val ((Option.some.inj hc).trans (Option.some.inj hc').symm)
  · refine (exact_codes R t).increasing.imp ?_
    intro r r' hlt c hc hc'
    rw [mem_ichars] at hc hc'
    omega

theorem untilNonzero_charMapper (body : B.Ichar → B.Ichar → σ → σ) {ranges : List MapRange}
    (h : ∀ r ∈ ranges, xchar B r.val ≠ none ∧ ∀ c ∈ ichars B r, xchar B r.val = some (t.of c)) (s : σ) :
    (untilNonzero (charMapper body) ranges s).2 =
      (ranges.flatMap (ichars B)).foldl (fun s c => body c (t.of c) s) s := by
  induction ranges generalizing s with
  | nil => rfl
  | cons r ranges ih =>
    obtain ⟨hsome, hval⟩ := h r List.mem_cons_self
    obtain ⟨val, hxchar⟩ := Option.ne_none_iff_exists'.mp hsome
    have hcall : charMapper body r s = (0, (ichars B r).foldl (fun s c => body c (t.of c) s) s) := by
      rw [charMapper, hxchar]
      refine congrArg (Prod.mk 0) (List.foldl_ext _ _ _ fun s c hc => ?_)
      rw [Option.some.inj (hxchar.symm.trans (hval c hc))]
    rw [untilNonzero_cons_of_eq (by rw [hcall]), hcall, List.flatMap_cons, List.foldl_append]
    exact ih (fun x hx => h x (List.mem_cons_of_mem r hx)) _

/-- Mapping over a table is the loop over the characters that have entries, each with its own. -/
theorem mapCharTable_charMapper (body : B.Ichar → B.Ichar → σ → σ) (s : σ) :
    (mapCharTable R (charMapper body) t.table .all s).2 = (codes R t).foldl (fun s c => body c (t.of c) s) s := by
  rw [calledOn_calls R t.table .all]
  refine untilNonzero_charMapper body (fun r hr => ?_) s
  have hentry (c : B.Ichar) (hc : c ∈ ichars B r) : xchar B r.val = some (t.of c) := by
    have hraw := ((exact_codes R t).covers c.val r.val c.property).mp ⟨r, hr, mem_ichars.mp hc, rfl⟩
    have hset : t.IsSet c := Option.isSome_iff_exists.mpr ⟨_, hraw.2⟩
    rw [Option.some.inj (hraw.2.symm.trans (TrtTable.raw_of_isSet hset)), TrtTable.xchar_char]
  obtain ⟨hle, hstart, -⟩ := (exact_codes R t).valid r hr
  have hfirst := hentry ⟨r.start, hstart⟩ (mem_ichars.mpr ⟨le_refl _, hle⟩)
  exact ⟨by rw [hfirst]; exact Option.some_ne_none _, hentry⟩

theorem of_foldl_set (value : B.Ichar → B.Ichar) (l : List B.Ichar) (t : TrtTable B) (c : B.Ichar) :
    (l.foldl (fun t c => t.set c (value c)) t).of c = if c ∈ l then value c else t.of c := by
  induction l generalizing t with
  | nil => rfl
  | cons a l ih =>
    rw [List.foldl_cons, ih, TrtTable.of_set]
    by_cases hl : c ∈ l
    · rw [if_pos hl, if_pos (List.mem_cons_of_mem a hl)]
    · by_cases hca : c = a
      · subst hca
        rw [if_neg hl, if_pos List.mem_cons_self, Function.update_self]
      · rw [if_neg hl, if_neg fun h => (List.mem_cons.mp h).elim hca hl, Function.update_of_ne hca]

theorem isSet_foldl_set (value : B.Ichar → B.Ichar) (l : List B.Ichar) (t : TrtTable B) (c : B.Ichar) :
    (l.foldl (fun t c => t.set c (value c)) t).IsSet c ↔ c ∈ l ∨ t.IsSet c := by
  induction l generalizing t with
  | nil => simp
  | cons a l ih =>
    rw [List.foldl_cons, ih, TrtTable.isSet_set, List.mem_cons]
    tauto

end Mapping

namespace CaseTable

open Circular

variable {R : CharRounding B} {ct ct' : CaseTable B} {op : Op B} {ops : List (Op B)}

/-- What `canon` is computed to. -/
def canonOf (ct : CaseTable B) (c : B.Ichar) : B.Ichar := ct.downcase.of (ct.upcase.of (ct.downcase.of c))

/-- No character has an entry where `downcase` has none, but for one in `eqv` that was linked to others. -/
structure Sound (ct : CaseTable B) : Prop where
  upcase : ∀ c, ct.upcase.IsSet c → ct.downcase.IsSet c
  canon : ∀ c, ct.caseCanon.IsSet c → ct.downcase.IsSet c
  eqv : ∀ c, ¬ct.downcase.IsSet c → ct.caseEqv.of c = c ∨ ct.downcase.IsSet (ct.caseEqv.of c)

theorem canonOf_of_not_isSet (h : Sound ct) {c : B.Ichar} (hc : ¬ct.downcase.IsSet c) : canonOf ct c = c := by
  rw [canonOf, TrtTable.of_eq_self hc, TrtTable.of_eq_self fun hup => hc (h.upcase c hup), TrtTable.of_eq_self hc]

theorem of_canon (h : Sound ct) (c : B.Ichar) : (recomputeCaseTable R ct).caseCanon.of c = canonOf ct c := by
  rw [recomputeCaseTable]
  dsimp only
  rw [computeCanonMapper, mapCharTable_charMapper]
  refine (of_foldl_set (canonOf ct) _ _ c).trans ?_
  split_ifs with hc
  · rfl
  · rw [mem_codes] at hc
    rw [TrtTable.of_eq_self fun hcanon => hc (h.canon c hcanon), canonOf_of_not_isSet h hc]

theorem isSet_canon (h : Sound ct) (c : B.Ichar) :
    (recomputeCaseTable R ct).caseCanon.IsSet c ↔ ct.downcase.IsSet c := by
  rw [recomputeCaseTable]
  dsimp only
  rw [computeCanonMapper, mapCharTable_charMapper]
  refine (isSet_foldl_set (canonOf ct) _ _ c).trans ?_
  rw [mem_codes]
  exact or_iff_left_of_imp (h.canon c)

theorem of_foldl_link (k : B.Ichar → B.Ichar) (l : List B.Ichar) (t : TrtTable B) :
    (l.foldl (fun t c => if c = k c then t else (t.set (k c) c).set c (t.of (k c))) t).of = l.foldl (link k) t.of := by
  induction l generalizing t with
  | nil => rfl
  | cons c l ih =>
    rw [List.foldl_cons, List.foldl_cons, ih, link]
    split_ifs
    · rfl
    · rw [TrtTable.of_set, TrtTable.of_set]
      rfl

/-- The characters of `canon` are linked, once their entries in `eqv` are themselves. -/
theorem of_eqv (ct : CaseTable B) : (recomputeCaseTable R ct).caseEqv.of =
    (codes R (recomputeCaseTable R ct).caseCanon).foldl (link (recomputeCaseTable R ct).caseCanon.of)
      ((codes R (recomputeCaseTable R ct).caseCanon).foldl (fun t c => t.set c (id c)) ct.caseEqv).of := by
  rw [← of_foldl_link, recomputeCaseTable]
  dsimp only
  rw [computeUpOrEqvMapper, mapCharTable_charMapper, initializeIdentityMapper, mapCharTable_charMapper]
  rfl

theorem lists_recomputeCaseTable_iff (h : Sound ct) :
    Lists (recomputeCaseTable R ct).caseEqv.of (recomputeCaseTable R ct).caseCanon.of ↔
      (∀ c, canonOf ct (canonOf ct c) = canonOf ct c) ∧ ∀ c, ¬ct.downcase.IsSet c → ct.caseEqv.of c = c := by
  have hmem (c : B.Ichar) : c ∈ codes R (recomputeCaseTable R ct).caseCanon ↔ ct.downcase.IsSet c :=
    mem_codes.trans (isSet_canon h c)
  rw [of_eqv, funext (of_canon (R := R) h)]
  refine (lists_foldl_link_iff nodup_codes (fun c hc => canonOf_of_not_isSet h (mt (hmem c).mpr hc))
    (fun c hc => ?_) fun c hc => ?_).trans (and_congr_right fun _ => forall_congr' fun c => ?_)
  · rw [of_foldl_set, if_pos hc, id]
  · rw [of_foldl_set, if_neg hc, hmem]
    exact h.eqv c (mt (hmem c).mpr hc)
  · rw [of_foldl_set, ← hmem]
    split_ifs with hc
    · exact iff_of_true rfl fun hnot => absurd hc hnot
    · exact (imp_iff_right hc).symm

theorem sound_make : Sound (make : CaseTable B) :=
  ⟨fun _ h => h, fun _ h => h, fun _ _ => .inl (TrtTable.of_eq_self TrtTable.not_isSet_make)⟩

theorem Sound.putting (h : Sound ct) {downcase upcase : TrtTable B} (hdown : ∀ c, ct.downcase.IsSet c → downcase.IsSet c)
    (hup : ∀ c, upcase.IsSet c → downcase.IsSet c) :
    Sound { ct with downcase := downcase, upcase := upcase, dirty := true } where
  upcase := hup
  canon c hc := hdown c (h.canon c hc)
  eqv c hc := (h.eqv c (mt (hdown c) hc)).imp_right (hdown _)

theorem Sound.recomputeCaseTable (h : Sound ct) : Sound (recomputeCaseTable R ct) where
  upcase := h.upcase
  canon c hc := (isSet_canon h c).mp hc
  eqv c hc := by
    have hnot : c ∉ codes R (CaseTable.recomputeCaseTable R ct).caseCanon := fun hmem =>
      hc ((isSet_canon h c).mp (mem_codes.mp hmem))
    have hlinked (d : B.Ichar) (hd : d ∈ codes R (CaseTable.recomputeCaseTable R ct).caseCanon) : ct.downcase.IsSet d :=
      (isSet_canon h d).mp (mem_codes.mp hd)
    rw [of_eqv]
    rcases foldl_link_of_notMem hnot with heq | hmem
    · rw [heq, of_foldl_set, if_neg hnot]
      exact h.eqv c hc
    · exact .inr (hlinked _ hmem)

theorem Sound.step (h : Sound ct) (hstep : step R ct op = some ct') : Sound ct' := by
  cases op with
  | put charCase character value =>
    obtain rfl := Option.some.inj hstep
    cases charCase with
    | downcase =>
      exact h.putting (fun c hc => TrtTable.isSet_set.mpr (.inr hc)) fun c hc =>
        TrtTable.isSet_set.mpr ((TrtTable.isSet_set.mp hc).imp_right (h.upcase c))
    | upcase =>
      exact h.putting (fun c hc => TrtTable.isSet_set.mpr (.inr hc)) fun c hc =>
        TrtTable.isSet_set.mpr ((TrtTable.isSet_set.mp hc).imp_right (h.upcase c))
  | putPair uc lc =>
    obtain rfl := Option.some.inj hstep
    refine h.putting (fun c hc => ?_) fun c hc => ?_
    · rw [TrtTable.isSet_set, TrtTable.isSet_set]
      exact .inr (.inr hc)
    · rw [TrtTable.isSet_set, TrtTable.isSet_set] at hc ⊢
      exact or_left_comm.mp (hc.imp_right (Or.imp_right (h.upcase c)))
  | read =>
    obtain rfl := Option.some.inj hstep
    rw [xcaseTableUpdate]
    split_ifs
    · exact h.recomputeCaseTable
    · exact h

/-- After a change `eqv` lists the classes of `canon` just where `canon` is idempotent and `eqv` has
no outdated entry. -/
theorem run_lists_iff (h : Run (step R) anyStep make ops ct) (hdirty : ct.dirty = true) :
    (∀ c, (xcaseTableUpdate R ct).caseCanon.of c = ct.downcase.of (ct.upcase.of (ct.downcase.of c))) ∧
      (Lists (xcaseTableUpdate R ct).caseEqv.of (xcaseTableUpdate R ct).caseCanon.of ↔
        (∀ c, canonOf ct (canonOf ct c) = canonOf ct c) ∧ ∀ c, ¬ct.downcase.IsSet c → ct.caseEqv.of c = c) := by
  have hsound : Sound ct := h.invariant sound_make fun _ _ _ ih _ hs => ih.step hs
  rw [xcaseTableUpdate, if_pos hdirty]
  exact ⟨of_canon hsound, lists_recomputeCaseTable_iff hsound⟩

def upperB : unicodeInternal.Ichar := ⟨66, by decide⟩

def lowerB : unicodeInternal.Ichar := ⟨98, by decide⟩

/-- `?B` had `?b` as its lower case when `eqv` was read. -/
def staleTable : CaseTable unicodeInternal :=
  fputCaseTable .downcase upperB upperB (xcaseTableUpdate unicodeRounding (fputCaseTable .downcase upperB lowerB make))

theorem run_lists_iff_stale : ¬Lists (xcaseTableUpdate unicodeRounding staleTable).caseEqv.of
    (xcaseTableUpdate unicodeRounding staleTable).caseCanon.of := by
  intro hlists
  have hrun : Run (step unicodeRounding) anyStep make
      [.put .downcase upperB lowerB, .read, .put .downcase upperB upperB] staleTable :=
    .snoc (.snoc (.snoc .nil trivial rfl) trivial rfl) trivial rfl
  have hnot : ¬staleTable.downcase.IsSet lowerB := by
    rw [TrtTable.IsSet]
    decide +kernel
  exact absurd (((run_lists_iff hrun rfl).2.mp hlists).2 lowerB hnot) (by decide +kernel)

/-- The calls of `put-case-table-pair` on two characters that have no entries yet, and those that read. -/
def FreshPair (ct : CaseTable B) : Op B → Prop
  | .putPair uc lc => ¬ct.downcase.IsSet uc ∧ ¬ct.downcase.IsSet lc
  | .read => True
  | .put _ _ _ => False

structure Paired (ct : CaseTable B) : Prop extends Sound ct where
  down_down : ∀ c, ct.downcase.of (ct.downcase.of c) = ct.downcase.of c
  down_up : ∀ c, ct.downcase.of (ct.upcase.of c) = ct.downcase.of c
  isSet_down : ∀ c, ct.downcase.IsSet c → ct.downcase.IsSet (ct.downcase.of c)
  pair : ∀ c d, ct.downcase.of c = ct.downcase.of d → d = c ∨ d = ct.upcase.of c
  unlinked : ∀ c, ¬ct.downcase.IsSet c → ct.caseEqv.of c = c
  clean : ct.dirty = false → ct.caseCanon.of = ct.downcase.of ∧ ct.caseEqv.of = ct.upcase.of

theorem paired_make : Paired (make : CaseTable B) := by
  have hof : (TrtTable.make : TrtTable B).of = id := funext fun _ => TrtTable.of_eq_self TrtTable.not_isSet_make
  refine ⟨sound_make, ?_, ?_, fun c hc => absurd hc TrtTable.not_isSet_make, ?_, ?_, fun _ => ⟨rfl, rfl⟩⟩ <;>
    simp only [make, hof, id]
  · exact fun _ => trivial
  · exact fun _ => trivial
  · exact fun c d h => .inl h.symm
  · exact fun _ _ => trivial

theorem Paired.putPair (h : Paired ct) {uc lc : B.Ichar} (hfresh : FreshPair ct (.putPair uc lc))
    (hsound : Sound (fputCaseTablePair uc lc ct)) : Paired (fputCaseTablePair uc lc ct) := by
  obtain ⟨huc, hlc⟩ := hfresh
  have hdown (c : B.Ichar) : (fputCaseTablePair uc lc ct).downcase.of c = if c = uc ∨ c = lc then lc else ct.downcase.of c := by
    simp only [fputCaseTablePair, TrtTable.of_set, Function.update_apply]
    split_ifs <;> first | rfl | tauto
  have hup (c : B.Ichar) : (fputCaseTablePair uc lc ct).upcase.of c =
      if c = lc then uc else if c = uc then lc else ct.upcase.of c := by
    simp only [fputCaseTablePair, TrtTable.of_set, Function.update_apply]
  have hset (c : B.Ichar) : (fputCaseTablePair uc lc ct).downcase.IsSet c ↔ (c = uc ∨ c = lc) ∨ ct.downcase.IsSet c := by
    rw [fputCaseTablePair, TrtTable.isSet_set, TrtTable.isSet_set, or_assoc]
  -- the other characters are not paired with these
  have hother {c d : B.Ichar} (hc : ¬(c = uc ∨ c = lc)) (hd : ct.downcase.of d = ct.downcase.of c) : ¬(d = uc ∨ d = lc) := by
    intro hpair
    have hnot : ¬ct.downcase.IsSet d := hpair.elim (fun h => h ▸ huc) fun h => h ▸ hlc
    rw [TrtTable.of_eq_self hnot] at hd
    by_cases hcset : ct.downcase.IsSet c
    · exact hnot (hd ▸ h.isSet_down c hcset)
    · rw [TrtTable.of_eq_self hcset] at hd
      exact hc (hd ▸ hpair)
  refine ⟨hsound, fun c => ?_, fun c => ?_, fun c hc => ?_, fun c d hcd => ?_, fun c hc => ?_, ?_⟩
  · rw [hdown c]
    split_ifs with hc
    · rw [hdown, if_pos (.inr rfl)]
    · rw [hdown, if_neg (hother hc (h.down_down c)), h.down_down]
  · rw [hup]
    split_ifs with hc hc'
    · rw [hc, hdown, hdown, if_pos (.inl rfl), if_pos (.inr rfl)]
    · rw [hc', hdown, hdown, if_pos (.inr rfl), if_pos (.inl rfl)]
    · have hnot : ¬(c = uc ∨ c = lc) := fun hpair => hpair.elim hc' hc
      rw [hdown, hdown, if_neg hnot, if_neg (hother hnot (h.down_up c)), h.down_up]
  · rw [hdown, hset]
    split_ifs with hpair
    · exact .inl (.inr rfl)
    · exact .inr (h.isSet_down c (((hset c).mp hc).resolve_left hpair))
  · rw [hdown, hdown] at hcd
    rw [hup]
    split_ifs at hcd with hc hd hd
    · split_ifs with hlow hupper
      · exact hd.elim .inr fun hd => .inl (hd.trans hlow.symm)
      · exact hd.elim (fun hd => .inl (hd.trans hupper.symm)) .inr
      · exact absurd hc fun hpair => hpair.elim hupper hlow
    · exact absurd (.inr rfl) (hother hd ((TrtTable.of_eq_self hlc).trans hcd))
    · exact absurd (.inr rfl) (hother hc ((TrtTable.of_eq_self hlc).trans hcd.symm))
    · rw [if_neg fun hlow => hc (.inr hlow), if_neg fun hupper => hc (.inl hupper)]
      exact h.pair c d hcd
  · exact h.unlinked c fun hold => hc ((hset c).mpr (.inr hold))
  · exact fun hclean => Bool.noConfusion hclean

theorem Paired.recomputeCaseTable (h : Paired ct) : (recomputeCaseTable R ct).caseCanon.of = ct.downcase.of ∧
    (CaseTable.recomputeCaseTable R ct).caseEqv.of = ct.upcase.of := by
  have hcanon : canonOf ct = ct.downcase.of := funext fun c => by rw [canonOf, h.down_up, h.down_down]
  have hof : (CaseTable.recomputeCaseTable R ct).caseCanon.of = ct.downcase.of := by
    rw [← hcanon]
    exact funext (of_canon h.toSound)
  have hlists := (lists_recomputeCaseTable_iff (R := R) h.toSound).mpr ⟨by rw [hcanon]; exact h.down_down, h.unlinked⟩
  rw [hof] at hlists
  refine ⟨hof, funext fun c => ?_⟩
  rcases h.pair c _ ((hlists c _).mp (.single rfl)) with hself | hup
  · -- a list of one element, so that there is no other character with its lower case
    rw [hself]
    have hreach : Reaches (CaseTable.recomputeCaseTable R ct).caseEqv.of c (ct.upcase.of c) :=
      (hlists _ _).mpr (h.down_up c).symm
    exact (eq_of_reaches hself hreach).symm
  · exact hup

theorem Paired.step (h : Paired ct) (hfresh : FreshPair ct op) (hstep : step R ct op = some ct') : Paired ct' := by
  have hsound := h.toSound.step hstep
  cases op with
  | put charCase character value => exact hfresh.elim
  | putPair uc lc =>
    obtain rfl := Option.some.inj hstep
    exact h.putPair hfresh hsound
  | read =>
    obtain rfl := Option.some.inj hstep
    rw [xcaseTableUpdate] at hsound ⊢
    split_ifs at hsound ⊢
    · obtain ⟨hcanon, heqv⟩ := h.recomputeCaseTable (R := R)
      refine ⟨hsound, h.down_down, h.down_up, h.isSet_down, h.pair, fun c hc => ?_, fun _ => ⟨hcanon, heqv⟩⟩
      rw [heqv]
      exact TrtTable.of_eq_self fun hup => hc (h.upcase c hup)
    · exact h

/-- Where characters are only put in pairs, each in one, `canon` is always `downcase` and `eqv` `upcase`. -/
theorem run_pairs (h : Run (step R) FreshPair make ops ct) :
    (xcaseTableUpdate R ct).caseCanon.of = ct.downcase.of ∧ (xcaseTableUpdate R ct).caseEqv.of = ct.upcase.of := by
  have hpaired : Paired ct := h.invariant paired_make fun _ _ _ ih hfresh hs => ih.step hfresh hs
  rw [xcaseTableUpdate]
  split_ifs with hdirty
  · exact hpaired.recomputeCaseTable
  · exact hpaired.clean (Bool.eq_false_iff.mpr hdirty)

theorem run_pairs_letter : (xcaseTableUpdate unicodeRounding (fputCaseTablePair upperB lowerB make)).caseEqv.of lowerB = upperB := by
  have hrun : Run (step unicodeRounding) FreshPair make [.putPair upperB lowerB] (fputCaseTablePair upperB lowerB make) :=
    .single ⟨TrtTable.not_isSet_make, TrtTable.not_isSet_make⟩ rfl
  rw [(run_pairs hrun).2]
  decide +kernel

end CaseTable

end XEmacs.Table
