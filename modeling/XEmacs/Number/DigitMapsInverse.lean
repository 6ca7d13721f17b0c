import XEmacs.Number.DigitMaps
import XEmacs.Table.CharTableMapExact

/-! When `digit-char` and `digit-char-p` are inverse. A character that is given a negative weight makes the
maps be built outside the vector, and maps that were built before the table was changed are not built again. -/

namespace XEmacs.Number

open Lib Table Table.CharBuild

variable {B : CharBuild} {R : CharRounding B} {cases : LetterCases} {v n : ℕ} {t : CharTable} {l ranges : List MapRange}

structure Highest (l : List MapRange) (maxSeen h : ℤ) : Prop where
  ge : maxSeen ≤ h
  fixnums : ∀ r ∈ l, ∃ n ≤ h, r.val = .fixnum n
  seen : h = maxSeen ∨ ∃ r ∈ l, r.val = .fixnum h

theorem Highest.cons {r : MapRange} {val maxSeen h : ℤ} (hr : r.val = .fixnum val)
    (hl : Highest l (if maxSeen < val then val else maxSeen) h) : Highest (r :: l) maxSeen h := by
  obtain ⟨hge, hfixnums, hseen⟩ := hl
  refine ⟨by split_ifs at hge <;> omega, ?_, ?_⟩
  · intro x hx
    rcases List.mem_cons.mp hx with rfl | hx
    · exact ⟨val, by split_ifs at hge <;> omega, hr⟩
    · exact hfixnums x hx
  · rcases hseen with rfl | ⟨x, hx, hval⟩
    · split_ifs with hlt
      · exact .inr ⟨r, List.mem_cons_self, hr⟩
      · exact .inl rfl
    · exact .inr ⟨x, List.mem_cons_of_mem r hx, hval⟩

theorem untilNonzero_findHighestValue (l : List MapRange) (maxSeen : ℤ) :
    match (untilNonzero findHighestValue l (.ok maxSeen)).2 with
    | .ok h => Highest l maxSeen h
    | .error _ => ∃ r ∈ l, ∀ n, r.val ≠ .fixnum n := by
  induction l generalizing maxSeen with
  | nil => exact ⟨le_refl _, fun r hr => absurd hr List.not_mem_nil, .inl rfl⟩
  | cons r l ih =>
    cases hr : r.val with
    | fixnum val =>
      have hcall : findHighestValue r (.ok maxSeen) = (0, .ok (if maxSeen < val then val else maxSeen)) := by
        rw [findHighestValue, hr]
      rw [untilNonzero_cons_of_eq (by rw [hcall]), hcall]
      have hih := ih (if maxSeen < val then val else maxSeen)
      revert hih
      cases (untilNonzero findHighestValue l (.ok (if maxSeen < val then val else maxSeen))).2 with
      | ok h => exact fun hl => hl.cons hr
      | error _ => exact fun ⟨x, hx, hval⟩ => ⟨x, List.mem_cons_of_mem r hx, hval⟩
    | _ =>
      have hcall : findHighestValue r (.ok maxSeen) = (1, .error r.val) := by rw [findHighestValue, hr]
      rw [untilNonzero_cons_of_ne (by rw [hcall]; exact one_ne_zero), hcall]
      exact ⟨r, List.mem_cons_self, fun n h => by rw [hr] at h; exact TableValue.noConfusion h⟩

/-- Each character in the vector begins a range of its weight. -/
def FilledFrom (ranges : List MapRange) (cctable : Vector (Option ℕ) n) : Prop :=
  ∀ (i : ℕ) c, cctable[i]? = some (some c) → ∃ r ∈ ranges, r.start = c ∧ r.val = .fixnum i

theorem FilledFrom.replicate : FilledFrom ranges (Vector.replicate n none) := by
  intro i c h
  rw [Vector.getElem?_replicate] at h
  split_ifs at h
  exact absurd (Option.some.inj h) (Option.some_ne_none c).symm

theorem FilledFrom.setIfInBounds {cctable : Vector (Option ℕ) n} (h : FilledFrom ranges cctable) {r : MapRange}
    (hr : r ∈ ranges) {val : ℤ} (hval : r.val = .fixnum val) (hpos : 0 ≤ val) :
    FilledFrom ranges (cctable.setIfInBounds val.toNat (some r.start)) := by
  intro i c hi
  rw [Vector.getElem?_setIfInBounds] at hi
  split_ifs at hi with heq hlt
  · obtain rfl := Option.some.inj (Option.some.inj hi)
    exact ⟨r, hr, rfl, by rw [hval, ← heq, Int.toNat_of_nonneg hpos]⟩
  · exact h i c hi

theorem FilledFrom.fillCharVector (preferred : ℕ → ℕ → Bool) {r : MapRange} (hr : r ∈ ranges)
    {s : Option (Vector (Option ℕ) n)} (hs : ∀ cctable ∈ s, FilledFrom ranges cctable) :
    ∀ cctable ∈ (fillCharVector preferred r s).2, FilledFrom ranges cctable := by
  cases s with
  | none => exact fun cctable h => absurd h (Option.not_mem_none cctable)
  | some cctable =>
    have hfilled := hs cctable rfl
    rw [Number.fillCharVector]
    intro cctable' h
    split at h
    · rename_i valint hval
      split_ifs at h with hin
      · split at h
        · split_ifs at h <;> obtain rfl := Option.some.inj h
          · exact hfilled.setIfInBounds hr hval hin.1
          · exact hfilled
        · obtain rfl := Option.some.inj h
          exact hfilled.setIfInBounds hr hval hin.1
      · exact absurd h (Option.not_mem_none cctable')
    · exact absurd h (Option.not_mem_none cctable')

theorem FilledFrom.untilNonzero (preferred : ℕ → ℕ → Bool) {cctable cctable' : Vector (Option ℕ) n}
    (hfilled : FilledFrom ranges cctable)
    (h : (untilNonzero (Number.fillCharVector preferred) ranges (some cctable)).2 = some cctable') :
    FilledFrom ranges cctable' :=
  untilNonzero_invariant (P := fun s => ∀ cctable ∈ s, FilledFrom ranges cctable)
    (fun _ hr _ hs => FilledFrom.fillCharVector preferred hr hs) (fun _ hs => Option.some.inj hs ▸ hfilled) cctable' h

theorem untilNonzero_fill_eq_none (preferred : ℕ → ℕ → Bool) (hl : ∀ r ∈ l, ∃ m < (n : ℤ), r.val = .fixnum m)
    (cctable : Vector (Option ℕ) n) :
    (untilNonzero (fillCharVector preferred) l (some cctable)).2 = none ↔ ∃ r ∈ l, ∃ m < 0, r.val = .fixnum m := by
  induction l generalizing cctable with
  | nil => simp
  | cons r l ih =>
    obtain ⟨m, hm, hval⟩ := hl r List.mem_cons_self
    by_cases hneg : m < 0
    · have hcall : fillCharVector preferred r (some cctable) = (1, none) := by
        rw [fillCharVector, hval]
        exact if_neg (by omega)
      rw [untilNonzero_cons_of_ne (by rw [hcall]; exact one_ne_zero), hcall]
      exact iff_of_true rfl ⟨r, List.mem_cons_self, m, hneg, hval⟩
    · have hcall : ∃ cctable', fillCharVector preferred r (some cctable) = (0, some cctable') := by
        rw [fillCharVector, hval]
        dsimp only
        rw [if_pos ⟨not_lt.mp hneg, hm⟩]
        split
        · exact ⟨_, rfl⟩
        · exact ⟨_, rfl⟩
      obtain ⟨cctable', hcall⟩ := hcall
      rw [untilNonzero_cons_of_eq (by rw [hcall]), hcall, ih fun x hx => hl x (List.mem_cons_of_mem r hx)]
      constructor
      · rintro ⟨x, hx, hneg'⟩
        exact ⟨x, List.mem_cons_of_mem r hx, hneg'⟩
      · rintro ⟨x, hx, k, hk, hval'⟩
        rcases List.mem_cons.mp hx with rfl | hx
        · obtain rfl := TableValue.fixnum.inj (hval.symm.trans hval')
          exact absurd hk hneg
        · exact ⟨x, hx, k, hk, hval'⟩

/-! ### Building the maps -/

def Accurate (B : CharBuild) (t : CharTable) (maps : RadixMaps) : Prop :=
  ∀ w c : ℕ, maps.majuscule[w]? = some c → B.validIcharP c ∧ getCharTable c t = .fixnum w

def FixnumsBelow (B : CharBuild) (t : CharTable) : Prop :=
  (∃ d < 0xFFFF, t.default_ = .fixnum d) ∧
    ∀ (ch : ℕ) val, B.validIcharP ch → getCharTableRaw ch t = some val → ∃ m < 0xFFFF, val = .fixnum m

/-- No character is given a negative weight, and there is a character with a weight of its own or the
default is no less than -1. -/
def Nonnegative (B : CharBuild) (t : CharTable) : Prop :=
  (∀ (ch : ℕ) m, B.validIcharP ch → getCharTableRaw ch t = some (.fixnum m) → 0 ≤ m) ∧
    ((∃ ch : ℕ, B.validIcharP ch ∧ (getCharTableRaw ch t).isSome) ∨ ∀ d, t.default_ = .fixnum d → -1 ≤ d)

theorem mapCharTable_all {σ : Type} (fn : MapRange → σ → ℤ × σ) (s : σ) :
    mapCharTable R fn t .all s = untilNonzero fn (calls R t .all) s := calledOn_calls R t .all σ fn s

theorem exact_all (ht : Leveled t) : Exact B t .all (calls R t .all) := (exact_calls_iff ht).mpr id

theorem value_of_mem_calls (ht : Leveled t) {r : MapRange} (hr : r ∈ calls R t .all) :
    B.validIcharP r.start ∧ getCharTableRaw r.start t = some r.val := by
  have hexact := exact_all (R := R) ht
  obtain ⟨hle, hvalid, -⟩ := hexact.valid r hr
  exact ⟨hvalid, ((hexact.covers r.start r.val hvalid).mp ⟨r, hr, ⟨le_refl _, hle⟩, rfl⟩).2⟩

theorem exists_mem_calls (ht : Leveled t) {ch : ℕ} {val : TableValue} (hch : B.validIcharP ch)
    (hval : getCharTableRaw ch t = some val) : ∃ r ∈ calls R t .all, r.val = val := by
  obtain ⟨r, hr, -, heq⟩ := ((exact_all (R := R) ht).covers ch val hch).mpr ⟨trivial, hval⟩
  exact ⟨r, hr, heq⟩

theorem exists_value_iff (ht : Leveled t) {p : TableValue → Prop} :
    (∃ r ∈ calls R t .all, p r.val) ↔ ∃ (ch : ℕ) (val : TableValue), B.validIcharP ch ∧ getCharTableRaw ch t = some val ∧ p val := by
  constructor
  · rintro ⟨r, hr, hp⟩
    obtain ⟨hvalid, hraw⟩ := value_of_mem_calls ht hr
    exact ⟨r.start, r.val, hvalid, hraw, hp⟩
  · rintro ⟨ch, val, hvalid, hraw, hp⟩
    obtain ⟨r, hr, rfl⟩ := exists_mem_calls (R := R) ht hvalid hraw
    exact ⟨r, hr, hp⟩

theorem getCharTable_of_raw {ch : ℕ} {val : TableValue} (h : getCharTableRaw ch t = some val) :
    getCharTable ch t = val := by
  rw [getCharTable, h, Option.getD_some]

theorem FilledFrom.weight (ht : Leveled t) {cctable : Vector (Option ℕ) n}
    (h : FilledFrom (calls R t .all) cctable) {w c : ℕ} (hc : cctable[w]? = some (some c)) :
    B.validIcharP c ∧ getCharTable c t = .fixnum w := by
  obtain ⟨r, hr, rfl, hval⟩ := h w c hc
  obtain ⟨hvalid, hraw⟩ := value_of_mem_calls ht hr
  exact ⟨hvalid, hval ▸ getCharTable_of_raw hraw⟩

theorem fillMaps_accurate (ht : Leveled t) {hn : n ≤ 0xFFFF} {maps : RadixMaps}
    (h : fillMaps (v := v) R cases t n hn = .ok maps) : Accurate B t maps := by
  simp only [fillMaps, mapCharTable_all] at h
  split at h
  · cases h
  · rename_i cctable hfilled
    split at h
    · cases h
    · rename_i hsome
      split at h
      · cases h
      · obtain rfl := Except.ok.inj h
        intro w c hc
        rw [Vector.getElem?_map, Option.map_eq_some_iff] at hc
        obtain ⟨entry, hentry, hgetD⟩ := hc
        have hfrom := FilledFrom.replicate.untilNonzero _ hfilled
        cases entry with
        | some c' => exact hfrom.weight ht (hentry.trans (congrArg (some <| some ·) hgetD))
        | none =>
          have hmem : none ∈ cctable.toList := Vector.mem_toList_iff.mpr (Vector.mem_of_getElem? hentry)
          exact absurd (List.findIdx?_eq_none_iff.mp hsome none hmem) Bool.noConfusion

theorem fillMaps_outside_iff {hn : n ≤ 0xFFFF} (hl : ∀ r ∈ calls R t .all, ∃ m < (n : ℤ), r.val = .fixnum m) :
    fillMaps (v := v) R cases t n hn = .error .outsideVector ↔
      ∃ r ∈ calls R t .all, ∃ m < 0, r.val = .fixnum m := by
  have hnone preferred cctable := untilNonzero_fill_eq_none preferred hl cctable
  simp only [fillMaps, mapCharTable_all]
  split
  · rename_i hleft
    exact iff_of_true rfl ((hnone _ _).mp hleft)
  · rename_i cctable hfilled
    have hnot : ¬∃ r ∈ calls R t .all, ∃ m < 0, r.val = .fixnum m := fun hneg =>
      Option.some_ne_none cctable (hfilled.symm.trans ((hnone _ _).mpr hneg))
    refine iff_of_false (fun h => ?_) hnot
    split at h
    · cases h
    · split at h
      · rename_i hleft
        exact hnot ((hnone _ _).mp hleft)
      · cases h

theorem buildFixnumToCharMaps_accurate (ht : Leveled t) {radixTable : ℕ} {maps : RadixMaps}
    (h : buildFixnumToCharMaps (v := v) R cases radixTable t = .ok maps) : Accurate B t maps := by
  rw [buildFixnumToCharMaps] at h
  split at h
  · split at h
    · cases h
    · split_ifs at h
      exact fillMaps_accurate ht h
  · cases h

theorem fixnumsBelow_iff (ht : Leveled t) {d h : ℤ} (hd : t.default_ = .fixnum d)
    (hhigh : Highest (calls R t .all) d h) : FixnumsBelow B t ↔ h < 0xFFFF := by
  constructor
  · rintro ⟨⟨d', hd', hdefault⟩, hvals⟩
    rcases hhigh.seen with rfl | ⟨r, hr, hval⟩
    · obtain rfl := TableValue.fixnum.inj (hd.symm.trans hdefault)
      exact hd'
    · obtain ⟨hvalid, hraw⟩ := value_of_mem_calls ht hr
      obtain ⟨m, hm, heq⟩ := hvals r.start r.val hvalid hraw
      obtain rfl := TableValue.fixnum.inj (hval.symm.trans heq)
      exact hm
  · intro hlt
    refine ⟨⟨d, hhigh.ge.trans_lt hlt, hd⟩, fun ch val hch hraw => ?_⟩
    obtain ⟨r, hr, rfl⟩ := exists_mem_calls (R := R) ht hch hraw
    obtain ⟨m, hm, hval⟩ := hhigh.fixnums r hr
    exact ⟨m, hm.trans_lt hlt, hval⟩

theorem nonnegative_iff (ht : Leveled t) {d h : ℤ} (hd : t.default_ = .fixnum d)
    (hhigh : Highest (calls R t .all) d h) :
    Nonnegative B t ↔ -1 ≤ h ∧ ¬∃ r ∈ calls R t .all, ∃ m < 0, r.val = .fixnum m := by
  rw [exists_value_iff (p := fun val => ∃ m < 0, val = .fixnum m) ht]
  have hbound {ch : ℕ} {val : TableValue} (hch : B.validIcharP ch) (hraw : getCharTableRaw ch t = some val) :
      ∃ m ≤ h, val = .fixnum m := by
    obtain ⟨r, hr, rfl⟩ := exists_mem_calls (R := R) ht hch hraw
    exact hhigh.fixnums r hr
  constructor
  · rintro ⟨hnonneg, hlength⟩
    refine ⟨?_, ?_⟩
    · rcases hlength with ⟨ch, hch, hsome⟩ | hdefault
      · obtain ⟨val, hraw⟩ := Option.isSome_iff_exists.mp hsome
        obtain ⟨m, hm, rfl⟩ := hbound hch hraw
        have hpos := hnonneg ch m hch hraw
        omega
      · exact (hdefault d hd).trans hhigh.ge
    · rintro ⟨ch, val, hch, hraw, m, hm, rfl⟩
      exact absurd (hnonneg ch m hch hraw) (not_le.mpr hm)
  · rintro ⟨hge, hnone⟩
    refine ⟨fun ch m hch hraw => not_lt.mp fun hneg => hnone ⟨ch, _, hch, hraw, m, hneg, rfl⟩, ?_⟩
    rcases hhigh.seen with rfl | ⟨r, hr, -⟩
    · refine .inr fun d' hd' => ?_
      obtain rfl := TableValue.fixnum.inj (hd.symm.trans hd')
      exact hge
    · obtain ⟨hvalid, hraw⟩ := value_of_mem_calls ht hr
      exact .inl ⟨r.start, hvalid, Option.isSome_iff_exists.mpr ⟨_, hraw⟩⟩

theorem buildFixnumToCharMaps_outside_iff (R : CharRounding B) (cases : LetterCases) (ht : Leveled t) (radixTable : ℕ) :
    buildFixnumToCharMaps (v := v) R cases radixTable t = .error .outsideVector ↔
      FixnumsBelow B t ∧ ¬Nonnegative B t := by
  cases hdefault : t.default_ with
  | fixnum d =>
    rw [buildFixnumToCharMaps, hdefault]
    simp only [mapCharTable_all]
    have hfound := untilNonzero_findHighestValue (calls R t .all) d
    split
    · rename_i val hval
      rw [hval] at hfound
      refine iff_of_false (fun h => by cases h) fun ⟨hbelow, _⟩ => ?_
      obtain ⟨ch, val', hch, hraw, hno⟩ := (exists_value_iff (p := fun val => ∀ n, val ≠ .fixnum n) ht).mp hfound
      obtain ⟨m, -, heq⟩ := hbelow.2 ch val' hch hraw
      exact hno m heq
    · rename_i h hval
      rw [hval] at hfound
      rw [fixnumsBelow_iff ht hdefault hfound, nonnegative_iff ht hdefault hfound]
      split_ifs with hlarge hneg
      · exact iff_of_false (fun h => by cases h) fun hlt => by omega
      · exact iff_of_true rfl ⟨by omega, fun hge => by omega⟩
      · rw [fillMaps_outside_iff fun r hr => ?_]
        · exact ⟨fun hex => ⟨by omega, fun hnot => hnot.2 hex⟩, fun hnot => by_contra fun hno => hnot.2 ⟨by omega, hno⟩⟩
        · obtain ⟨m, hm, heq⟩ := hfound.fixnums r hr
          exact ⟨m, by omega, heq⟩
  | _ =>
    have hnot : ¬FixnumsBelow B t := fun ⟨⟨d, _, hd⟩, _⟩ => TableValue.noConfusion (hdefault.symm.trans hd)
    rw [buildFixnumToCharMaps, hdefault]
    exact iff_of_false (fun h => by cases h) fun h => hnot h.1

/-! ### The functions -/

def Digit (B : CharBuild) (t : CharTable) (w c : ℕ) : Prop := B.validIcharP c ∧ getCharTable c t = .fixnum w

/-- The maps that are known for a table are those of its weights, or, where none are known, no weight leaves
the vector that they are built in. -/
def RightlyMapped (B : CharBuild) (s : DigitState) (table : ℕ) : Prop :=
  match s.calculated.lookup table with
  | some maps => Accurate B (s.tables table) maps
  | none => FixnumsBelow B (s.tables table) → Nonnegative B (s.tables table)

/-- The maps are built inside their vector, and with them each weight below the radix has a character of that
weight just if the table gives it to one. -/
def DigitsInverse (v : ℕ) (R : CharRounding B) (cases : LetterCases) (s : DigitState) (radixTable : Option ℕ) : Prop :=
  getRadixTableMaps (v := v) R cases (s.tableOf radixTable) s ≠ .error .outsideVector ∧
  ∀ maps s', getRadixTableMaps (v := v) R cases (s.tableOf radixTable) s = .ok (maps, s') →
    ∀ (radix : Option (LispNumber v)) (r : ℕ), (radix.getD (makeFixnum 10)).Canonical →
      (radix.getD (makeFixnum 10)).value = r → 1 ≤ r → r ≤ maps.greatestRadix →
      ∀ (weight : LispNumber v) (w : ℕ), weight.Canonical → weight.value = w →
        (w < r → (∃ c, Digit B (s.tables (s.tableOf radixTable)) w c) →
          ∃ c, fdigitChar R cases weight radix radixTable s = .ok (some c, s') ∧ B.validIcharP c ∧
            fdigitCharP c radix radixTable s' = .ok (some w)) ∧
        ((w < r → ¬∃ c, Digit B (s.tables (s.tableOf radixTable)) w c) →
          ∃ s'', fdigitChar R cases weight radix radixTable s = .ok (none, s''))

section Lookup

variable {s s' : DigitState} {table : ℕ} {radixTable : Option ℕ} {maps : RadixMaps}

theorem getRadixTableMaps_of_lookup (h : s.calculated.lookup table = some maps) :
    getRadixTableMaps (v := v) R cases table s = .ok (maps, s) := by
  rw [getRadixTableMaps, h]

theorem getRadixTableMaps_ok (h : getRadixTableMaps (v := v) R cases table s = .ok (maps, s')) :
    s'.calculated.lookup table = some maps ∧ s'.tables = s.tables ∧ s'.digitFixnumMap = s.digitFixnumMap := by
  rw [getRadixTableMaps] at h
  split at h
  · rename_i hlookup
    obtain ⟨rfl, rfl⟩ := Prod.mk.inj (Except.ok.inj h)
    exact ⟨hlookup, rfl, rfl⟩
  · split at h
    · cases h
    · obtain ⟨rfl, rfl⟩ := Prod.mk.inj (Except.ok.inj h)
      exact ⟨List.lookup_cons_self, rfl, rfl⟩

theorem RightlyMapped.accurate (hright : RightlyMapped B s table)
    (h : getRadixTableMaps (v := v) R cases table s = .ok (maps, s')) : Accurate B (s.tables table) maps := by
  rw [getRadixTableMaps] at h
  rw [RightlyMapped] at hright
  split at h
  · rename_i hlookup
    rw [hlookup] at hright
    obtain ⟨rfl, -⟩ := Prod.mk.inj (Except.ok.inj h)
    exact hright
  · split at h
    · cases h
    · rename_i hbuilt
      obtain ⟨rfl, -⟩ := Prod.mk.inj (Except.ok.inj h)
      exact buildFixnumToCharMaps_accurate (s.tables table).property hbuilt

theorem getRadixTableMaps_outside_iff (h : s.calculated.lookup table = none) :
    getRadixTableMaps (v := v) R cases table s = .error .outsideVector ↔ ¬RightlyMapped B s table := by
  have hbuild := buildFixnumToCharMaps_outside_iff (v := v) R cases (s.tables table).property table
  rw [getRadixTableMaps, RightlyMapped, h]
  dsimp only
  rw [Classical.not_imp, ← hbuild]
  split
  · rename_i e he
    rw [he]
    exact ⟨fun h => congrArg _ (Except.error.inj h), fun h => congrArg _ (Except.error.inj h)⟩
  · rename_i he
    rw [he]
    exact iff_of_false (fun h => by cases h) fun h => by cases h

end Lookup

section Integers

variable {x weight : LispNumber v} {radix : Option (LispNumber v)} {k r w : ℕ}

theorem integerp_of_value (hx : x.Canonical) (hk : x.value = k) : x.integerp = true := by
  cases x with
  | fixnum val => rfl
  | bignum data => rfl
  | ratio data =>
    refine absurd ?_ hx
    rw [show data = ((k : ℤ) : ℚ) from hk, Rat.den_intCast]

theorem checkNatnum_ok (hx : x.Canonical) (hk : x.value = k) : checkNatnum x = .ok () := by
  rw [checkNatnum, if_pos]
  exact ⟨integerp_of_value hx hk, hk ▸ Nat.cast_nonneg k⟩

theorem checkRadix_ok {greatest : ℕ} (hx : x.Canonical) (hr : x.value = r) (hpos : 1 ≤ r) (hle : r ≤ greatest) :
    checkRadix x greatest = .ok r := by
  rw [checkRadix, integerp_of_value hx hr, hr]
  rw [if_neg (by decide), if_pos ⟨by exact_mod_cast hpos, by exact_mod_cast hle⟩]
  rfl

theorem two_pow_le (hv : 17 ≤ v) : (0x10000 : ℤ) ≤ 2 ^ (v - 1) :=
  pow_le_pow_right₀ (show (1 : ℤ) ≤ 2 by decide) (show 16 ≤ v - 1 by omega)

theorem fits_of_le_limit (hv : 17 ≤ v) (hk : k ≤ 0xFFFF) : Words.Fits v k := by
  have hpow := two_pow_le hv
  exact ⟨by omega, by omega⟩

theorem value_fixnum_ofInt (hv : 17 ≤ v) (hk : k ≤ 0xFFFF) :
    (LispNumber.fixnum (BitVec.ofInt v k)).value = (k : ℚ) := by
  rw [LispNumber.value, Words.ofInt_eq_of_fits (by omega) (fits_of_le_limit hv hk)]
  rfl

theorem makeFixnum_ten (hv : 17 ≤ v) : (makeFixnum (v := v) 10).value = ((10 : ℕ) : ℚ) := by
  have hten : (10 : EmacsInt v).toInt = 10 :=
    Words.ofInt_eq_of_fits (a := 10) (Nat.succ_pos v) ((fits_of_le_limit (k := 10) hv (by decide)).mono (Nat.le_succ v))
  rw [makeFixnum_value_of_fits (by omega) (hten ▸ fits_of_le_limit (k := 10) hv (by decide)), hten]
  rfl

variable {s s' : DigitState} {radixTable : Option ℕ} {maps : RadixMaps}

theorem fdigitChar_of_lt (hv : 17 ≤ v)
    (hmaps : getRadixTableMaps (v := v) R cases (s.tableOf radixTable) s = .ok (maps, s'))
    (hradix : (radix.getD (makeFixnum 10)).Canonical) (hr : (radix.getD (makeFixnum 10)).value = r) (hpos : 1 ≤ r)
    (hle : r ≤ maps.greatestRadix) (hweight : weight.Canonical) (hw : weight.value = w) (hlt : w < r) :
    ∃ c, maps.majuscule[w]? = some c ∧ fdigitChar R cases weight radix radixTable s = .ok (some c, s') := by
  have hsmall : w ≤ 0xFFFF := by
    have hgreatest := maps.greatestRadix_le
    omega
  rw [fdigitChar, checkNatnum_ok hweight hw, canonicalizeNumber_of_canonical hweight]
  cases weight with
  | fixnum val =>
    have hval : val.toInt = w := by
      rw [LispNumber.value] at hw
      exact_mod_cast hw
    refine ⟨maps.majuscule.get ⟨w, hlt.trans_le hle⟩, Vector.getElem?_eq_getElem _, ?_⟩
    dsimp only
    rw [digitCharOf, hmaps]
    dsimp only
    rw [checkRadix_ok hradix hr hpos hle]
    dsimp only
    rw [hval, if_pos (by exact_mod_cast hlt), Int.toNat_natCast, Vector.getElem?_eq_getElem (hlt.trans_le hle)]
    rfl
  | bignum data =>
    have hdata : data = w := by
      rw [LispNumber.value] at hw
      exact_mod_cast hw
    exact absurd (hdata ▸ fits_of_le_limit hv hsmall) hweight
  | ratio data =>
    refine absurd ?_ hweight
    rw [show data = ((w : ℤ) : ℚ) from hw, Rat.den_intCast]

theorem fdigitChar_of_le
    (hmaps : getRadixTableMaps (v := v) R cases (s.tableOf radixTable) s = .ok (maps, s'))
    (hradix : (radix.getD (makeFixnum 10)).Canonical) (hr : (radix.getD (makeFixnum 10)).value = r) (hpos : 1 ≤ r)
    (hle : r ≤ maps.greatestRadix) (hweight : weight.Canonical) (hw : weight.value = w) (hge : r ≤ w) :
    ∃ s'', fdigitChar R cases weight radix radixTable s = .ok (none, s'') := by
  rw [fdigitChar, checkNatnum_ok hweight hw, canonicalizeNumber_of_canonical hweight]
  cases weight with
  | fixnum val =>
    have hval : val.toInt = w := by
      rw [LispNumber.value] at hw
      exact_mod_cast hw
    refine ⟨s', ?_⟩
    dsimp only
    rw [digitCharOf, hmaps]
    dsimp only
    rw [checkRadix_ok hradix hr hpos hle]
    dsimp only
    rw [hval, if_neg (by exact_mod_cast not_lt.mpr hge)]
  | bignum data => exact ⟨s, rfl⟩
  | ratio data => exact ⟨s, rfl⟩

theorem fdigitCharP_of_digit (hv : 17 ≤ v) {table c : ℕ} (htable : s'.tableOf radixTable = table)
    (hlookup : s'.calculated.lookup table = some maps)
    (hradix : (radix.getD (makeFixnum 10)).Canonical) (hr : (radix.getD (makeFixnum 10)).value = r) (hpos : 1 ≤ r)
    (hle : r ≤ maps.greatestRadix) (hc : getCharTable c (s'.tables table) = .fixnum w) (hlt : w < r) :
    fdigitCharP c radix radixTable s' = .ok (some w) := by
  have hvalue : digitBelow (v := v) r (getCharTable c (s'.tables table)) = .ok (some (w : ℤ)) := by
    rw [hc, digitBelow, if_neg (by omega)]
  rw [fdigitCharP.eq_def, htable]
  cases radix with
  | none =>
    have hten : 10 = r := by exact_mod_cast (makeFixnum_ten hv).symm.trans hr
    exact hten ▸ hvalue
  | some radix =>
    have hcheck : checkRadix radix maps.greatestRadix = .ok r := checkRadix_ok hradix hr hpos hle
    dsimp only
    rw [hlookup, Option.map_some, Option.getD_some, hcheck]
    exact hvalue

theorem getCharTable_of_digit {c : ℕ} (h : fdigitCharP c radix radixTable s = .ok (some (w : ℤ))) :
    getCharTable c (s.tables (s.tableOf radixTable)) = .fixnum w := by
  have hbelow {radixing : ℕ} {got : TableValue} (h : digitBelow (v := v) radixing got = .ok (some (w : ℤ))) :
      got = .fixnum w := by
    cases got with
    | fixnum val =>
      rw [digitBelow] at h
      split_ifs at h
      · cases h
      · rw [Option.some.inj (Except.ok.inj h)]
    | _ => cases h
  rw [fdigitCharP.eq_def] at h
  dsimp only at h
  split at h
  · cases h
  · exact hbelow h

end Integers

/-! ### Inverse -/

variable {s : DigitState} {radixTable : Option ℕ}

theorem RightlyMapped.digitsInverse (hv : 17 ≤ v) (hright : RightlyMapped B s (s.tableOf radixTable)) :
    DigitsInverse v R cases s radixTable := by
  refine ⟨?_, ?_⟩
  · cases hlookup : s.calculated.lookup (s.tableOf radixTable) with
    | some maps =>
      rw [getRadixTableMaps_of_lookup hlookup]
      exact fun h => by cases h
    | none => exact fun h => (getRadixTableMaps_outside_iff hlookup).mp h hright
  · intro maps s' hmaps radix r hradix hr hpos hle weight w hweight hw
    obtain ⟨hlookup, htables, hmap⟩ := getRadixTableMaps_ok hmaps
    have htable : s'.tableOf radixTable = s.tableOf radixTable := by rw [DigitState.tableOf, hmap, DigitState.tableOf]
    have haccurate := hright.accurate hmaps
    constructor
    · intro hlt _
      obtain ⟨c, hc, hchar⟩ := fdigitChar_of_lt hv hmaps hradix hr hpos hle hweight hw hlt
      obtain ⟨hvalid, hdigit⟩ := haccurate w c hc
      exact ⟨c, hchar, hvalid,
        fdigitCharP_of_digit hv htable hlookup hradix hr hpos hle (by rw [htables]; exact hdigit) hlt⟩
    · intro hnone
      refine fdigitChar_of_le hmaps hradix hr hpos hle hweight hw (not_lt.mp fun hlt => ?_)
      have hin : w < maps.greatestRadix := hlt.trans_le hle
      exact hnone hlt ⟨_, haccurate w _ (Vector.getElem?_eq_getElem hin)⟩

theorem DigitsInverse.rightlyMapped (hv : 17 ≤ v) (h : DigitsInverse v R cases s radixTable) :
    RightlyMapped B s (s.tableOf radixTable) := by
  cases hlookup : s.calculated.lookup (s.tableOf radixTable) with
  | none => exact by_contra fun hwrong => h.1 ((getRadixTableMaps_outside_iff hlookup).mpr hwrong)
  | some maps =>
    have hmaps : getRadixTableMaps (v := v) R cases (s.tableOf radixTable) s = .ok (maps, s) :=
      getRadixTableMaps_of_lookup hlookup
    rw [RightlyMapped, hlookup]
    intro w c hc
    have hin : w < maps.greatestRadix := (Vector.getElem?_eq_some_iff.mp hc).1
    have hgreatest := maps.greatestRadix_le
    have hcanonical {k : ℕ} : (LispNumber.fixnum (BitVec.ofInt v k)).Canonical := trivial
    have hradix := value_fixnum_ofInt hv hgreatest
    have hweight := value_fixnum_ofInt hv (hin.le.trans hgreatest)
    obtain ⟨hdigit, hnone⟩ := h.2 maps s hmaps (some (.fixnum (BitVec.ofInt v maps.greatestRadix)))
      maps.greatestRadix hcanonical hradix (by omega) (le_refl _) _ w hcanonical hweight
    have hlooked : ∃ c', maps.majuscule[w]? = some c' ∧ fdigitChar R cases (.fixnum (BitVec.ofInt v w))
        (some (.fixnum (BitVec.ofInt v maps.greatestRadix))) radixTable s = .ok (some c', s) :=
      fdigitChar_of_lt hv hmaps hcanonical hradix (by omega) (le_refl _) hcanonical hweight hin
    obtain ⟨c', hc', hchar⟩ := hlooked
    obtain rfl : c = c' := Option.some.inj (hc.symm.trans hc')
    by_cases hex : ∃ c, Digit B (s.tables (s.tableOf radixTable)) w c
    · obtain ⟨d, hd, hvalid, hp⟩ := hdigit hin hex
      obtain rfl : c = d := Option.some.inj (Prod.mk.inj (Except.ok.inj (hchar.symm.trans hd))).1
      exact ⟨hvalid, getCharTable_of_digit hp⟩
    · obtain ⟨s'', hnil⟩ := hnone fun _ => hex
      exact absurd (Prod.mk.inj (Except.ok.inj (hchar.symm.trans hnil))).1 (Option.some_ne_none c)

/-- `digit-char` and `digit-char-p` are inverse just where the maps that are known are those of the
table or can be built from its weights. -/
theorem digitChar_inverse_iff (hv : 17 ≤ v) (R : CharRounding B) (cases : LetterCases) (s : DigitState)
    (radixTable : Option ℕ) : DigitsInverse v R cases s radixTable ↔ RightlyMapped B s (s.tableOf radixTable) :=
  ⟨fun h => h.rightlyMapped hv, fun h => h.digitsInverse hv⟩

theorem fsetDigitFixnumMap_rightlyMapped {radixTable copy : ℕ} {s' : DigitState} (hne : copy ≠ radixTable)
    (hcopy : s.calculated.lookup copy = none) (hlookup : s.calculated.lookup radixTable = none)
    (h : fsetDigitFixnumMap (v := v) R cases radixTable copy s = .ok s') :
    s'.digitFixnumMap = copy ∧ RightlyMapped B s' copy := by
  rw [fsetDigitFixnumMap] at h
  split at h
  · cases h
  · rename_i hmaps
    obtain rfl := Except.ok.inj h
    refine ⟨rfl, ?_⟩
    rw [getRadixTableMaps, hlookup] at hmaps
    dsimp only at hmaps
    split at hmaps
    · cases hmaps
    · rename_i maps hbuilt
      obtain ⟨rfl, rfl⟩ := Prod.mk.inj (Except.ok.inj hmaps)
      have hlookup' : List.lookup copy ((radixTable, maps) :: s.calculated) = none := by
        rw [List.lookup_cons, beq_false_of_ne hne]
        exact hcopy
      rw [Function.update_of_ne hne.symm] at hbuilt
      rw [RightlyMapped, hlookup']
      dsimp only
      rw [Function.update_self]
      intro hbelow
      have houtside := buildFixnumToCharMaps_outside_iff (v := v) R cases (s.tables radixTable).property radixTable
      exact by_contra fun hneg => by cases hbuilt.symm.trans (houtside.mpr ⟨hbelow, hneg⟩)

def asciiCases : LetterCases where
  currentBuffer := true
  upcase c := if 97 ≤ c ∧ c ≤ 122 then c - 32 else c
  downcase c := if 65 ≤ c ∧ c ≤ 90 then c + 32 else c
  isupper c := 65 ≤ c ∧ c ≤ 90
  islower c := 97 ≤ c ∧ c ≤ 122

/-- A table that has weights for some characters and -1 for the others. -/
def weights (assigned : List (ℕ × ℤ)) : RadixTable :=
  assigned.foldl
    (fun t entry => ⟨unicodeInternal.putCharTable t entry.1 entry.1 (some (.fixnum entry.2)),
      leveled_putCharTable t.property⟩)
    ⟨{ makeCharTable .generic with default_ := .fixnum (-1) }, ⟨le_refl 1, Nat.le_of_ble_eq_true rfl⟩⟩

def digitState (assigned : List (ℕ × ℤ)) : DigitState := ⟨fun _ => weights assigned, [], 0⟩

theorem rightlyMapped_bits : RightlyMapped unicodeInternal (digitState [(48, 0), (49, 1)]) 0 := by
  refine fun _ => by_contra fun hneg => ?_
  have hbuild := buildFixnumToCharMaps_outside_iff (v := 63) unicodeRounding asciiCases
    (weights [(48, 0), (49, 1)]).property 0
  refine absurd (hbuild.mpr ⟨?_, hneg⟩) (by decide +kernel)
  assumption

theorem digitChar_inverse_iff_bits :
    DigitsInverse 63 unicodeRounding asciiCases (digitState [(48, 0), (49, 1)]) none :=
  (digitChar_inverse_iff (by decide) unicodeRounding asciiCases (digitState [(48, 0), (49, 1)]) none).mpr
    rightlyMapped_bits

def bitMaps : RadixMaps := ⟨2, ⟨#[48, 49], rfl⟩, ⟨#[48, 49], rfl⟩, by decide⟩

/-- With the weight -1 for a character of its own the vector is left; and once maps are known, other weights for
their characters are not seen. -/
theorem digitChar_not_inverse :
    ¬DigitsInverse 63 unicodeRounding asciiCases (digitState [(48, 0), (49, 1), (120, -1)]) none ∧
      ¬DigitsInverse 63 unicodeRounding asciiCases
        { digitState [(48, 1), (49, 0)] with calculated := [(0, bitMaps)] } none := by
  constructor
  · intro h
    refine h.1 ?_
    have hbuild : buildFixnumToCharMaps (v := 63) unicodeRounding asciiCases 0 (weights [(48, 0), (49, 1), (120, -1)]).val =
        .error .outsideVector := by decide +kernel
    rw [getRadixTableMaps]
    dsimp only [digitState, DigitState.tableOf, Option.getD, List.lookup]
    rw [hbuild]
  · intro h
    have hright := h.rightlyMapped (by decide)
    have hzero := (hright 0 48 rfl).2
    revert hzero
    decide +kernel

end XEmacs.Number
