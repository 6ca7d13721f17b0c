import XEmacs.Table.CharTableMapExact
import XEmacs.Table.CharTableRead
import XEmacs.Table.CharTableValues

/-! When a char table reads back. A range is put back character by character; what goes wrong is
that the characters between its ends are made although some of the codes there are no characters. -/

namespace XEmacs.Table

open Lib CharBuild

variable {B : CharBuild} {E : ℕ → ℕ → Prop}

section Equal

variable {v w : TableValue} {type : CharTableType}

theorem equal_char {ch : ℤ} (h : (TableValue.char ch).Equal E w) : w = .char ch := by
  cases h
  rfl

theorem equal_fixnum {n : ℤ} (h : (TableValue.fixnum n).Equal E w) : w = .fixnum n := by
  cases h
  rfl

theorem equal_cons {car cdr : TableValue} (h : (TableValue.cons car cdr).Equal E w) :
    ∃ car' cdr', w = .cons car' cdr' ∧ car.Equal E car' ∧ cdr.Equal E cdr' := by
  cases h with
  | cons hcar hcdr => exact ⟨_, _, rfl, hcar, hcdr⟩

theorem equal_nil (hnil : ∀ address, E 0 address → address = 0) (h : TableValue.nil.Equal E w) : w = .nil := by
  cases h with
  | other haddress => exact congrArg TableValue.other (hnil _ haddress)

theorem StoredValue.of_equal (h : StoredValue B type v) (hvw : v.Equal E w) : StoredValue B type w := by
  obtain ⟨hvalid, hcanonical⟩ := h
  cases type with
  | generic => exact ⟨rfl, rfl⟩
  | category => cases hvalid
  | char =>
    obtain ⟨ch, hch⟩ := coerceInt_charOrCharIntP hvalid
    obtain rfl := hch.symm.trans hcanonical
    rw [equal_char hvw]
    exact ⟨rfl, rfl⟩
  | syntax' =>
    cases v with
    | char ch => cases hvalid
    | other address => cases hvalid
    | fixnum n =>
      rw [equal_fixnum hvw]
      exact ⟨rfl, rfl⟩
    | cons car cdr =>
      cases car with
      | char ch => cases hvalid
      | other address => cases hvalid
      | cons car' cdr' => cases hvalid
      | fixnum n =>
        obtain ⟨ch, hch⟩ := coerceInt_charOrCharIntP hvalid
        obtain rfl : TableValue.char ch = cdr := hch.symm.trans (TableValue.cons.inj hcanonical).2
        obtain ⟨car', cdr', rfl, hcar, hcdr⟩ := equal_cons hvw
        rw [equal_fixnum hcar, equal_char hcdr]
        exact ⟨rfl, rfl⟩

variable {l : List (TableValue × TableValue)}

theorem equal_propertyList (hnil : ∀ address, E 0 address → address = 0) (h : (propertyList l).Equal E w) :
    ∃ l', w = propertyList l' ∧ List.Forall₂ (fun e e' => e.1.Equal E e'.1 ∧ e.2.Equal E e'.2) l l' := by
  induction l generalizing w with
  | nil => exact ⟨[], equal_nil hnil h, .nil⟩
  | cons e l ih =>
    obtain ⟨range, rest, rfl, hrange, hrest⟩ := equal_cons h
    obtain ⟨val, tail, rfl, hval, htail⟩ := equal_cons hrest
    obtain ⟨l', rfl, hl⟩ := ih htail
    exact ⟨(range, val) :: l', rfl, .cons ⟨hrange, hval⟩ hl⟩

theorem equal_printedRange (hnil : ∀ address, E 0 address → address = 0) {r : MapRange}
    (h : (printedRange r).Equal E w) : w = printedRange r := by
  rw [printedRange] at h ⊢
  split_ifs at h ⊢
  · exact equal_char h
  · obtain ⟨first, rest, rfl, hfirst, hrest⟩ := equal_cons h
    obtain ⟨last, tail, rfl, hlast, htail⟩ := equal_cons hrest
    rw [equal_char hfirst, equal_char hlast, equal_nil hnil htail]

end Equal

section Printed

variable {R : CharRounding B} {t : CharTable} {data : TableValue}

theorem untilNonzero_printTableEntry (ranges : List MapRange) (entries : List (TableValue × TableValue)) :
    untilNonzero printTableEntry ranges entries = (0, entries ++ ranges.map fun r => (printedRange r, r.val)) := by
  induction ranges generalizing entries with
  | nil => rw [untilNonzero_nil, List.map_nil, List.append_nil]
  | cons r ranges ih =>
    rw [untilNonzero_cons_of_eq rfl, printTableEntry, ih, List.map_cons, List.append_assoc, List.singleton_append]

theorem printedData_eq (R : CharRounding B) (t : CharTable) :
    printedData R t = propertyList ((calls R t .all).map fun r => (printedRange r, r.val)) := by
  rw [printedData, calledOn_calls R t .all, untilNonzero_printTableEntry, List.nil_append]

/-- The data that are read in the place of those printed for some ranges. -/
def ReadData (E : ℕ → ℕ → Prop) (ranges : List MapRange) (entries : List (TableValue × TableValue)) : Prop :=
  List.Forall₂ (fun r e => e.1 = printedRange r ∧ r.val.Equal E e.2) ranges entries

theorem exists_readData (hnil : ∀ address, E 0 address → address = 0) (h : (printedData R t).Equal E data) :
    ∃ entries, data = propertyList entries ∧ ReadData E (calls R t .all) entries := by
  rw [printedData_eq] at h
  obtain ⟨entries, rfl, hentries⟩ := equal_propertyList hnil h
  rw [List.forall₂_map_left_iff] at hentries
  exact ⟨entries, rfl, hentries.imp fun r e he => ⟨equal_printedRange hnil he.1, he.2⟩⟩

theorem validRange_printedRange (r : MapRange) : validRange (printedRange r) = true := by
  rw [printedRange]
  split_ifs <;> rfl

theorem chartabDataValidate_readData {ranges : List MapRange} {entries : List (TableValue × TableValue)}
    (h : ReadData E ranges entries) : chartabDataValidate (propertyList entries) = .ok () := by
  induction h with
  | nil => rfl
  | cons he _ ih =>
    rw [propertyList, chartabDataValidate, he.1, if_pos (validRange_printedRange _)]
    exact ih

end Printed

section Put

variable {checksText : Bool} {type : CharTableType} {t : CharTable} {w : TableValue}

/-- `make_char` gets by on a code. -/
def CanMake (B : CharBuild) (checksText : Bool) (i : ℕ) : Prop := ¬ (checksText = true ∧ ¬ B.validIcharP i)

theorem StoredValue.not_category (h : StoredValue B type w) : type ≠ .category := by
  rintro rfl
  cases h.1

theorem putMadeChar_eq (ht : Stored B type t) (hw : StoredValue B type w) {i : ℕ} (hi : CanMake B checksText i) :
    B.putMadeChar checksText i w t = .ok (B.putCharTable t i i (some w)) := by
  obtain rfl := ht.type_eq
  rw [putMadeChar, if_neg hi, if_neg (not_or.mpr ⟨hw.not_category, not_not.mpr hw.1⟩), hw.2]
  rfl

theorem fillsGrowth_char (ht : Leveled t) (i : ℕ) : B.FillsGrowth t i i := by
  rintro hlt - rfl
  have hzero : charLevels 0 = 1 := rfl
  have hpos := ht.1
  omega

theorem putCharacters_ok (ht : Stored B type t) (hw : StoredValue B type w) {n i : ℕ}
    (hmake : ∀ k, i ≤ k → k < i + n → CanMake B checksText k) :
    ∃ t', B.putCharacters checksText w n i t = .ok t' ∧ Stored B type t' ∧
      ∀ ch < B.limit, getCharTableRaw ch t' = if i ≤ ch ∧ ch < i + n then some w else getCharTableRaw ch t := by
  induction n generalizing i t with
  | zero =>
    refine ⟨t, rfl, ht, fun ch _ => ?_⟩
    rw [if_neg (by omega)]
  | succ n ih =>
    have hput : Stored B type (B.putCharTable t i i (some w)) :=
      ht.putCharTable fun x hx => Option.mem_some_iff.mp hx ▸ hw
    have hmake' (k : ℕ) (hk : i + 1 ≤ k) (hlt : k < i + 1 + n) : CanMake B checksText k :=
      hmake k (by omega) (by omega)
    obtain ⟨t', hrest, ht', hraw⟩ := ih hput hmake'
    refine ⟨t', ?_, ht', fun ch hch => ?_⟩
    · rw [putCharacters, putMadeChar_eq ht hw (hmake i le_rfl (by omega))]
      exact hrest
    · rw [hraw ch hch, getCharTableRaw_putCharTable ht.leveled hch (fillsGrowth_char ht.leveled i)]
      split_ifs <;> first | rfl | omega

theorem putCharacters_error {n i k : ℕ} (hle : i ≤ k) (hlt : k < i + n) (hk : ¬ CanMake B checksText k) :
    ∃ e, B.putCharacters checksText w n i t = .error e := by
  induction n generalizing i t with
  | zero => omega
  | succ n ih =>
    rw [putCharacters]
    cases hput : B.putMadeChar checksText i w t with
    | error e => exact ⟨e, rfl⟩
    | ok t' =>
      have hne : i ≠ k := by
        rintro rfl
        rw [putMadeChar, if_pos (not_not.mp hk)] at hput
        cases hput
      have hle' : i + 1 ≤ k := by omega
      exact ih hle' (by omega)

theorem putEntry_printedRange {r : MapRange} (hstart : B.validIcharP r.start) (hle : r.start ≤ r.stop) :
    B.putEntry checksText (printedRange r) w t = B.putCharacters checksText w (r.stop + 1 - r.start) r.start t := by
  rw [printedRange]
  split_ifs with heq
  · have hmake : ¬ (checksText = true ∧ ¬ B.validIcharP r.start) := fun h => h.2 hstart
    have hdecode : B.decodeCharTableRange (.char (.char r.start)) = some (.char r.start) := by
      rw [decodeCharTableRange, xcharOrCharInt, if_pos hstart]
      rfl
    have hone : r.stop + 1 - r.start = 1 := by omega
    rw [hone, putCharacters, putMadeChar, if_neg hmake]
    show (B.fputCharTable (.char (.char r.start)) w t).elim (Except.error CharTableReadError.wrongType) Except.ok = _
    rw [fputCharTable_eq, setting, hdecode]
    split_ifs <;> rfl
  · have hcount : ((r.stop : ℤ) - r.start + 1).toNat = r.stop + 1 - r.start := by omega
    show B.putCharacters checksText w ((r.stop : ℤ) - r.start + 1).toNat (r.start : ℤ).toNat t = _
    rw [hcount, Int.toNat_natCast]

/-- The ranges that are put back make only codes that can be made. -/
def RangesMade (B : CharBuild) (checksText : Bool) (ranges : List MapRange) : Prop :=
  ∀ r ∈ ranges, ∀ k, r.start ≤ k → k ≤ r.stop → CanMake B checksText k

theorem putData_cons (range val : TableValue) (entries : List (TableValue × TableValue)) (t : CharTable) :
    B.putData checksText (propertyList ((range, val) :: entries)) t =
      (B.putEntry checksText range val t >>= B.putData checksText (propertyList entries)) := rfl

theorem putData_ok {ranges : List MapRange} {entries : List (TableValue × TableValue)}
    (hread : ReadData E ranges entries) (ht : Stored B type t)
    (hvalid : ∀ r ∈ ranges, r.start ≤ r.stop ∧ B.validIcharP r.start)
    (hvalue : ∀ r ∈ ranges, StoredValue B type r.val) (hmade : RangesMade B checksText ranges) :
    ∃ t', B.putData checksText (propertyList entries) t = .ok t' ∧ Stored B type t' ∧
      ∀ ch < B.limit,
        (∃ r ∈ ranges, (r.start ≤ ch ∧ ch ≤ r.stop) ∧ ∃ w, r.val.Equal E w ∧ getCharTableRaw ch t' = some w) ∨
          (∀ r ∈ ranges, ¬ (r.start ≤ ch ∧ ch ≤ r.stop)) ∧ getCharTableRaw ch t' = getCharTableRaw ch t := by
  induction hread generalizing t with
  | nil => exact ⟨t, rfl, ht, fun ch _ => Or.inr ⟨fun r hr => absurd hr List.not_mem_nil, rfl⟩⟩
  | @cons r e ranges entries he hread ih =>
    obtain ⟨range, w⟩ := e
    obtain ⟨rfl, hequal⟩ := he
    obtain ⟨hle, hstart⟩ := hvalid r List.mem_cons_self
    have hw := (hvalue r List.mem_cons_self).of_equal hequal
    obtain ⟨t₁, hput, ht₁, hraw₁⟩ := putCharacters_ok (n := r.stop + 1 - r.start) (i := r.start) ht hw
      fun k hk hlt => hmade r List.mem_cons_self k hk (by omega)
    obtain ⟨t', hrest, ht', hraw⟩ := ih ht₁ (fun x hx => hvalid x (List.mem_cons_of_mem r hx))
      (fun x hx => hvalue x (List.mem_cons_of_mem r hx)) fun x hx => hmade x (List.mem_cons_of_mem r hx)
    refine ⟨t', ?_, ht', fun ch hch => ?_⟩
    · rw [putData_cons, putEntry_printedRange hstart hle, hput]
      exact hrest
    · rcases hraw ch hch with ⟨x, hx, hin, hval⟩ | ⟨hnone, heq⟩
      · exact Or.inl ⟨x, List.mem_cons_of_mem r hx, hin, hval⟩
      · by_cases hin : r.start ≤ ch ∧ ch ≤ r.stop
        · refine Or.inl ⟨r, List.mem_cons_self, hin, w, hequal, ?_⟩
          rw [heq, hraw₁ ch hch, if_pos (by omega)]
        · refine Or.inr ⟨List.forall_mem_cons.mpr ⟨hin, hnone⟩, ?_⟩
          rw [heq, hraw₁ ch hch, if_neg (by omega)]

theorem putData_error {ranges : List MapRange} {entries : List (TableValue × TableValue)}
    (hread : ReadData E ranges entries) (hvalid : ∀ r ∈ ranges, r.start ≤ r.stop ∧ B.validIcharP r.start)
    (hmade : ¬ RangesMade B checksText ranges) :
    ∃ e, B.putData checksText (propertyList entries) t = .error e := by
  induction hread generalizing t with
  | nil => exact absurd (fun r hr => absurd hr List.not_mem_nil) hmade
  | @cons r e ranges entries he hread ih =>
    obtain ⟨range, w⟩ := e
    obtain ⟨rfl, -⟩ := he
    obtain ⟨hle, hstart⟩ := hvalid r List.mem_cons_self
    rw [putData_cons, putEntry_printedRange hstart hle]
    by_cases hfirst : ∀ k, r.start ≤ k → k ≤ r.stop → CanMake B checksText k
    · cases B.putCharacters checksText w (r.stop + 1 - r.start) r.start t with
      | error e => exact ⟨e, rfl⟩
      | ok t' =>
        apply ih fun x hx => hvalid x (List.mem_cons_of_mem r hx)
        exact fun hrest => hmade (List.forall_mem_cons.mpr ⟨hfirst, hrest⟩)
    · push Not at hfirst
      obtain ⟨k, hk, hlt, hnot⟩ := hfirst
      obtain ⟨e, herror⟩ := putCharacters_error (t := t) (w := w) hk (show k < r.start + (r.stop + 1 - r.start) by omega) hnot
      rw [herror]
      exact ⟨e, rfl⟩

end Put

section Spanning

variable {t : CharTable}

/-- The codes from one character to another all have the same value, and one of them is no character. -/
def SpansNoCharacter (B : CharBuild) (t : CharTable) : Prop :=
  ∃ (first last : ℕ) (v : TableValue), B.validIcharP first ∧ B.validIcharP last ∧
    (∀ k, first ≤ k → k ≤ last → getCharTableRaw k t = some v) ∧ ∃ c : ℕ, first ≤ c ∧ c ≤ last ∧ ¬ B.validIcharP c

def groups (B : CharBuild) (t : CharTable) : List MapRange :=
  grouped (spans B 0 (B.spanTop t.levels) t.levels t.table 0)

theorem canonical_groups (ht : Leveled t) : Interval.Canonical ((groups B t).map interval) :=
  (canonical_grouped (pairwise_spans ht.2 t.table 0) fun _ hr =>
    start_le_stop_of_mem_spans ht.2 (Nat.zero_le _) (Nat.zero_le _) (Nat.zero_le _) hr).1

theorem mem_groups_iff (ht : Leveled t) {ch : ℕ} {v : TableValue} (hch : ch < B.limit) :
    (∃ g ∈ groups B t, (g.start ≤ ch ∧ ch ≤ g.stop) ∧ g.val = v) ↔ getCharTableRaw ch t = some v := by
  have hspans := (canonical_grouped (pairwise_spans ht.2 t.table 0) fun _ hr =>
    start_le_stop_of_mem_spans (B := B) ht.2 (Nat.zero_le (B.spanTop t.levels)) (Nat.zero_le _) (Nat.zero_le _) hr).2 ch v
  rw [groups, hspans]
  have hraw (hle : ch ≤ B.spanTop t.levels) :
      (∃ r ∈ spans B 0 (B.spanTop t.levels) t.levels t.table 0, (r.start ≤ ch ∧ ch ≤ r.stop) ∧ r.val = v) ↔
        getCharTableRaw ch t = some v := by
    have hlevels := charLevels_le_of_le_spanTop ht.1 ht.2 hle
    have hpow := lt_pow_of_charLevels_le hch hlevels ht.2
    rw [getCharTableRaw, if_neg (not_lt.mpr hlevels),
      mem_spans_iff ht.2 hch (dvd_zero _) (Nat.zero_le _) (by rwa [zero_add]) (Nat.zero_le ch) hle]
  constructor
  · rintro ⟨r, hr, hin, hv⟩
    exact (hraw (hin.2.trans (bounds_of_mem_spans ht.2 hr).2.1)).mp ⟨r, hr, hin, hv⟩
  · exact fun hv => (hraw (le_spanTop_of_bound ht hch hv)).mpr hv

theorem spansNoCharacter_iff (R : CharRounding B) (ht : Leveled t) :
    SpansNoCharacter B t ↔ ∃ r ∈ calls R t .all, ∃ c : ℕ, r.start ≤ c ∧ c ≤ r.stop ∧ ¬ B.validIcharP c := by
  constructor
  · rintro ⟨first, last, v, hfirst, hlast, hvalue, c, hfc, hcl, hc⟩
    obtain ⟨g, hg, hin, rfl⟩ := (mem_groups_iff ht (lt_limit hfirst)).mpr (hvalue first le_rfl (hfc.trans hcl))
    -- the group of the first character does not end before the last one
    have hlastIn : last ≤ g.stop := by
      by_contra hlt
      have hnext : g.stop + 1 < B.limit := by
        have hlimit := lt_limit hlast
        omega
      obtain ⟨g', hg', hin', hval⟩ := (mem_groups_iff ht hnext).mpr (hvalue (g.stop + 1) (by omega) (by omega))
      have hcanonical := canonical_groups (B := B) ht
      apply hcanonical.value_last (List.mem_map_of_mem hg)
      exact hcanonical.value_eq_some.mpr ⟨interval g', List.mem_map_of_mem hg', contains_interval.mpr hin', hval⟩
    obtain ⟨r, hr⟩ := exists_rounded R hfirst hin
    have hfirstIn := (mem_rounded hr hfirst).mpr hin
    have hlastIn' := (mem_rounded hr hlast).mpr ⟨hin.1.trans (hfc.trans hcl), hlastIn⟩
    exact ⟨r, List.mem_filterMap.mpr ⟨g, hg, hr⟩, c, hfirstIn.1.trans hfc, hcl.trans hlastIn'.2, hc⟩
  · rintro ⟨r, hr, c, hstart, hstop, hc⟩
    obtain ⟨g, hg, hrounded⟩ := List.mem_filterMap.mp hr
    obtain ⟨-, -, hup, hdown⟩ := rounded_eq_some.mp hrounded
    obtain ⟨hvalidStart, hgstart, -⟩ := R.up_some hup
    obtain ⟨hvalidStop, hgstop, -⟩ := R.down_some hdown
    refine ⟨r.start, r.stop, g.val, hvalidStart, hvalidStop, fun k hk hk' => ?_, c, hstart, hstop, hc⟩
    have hlimit := lt_limit hvalidStop
    exact (mem_groups_iff ht (by omega)).mp ⟨g, hg, ⟨by omega, by omega⟩, rfl⟩

end Spanning

/-- The table reads back from its printed form, with data that are equal to those written. -/
def ReadsBack (B : CharBuild) (E : ℕ → ℕ → Prop) (checksText : Bool) (t : CharTable) (data : TableValue) : Prop :=
  ∃ t', B.readCharTable checksText (printCharTable t data) = .ok t' ∧ t'.type = t.type ∧ t'.default_ = t.default_ ∧
    ∀ ch : ℕ, B.validIcharP ch → Option.Rel (TableValue.Equal E) (getCharTableRaw ch t) (getCharTableRaw ch t')

variable {R : CharRounding B} {checksText : Bool} {type : CharTableType} {t : CharTable} {data : TableValue}

theorem symbolToCharTableType_charTableTypeToSymbol (type : CharTableType) :
    symbolToCharTableType (charTableTypeToSymbol type) = .ok type := by
  cases type <;> rfl

theorem readCharTable_eq (ht : Stored B type t) (htype : type ≠ .category)
    (hvalidate : chartabDataValidate data = .ok ()) :
    B.readCharTable checksText (printCharTable t data) = B.putData checksText data (makeCharTable type) := by
  have hproperties : chartabProperties (printCharTable t data) = ⟨charTableTypeToSymbol type, none, data⟩ := by
    rw [printCharTable, if_pos (by rw [ht.default_eq, ht.type_eq]), ht.type_eq]
    rfl
  rw [readCharTable, chartabInstantiate, hproperties]
  simp only [hvalidate, symbolToCharTableType_charTableTypeToSymbol]
  exact if_neg htype

theorem rangesMade_iff (R : CharRounding B) (ht : Leveled t) :
    RangesMade B checksText (calls R t .all) ↔ ¬ (checksText = true ∧ SpansNoCharacter B t) := by
  rw [spansNoCharacter_iff R ht]
  constructor
  · rintro hmade ⟨hchecks, r, hr, c, hstart, hstop, hc⟩
    exact hmade r hr c hstart hstop ⟨hchecks, hc⟩
  · intro hnot r hr k hstart hstop hmake
    exact hnot ⟨hmake.1, r, hr, k, hstart, hstop, hmake.2⟩

theorem Stored.readsBackAll_iff (R : CharRounding B) (hnil : ∀ address, E 0 address → address = 0)
    (htype : type ≠ .category) (ht : Stored B type t) (hdata : (printedData R t).Equal E data) :
    ReadsBack B E checksText t data ↔ ¬ (checksText = true ∧ SpansNoCharacter B t) := by
  obtain ⟨entries, rfl, hread⟩ := exists_readData hnil hdata
  have hexact : Exact B t .all (calls R t .all) := (exact_calls_iff ht.leveled).mpr id
  have hvalid : ∀ r ∈ calls R t .all, r.start ≤ r.stop ∧ B.validIcharP r.start := fun r hr =>
    ⟨(hexact.valid r hr).1, (hexact.valid r hr).2.1⟩
  rw [← rangesMade_iff R ht.leveled, ReadsBack, readCharTable_eq ht htype (chartabDataValidate_readData hread)]
  constructor
  · rintro ⟨t', hok, -⟩
    by_contra hnot
    obtain ⟨e, herror⟩ := putData_error (t := makeCharTable type) hread hvalid hnot
    rw [herror] at hok
    cases hok
  · intro hmade
    have hvalue : ∀ r ∈ calls R t .all, StoredValue B type r.val := fun r hr => by
      obtain ⟨hle, hstart, -⟩ := hexact.valid r hr
      exact ht.values.getCharTableRaw r.start r.val
        ((hexact.covers r.start r.val hstart).mp ⟨r, hr, ⟨le_rfl, hle⟩, rfl⟩).2
    obtain ⟨t', hput, ht', hraw⟩ := putData_ok hread (stored_makeCharTable B type) hvalid hvalue hmade
    refine ⟨t', hput, ht'.type_eq.trans ht.type_eq.symm, ht'.default_eq.trans ht.default_eq.symm, fun ch hch => ?_⟩
    rcases hraw ch (lt_limit hch) with ⟨r, hr, hin, w, hequal, hw⟩ | ⟨hnone, hw⟩
    · rw [hw, ((hexact.covers ch r.val hch).mp ⟨r, hr, hin, rfl⟩).2]
      exact .some hequal
    · have hempty : getCharTableRaw ch t = none := by
        rw [Option.eq_none_iff_forall_ne_some]
        intro v hv
        obtain ⟨r, hr, hin, -⟩ := (hexact.covers ch v hch).mpr ⟨trivial, hv⟩
        exact hnone r hr hin
      have hmake : getCharTableRaw ch (makeCharTable type) = none :=
        getCharTableRaw_initChartabTables ch (makeCharTable type)
      rw [hempty, hw, hmake]
      exact .none

theorem equal_refl (hE : ∀ address, E address address) (v : TableValue) : v.Equal E v := by
  induction v with
  | fixnum n => exact .fixnum n
  | char ch => exact .char ch
  | other address => exact .other (hE address)
  | cons car cdr hcar hcdr => exact .cons hcar hcdr

def letterTable : CharTable := unicodeInternal.putCharTable (makeCharTable .char) 65 65 (some (.char 66))

theorem run_letterTable : Run unicodeInternal.step anyStep (makeCharTable .char) [.put (.char (.char 65)) (.char 66)]
    letterTable :=
  .of_exec rfl

def allTable : CharTable := unicodeInternal.putCharTable (makeCharTable .char) 0 0x3fffffff (some (.char 65))

theorem run_allTable : Run unicodeInternal.step anyStep (makeCharTable .char) [.put .all (.char 65)] allTable :=
  .of_exec rfl

end XEmacs.Table
