import XEmacs.Table.CharTableLookup

/-! The values in the tree of a char table, and what one call does to a table: the tree holds the values
that calls have put into it, as they are stored. -/

namespace XEmacs.Table

open Lib CharBuild

variable {B : CharBuild}

/-- Every value of a tree is of a kind. -/
def Chartab.All (p : TableValue → Prop) : Chartab → Prop
  | .val v => ∀ x ∈ v, p x
  | .subtab ptr => ∀ i, (ptr i).All p

section Values

variable {p : TableValue → Prop} {table : Chartab} {v : Option TableValue} {start stop level : ℕ}

theorem Chartab.All.entries (h : table.All p) (i : Fin 256) : (table.entries i).All p := by
  cases table with
  | val v => exact h
  | subtab ptr => exact h i

theorem Chartab.All.walk (h : table.All p) (ch : ℕ) : ∀ x ∈ walk level table ch, p x := by
  induction level generalizing table with
  | zero =>
    cases table with
    | val v => exact h
    | subtab ptr => exact fun x hx => absurd hx (Option.not_mem_none x)
  | succ level ih =>
    rw [walk_entries]
    exact ih (h.entries _)

theorem Chartab.All.putChartabTable (h : table.All p) (hv : ∀ x ∈ v, p x) (offset : ℕ) :
    (B.putChartabTable start stop v level offset table).All p := by
  induction level generalizing table offset with
  | zero => exact h
  | succ level ih =>
    rw [putChartabTable_succ]
    by_cases hwhole : start ≤ offset ∧ offset + B.spanTop (level + 1) ≤ stop
    · rw [if_pos hwhole]
      exact hv
    · rw [if_neg hwhole]
      intro i
      dsimp only
      split_ifs
      · exact hv
      · exact ih (h.entries i) _
      · exact h.entries i

theorem Chartab.All.grow (h : table.All p) : (grow table).All p := by
  intro i
  simp only
  split_ifs
  · exact h
  · exact fun x hx => absurd hx (Option.not_mem_none x)

theorem Chartab.All.grow_iterate (h : table.All p) (n : ℕ) : (CharBuild.grow^[n] table).All p := by
  induction n with
  | zero => exact h
  | succ n ih =>
    rw [Function.iterate_succ_apply']
    exact ih.grow

theorem all_putCharTable {t : CharTable} (h : t.table.All p) (hv : ∀ x ∈ v, p x) :
    (B.putCharTable t start stop v).table.All p := by
  rw [putCharTable_eq]
  apply Chartab.All.putChartabTable _ hv
  rw [grown]
  split_ifs
  · exact h.grow_iterate _
  · exact h

theorem Chartab.All.getCharTableRaw {t : CharTable} (h : t.table.All p) (ch : ℕ) :
    ∀ x ∈ getCharTableRaw ch t, p x := by
  rw [CharBuild.getCharTableRaw]
  split_ifs
  · exact fun x hx => absurd hx (Option.not_mem_none x)
  · exact h.walk ch

end Values

/-- A value of a table of a type: it passes the check and is as it is stored. -/
def StoredValue (B : CharBuild) (type : CharTableType) (v : TableValue) : Prop :=
  B.validCharTableValue v type = true ∧ canonicalizeCharTableValue v type = v

theorem coerceInt_charOrCharIntP {v : TableValue} (h : B.charOrCharIntP v = true) : ∃ ch, coerceInt v = .char ch := by
  cases v with
  | char ch => exact ⟨ch, rfl⟩
  | fixnum n => exact ⟨n, rfl⟩
  | cons car cdr => cases h
  | other address => cases h

theorem storedValue_canonicalize {v : TableValue} {type : CharTableType} (h : B.validCharTableValue v type = true) :
    StoredValue B type (canonicalizeCharTableValue v type) := by
  cases type with
  | generic => exact ⟨rfl, rfl⟩
  | category => cases h
  | char =>
    obtain ⟨ch, hch⟩ := coerceInt_charOrCharIntP h
    rw [canonicalizeCharTableValue, hch]
    exact ⟨rfl, rfl⟩
  | syntax' =>
    cases v with
    | fixnum n => exact ⟨rfl, rfl⟩
    | char ch => cases h
    | other address => cases h
    | cons car cdr =>
      cases car with
      | fixnum n =>
        obtain ⟨ch, hch⟩ := coerceInt_charOrCharIntP h
        show StoredValue B .syntax' (.cons (.fixnum n) (coerceInt cdr))
        rw [hch]
        exact ⟨rfl, rfl⟩
      | char ch => cases h
      | other address => cases h
      | cons car' cdr' => cases h

variable {t t' : CharTable} {op : CharTableOp}

theorem step_cases (h : B.step t op = some t') :
    t' = t ∨ (∃ start stop v, t' = B.putCharTable t start stop v ∧ ∀ x ∈ v, StoredValue B t.type x) ∨
      t' = initChartabTables t ∨ t' = fresetCharTable t := by
  cases op with
  | put range value =>
    obtain rfl := Option.some.inj h
    rw [fputCharTable_eq]
    cases hset : B.setting t.type (.put range value) with
    | none => exact Or.inl rfl
    | some s =>
      obtain ⟨hvalid, hset⟩ := Option.ite_none_left_eq_some.mp hset
      obtain ⟨range', -, rfl⟩ := Option.map_eq_some_iff.mp hset
      rw [Option.map_some, Option.getD_some, putCharTableRange_eq]
      refine Or.inr (Or.inl ⟨_, _, _, rfl, fun x hx => ?_⟩)
      obtain rfl := Option.mem_some_iff.mp hx
      exact storedValue_canonicalize (by simpa using (not_or.mp hvalid).2)
  | remove range =>
    obtain rfl := Option.some.inj h
    rw [fremoveCharTable_eq]
    cases B.setting t.type (.remove range) with
    | none => exact Or.inl rfl
    | some s =>
      rw [Option.map_some, Option.getD_some]
      split_ifs
      · exact Or.inr (Or.inr (Or.inl rfl))
      · rw [putCharTableRange_eq]
        exact Or.inr (Or.inl ⟨_, _, none, rfl, fun x hx => absurd hx (Option.not_mem_none x)⟩)
  | reset => exact Or.inr (Or.inr (Or.inr (Option.some.inj h).symm))

/-- A table as calls leave it: of its type, with one to four levels, and stored values. -/
structure Stored (B : CharBuild) (type : CharTableType) (t : CharTable) : Prop where
  type_eq : t.type = type
  default_eq : t.default_ = charTableDefaultForType type
  leveled : Leveled t
  values : t.table.All (StoredValue B type)

variable {type : CharTableType}

theorem leveled_initChartabTables (t : CharTable) : Leveled (initChartabTables t) :=
  ⟨le_refl 1, Nat.le_of_ble_eq_true rfl⟩

theorem stored_makeCharTable (B : CharBuild) (type : CharTableType) : Stored B type (makeCharTable type) :=
  ⟨rfl, rfl, ⟨le_refl 1, Nat.le_of_ble_eq_true rfl⟩, fun x hx => absurd hx (Option.not_mem_none x)⟩

theorem Stored.putCharTable (h : Stored B type t) {start stop : ℕ} {v : Option TableValue}
    (hv : ∀ x ∈ v, StoredValue B type x) : Stored B type (B.putCharTable t start stop v) where
  type_eq := by
    rw [putCharTable_eq]
    exact h.type_eq
  default_eq := by
    rw [putCharTable_eq]
    exact h.default_eq
  leveled := leveled_putCharTable h.leveled
  values := all_putCharTable h.values hv

theorem Stored.step (h : Stored B type t) (hs : B.step t op = some t') : Stored B type t' := by
  obtain rfl | ⟨start, stop, v, rfl, hv⟩ | rfl | rfl := step_cases hs
  · exact h
  · exact h.putCharTable fun x hx => h.type_eq ▸ hv x hx
  · exact ⟨h.type_eq, h.default_eq, leveled_initChartabTables t, fun x hx => absurd hx (Option.not_mem_none x)⟩
  · exact ⟨h.type_eq, by rw [← h.type_eq]; rfl, leveled_initChartabTables t,
      fun x hx => absurd hx (Option.not_mem_none x)⟩

theorem run_stored {ops : List CharTableOp} (h : Run B.step anyStep (makeCharTable type) ops t) : Stored B type t :=
  h.invariant (stored_makeCharTable B type) fun _ _ _ ih _ hs => ih.step hs

end XEmacs.Table
