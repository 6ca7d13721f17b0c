import Mathlib.Tactic.IntervalCases
import Mathlib.Tactic.NormNum
import Mathlib.Tactic.Positivity
import Mathlib.Tactic.Ring
import XEmacs.Table.CharTable

/-! What a char table returns after any calls: the value of the last call that covered the
character, as long as no call from character 0 on ends inside the span of the tree that it makes
grow. -/

namespace XEmacs.Table.CharBuild

open Lib Chartab

variable {B : CharBuild} {t t' : CharTable} {start stop ch level offset : ℕ} {v : Option TableValue}

theorem charLevels_pos (ch : ℕ) : 1 ≤ charLevels ch := by
  unfold charLevels
  split_ifs <;> omega

theorem charLevels_le_four (ch : ℕ) : charLevels ch ≤ 4 := by
  unfold charLevels
  split_ifs <;> omega

theorem charLevels_mono (h : ch ≤ stop) : charLevels ch ≤ charLevels stop := by
  unfold charLevels
  split_ifs <;> omega

theorem lt_pow_of_charLevels_le (hch : ch < B.limit) (h : charLevels ch ≤ level) (h4 : level ≤ 4) :
    ch < 256 ^ level := by
  have hlimit := B.limit_le
  have hpos := charLevels_pos ch
  unfold charLevels at h hpos
  interval_cases level <;> split_ifs at h <;> omega

theorem pow_le_of_lt_charLevels (hpos : 1 ≤ level) (h : level < charLevels ch) : 256 ^ level ≤ ch := by
  have h4 := charLevels_le_four ch
  have hlt : level < 4 := by omega
  unfold charLevels at h
  obtain rfl | rfl | rfl : level = 1 ∨ level = 2 ∨ level = 3 := by omega
  all_goals split_ifs at h <;> omega

theorem le_spanTop (hch : ch < B.limit) (h : ch < offset + 256 ^ level) :
    ch ≤ offset + B.spanTop level := by
  unfold spanTop
  split_ifs <;> omega

theorem index_lt (level ch : ℕ) : ch >>> (8 * level) % 256 < 256 := Nat.mod_lt _ (by decide)

def index (level ch : ℕ) : Fin 256 := ⟨ch >>> (8 * level) % 256, index_lt level ch⟩

theorem walk_val (level : ℕ) (v : Option TableValue) (ch : ℕ) : walk level (.val v) ch = v := by
  cases level <;> rfl

theorem walk_subtab (level : ℕ) (ptr : Fin 256 → Chartab) (ch : ℕ) :
    walk (level + 1) (.subtab ptr) ch = walk level (ptr (index level ch)) ch := rfl

theorem walk_entries (level : ℕ) (table : Chartab) (ch : ℕ) :
    walk (level + 1) table ch = walk level (table.entries (index level ch)) ch := by
  cases table with
  | val v => rw [walk_val, entries, walk_val]
  | subtab ptr => rfl

theorem index_val (hoffset : 256 ^ (level + 1) ∣ offset) (hle : offset ≤ ch)
    (hlt : ch < offset + 256 ^ (level + 1)) : (index level ch).val = (ch - offset) / 256 ^ level := by
  obtain ⟨k, rfl⟩ := hoffset
  obtain ⟨d, rfl⟩ := Nat.exists_eq_add_of_le hle
  have hd : d < 256 * 256 ^ level := by rw [pow_succ] at hlt; omega
  have hdiv : d / 256 ^ level < 256 := Nat.div_lt_of_lt_mul (by rwa [mul_comm] at hd)
  have hsplit : 256 ^ (level + 1) * k + d = d + 256 ^ level * (256 * k) := by rw [pow_succ]; ring
  have hpow : 2 ^ (8 * level) = 256 ^ level := by rw [pow_mul]; norm_num
  simp only [index, Nat.shiftRight_eq_div_pow, hpow, Nat.add_sub_cancel_left]
  rw [hsplit, Nat.add_mul_div_left _ _ (by positivity), Nat.add_mul_mod_self_left, Nat.mod_eq_of_lt hdiv]

theorem index_block (hoffset : 256 ^ (level + 1) ∣ offset) (hle : offset ≤ ch)
    (hlt : ch < offset + 256 ^ (level + 1)) :
    offset + (index level ch).val * 256 ^ level ≤ ch ∧
      ch < offset + (index level ch).val * 256 ^ level + 256 ^ level := by
  rw [index_val hoffset hle hlt]
  have hdiv := Nat.div_add_mod (ch - offset) (256 ^ level)
  rw [mul_comm] at hdiv
  omega

theorem index_mem_of_mem (hoffset : 256 ^ (level + 1) ∣ offset) (hle : offset ≤ ch)
    (hlt : ch < offset + 256 ^ (level + 1)) (hstart : start ≤ ch) (hstop : ch ≤ stop) :
    (start - offset) >>> (level * 8) ≤ (index level ch).val ∧
      (index level ch).val ≤ min 255 ((stop - offset) >>> (level * 8)) := by
  have hpow : 2 ^ (level * 8) = 256 ^ level := by rw [mul_comm, pow_mul]; norm_num
  have h255 : (index level ch).val ≤ 255 := Nat.le_of_lt_succ (index level ch).isLt
  rw [Nat.shiftRight_eq_div_pow, Nat.shiftRight_eq_div_pow, hpow]
  rw [index_val hoffset hle hlt] at h255 ⊢
  refine ⟨Nat.div_le_div_right (by omega), le_min h255 (Nat.div_le_div_right (by omega))⟩

theorem putChartabTable_succ (start stop : ℕ) (v : Option TableValue) (level offset : ℕ) (table : Chartab) :
    B.putChartabTable start stop v (level + 1) offset table =
      if start ≤ offset ∧ offset + B.spanTop (level + 1) ≤ stop then .val v
      else .subtab fun i =>
        if (start - offset) >>> (level * 8) ≤ i.val ∧ i.val ≤ min 255 ((stop - offset) >>> (level * 8)) then
          if level = 0 then .val v
          else B.putChartabTable start stop v level (offset + i.val <<< (level * 8)) (table.entries i)
        else table.entries i := by
  rw [putChartabTable.eq_def]
  by_cases hlevel : level = 0 <;> simp only [hlevel, if_true, if_false]

theorem walk_putChartabTable (hch : ch < B.limit) (level : ℕ) {table : Chartab} {offset : ℕ}
    (hoffset : 256 ^ (level + 1) ∣ offset) (hle : offset ≤ ch) (hlt : ch < offset + 256 ^ (level + 1))
    (hmeets : offset ≤ stop) :
    walk (level + 1) (B.putChartabTable start stop v (level + 1) offset table) ch =
      if start ≤ ch ∧ ch ≤ stop then v else walk (level + 1) table ch := by
  induction level generalizing table offset with
  | zero =>
    rw [putChartabTable_succ]
    by_cases hfull : start ≤ offset ∧ offset + B.spanTop (0 + 1) ≤ stop
    · have htop := le_spanTop hch hlt
      rw [if_pos hfull, if_pos (by omega), walk_val]
    · have hindex := index_val hoffset hle hlt
      rw [pow_zero, Nat.div_one] at hindex
      rw [if_neg hfull, walk_subtab, hindex, zero_mul, Nat.shiftRight_zero, Nat.shiftRight_zero, if_pos rfl,
        walk_entries 0 table]
      by_cases hin : start ≤ ch ∧ ch ≤ stop
      · rw [if_pos (by omega), if_pos hin, walk_val]
      · rw [if_neg (by omega), if_neg hin]
  | succ level ih =>
    rw [putChartabTable_succ]
    by_cases hfull : start ≤ offset ∧ offset + B.spanTop (level + 1 + 1) ≤ stop
    · have htop := le_spanTop hch hlt
      rw [if_pos hfull, if_pos (by omega), walk_val]
    · obtain ⟨hle', hlt'⟩ := index_block hoffset hle hlt
      have hpow : 2 ^ ((level + 1) * 8) = 256 ^ (level + 1) := by rw [mul_comm, pow_mul]; norm_num
      rw [if_neg hfull, walk_subtab, if_neg (Nat.succ_ne_zero level), walk_entries (level + 1) table]
      by_cases hin : (start - offset) >>> ((level + 1) * 8) ≤ (index (level + 1) ch).val ∧
          (index (level + 1) ch).val ≤ min 255 ((stop - offset) >>> ((level + 1) * 8))
      · have hmeets' : (index (level + 1) ch).val * 256 ^ (level + 1) ≤ stop - offset := by
          have hstop := hin.2.trans (min_le_right _ _)
          rwa [Nat.shiftRight_eq_div_pow, hpow, Nat.le_div_iff_mul_le (by positivity)] at hstop
        have hdvd := (pow_dvd_pow 256 (Nat.le_succ (level + 1))).trans hoffset
        rw [if_pos hin, Nat.shiftLeft_eq, hpow,
          ih (hdvd.add (Nat.dvd_mul_left _ _)) hle' hlt' (by omega)]
      · have hout : ¬ (start ≤ ch ∧ ch ≤ stop) := fun h =>
          hin (index_mem_of_mem hoffset hle hlt h.1 h.2)
        rw [if_neg hin, if_neg hout]

theorem walk_grow (table : Chartab) (h : ch < 256 ^ (level + 1)) :
    walk (level + 1) (grow table) ch = if ch < 256 ^ level then walk level table ch else none := by
  have hindex : (index level ch).val = ch / 256 ^ level := by
    have hval := index_val (dvd_zero _) (Nat.zero_le ch) (by rwa [zero_add])
    rwa [Nat.sub_zero] at hval
  have hzero : (index level ch).val = 0 ↔ ch < 256 ^ level := by
    rw [hindex, Nat.div_eq_zero_iff_lt (by positivity)]
  rw [grow, walk_subtab]
  by_cases hlt : ch < 256 ^ level
  · rw [if_pos (hzero.mpr hlt), if_pos hlt]
  · rw [if_neg (mt hzero.mp hlt), if_neg hlt, walk_val]

theorem walk_grow_iterate (table : Chartab) (n : ℕ) (h : ch < 256 ^ (level + n)) :
    walk (level + n) (grow^[n] table) ch = if ch < 256 ^ level then walk level table ch else none := by
  induction n with
  | zero => exact (if_pos h).symm
  | succ n ih =>
    rw [Function.iterate_succ_apply']
    rw [← Nat.add_assoc] at h ⊢
    rw [walk_grow _ h]
    by_cases hlt : ch < 256 ^ (level + n)
    · rw [if_pos hlt, ih hlt]
    · have hle : 256 ^ level ≤ 256 ^ (level + n) := Nat.pow_le_pow_right (by decide) (Nat.le_add_right _ _)
      rw [if_neg hlt, if_neg (by omega)]

/-- The tree has at least one level, and no more than a character has bytes. -/
def Leveled (t : CharTable) : Prop := 1 ≤ t.levels ∧ t.levels ≤ 4

/-- A call from character 0 on that skips the growth reaches the end of the tree it grows to. -/
def FillsGrowth (B : CharBuild) (t : CharTable) (start stop : ℕ) : Prop :=
  t.levels < charLevels stop → ¬ t.table.Unbound → start = 0 → B.spanTop t.levels ≤ stop →
    min (B.spanTop (charLevels stop)) (B.limit - 1) ≤ stop

instance (t : CharTable) (start stop : ℕ) : Decidable (B.FillsGrowth t start stop) :=
  inferInstanceAs (Decidable (_ → _ → _ → _ → _))

/-- The tree that `put_char_table` goes into, of enough levels unless the growth is skipped. -/
def grown (B : CharBuild) (t : CharTable) (start stop : ℕ) : Chartab :=
  if t.levels < charLevels stop ∧ ¬ t.table.Unbound ∧ ¬ (start = 0 ∧ stop ≥ B.spanTop t.levels) then
    grow^[charLevels stop - t.levels] t.table
  else t.table

theorem putCharTable_eq (t : CharTable) (start stop : ℕ) (v : Option TableValue) :
    B.putCharTable t start stop v =
      { t with
        levels := max t.levels (charLevels stop)
        table := B.putChartabTable start stop v (max t.levels (charLevels stop)) 0 (B.grown t start stop) } := by
  by_cases hlt : t.levels < charLevels stop
  · have hmax : max t.levels (charLevels stop) = charLevels stop := max_eq_right hlt.le
    rw [hmax]
    simp only [putCharTable, grown, hlt, true_and]
    split_ifs <;> rfl
  · have hmax : max t.levels (charLevels stop) = t.levels := max_eq_left (not_lt.mp hlt)
    rw [hmax]
    simp only [putCharTable, grown, hlt, false_and, if_false]

theorem walk_grown (ht : Leveled t) (hch : ch < B.limit) (hfills : B.FillsGrowth t start stop)
    (hlevels : charLevels ch ≤ max t.levels (charLevels stop)) (hout : ¬ (start ≤ ch ∧ ch ≤ stop)) :
    walk (max t.levels (charLevels stop)) (B.grown t start stop) ch = getCharTableRaw ch t := by
  have hpow : ch < 256 ^ max t.levels (charLevels stop) :=
    lt_pow_of_charLevels_le hch hlevels (max_le ht.2 (charLevels_le_four _))
  by_cases hlt : t.levels < charLevels stop
  · rw [max_eq_right hlt.le] at hpow hlevels ⊢
    by_cases hunbound : t.table.Unbound
    · have hnone : t.table = .val none := by
        cases htable : t.table with
        | val v => cases v with
          | none => rfl
          | some v => rw [htable] at hunbound; exact hunbound.elim
        | subtab ptr => rw [htable] at hunbound; exact hunbound.elim
      rw [grown, if_neg (by tauto), getCharTableRaw, hnone, walk_val, walk_val, ite_self]
    · have hgrow : ¬ (start = 0 ∧ stop ≥ B.spanTop t.levels) := by
        rintro ⟨rfl, hspan⟩
        have hfill := hfills hlt hunbound rfl hspan
        have htop := @le_spanTop _ _ _ 0 hch (by rwa [zero_add])
        omega
      obtain ⟨n, hn⟩ := Nat.exists_eq_add_of_le hlt.le
      rw [grown, if_pos ⟨hlt, hunbound, hgrow⟩, hn, Nat.add_sub_cancel_left,
        walk_grow_iterate _ _ (by rwa [← hn]), getCharTableRaw]
      by_cases hdeep : t.levels < charLevels ch
      · have hle := pow_le_of_lt_charLevels ht.1 hdeep
        rw [if_pos hdeep, if_neg (by omega)]
      · rw [if_neg hdeep, if_pos (lt_pow_of_charLevels_le hch (not_lt.mp hdeep) ht.2)]
  · rw [max_eq_left (not_lt.mp hlt)] at hlevels ⊢
    rw [grown, if_neg (by tauto), getCharTableRaw, if_neg (by omega)]

theorem getCharTableRaw_putCharTable (ht : Leveled t) (hch : ch < B.limit) (hfills : B.FillsGrowth t start stop) :
    getCharTableRaw ch (B.putCharTable t start stop v) =
      if start ≤ ch ∧ ch ≤ stop then v else getCharTableRaw ch t := by
  rw [putCharTable_eq, getCharTableRaw]
  simp only
  by_cases hlevels : charLevels ch ≤ max t.levels (charLevels stop)
  · have hpow := lt_pow_of_charLevels_le hch hlevels (max_le ht.2 (charLevels_le_four _))
    obtain ⟨level, hlevel⟩ := Nat.exists_eq_add_one.mpr (lt_of_lt_of_le ht.1 (le_max_left t.levels (charLevels stop)))
    rw [if_neg (not_lt.mpr hlevels), hlevel,
      walk_putChartabTable hch level (dvd_zero _) (Nat.zero_le _) (by rwa [zero_add, ← hlevel]) (Nat.zero_le _)]
    by_cases hin : start ≤ ch ∧ ch ≤ stop
    · rw [if_pos hin, if_pos hin]
    · rw [if_neg hin, if_neg hin, ← hlevel, walk_grown ht hch hfills hlevels hin]
  · have hout : ¬ (start ≤ ch ∧ ch ≤ stop) := fun h =>
      hlevels ((charLevels_mono h.2).trans (le_max_right _ _))
    rw [if_pos (not_le.mp hlevels), if_neg hout, getCharTableRaw, if_pos (by omega)]

theorem leveled_putCharTable (ht : Leveled t) : Leveled (B.putCharTable t start stop v) := by
  rw [putCharTable_eq]
  exact ⟨ht.1.trans (le_max_left _ _), max_le ht.2 (charLevels_le_four _)⟩

theorem getCharTableRaw_initChartabTables (ch : ℕ) (t : CharTable) :
    getCharTableRaw ch (initChartabTables t) = none := by
  simp only [getCharTableRaw, initChartabTables, walk_val, ite_self]

def Covers : ChartabRange → ℕ → Prop
  | .all, _ => True
  | .range first last, ch => first ≤ ch ∧ ch ≤ last
  | .char c, ch => ch = c

instance : ∀ range ch, Decidable (Covers range ch)
  | .all, _ => .isTrue trivial
  | .range first last, ch => inferInstanceAs (Decidable (first ≤ ch ∧ ch ≤ last))
  | .char c, ch => inferInstanceAs (Decidable (ch = c))

/-- The first and the last character that `put_char_table` is called with. -/
def bounds (B : CharBuild) : ChartabRange → ℕ × ℕ
  | .all => (0, B.limit - 1)
  | .range first last => (first, last)
  | .char c => (c, c)

theorem putCharTableRange_eq (t : CharTable) (v : Option TableValue) (range : ChartabRange) :
    B.putCharTableRange t v range = B.putCharTable t (B.bounds range).1 (B.bounds range).2 v := by
  cases range <;> rfl

theorem covers_iff (hch : ch < B.limit) (range : ChartabRange) :
    Covers range ch ↔ (B.bounds range).1 ≤ ch ∧ ch ≤ (B.bounds range).2 := by
  cases range with
  | all => exact ⟨fun _ => ⟨Nat.zero_le _, Nat.le_sub_one_of_lt hch⟩, fun _ => trivial⟩
  | range first last => rfl
  | char c => exact ⟨fun h => ⟨h.ge, h.le⟩, fun h => le_antisymm h.2 h.1⟩

/-- The characters that a call on a table of the given type sets, and to what, where none
unsets them; a call that signals an error sets nothing. -/
def setting (B : CharBuild) (type : CharTableType) : CharTableOp → Option (ChartabRange × Option TableValue)
  | .put range value =>
    if type = .category ∨ ¬ B.validCharTableValue value type then none
    else (B.decodeCharTableRange range).map (·, some (canonicalizeCharTableValue value type))
  | .remove range =>
    if type = .category then none else (B.decodeCharTableRange range).map (·, none)
  | .reset => some (.all, none)

/-- What a call sets one character to, if it covers it. -/
def settingAt (B : CharBuild) (type : CharTableType) (ch : ℕ) (op : CharTableOp) : Option (Option TableValue) :=
  (B.setting type op).bind fun s => if Covers s.1 ch then some s.2 else none

/-- What the last of the calls that cover a character sets it to, none if there is no such
call. -/
def lastSetting (B : CharBuild) (type : CharTableType) (ch : ℕ) (ops : List CharTableOp) : Option TableValue :=
  (ops.reverse.findSome? (B.settingAt type ch)).join

/-- A call that skips the growth of the tree replaces all of the grown tree. -/
def KeepsLevels (B : CharBuild) (t : CharTable) (op : CharTableOp) : Prop :=
  ∀ s ∈ B.setting t.type op, B.FillsGrowth t (B.bounds s.1).1 (B.bounds s.1).2

instance (t : CharTable) (op : CharTableOp) : Decidable (B.KeepsLevels t op) :=
  inferInstanceAs (Decidable (∀ s ∈ B.setting t.type op, _))

theorem lastSetting_append (type : CharTableType) (ch : ℕ) (ops : List CharTableOp) (op : CharTableOp) :
    B.lastSetting type ch (ops ++ [op]) = (B.settingAt type ch op).getD (B.lastSetting type ch ops) := by
  rw [lastSetting, List.reverse_append, List.reverse_singleton, List.singleton_append, List.findSome?_cons]
  cases B.settingAt type ch op <;> rfl

/-- A table of the given type that holds the given values. -/
structure Holds (B : CharBuild) (type : CharTableType) (f : ℕ → Option TableValue) (t : CharTable) : Prop where
  type_eq : t.type = type
  default_eq : t.default_ = charTableDefaultForType type
  leveled : Leveled t
  raw : ∀ ch < B.limit, getCharTableRaw ch t = f ch

variable {type : CharTableType} {f : ℕ → Option TableValue} {op : CharTableOp}

theorem holds_makeCharTable (type : CharTableType) : B.Holds type (fun _ => none) (makeCharTable type) :=
  ⟨rfl, rfl, ⟨le_refl 1, Nat.le_of_ble_eq_true rfl⟩, fun ch _ => getCharTableRaw_initChartabTables ch (makeCharTable type)⟩

theorem Holds.putCharTableRange (h : B.Holds type f t) {range : ChartabRange}
    (hfills : B.FillsGrowth t (B.bounds range).1 (B.bounds range).2) (v : Option TableValue) :
    B.Holds type (fun ch => (if Covers range ch then some v else none).getD (f ch)) (B.putCharTableRange t v range) := by
  rw [putCharTableRange_eq]
  refine ⟨?_, ?_, leveled_putCharTable h.leveled, fun ch hch => ?_⟩
  · rw [putCharTable_eq]; exact h.type_eq
  · rw [putCharTable_eq]; exact h.default_eq
  · rw [getCharTableRaw_putCharTable h.leveled hch hfills, h.raw ch hch]
    by_cases hin : Covers range ch
    · rw [if_pos ((covers_iff hch range).mp hin), if_pos hin, Option.getD_some]
    · rw [if_neg (mt (covers_iff hch range).mpr hin), if_neg hin, Option.getD_none]

theorem Holds.initChartabTables (h : B.Holds type f t) :
    B.Holds type (fun _ => none) (initChartabTables t) :=
  ⟨h.type_eq, h.default_eq, ⟨le_refl 1, Nat.le_of_ble_eq_true rfl⟩,
    fun ch _ => getCharTableRaw_initChartabTables ch t⟩

theorem fputCharTable_eq (range : CharTableRange) (value : TableValue) (t : CharTable) :
    B.fputCharTable range value t =
      (B.setting t.type (.put range value)).map fun s => B.putCharTableRange t s.2 s.1 := by
  by_cases hcategory : t.type = .category
  · rw [fputCharTable, setting, if_pos hcategory, if_pos (.inl hcategory), Option.map_none]
  · by_cases hvalid : B.validCharTableValue value t.type = true
    · rw [fputCharTable, setting, if_neg hcategory, if_neg (not_not.mpr hvalid), if_neg (by tauto), Option.map_map]
      rfl
    · rw [fputCharTable, setting, if_neg hcategory, if_pos hvalid, if_pos (.inr hvalid), Option.map_none]

theorem fremoveCharTable_eq (range : CharTableRange) (t : CharTable) :
    B.fremoveCharTable range t =
      (B.setting t.type (.remove range)).map fun s =>
        if s.1 = .all then CharBuild.initChartabTables t else B.putCharTableRange t none s.1 := by
  by_cases hcategory : t.type = .category
  · rw [fremoveCharTable, setting, if_pos hcategory, if_pos hcategory, Option.map_none]
  · rw [fremoveCharTable, setting, if_neg hcategory, if_neg hcategory, Option.map_map]
    refine congrArg (Option.map · _) (funext fun range => ?_)
    cases range <;> rfl

theorem Holds.step (h : B.Holds type f t) (hok : B.KeepsLevels t op) (hs : B.step t op = some t') :
    B.Holds type (fun ch => (B.settingAt type ch op).getD (f ch)) t' := by
  obtain rfl := h.type_eq
  cases op with
  | put range value =>
    obtain rfl := Option.some.inj hs
    rw [fputCharTable_eq]
    simp only [settingAt]
    cases hset : B.setting t.type (.put range value) with
    | none => exact h
    | some s => exact h.putCharTableRange (hok s hset) s.2
  | remove range =>
    obtain rfl := Option.some.inj hs
    rw [fremoveCharTable_eq]
    simp only [settingAt]
    cases hset : B.setting t.type (.remove range) with
    | none => exact h
    | some s =>
      have hnone : s.2 = none := by
        obtain ⟨-, hset⟩ := Option.ite_none_left_eq_some.mp hset
        obtain ⟨range', -, rfl⟩ := Option.map_eq_some_iff.mp hset
        rfl
      by_cases hall : s.1 = .all
      · have hcovers (ch : ℕ) : Covers s.1 ch := by rw [hall]; trivial
        simpa only [Option.map_some, if_pos hall, Option.bind_some, if_pos (hcovers _), hnone, Option.getD_some]
          using h.initChartabTables
      · simpa only [Option.map_some, if_neg hall, Option.bind_some, hnone, Option.getD_some]
          using h.putCharTableRange (hok s hset) none
  | reset =>
    obtain rfl := Option.some.inj hs
    exact ⟨rfl, rfl, ⟨le_refl 1, Nat.le_of_ble_eq_true rfl⟩,
      fun ch _ => getCharTableRaw_initChartabTables ch _⟩

theorem run_holds {ops : List CharTableOp} (h : Run B.step B.KeepsLevels (makeCharTable type) ops t) :
    B.Holds type (fun ch => B.lastSetting type ch ops) t := by
  induction h with
  | nil => exact holds_makeCharTable type
  | snoc _ hok hs ih =>
    have hstep := ih.step hok hs
    simpa only [lastSetting_append] using hstep

/-- The characters of a build in which they are Unicode code points. -/
def unicodeInternal : CharBuild where
  limit := 0x40000000
  validIcharP ch := decide ((0 ≤ ch ∧ ch < 0x40000000) ∧ ¬ (0xd800 ≤ ch ∧ ch ≤ 0xdfff))
  bound ch h := (of_decide_eq_true h).1
  limit_le := by decide

def replaceAll : List CharTableOp :=
  [.put (.range (.char 0) (.char 0xff)) (.other 1), .put (.range (.char 0) (.char 0xffff)) (.other 2),
    .put (.char (.char 0x10000)) (.other 3), .remove (.char (.char 7))]

end XEmacs.Table.CharBuild
