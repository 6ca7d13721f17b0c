import XEmacs.Table.CharTableLookup
import XEmacs.Table.CharTableMap

/-! The ranges that `map_char_table` calls its function on: the largest ranges of one value, each with
its ends moved to valid characters. A range that begins after the last character of the tree is
clipped to that character, which is then passed although it was not asked for. -/

namespace XEmacs.Table.CharBuild

open Lib Chartab

variable {B : CharBuild} {R : CharRounding B} {σ : Type} {fn : MapRange → σ → ℤ × σ} {s : σ}
  {start stop level offset ch : ℕ} {table : Chartab} {v : TableValue} {r r' : MapRange} {l : List MapRange}

/-- The ranges that `call_map_chartab_fun` is called with for a tree. -/
def spans (B : CharBuild) (start stop : ℕ) : ℕ → Chartab → ℕ → List MapRange
  | _, .val none, _ => []
  | level, .val (some v), offset => [⟨max start offset, min stop (offset + B.spanTop level), v⟩]
  | 0, .subtab _, _ => []
  | level + 1, .subtab ptr, offset =>
    (meeting start stop level offset).flatMap fun i => spans B start stop level (ptr i) (offset + i.val <<< (level * 8))

theorem mapChartabTable_eq (table : Chartab) (s : Option MapRange × σ) :
    mapChartabTable R fn start stop level table offset s =
      untilNonzero (callMapChartabFun R fn) (spans B start stop level table offset) s := by
  induction level generalizing table offset s with
  | zero =>
    match table with
    | .val none => rfl
    | .val (some v) => rw [mapChartabTable, spans, untilNonzero_singleton]
    | .subtab ptr => rfl
  | succ level ih =>
    match table with
    | .val none => rfl
    | .val (some v) => rw [mapChartabTable, spans, untilNonzero_singleton]
    | .subtab ptr =>
      rw [mapChartabTable, spans, untilNonzero_flatMap]
      exact congrArg (fun f => untilNonzero f _ s) (funext fun i => funext fun s => ih _ s)

def groupFrom (range : MapRange) : List MapRange → List MapRange
  | [] => [range]
  | r :: l =>
    if range.stop + 1 = r.start ∧ range.val = r.val then groupFrom { range with stop := r.stop } l
    else range :: groupFrom r l

def grouped : List MapRange → List MapRange
  | [] => []
  | r :: l => groupFrom r l

theorem mapLastRange_groupFrom (range : MapRange) (l : List MapRange) (s : σ) :
    mapLastRange R fn (untilNonzero (callMapChartabFun R fn) l (some range, s)) =
      untilNonzero (reallyCallMapChartabFun R fn) (groupFrom range l) s := by
  induction l generalizing range s with
  | nil => rw [untilNonzero_nil, groupFrom, untilNonzero_singleton, mapLastRange]; rfl
  | cons r l ih =>
    rw [groupFrom]
    by_cases hjoin : range.stop + 1 = r.start ∧ range.val = r.val
    · have hcall : callMapChartabFun R fn r (some range, s) = (0, some { range with stop := r.stop }, s) := by
        simp only [callMapChartabFun, if_pos hjoin]
      rw [if_pos hjoin, untilNonzero_cons_of_eq (by rw [hcall]), hcall, ih]
    · rw [if_neg hjoin]
      by_cases hzero : (reallyCallMapChartabFun R fn range s).1 = 0
      · have hcall : callMapChartabFun R fn r (some range, s) = (0, some r, (reallyCallMapChartabFun R fn range s).2) := by
          simp only [callMapChartabFun, if_neg hjoin, hzero, ne_eq, not_true, if_false]
        rw [untilNonzero_cons_of_eq (by rw [hcall]), hcall, ih, untilNonzero_cons_of_eq hzero]
      · have hcall : callMapChartabFun R fn r (some range, s) =
            ((reallyCallMapChartabFun R fn range s).1, some range, (reallyCallMapChartabFun R fn range s).2) := by
          simp only [callMapChartabFun, if_neg hjoin, ne_eq, hzero, not_false_eq_true, if_true]
        rw [untilNonzero_cons_of_ne (by rw [hcall]; exact hzero), untilNonzero_cons_of_ne hzero, hcall, mapLastRange,
          if_pos hzero]

theorem mapLastRange_grouped (l : List MapRange) (s : σ) :
    mapLastRange R fn (untilNonzero (callMapChartabFun R fn) l (none, s)) =
      untilNonzero (reallyCallMapChartabFun R fn) (grouped l) s := by
  cases l with
  | nil => rfl
  | cons r l => rw [untilNonzero_cons_of_eq rfl, callMapChartabFun, mapLastRange_groupFrom]; rfl

def tableCalls (R : CharRounding B) (table : Chartab) (level start stop : ℕ) : List MapRange :=
  (grouped (spans B start stop level table 0)).filterMap (rounded R)

theorem mapChartabTable0_eq (table : Chartab) (level start stop : ℕ) (s : σ) :
    mapChartabTable0 R fn table level start stop s = untilNonzero fn (tableCalls R table level start stop) s := by
  rw [mapChartabTable0, mapChartabTable_eq, mapLastRange_grouped, tableCalls, untilNonzero_filterMap]
  rfl

def calls (R : CharRounding B) (t : CharTable) : ChartabRange → List MapRange
  | .all => tableCalls R t.table t.levels 0 (B.spanTop t.levels)
  | .range ch chtop => tableCalls R t.table t.levels (min ch (B.spanTop t.levels)) (min chtop (B.spanTop t.levels))
  | .char ch => ((getCharTableRaw ch t).bind fun v => rounded R ⟨ch, ch, v⟩).toList

/-- The function is called on some ranges, in turn, until it returns a number that is not zero. -/
def CalledOn (R : CharRounding B) (t : CharTable) (range : ChartabRange) (ranges : List MapRange) : Prop :=
  ∀ (σ : Type) (fn : MapRange → σ → ℤ × σ) (s : σ), mapCharTable R fn t range s = untilNonzero fn ranges s

theorem calledOn_calls (R : CharRounding B) (t : CharTable) (range : ChartabRange) :
    CalledOn R t range (calls R t range) := by
  intro σ fn s
  cases range with
  | all => exact mapChartabTable0_eq _ _ _ _ _
  | range ch chtop => exact mapChartabTable0_eq _ _ _ _ _
  | char ch =>
    rw [mapCharTable, calls]
    cases getCharTableRaw ch t with
    | none => rfl
    | some v =>
      simp only [reallyCallMapChartabFun, Option.bind_some]
      cases rounded R ⟨ch, ch, v⟩ with
      | none => rfl
      | some r => exact (untilNonzero_singleton fn r s).symm

theorem CalledOn.eq {t : CharTable} {range : ChartabRange} {ranges : List MapRange} (h : CalledOn R t range ranges) :
    ranges = calls R t range := by
  have heq := (h _ record []).symm.trans (calledOn_calls R t range _ record [])
  rw [untilNonzero_record, untilNonzero_record] at heq
  exact congrArg Prod.snd heq

/-! ### The spans of a tree -/

theorem spanTop_lt (h4 : level ≤ 4) : B.spanTop level < 256 ^ level := by
  have hlimit := B.limit_le
  have hpow : 0 < 256 ^ level := by positivity
  rw [spanTop]
  split_ifs with h
  · subst h
    omega
  · omega

theorem spanTop_eq (h3 : level ≤ 3) : B.spanTop level = 256 ^ level - 1 := if_neg (by omega)

theorem mul_eq_shiftLeft (i level : ℕ) : i <<< (level * 8) = i * 256 ^ level := by
  rw [Nat.shiftLeft_eq, mul_comm level, pow_mul]
  norm_num

theorem entry_block_le (i : Fin 256) (level offset : ℕ) :
    offset + i.val <<< (level * 8) + 256 ^ level ≤ offset + 256 ^ (level + 1) := by
  have hle : (i.val + 1) * 256 ^ level ≤ 256 * 256 ^ level := Nat.mul_le_mul_right _ i.isLt
  rw [mul_eq_shiftLeft, pow_succ]
  rw [add_mul, one_mul] at hle
  omega

theorem mem_meeting {i : Fin 256} (hmeets : offset ≤ stop) : i ∈ meeting start stop level offset ↔
    start < offset + i.val <<< (level * 8) + 256 ^ level ∧ offset + i.val <<< (level * 8) ≤ stop := by
  have hpow : 0 < 256 ^ level := by positivity
  have hshift (n : ℕ) : n >>> (level * 8) = n / 256 ^ level := by
    rw [Nat.shiftRight_eq_div_pow, mul_comm, pow_mul]
    norm_num
  have hi := i.isLt
  rw [meeting, List.mem_filter, decide_eq_true_eq, and_iff_right (List.mem_finRange i), hshift, hshift, mul_eq_shiftLeft]
  have hlow : (start - offset) / 256 ^ level ≤ i.val ↔ start < offset + i.val * 256 ^ level + 256 ^ level := by
    rw [← Nat.lt_add_one_iff, Nat.div_lt_iff_lt_mul hpow, add_mul, one_mul]
    omega
  have hhigh : i.val ≤ (stop - offset) / 256 ^ level ↔ offset + i.val * 256 ^ level ≤ stop := by
    rw [Nat.le_div_iff_mul_le hpow]
    omega
  rw [hlow, le_min_iff, hhigh]
  omega

theorem bounds_of_mem_spans (h4 : level ≤ 4) (hr : r ∈ spans B start stop level table offset) :
    start ≤ r.start ∧ r.stop ≤ stop ∧ offset ≤ r.start ∧ r.stop < offset + 256 ^ level := by
  induction level generalizing table offset with
  | zero =>
    match table, hr with
    | .val none, hr => exact absurd hr List.not_mem_nil
    | .val (some v), hr =>
      obtain rfl := List.mem_singleton.mp hr
      have hspan := @spanTop_lt B 0 h4
      simp only
      omega
    | .subtab ptr, hr => exact absurd hr List.not_mem_nil
  | succ level ih =>
    match table, hr with
    | .val none, hr => exact absurd hr List.not_mem_nil
    | .val (some v), hr =>
      obtain rfl := List.mem_singleton.mp hr
      have hspan := @spanTop_lt B _ h4
      simp only
      omega
    | .subtab ptr, hr =>
      obtain ⟨i, -, hr⟩ := List.mem_flatMap.mp hr
      obtain ⟨hstart, hstop, hlow, hhigh⟩ := ih (by omega) hr
      have hblock := entry_block_le i level offset
      exact ⟨hstart, hstop, (Nat.le_add_right _ _).trans hlow, hhigh.trans_le hblock⟩

theorem pairwise_spans (h4 : level ≤ 4) (table : Chartab) (offset : ℕ) :
    (spans B start stop level table offset).Pairwise fun r r' => r.stop < r'.start := by
  induction level generalizing table offset with
  | zero =>
    match table with
    | .val none => exact .nil
    | .val (some v) => exact List.pairwise_singleton _ _
    | .subtab ptr => exact .nil
  | succ level ih =>
    match table with
    | .val none => exact .nil
    | .val (some v) => exact List.pairwise_singleton _ _
    | .subtab ptr =>
      rw [spans, List.pairwise_flatMap]
      refine ⟨fun i _ => ih (by omega) _ _, ((List.pairwise_lt_finRange 256).filter _).imp fun {i j} hij r hr r' hr' => ?_⟩
      obtain ⟨-, -, -, hhigh⟩ := bounds_of_mem_spans (by omega) hr
      obtain ⟨-, -, hlow, -⟩ := bounds_of_mem_spans (by omega) hr'
      have hle : (i.val + 1) * 256 ^ level ≤ j.val * 256 ^ level := Nat.mul_le_mul_right _ hij
      rw [mul_eq_shiftLeft] at hhigh hlow
      rw [add_mul, one_mul] at hle
      omega

theorem start_le_stop_of_mem_spans (h4 : level ≤ 4) (hle : start ≤ stop) (hstart : start ≤ offset + B.spanTop level)
    (hstop : offset ≤ stop) (hr : r ∈ spans B start stop level table offset) : r.start ≤ r.stop := by
  induction level generalizing table offset with
  | zero =>
    match table, hr with
    | .val none, hr => exact absurd hr List.not_mem_nil
    | .val (some v), hr =>
      obtain rfl := List.mem_singleton.mp hr
      simp only
      omega
    | .subtab ptr, hr => exact absurd hr List.not_mem_nil
  | succ level ih =>
    match table, hr with
    | .val none, hr => exact absurd hr List.not_mem_nil
    | .val (some v), hr =>
      obtain rfl := List.mem_singleton.mp hr
      simp only
      omega
    | .subtab ptr, hr =>
      obtain ⟨i, hi, hr⟩ := List.mem_flatMap.mp hr
      obtain ⟨hlow, hhigh⟩ := (mem_meeting hstop).mp hi
      have hspan := @spanTop_eq B level (by omega)
      exact ih (by omega) (by omega) hhigh hr

theorem mem_spans_iff (h4 : level ≤ 4) (hch : ch < B.limit) (hoffset : 256 ^ level ∣ offset) (hle : offset ≤ ch)
    (hlt : ch < offset + 256 ^ level) (hstart : start ≤ ch) (hstop : ch ≤ stop) :
    (∃ r ∈ spans B start stop level table offset, (r.start ≤ ch ∧ ch ≤ r.stop) ∧ r.val = v) ↔
      walk level table ch = some v := by
  induction level generalizing table offset with
  | zero =>
    match table with
    | .val none => simp [spans, walk]
    | .val (some w) =>
      have htop := le_spanTop hch hlt
      simp only [spans, walk, List.mem_singleton, exists_eq_left, Option.some.injEq]
      exact and_iff_right ⟨max_le hstart hle, le_min hstop htop⟩
    | .subtab ptr => simp [spans, walk]
  | succ level ih =>
    match table with
    | .val none => simp [spans, walk]
    | .val (some w) =>
      have htop := le_spanTop hch hlt
      simp only [spans, walk, List.mem_singleton, exists_eq_left, Option.some.injEq]
      exact and_iff_right ⟨max_le hstart hle, le_min hstop htop⟩
    | .subtab ptr =>
      obtain ⟨hblock, hblock'⟩ := index_block hoffset hle hlt
      have hdvd : 256 ^ level ∣ offset + (index level ch).val * 256 ^ level :=
        ((pow_dvd_pow 256 (Nat.le_succ level)).trans hoffset).add (Nat.dvd_mul_left _ _)
      have hentry := @ih (offset + (index level ch).val * 256 ^ level) (ptr (index level ch)) (by omega) hdvd hblock hblock'
      rw [walk_subtab, ← hentry]
      constructor
      · rintro ⟨r, hr, hin, hval⟩
        obtain ⟨i, -, hr⟩ := List.mem_flatMap.mp hr
        obtain ⟨-, -, hlow, hhigh⟩ := bounds_of_mem_spans (by omega) hr
        rw [mul_eq_shiftLeft] at hlow hhigh hr
        have hi : i = index level ch := by
          have hlt' : i.val * 256 ^ level < ((index level ch).val + 1) * 256 ^ level := by rw [add_mul]; omega
          have hgt' : (index level ch).val * 256 ^ level < (i.val + 1) * 256 ^ level := by rw [add_mul]; omega
          have hlt := Nat.lt_of_mul_lt_mul_right hlt'
          have hgt := Nat.lt_of_mul_lt_mul_right hgt'
          exact Fin.ext (by omega)
        exact ⟨r, hi ▸ hr, hin, hval⟩
      · rintro ⟨r, hr, hin, hval⟩
        refine ⟨r, List.mem_flatMap.mpr ⟨index level ch, ?_, ?_⟩, hin, hval⟩
        · rw [mem_meeting (hle.trans hstop), mul_eq_shiftLeft]
          omega
        · rwa [mul_eq_shiftLeft]

def interval (r : MapRange) : Interval TableValue := ⟨r.start, r.stop + 1, r.val⟩

theorem contains_interval : (interval r).Contains ch ↔ r.start ≤ ch ∧ ch ≤ r.stop := by
  simp only [interval, Interval.Contains]
  omega

theorem map_groupFrom (range : MapRange) (l : List MapRange) :
    (groupFrom range l).map interval = Interval.joinFrom (interval range) (l.map interval) := by
  induction l generalizing range with
  | nil => rfl
  | cons r l ih =>
    have hjoin : (interval range).last = (interval r).first ∧ (interval range).val = (interval r).val ↔
        range.stop + 1 = r.start ∧ range.val = r.val :=
      and_congr (by simp only [interval]; omega) Iff.rfl
    rw [groupFrom, List.map_cons, Interval.joinFrom]
    by_cases h : range.stop + 1 = r.start ∧ range.val = r.val
    · rw [if_pos h, if_pos (hjoin.mpr h), ih]
      rfl
    · rw [if_neg h, if_neg (mt hjoin.mp h), List.map_cons, ih]

theorem canonical_grouped (hbefore : l.Pairwise fun r r' => r.stop < r'.start) (hle : ∀ r ∈ l, r.start ≤ r.stop) :
    Interval.Canonical ((grouped l).map interval) ∧
      ∀ (ch : ℕ) v, (∃ r ∈ grouped l, (r.start ≤ ch ∧ ch ≤ r.stop) ∧ r.val = v) ↔
        ∃ r ∈ l, (r.start ≤ ch ∧ ch ≤ r.stop) ∧ r.val = v := by
  cases l with
  | nil => exact ⟨.nil, fun _ _ => Iff.rfl⟩
  | cons r l =>
    have hne : ∀ e ∈ (r :: l).map interval, e.first < e.last := fun e he => by
      obtain ⟨x, hx, rfl⟩ := List.mem_map.mp he
      have hx' := hle x hx
      simp only [interval]
      omega
    have hordered : Interval.Ordered ((r :: l).map interval) := by
      refine ⟨fun e he => Int.le_of_lt (hne e he), List.pairwise_map.mpr (hbefore.imp fun {x y} hxy => ?_)⟩
      simp only [interval]
      omega
    refine ⟨map_groupFrom r l ▸ Interval.canonical_joinFrom hordered hne, fun ch v => ?_⟩
    have hcontains := @Interval.contains_joinFrom _ _ (ch : ℤ) v _ _ hordered
    rw [← map_groupFrom, ← List.map_cons] at hcontains
    simp only [List.mem_map, exists_exists_and_eq_and, contains_interval] at hcontains
    exact hcontains

theorem rounded_eq_some : rounded R r = some r' ↔ r'.val = r.val ∧ r'.start ≤ r'.stop ∧
    R.up r.start = some r'.start ∧ R.down r.stop = some r'.stop := by
  rw [rounded]
  obtain ⟨start', stop', val'⟩ := r'
  cases hup : R.up r.start with
  | none => simp
  | some start =>
    cases hdown : R.down r.stop with
    | none => simp
    | some stop =>
      simp only [Option.ite_none_right_eq_some, Option.some.injEq, MapRange.mk.injEq]
      constructor
      · rintro ⟨hle, rfl, rfl, rfl⟩
        exact ⟨rfl, hle, rfl, rfl⟩
      · rintro ⟨rfl, hle, rfl, rfl⟩
        exact ⟨hle, rfl, rfl, rfl⟩

theorem mem_rounded (h : rounded R r = some r') (hch : B.validIcharP ch) :
    r'.start ≤ ch ∧ ch ≤ r'.stop ↔ r.start ≤ ch ∧ ch ≤ r.stop := by
  obtain ⟨-, -, hup, hdown⟩ := rounded_eq_some.mp h
  obtain ⟨-, hstart, hleast⟩ := R.up_some hup
  obtain ⟨-, hstop, hgreatest⟩ := R.down_some hdown
  exact ⟨fun hin => ⟨hstart.trans hin.1, hin.2.trans hstop⟩, fun hin => ⟨hleast ch hin.1 hch, hgreatest ch hin.2 hch⟩⟩

theorem exists_rounded (R : CharRounding B) (hch : B.validIcharP ch) (hin : r.start ≤ ch ∧ ch ≤ r.stop) :
    ∃ r', rounded R r = some r' := by
  cases hup : R.up r.start with
  | none => exact absurd hch (R.up_none hup ch hin.1)
  | some start =>
    cases hdown : R.down r.stop with
    | none => exact absurd hch (R.down_none hdown ch hin.2)
    | some stop =>
      have hle := ((R.up_some hup).2.2 ch hin.1 hch).trans ((R.down_some hdown).2.2 ch hin.2 hch)
      exact ⟨⟨start, stop, r.val⟩, rounded_eq_some.mpr ⟨rfl, hle, hup, hdown⟩⟩

/-! ### Exactness -/

/-- The ranges are increasing and disjoint and end in valid characters, and are the largest ranges
of one value asked for. -/
structure Exact (B : CharBuild) (t : CharTable) (range : ChartabRange) (ranges : List MapRange) : Prop where
  increasing : ranges.Pairwise fun r r' => r.stop < r'.start
  valid : ∀ r ∈ ranges, r.start ≤ r.stop ∧ B.validIcharP r.start ∧ B.validIcharP r.stop
  covers : ∀ (ch : ℕ) v, B.validIcharP ch →
    ((∃ r ∈ ranges, (r.start ≤ ch ∧ ch ≤ r.stop) ∧ r.val = v) ↔ Covers range ch ∧ getCharTableRaw ch t = some v)
  maximal : ∀ r ∈ ranges, ∀ ch : ℕ, B.validIcharP ch → Covers range ch → ch + 1 = r.start ∨ r.stop + 1 = ch →
    getCharTableRaw ch t ≠ some r.val

theorem charLevels_le_of_le_spanTop (hpos : 1 ≤ level) (h4 : level ≤ 4) (h : ch ≤ B.spanTop level) : charLevels ch ≤ level := by
  by_contra hlt
  have hle := pow_le_of_lt_charLevels hpos (not_le.mp hlt)
  have hspan := @spanTop_lt B level h4
  omega

theorem lt_limit (hch : B.validIcharP ch) : ch < B.limit := by exact_mod_cast (B.bound ch hch).2

theorem le_spanTop_of_bound {t : CharTable} (ht : Leveled t) (hch : ch < B.limit) (hv : getCharTableRaw ch t = some v) :
    ch ≤ B.spanTop t.levels := by
  have hlevels : ¬ t.levels < charLevels ch := fun hlt => by
    rw [getCharTableRaw, if_pos hlt] at hv
    exact Option.some_ne_none v hv.symm
  have hpow := lt_pow_of_charLevels_le hch (not_lt.mp hlevels) ht.2
  have htop := @le_spanTop B ch t.levels 0 hch (by rwa [zero_add])
  rwa [zero_add] at htop

theorem exact_tableCalls {t : CharTable} {range : ChartabRange} (ht : Leveled t) (hle : start ≤ stop)
    (hstop : stop ≤ B.spanTop t.levels)
    (hcovers : ∀ (ch : ℕ) v, B.validIcharP ch → getCharTableRaw ch t = some v → (Covers range ch ↔ start ≤ ch ∧ ch ≤ stop)) :
    Exact B t range (tableCalls R t.table t.levels start stop) := by
  have hspans : ∀ r ∈ spans B start stop t.levels t.table 0, r.start ≤ r.stop := fun r hr =>
    start_le_stop_of_mem_spans ht.2 hle (by omega) (Nat.zero_le _) hr
  obtain ⟨hcanonical, hgrouped⟩ := canonical_grouped (pairwise_spans ht.2 t.table 0) hspans
  -- a character that is asked for is in a group just if it has a value
  have hvalue {ch : ℕ} {v : TableValue} (hch : ch < B.limit) (hin : start ≤ ch ∧ ch ≤ stop) :
      (∃ r ∈ grouped (spans B start stop t.levels t.table 0), (r.start ≤ ch ∧ ch ≤ r.stop) ∧ r.val = v) ↔
        getCharTableRaw ch t = some v := by
    have hlevels := charLevels_le_of_le_spanTop (B := B) ht.1 ht.2 (hin.2.trans hstop)
    have hpow := lt_pow_of_charLevels_le hch hlevels ht.2
    rw [hgrouped, getCharTableRaw, if_neg (not_lt.mpr hlevels),
      mem_spans_iff ht.2 hch (dvd_zero _) (Nat.zero_le _) (by rwa [zero_add]) hin.1 hin.2]
  have hinside {g : MapRange} (hg : g ∈ grouped (spans B start stop t.levels t.table 0)) {ch : ℕ} (hin : g.start ≤ ch ∧ ch ≤ g.stop) :
      start ≤ ch ∧ ch ≤ stop := by
    obtain ⟨r, hr, hr', -⟩ := (hgrouped ch g.val).mp ⟨g, hg, hin, rfl⟩
    obtain ⟨hlow, hhigh, -, -⟩ := bounds_of_mem_spans ht.2 hr
    exact ⟨hlow.trans hr'.1, hr'.2.trans hhigh⟩
  constructor
  · refine List.pairwise_filterMap.mpr ((List.pairwise_map.mp hcanonical.before).imp fun {g g'} hgg' r hr r' hr' => ?_)
    obtain ⟨-, -, -, hdown⟩ := rounded_eq_some.mp hr
    obtain ⟨-, -, hup, -⟩ := rounded_eq_some.mp hr'
    have hstop' := (R.down_some hdown).2.1
    have hstart' := (R.up_some hup).2.1
    simp only [interval] at hgg'
    omega
  · intro r hr
    obtain ⟨g, -, hg⟩ := List.mem_filterMap.mp hr
    obtain ⟨-, hle', hup, hdown⟩ := rounded_eq_some.mp hg
    exact ⟨hle', (R.up_some hup).1, (R.down_some hdown).1⟩
  · intro ch v hch
    constructor
    · rintro ⟨r, hr, hin, rfl⟩
      obtain ⟨g, hg, hrounded⟩ := List.mem_filterMap.mp hr
      have hin' := (mem_rounded hrounded hch).mp hin
      have hstartstop := hinside hg hin'
      have hraw := (hvalue (lt_limit hch) hstartstop).mp ⟨g, hg, hin', rfl⟩
      rw [(rounded_eq_some.mp hrounded).1]
      exact ⟨(hcovers ch g.val hch hraw).mpr hstartstop, hraw⟩
    · rintro ⟨hcover, hraw⟩
      obtain ⟨g, hg, hin, rfl⟩ := (hvalue (lt_limit hch) ((hcovers ch v hch hraw).mp hcover)).mpr hraw
      obtain ⟨r, hrounded⟩ := exists_rounded R hch hin
      exact ⟨r, List.mem_filterMap.mpr ⟨g, hg, hrounded⟩, (mem_rounded hrounded hch).mpr hin, (rounded_eq_some.mp hrounded).1⟩
  · intro r hr ch hch hcover hnext hraw
    obtain ⟨g, hg, hrounded⟩ := List.mem_filterMap.mp hr
    obtain ⟨hval, hle', hup, hdown⟩ := rounded_eq_some.mp hrounded
    obtain ⟨g', hg', hin, hval'⟩ := (hvalue (lt_limit hch) ((hcovers ch r.val hch hraw).mp hcover)).mpr hraw
    have hcontains : Interval.value ((grouped (spans B start stop t.levels t.table 0)).map interval) ch = some (interval g).val :=
      hcanonical.value_eq_some.mpr ⟨interval g', List.mem_map_of_mem hg', contains_interval.mpr hin, hval'.trans hval⟩
    have hout : ¬ (g.start ≤ ch ∧ ch ≤ g.stop) := fun hin' => by
      have hin'' := (mem_rounded hrounded hch).mpr hin'
      omega
    have hstart' := (R.up_some hup).2.1
    have hstop' := (R.down_some hdown).2.1
    rcases hnext with hnext | hnext
    · have hbefore : ((ch : ℕ) : ℤ) = (interval g).first - 1 := by
        simp only [interval]
        omega
      exact hcanonical.value_before (List.mem_map_of_mem hg) (hbefore ▸ hcontains)
    · have hafter : ((ch : ℕ) : ℤ) = (interval g).last := by
        simp only [interval]
        omega
      exact hcanonical.value_last (List.mem_map_of_mem hg) (hafter ▸ hcontains)

theorem bounds_groupFrom (h : ∀ x ∈ r :: l, start ≤ x.start ∧ x.stop ≤ stop) :
    ∀ g ∈ groupFrom r l, start ≤ g.start ∧ g.stop ≤ stop := by
  induction l generalizing r with
  | nil => exact h
  | cons x l ih =>
    obtain ⟨hr, hl⟩ := List.forall_mem_cons.mp h
    obtain ⟨hx, hl'⟩ := List.forall_mem_cons.mp hl
    rw [groupFrom]
    split_ifs
    · exact ih (List.forall_mem_cons.mpr ⟨⟨hr.1, hx.2⟩, hl'⟩)
    · exact List.forall_mem_cons.mpr ⟨hr, ih hl⟩

theorem tableCalls_of_lt (h4 : level ≤ 4) (hlt : stop < start) : tableCalls R table level start stop = [] := by
  have hspans : ∀ x ∈ spans B start stop level table 0, start ≤ x.start ∧ x.stop ≤ stop := fun x hx =>
    ⟨(bounds_of_mem_spans h4 hx).1, (bounds_of_mem_spans h4 hx).2.1⟩
  have hgrouped : ∀ g ∈ grouped (spans B start stop level table 0), start ≤ g.start ∧ g.stop ≤ stop := by
    cases hl : spans B start stop level table 0 with
    | nil => exact fun g hg => absurd hg List.not_mem_nil
    | cons r l => exact bounds_groupFrom (hl ▸ hspans)
  refine List.filterMap_eq_nil_iff.mpr fun g hg => Option.eq_none_iff_forall_ne_some.mpr fun r hr => ?_
  obtain ⟨-, hle, hup, hdown⟩ := rounded_eq_some.mp hr
  have hstart := (R.up_some hup).2.1
  have hstop := (R.down_some hdown).2.1
  have hg' := hgrouped g hg
  omega

variable {t : CharTable} {range : ChartabRange} {chtop : ℕ}

theorem exact_nil (h : ∀ (ch : ℕ) v, B.validIcharP ch → getCharTableRaw ch t = some v → ¬ Covers range ch) :
    Exact B t range [] where
  increasing := .nil
  valid _ hr := absurd hr List.not_mem_nil
  covers ch v hch := iff_of_false (fun ⟨_, hr, _⟩ => List.not_mem_nil hr) fun hcover => h ch v hch hcover.2 hcover.1
  maximal _ hr := absurd hr List.not_mem_nil

theorem exact_calls_char (R : CharRounding B) (t : CharTable) (ch : ℕ) : Exact B t (.char ch) (calls R t (.char ch)) := by
  rw [calls]
  cases hraw : getCharTableRaw ch t with
  | none =>
    refine exact_nil fun c v _ hv hc => ?_
    rw [show c = ch from hc, hraw] at hv
    exact Option.some_ne_none v hv.symm
  | some v =>
    rw [Option.bind_some]
    cases hrounded : rounded R ⟨ch, ch, v⟩ with
    | none =>
      refine exact_nil fun c w hc _ heq => ?_
      obtain rfl : c = ch := heq
      obtain ⟨r, hr⟩ := exists_rounded R hc (r := ⟨c, c, v⟩) ⟨le_refl c, le_refl c⟩
      rw [hrounded] at hr
      exact Option.some_ne_none r hr.symm
    | some r =>
      obtain ⟨hval, hle, hup, hdown⟩ := rounded_eq_some.mp hrounded
      obtain ⟨hvalid, hstart, -⟩ := R.up_some hup
      obtain ⟨hvalid', hstop, -⟩ := R.down_some hdown
      simp only at hval hstart hstop
      have hstart' : r.start = ch := by omega
      have hstop' : r.stop = ch := by omega
      rw [Option.toList_some]
      refine ⟨List.pairwise_singleton _ _, fun x hx => ?_, fun c w hc => ?_, fun x hx c hc hcover hnext => ?_⟩
      · obtain rfl := List.mem_singleton.mp hx
        exact ⟨hle, hvalid, hvalid'⟩
      · simp only [List.mem_singleton, exists_eq_left, hstart', hstop', hval, Covers]
        constructor
        · rintro ⟨hin, rfl⟩
          obtain rfl : c = ch := by omega
          exact ⟨rfl, hraw⟩
        · rintro ⟨rfl, hw⟩
          exact ⟨⟨le_refl c, le_refl c⟩, Option.some.inj (hraw.symm.trans hw)⟩
      · obtain rfl := List.mem_singleton.mp hx
        obtain rfl : c = ch := hcover
        omega

/-- A range that begins after the last character of the tree and does not end before it, where that
character has a value. -/
def BeginsPastEnd (B : CharBuild) (t : CharTable) : ChartabRange → Prop
  | .range ch chtop => B.spanTop t.levels < ch ∧ B.spanTop t.levels ≤ chtop ∧ B.validIcharP (B.spanTop t.levels) ∧
      (getCharTableRaw (B.spanTop t.levels) t).isSome
  | _ => False

theorem exact_calls_range_of_le (ht : Leveled t) (hle : ch ≤ B.spanTop t.levels) :
    Exact B t (.range ch chtop) (calls R t (.range ch chtop)) := by
  rw [calls, min_eq_left hle]
  by_cases hlt : chtop < ch
  · rw [tableCalls_of_lt ht.2 (min_lt_of_left_lt hlt)]
    exact exact_nil fun c v _ _ hcover => absurd (hcover.1.trans hcover.2) (not_le.mpr hlt)
  · refine exact_tableCalls ht (le_min (not_lt.mp hlt) hle) (min_le_right _ _) fun c v hc hv => ?_
    have hend := le_spanTop_of_bound ht (lt_limit hc) hv
    rw [le_min_iff, and_iff_left hend]
    rfl

theorem exact_calls_range_of_lt (ht : Leveled t) (hlt : B.spanTop t.levels < ch) :
    Exact B t (.range ch chtop) (calls R t (.range ch chtop)) ↔ ¬ BeginsPastEnd B t (.range ch chtop) := by
  have hnone : Exact B t (.range ch chtop) [] := exact_nil fun c v hc hv hcover => by
    have hend := le_spanTop_of_bound ht (lt_limit hc) hv
    exact absurd (hcover.1.trans hend) (not_le.mpr hlt)
  rw [calls, min_eq_right hlt.le]
  by_cases hend : chtop < B.spanTop t.levels
  · rw [tableCalls_of_lt ht.2 (min_lt_of_left_lt hend)]
    exact iff_of_true hnone fun hpast => absurd hpast.2.1 (not_le.mpr hend)
  · rw [min_eq_right (not_lt.mp hend)]
    have hlast : Exact B t (.range (B.spanTop t.levels) (B.spanTop t.levels))
        (tableCalls R t.table t.levels (B.spanTop t.levels) (B.spanTop t.levels)) :=
      exact_tableCalls ht (le_refl _) (le_refl _) fun c v _ _ => Iff.rfl
    constructor
    · rintro hexact ⟨-, -, hvalid, hsome⟩
      obtain ⟨v, hv⟩ := Option.isSome_iff_exists.mp hsome
      have hin := (hlast.covers _ v hvalid).mpr ⟨⟨le_refl _, le_refl _⟩, hv⟩
      exact absurd ((hexact.covers _ v hvalid).mp hin).1.1 (not_le.mpr hlt)
    · intro hnot
      have hempty : tableCalls R t.table t.levels (B.spanTop t.levels) (B.spanTop t.levels) = [] := by
        refine List.eq_nil_iff_forall_not_mem.mpr fun r hr => hnot ?_
        obtain ⟨hle, hvalid, -⟩ := hlast.valid r hr
        obtain ⟨hcover, hraw⟩ := (hlast.covers _ r.val hvalid).mp ⟨r, hr, ⟨le_refl _, hle⟩, rfl⟩
        have heq : r.start = B.spanTop t.levels := le_antisymm hcover.2 hcover.1
        rw [heq] at hvalid hraw
        exact ⟨hlt, not_lt.mp hend, hvalid, Option.isSome_iff_exists.mpr ⟨_, hraw⟩⟩
      rw [hempty]
      exact hnone

theorem exact_calls_iff (ht : Leveled t) : Exact B t range (calls R t range) ↔ ¬ BeginsPastEnd B t range := by
  cases range with
  | all =>
    refine iff_of_true (exact_tableCalls ht (Nat.zero_le _) (le_refl _) fun c v hc hv => ?_) id
    exact iff_of_true trivial ⟨Nat.zero_le _, le_spanTop_of_bound ht (lt_limit hc) hv⟩
  | char ch => exact iff_of_true (exact_calls_char R t ch) id
  | range ch chtop =>
    by_cases hlt : B.spanTop t.levels < ch
    · exact exact_calls_range_of_lt ht hlt
    · exact iff_of_true (exact_calls_range_of_le ht (not_lt.mp hlt)) fun hpast => hlt hpast.1

theorem validIcharP_unicodeInternal (c : ℕ) :
    unicodeInternal.validIcharP c = true ↔ c < 0x40000000 ∧ ¬ (0xd800 ≤ c ∧ c ≤ 0xdfff) := by
  rw [unicodeInternal, decide_eq_true_eq]
  omega

/-- `round_up_to_valid_ichar` where characters are Unicode code points. -/
def roundUpToValidIchar (charpos : ℕ) : Option ℕ :=
  if unicodeInternal.validIcharP charpos then some charpos
  else if 0xd800 ≤ charpos ∧ charpos ≤ 0xdfff then some 0xe000
  else none

/-- `round_down_to_valid_ichar` where characters are Unicode code points. -/
def roundDownToValidIchar (charpos : ℕ) : Option ℕ :=
  if unicodeInternal.validIcharP charpos then some charpos
  else if charpos ≥ 0x40000000 then some 0x3fffffff
  else some 0xd7ff

def unicodeRounding : CharRounding unicodeInternal where
  up := roundUpToValidIchar
  down := roundDownToValidIchar
  up_some {ch c} h := by
    rw [roundUpToValidIchar] at h
    simp only [validIcharP_unicodeInternal] at h ⊢
    split_ifs at h with hvalid hsurrogate
    · obtain rfl := Option.some.inj h
      exact ⟨hvalid, le_refl _, fun d hd _ => hd⟩
    · obtain rfl := Option.some.inj h
      exact ⟨by omega, by omega, fun d _ _ => by omega⟩
  up_none {ch} h d hd := by
    rw [roundUpToValidIchar] at h
    rw [validIcharP_unicodeInternal]
    simp only [validIcharP_unicodeInternal] at h
    split_ifs at h with hvalid hsurrogate
    omega
  down_some {ch c} h := by
    rw [roundDownToValidIchar] at h
    simp only [validIcharP_unicodeInternal] at h ⊢
    split_ifs at h with hvalid hlarge
    · obtain rfl := Option.some.inj h
      exact ⟨hvalid, le_refl _, fun d hd _ => hd⟩
    · obtain rfl := Option.some.inj h
      exact ⟨by omega, by omega, fun d _ _ => by omega⟩
    · obtain rfl := Option.some.inj h
      exact ⟨by omega, by omega, fun d _ _ => by omega⟩
  down_none {ch} h := by
    rw [roundDownToValidIchar] at h
    split_ifs at h

def byteTable : CharTable := unicodeInternal.putCharTable (makeCharTable .generic) 0 255 (some (.other 1))

theorem leveled_byteTable : Leveled byteTable := leveled_putCharTable ⟨le_refl 1, Nat.le_of_ble_eq_true rfl⟩

end XEmacs.Table.CharBuild
