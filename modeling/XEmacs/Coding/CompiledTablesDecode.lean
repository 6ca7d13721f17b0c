import Mathlib.Data.List.Basic
import Mathlib.Tactic.Ring
import XEmacs.Coding.CompiledTables

/-! What is read from a compiled mapping table is the table, if the integers are those of C and no run
of differences is too long. The first value of a column counts as a difference there. -/

namespace XEmacs.Coding

open Lib
open Table.RangeTable (FixnumP)

theorem toCInt_eq {n : ℤ} (h : IsCInt n) : toCInt n = n := by
  obtain ⟨hlow, hhigh⟩ := h
  exact Int.bmod_eq_of_le (by omega) (by omega)

theorem cInt_eq {n : ℤ} (h : IsCInt n) : cInt n = some n := if_pos h

theorem fixnumP_of_isCInt {n : ℤ} (h : IsCInt n) : FixnumP n := by
  obtain ⟨hlow, hhigh⟩ := h
  exact ⟨by omega, by omega⟩

theorem eq_of_eqElement (x y : Element) (h : eqElement x y = true) : x = y := by
  cases x <;> cases y <;> simp_all [eqElement]

/-! ### A column that is read -/

namespace CompiledTableDecode

def ToCome (col : CompiledTableDecode) (ds : List ℤ) : Prop :=
  match col.type with
  | .deltaEncoded => col.valuesLeft = 0 ∧ col.vector.drop col.idx = ds.map some
  | .rangeLengthEncoded => ∃ (n : ℕ) (rs : List (Element × ℕ)), col.valuesLeft = n ∧
      col.vector.drop col.idx = runElements rs ∧ (∀ r ∈ rs, 0 < r.2 ∧ r.2 ≤ 65536) ∧
      ds.map some = List.replicate n (some col.deltaValue) ++ expand rs

structure Yields (col : CompiledTableDecode) (vs : List ℤ) : Prop where
  length : col.length = col.vector.length
  values : ∀ v ∈ vs, IsCInt v
  steps : ∀ d ∈ differences col.previousValue vs, IsCInt d
  toCome : col.ToCome (differences col.previousValue vs)

variable {col : CompiledTableDecode} {vs : List ℤ} {v : ℤ} {vector l : List Element} {x : Element} {idx : ℕ}

theorem getElem?_of_drop (h : vector.drop idx = x :: l) :
    vector[idx]? = some x ∧ vector.drop (idx + 1) = l ∧ idx < vector.length := by
  have hget : vector[idx]? = some x := by rw [← List.head?_drop, h, List.head?_cons]
  refine ⟨hget, ?_, (List.getElem?_eq_some_iff.mp hget).1⟩
  rw [← List.drop_drop, h, List.drop_one, List.tail_cons]

theorem fixnumAt_of_drop {n : ℤ} (h : vector.drop idx = some n :: l) (hn : IsCInt n) : fixnumAt vector idx = some n := by
  rw [fixnumAt, (getElem?_of_drop h).1, Option.join_some, Option.filter_some, if_pos]
  exact decide_eq_true (fixnumP_of_isCInt hn)

theorem Yields.hasNext_iff (h : col.Yields vs) : col.hasNext = true ↔ vs ≠ [] := by
  obtain ⟨vector, type, length, idx, deltaValue, previousValue, valuesLeft⟩ := col
  obtain ⟨hcol, -, -, htoCome⟩ := h
  simp only at hcol htoCome
  subst hcol
  rw [hasNext, decide_eq_true_eq, ← List.length_pos_iff, ← length_differences previousValue vs]
  simp only [Nat.cast_lt]
  cases type with
  | deltaEncoded =>
    obtain ⟨hleft, hdrop⟩ := htoCome
    have hlength := congrArg List.length hdrop
    rw [List.length_drop, List.length_map] at hlength
    simp only at hleft hlength
    omega
  | rangeLengthEncoded =>
    obtain ⟨n, rs, hleft, hdrop, hrs, hds⟩ := htoCome
    have hlength := congrArg List.length hdrop
    have hlength' := congrArg List.length hds
    rw [List.length_append, List.length_map, List.length_replicate] at hlength'
    rw [List.length_drop] at hlength
    simp only at hleft hlength hlength'
    cases rs with
    | nil =>
      simp only [runElements, expand, List.flatMap_nil, List.length_nil] at hlength hlength'
      omega
    | cons r rs =>
      have hr := hrs r List.mem_cons_self
      simp only [runElements, expand, List.flatMap_cons, List.length_append, List.length_cons,
        List.length_replicate] at hlength hlength'
      omega

/-! The three ways to the next value. -/

theorem next_of_left (hleft : col.valuesLeft ≠ 0) (hval : IsCInt (col.previousValue + col.deltaValue)) :
    col.next = some (col.previousValue + col.deltaValue,
      { col with previousValue := col.previousValue + col.deltaValue, valuesLeft := col.valuesLeft - 1 }) := by
  rw [next, if_neg fun h => hleft h.1, if_pos hleft, cInt_eq hval, Option.map_some]

theorem next_of_delta {d : ℤ} (htype : col.type = .deltaEncoded) (hleft : col.valuesLeft = 0) (hidx : col.idx < col.length)
    (hat : fixnumAt col.vector col.idx = some d) (hval : IsCInt (col.previousValue + d)) :
    col.next = some (col.previousValue + d, { col with previousValue := col.previousValue + d, idx := col.idx + 1 }) := by
  have hnot : ¬ (col.valuesLeft = 0 ∧ col.idx ≥ col.length - (if col.type = .rangeLengthEncoded then 1 else 0)) := by
    rw [htype, if_neg CompiledTableType.noConfusion]
    omega
  rw [next, if_neg hnot, if_neg (not_not.mpr hleft), hat, Option.bind_some]
  simp only [htype, toCInt_eq hval]

theorem next_of_run {d : ℤ} {count : ℕ} (htype : col.type = .rangeLengthEncoded) (hleft : col.valuesLeft = 0)
    (hidx : col.idx + 1 < col.length) (hat : fixnumAt col.vector col.idx = some d) (hd : IsCInt d)
    (hat' : fixnumAt col.vector (col.idx + 1) = some ((count + 1 : ℕ) : ℤ)) (hcount : count < 65536)
    (hval : IsCInt (col.previousValue + d)) :
    col.next = some (col.previousValue + d,
      { col with previousValue := col.previousValue + d, deltaValue := d, valuesLeft := count, idx := col.idx + 2 }) := by
  have hnot : ¬ (col.valuesLeft = 0 ∧ col.idx ≥ col.length - (if col.type = .rangeLengthEncoded then 1 else 0)) := by
    rw [if_pos htype]
    omega
  have hcount' : toCInt (((count + 1 : ℕ) : ℤ) - 1) = count := by
    rw [toCInt_eq ⟨by omega, by omega⟩]
    omega
  rw [next, if_neg hnot, if_neg (not_not.mpr hleft), hat, Option.bind_some]
  simp only [htype, hat', Option.bind_some, hcount', toCInt_eq hd, cInt_eq hval, Option.map_some]
  rw [if_neg (by omega)]

theorem Yields.next (h : col.Yields (v :: vs)) : ∃ col', col.next = some (v, col') ∧ col'.Yields vs := by
  obtain ⟨vector, type, length, idx, deltaValue, previousValue, valuesLeft⟩ := col
  obtain ⟨hcol, hvalues, hsteps, htoCome⟩ := h
  simp only at hcol hsteps htoCome
  subst hcol
  rw [List.forall_mem_cons] at hvalues
  rw [differences_cons, List.forall_mem_cons] at hsteps
  rw [differences_cons] at htoCome
  have hsum : previousValue + (v - previousValue) = v := by ring
  have hval : IsCInt (previousValue + (v - previousValue)) := hsum.symm ▸ hvalues.1
  cases type with
  | deltaEncoded =>
    obtain ⟨hleft, hdrop⟩ := htoCome
    obtain ⟨-, hrest, hlt⟩ := getElem?_of_drop hdrop
    have hnext := @next_of_delta ⟨vector, .deltaEncoded, vector.length, idx, deltaValue, previousValue, valuesLeft⟩ _
      rfl hleft (Int.ofNat_lt.mpr hlt) (fixnumAt_of_drop hdrop hsteps.1) hval
    simp only [hsum] at hnext
    exact ⟨_, hnext, rfl, hvalues.2, hsteps.2, hleft, hrest⟩
  | rangeLengthEncoded =>
    obtain ⟨n, rs, hleft, hdrop, hrs, hds⟩ := htoCome
    simp only at hleft hdrop hds
    rw [List.map_cons] at hds
    cases n with
    | succ n =>
      rw [List.replicate_succ, List.cons_append, List.cons.injEq, Option.some.injEq] at hds
      obtain ⟨rfl, hds⟩ := hds
      have hnext := @next_of_left ⟨vector, .rangeLengthEncoded, vector.length, idx, v - previousValue, previousValue, valuesLeft⟩
        (by simp only; omega) hval
      simp only [hsum] at hnext
      exact ⟨_, hnext, rfl, hvalues.2, hsteps.2, n, rs, by simp only; omega, hdrop, hrs, hds⟩
    | zero =>
      cases rs with
      | nil => exact absurd hds (List.cons_ne_nil _ _)
      | cons r rs =>
        obtain ⟨d, count⟩ := r
        rw [List.forall_mem_cons] at hrs
        obtain ⟨count, rfl⟩ := Nat.exists_eq_add_one_of_ne_zero (Nat.ne_of_gt hrs.1.1)
        simp only [List.replicate_zero, List.nil_append, expand_cons, List.replicate_succ, List.cons_append,
          List.cons.injEq] at hds
        obtain ⟨rfl, hds⟩ := hds
        have hcount : count + 1 ≤ 65536 := hrs.1.2
        have hdrop' : vector.drop idx = some (v - previousValue) :: some ((count + 1 : ℕ) : ℤ) :: runElements rs := hdrop
        obtain ⟨-, hrest, -⟩ := getElem?_of_drop hdrop'
        obtain ⟨-, hrest', hlt⟩ := getElem?_of_drop hrest
        have hnext := @next_of_run ⟨vector, .rangeLengthEncoded, vector.length, idx, deltaValue, previousValue, valuesLeft⟩ _ count
          rfl hleft (by simp only; omega) (fixnumAt_of_drop hdrop' hsteps.1) hsteps.1
          (fixnumAt_of_drop hrest ⟨by omega, by omega⟩) hcount hval
        simp only [hsum] at hnext
        exact ⟨_, hnext, rfl, hvalues.2, hsteps.2, count, rs, rfl, hrest', hrs.2, hds⟩

end CompiledTableDecode

/-! ### A column that is compiled -/

/-- No number of times a run may be longer than. -/
def maxRun : ℕ := 65536

/-- The values of a column and their differences are integers of C, and no run of differences is too
long; the first difference is the first value. -/
structure ColumnFits (vs : List ℤ) : Prop where
  values : ∀ v ∈ vs, IsCInt v
  steps : ∀ d ∈ differences 0 vs, IsCInt d
  runs : ∀ d, ¬ List.replicate (maxRun + 1) d <:+: differences 0 vs

variable {vs : List ℤ}

theorem deltaOptimizeDumpedTable_eq (hne : vs ≠ []) :
    deltaOptimizeDumpedTable vs = some 0 :: (differences 0 vs).map some := by
  cases vs with
  | nil => exact absurd rfl hne
  | cons v vs =>
    rw [deltaOptimizeDumpedTable, differences_cons, sub_zero]
    rfl

theorem ColumnFits.runs_le (h : ColumnFits vs) {r : Element × ℕ} (hr : r ∈ Lib.runs eqElement ((differences 0 vs).map some)) :
    0 < r.2 ∧ r.2 ≤ maxRun := by
  have hpos := pos_of_mem_runs hr
  refine ⟨hpos, not_lt.mp fun hlt => ?_⟩
  obtain ⟨run, hrun, heq⟩ := List.infix_map_iff.mp (replicate_infix_of_mem_runs eq_of_eqElement hr)
  have hlength : run.length = r.2 := by rw [← List.length_map some, ← heq, List.length_replicate]
  cases run with
  | nil => exact absurd hlength (Nat.ne_of_lt hpos)
  | cons d run =>
    have hall := (List.eq_replicate_iff.mp heq.symm).2
    have hd : d :: run = List.replicate r.2 d := List.eq_replicate_iff.mpr ⟨hlength, fun x hx =>
      Option.some.inj ((hall _ (List.mem_map_of_mem hx)).trans (hall _ (List.mem_map_of_mem List.mem_cons_self)).symm)⟩
    refine h.runs d (List.IsInfix.trans ?_ hrun)
    rw [hd, List.infix_replicate_iff, List.length_replicate]
    exact ⟨hlt, rfl⟩

namespace CompiledTableDecode

theorem initCol_eq {vector : List Element} {id : ℤ} {rest : List Element} (hvector : vector = some id :: rest)
    (hlength : toCInt vector.length ≠ 0) (hid : id = 0 ∨ id = 1) : initCol vector =
      some ⟨vector, if id = 0 then .deltaEncoded else .rangeLengthEncoded, toCInt vector.length, 0, 0, 0, 0⟩ := by
  have hint : IsCInt id := by
    rcases hid with rfl | rfl <;> exact ⟨by decide, by decide⟩
  have hat : fixnumAt vector 0 = some id := fixnumAt_of_drop (by rw [List.drop_zero, hvector]) hint
  rw [initCol, hat, if_neg hlength, Option.bind_some, toCInt_eq hint]
  rcases hid with rfl | rfl <;> rfl

theorem initCol_optimizeColumn (h : ColumnFits vs) (hne : vs ≠ []) (hlength : vs.length + 1 < 2 ^ 31) :
    ∃ col, initCol (optimizeColumn vs) = some col ∧ col.reset.Yields vs := by
  have hdelta := deltaOptimizeDumpedTable_eq hne
  have hdeltaLength : (deltaOptimizeDumpedTable vs).length = vs.length + 1 := by
    rw [hdelta, List.length_cons, List.length_map, length_differences]
  have hint (vector : List Element) (hpos : 0 < vector.length) (hle : vector.length ≤ (deltaOptimizeDumpedTable vs).length) :
      toCInt vector.length = vector.length ∧ toCInt vector.length ≠ 0 := by
    have heq : toCInt (vector.length : ℤ) = vector.length := toCInt_eq ⟨by omega, by omega⟩
    exact ⟨heq, by omega⟩
  rw [optimizeColumn]
  split_ifs with hshorter
  · obtain ⟨hlength', hne'⟩ := hint (rangeLengthOptimizeDumpedTable (deltaOptimizeDumpedTable vs)) (Nat.succ_pos _)
      (Nat.le_of_lt hshorter)
    refine ⟨_, initCol_eq rfl hne' (.inr rfl), by simp only [reset]; exact hlength', h.values, h.steps, 0,
      Lib.runs eqElement (deltaOptimizeDumpedTable vs).tail, rfl, rfl, fun r hr => ?_, ?_⟩
    · rw [hdelta] at hr
      exact h.runs_le hr
    · rw [expand_runs eq_of_eqElement, hdelta]
      rfl
  · obtain ⟨hlength', hne'⟩ := hint (deltaOptimizeDumpedTable vs) (by omega) (le_refl _)
    refine ⟨_, initCol_eq hdelta hne' (.inl rfl), by simp only [reset]; exact hlength', h.values, h.steps, rfl, ?_⟩
    rw [hdelta]
    rfl

end CompiledTableDecode

namespace CompiledTable

structure Yields (t : CompiledTable) (es : List MappingEntry) : Prop where
  col1 : t.col1.Yields (es.map (·.cp1from))
  col2 : t.col2.Yields (es.map (·.cp1to))
  col3 : t.col3.Yields (es.map (·.cp2))

variable {t : CompiledTable} {es : List MappingEntry} {e : MappingEntry} {fuel : ℕ}

theorem Yields.next (h : t.Yields (e :: es)) : ∃ t', t.next = some (e, t') ∧ t'.Yields es := by
  obtain ⟨c1, hc1, hy1⟩ := h.col1.next
  obtain ⟨c2, hc2, hy2⟩ := h.col2.next
  obtain ⟨c3, hc3, hy3⟩ := h.col3.next
  refine ⟨⟨c1, c2, c3⟩, ?_, hy1, hy2, hy3⟩
  rw [CompiledTable.next, hc1, hc2, hc3]
  rfl

theorem Yields.entries (h : t.Yields es) (hfuel : es.length < fuel) : ∃ t', entries fuel t = (es, t') ∧ t'.Yields [] := by
  induction es generalizing t fuel with
  | nil =>
    obtain ⟨fuel, rfl⟩ := Nat.exists_eq_add_of_lt hfuel
    have hlast : ¬ t.col1.hasNext = true := fun hnext => h.col1.hasNext_iff.mp hnext rfl
    exact ⟨t, by rw [CompiledTable.entries, if_neg hlast], h⟩
  | cons e es ih =>
    obtain ⟨fuel, rfl⟩ := Nat.exists_eq_add_one_of_ne_zero (Nat.ne_zero_of_lt hfuel)
    obtain ⟨t', hnext, ht'⟩ := h.next
    obtain ⟨last, hentries, hlast⟩ := ih ht' (Nat.lt_of_succ_lt_succ hfuel)
    refine ⟨last, ?_, hlast⟩
    rw [CompiledTable.entries, if_pos (h.col1.hasNext_iff.mpr (List.cons_ne_nil _ _)), hnext]
    simp only [hentries]

/-- The lines are taken from the columns, and then there are no more. -/
def DecodesTo (tableArray : List (List Element)) (es : List MappingEntry) : Prop :=
  ∃ t, decodeInit tableArray = some t ∧ ∃ fuel t', CompiledTable.entries fuel t.reset = (es, t') ∧
    t'.col1.hasNext = false ∧ t'.col2.hasNext = false ∧ t'.col3.hasNext = false

def column (value : MappingEntry → ℤ) (table : List MappingEntry) : List ℤ := table.reverse.map value

theorem optimizeDumpedTable_eq (table : List MappingEntry) : optimizeDumpedTable table =
    if optimizeColumn (column (·.cp1from) table) = optimizeColumn (column (·.cp1to) table) then
      [optimizeColumn (column (·.cp1from) table), optimizeColumn (column (·.cp2) table)]
    else [optimizeColumn (column (·.cp1from) table), optimizeColumn (column (·.cp1to) table),
      optimizeColumn (column (·.cp2) table)] := by
  have hcol (value : MappingEntry → ℤ) : table.foldl (fun col elt => value elt :: col) [] = column value table := by
    have hfold := @List.foldl_flip_cons_eq_append _ _ table value []
    rw [List.append_nil] at hfold
    rw [column, List.map_reverse]
    exact hfold
  rw [optimizeDumpedTable]
  simp only [hcol]

theorem entries_take (k n : ℕ) (t : CompiledTable) : (entries k t).1 = (entries (k + n) t).1.take k := by
  induction k generalizing t with
  | zero => rfl
  | succ k ih =>
    rw [Nat.add_right_comm, entries, entries]
    split_ifs
    · cases t.next with
      | none => rfl
      | some r => exact congrArg (r.1 :: ·) (ih r.2)
    · rfl

theorem entries_add (n : ℕ) (hend : (entries fuel t).2.col1.hasNext = false) : (entries (fuel + n) t).1 = (entries fuel t).1 := by
  induction fuel generalizing t with
  | zero =>
    have hlast : ¬ t.col1.hasNext = true := Bool.not_eq_true _ ▸ hend
    cases n with
    | zero => rfl
    | succ n => rw [Nat.zero_add, entries, entries, if_neg hlast]
  | succ fuel ih =>
    rw [Nat.add_right_comm, entries, entries]
    rw [entries] at hend
    split_ifs with hnext
    · rw [if_pos hnext] at hend
      cases hstep : t.next with
      | none => rfl
      | some r =>
        rw [hstep] at hend
        exact congrArg (r.1 :: ·) (ih hend)
    · rfl

theorem DecodesTo.take {tableArray : List (List Element)} (h : DecodesTo tableArray es) (k : ℕ) :
    ((decodeInit tableArray).map fun t => (entries k t.reset).1) = some (es.take k) := by
  obtain ⟨t, hinit, fuel, t', hentries, hend, -⟩ := h
  have hadd := entries_add k (show (entries fuel t.reset).2.col1.hasNext = false from hentries ▸ hend)
  rw [hinit, Option.map_some, entries_take k fuel, Nat.add_comm, hadd, hentries]

theorem differences_replicate (n : ℕ) : differences 0 (List.replicate n (0 : ℤ)) = List.replicate n 0 := by
  induction n with
  | zero => rfl
  | succ n ih => rw [List.replicate_succ, differences_cons, ih, sub_zero]

theorem optimizeColumn_replicate (n : ℕ) (hn : 2 < n) : optimizeColumn (List.replicate n 0) = [some 1, some 0, some (n : ℤ)] := by
  obtain ⟨n, rfl⟩ := Nat.exists_eq_add_of_lt hn
  have hdelta := @deltaOptimizeDumpedTable_eq (List.replicate (2 + n + 1) 0) (List.cons_ne_nil _ _)
  rw [differences_replicate, List.map_replicate] at hdelta
  have hrle : rangeLengthOptimizeDumpedTable (deltaOptimizeDumpedTable (List.replicate (2 + n + 1) 0)) =
      [some 1, some 0, some ((2 + n + 1 : ℕ) : ℤ)] := by
    rw [rangeLengthOptimizeDumpedTable, hdelta, List.tail_cons, List.replicate_succ, Lib.runs,
      runsFrom_replicate (by decide), Nat.add_comm 1 (2 + n)]
    rfl
  rw [optimizeColumn]
  simp only [hrle]
  rw [if_pos]
  rw [hdelta]
  simp only [List.length_cons, List.length_nil, List.length_replicate]
  omega

def alternate {α : Type} (x y : α) : ℕ → List α
  | 0 => []
  | n + 1 => x :: alternate y x n

@[simp] theorem length_alternate {α : Type} (x y : α) (n : ℕ) : (alternate x y n).length = n := by
  induction n generalizing x y with
  | zero => rfl
  | succ n ih => rw [alternate, List.length_cons, ih]

theorem map_alternate {α β : Type} (f : α → β) (x y : α) (n : ℕ) : (alternate x y n).map f = alternate (f x) (f y) n := by
  induction n generalizing x y with
  | zero => rfl
  | succ n ih => rw [alternate, List.map_cons, ih, alternate]

theorem isChain_differences_alternate {x y d : ℤ} (hxy : x ≠ y) (hd : d ≠ y - x) (n : ℕ) :
    (d :: differences x (alternate y x n)).IsChain (· ≠ ·) := by
  induction n generalizing x y d with
  | zero => exact List.isChain_singleton d
  | succ n ih => exact List.isChain_cons_cons.mpr ⟨hd, ih hxy.symm (by omega)⟩

theorem length_runElements (rs : List (Element × ℕ)) : (runElements rs).length = 2 * rs.length := by
  induction rs with
  | nil => rfl
  | cons r rs ih =>
    rw [runElements, List.flatMap_cons, List.length_append, ← runElements, ih, List.length_cons]
    simp only [List.length_cons, List.length_nil]
    omega

theorem optimizeColumn_alternate (n : ℕ) :
    optimizeColumn (alternate 0 1 (n + 1)) = some 0 :: (differences 0 (alternate 0 1 (n + 1))).map some := by
  have hdelta := @deltaOptimizeDumpedTable_eq (alternate 0 1 (n + 1)) (List.cons_ne_nil _ _)
  have hchain := @isChain_differences_alternate 0 1 (0 - 0) (by decide) (by decide) n
  have hruns : (Lib.runs eqElement ((differences 0 (alternate 0 1 (n + 1))).map some)).length = n + 1 := by
    rw [alternate, differences_cons, List.map_cons, Lib.runs, length_runsFrom_of_isChain, List.length_map, length_differences,
      length_alternate]
    rw [← List.map_cons, List.isChain_map]
    exact hchain.imp fun x y hne h => hne (Option.some.inj (eq_of_eqElement _ _ h))
  have hlonger : ¬ (rangeLengthOptimizeDumpedTable (deltaOptimizeDumpedTable (alternate 0 1 (n + 1)))).length <
      (deltaOptimizeDumpedTable (alternate 0 1 (n + 1))).length := by
    rw [hdelta, rangeLengthOptimizeDumpedTable, List.tail_cons, List.length_cons, length_runElements, hruns, List.length_cons,
      List.length_map, length_differences, length_alternate]
    omega
  rw [optimizeColumn, if_neg hlonger, hdelta]

/-- No column has more equal differences of consecutive values than a run may have. -/
def NoLongRun (table : List MappingEntry) : Prop :=
  ∀ value ∈ [MappingEntry.cp1from, MappingEntry.cp1to, MappingEntry.cp2], ∀ d,
    ¬ List.replicate (maxRun + 1) d <:+: (differences 0 (column value table)).tail

theorem noLongRun_of_length {table : List MappingEntry} (h : table.length ≤ maxRun + 1) : NoLongRun table := by
  intro value _ d hinfix
  have hlength := hinfix.length_le
  rw [List.length_replicate, List.length_tail, length_differences, column, List.length_map, List.length_reverse] at hlength
  omega

theorem not_decodesTo_alternate {n : ℕ} (hn : n + 2 = 2 ^ 31) :
    NoLongRun (alternate ⟨0, 0, 0⟩ ⟨1, 1, 1⟩ (n + 1)).reverse ∧
    ¬ DecodesTo (optimizeDumpedTable (alternate ⟨0, 0, 0⟩ ⟨1, 1, 1⟩ (n + 1)).reverse) (alternate ⟨0, 0, 0⟩ ⟨1, 1, 1⟩ (n + 1)) := by
  have hcol (value : MappingEntry → ℤ) (hvalue : value ∈ [MappingEntry.cp1from, MappingEntry.cp1to, MappingEntry.cp2]) :
      column value (alternate ⟨0, 0, 0⟩ ⟨1, 1, 1⟩ (n + 1)).reverse = alternate 0 1 (n + 1) := by
    rw [column, List.reverse_reverse, map_alternate]
    simp only [List.mem_cons, List.not_mem_nil, or_false] at hvalue
    rcases hvalue with rfl | rfl | rfl <;> rfl
  constructor
  · intro value hvalue d hinfix
    rw [hcol value hvalue, alternate, differences_cons, List.tail_cons] at hinfix
    have hchain := (@isChain_differences_alternate 0 1 (0 - 0) (by decide) (by decide) n).tail
    exact (List.isChain_cons_cons.mp ( List.IsChain.infix hchain hinfix)).1 rfl
  · intro h
    have hlength : toCInt ((optimizeColumn (alternate 0 1 (n + 1))).length : ℤ) = -2 ^ 31 := by
      rw [optimizeColumn_alternate, List.length_cons, List.length_map, length_differences, length_alternate, hn]
      decide
    have hinit := CompiledTableDecode.initCol_eq (optimizeColumn_alternate n) (by rw [hlength]; decide) (.inl rfl)
    rw [hlength] at hinit
    have htake := h.take 1
    rw [optimizeDumpedTable_eq, hcol (·.cp1from) (by simp), hcol (·.cp1to) (by simp), hcol (·.cp2) (by simp), if_pos rfl] at htake
    simp only [decodeInit, hinit, Option.bind_some, Option.map_some] at htake
    exact absurd (congrArg List.length (Option.some.inj htake)) (by simp [entries, reset, CompiledTableDecode.reset, CompiledTableDecode.hasNext, alternate])

end CompiledTable

end XEmacs.Coding
