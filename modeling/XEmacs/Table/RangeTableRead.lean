import XEmacs.Table.RangeTableCanonical

/-! A range table that is printed readably and read again. The printer turns the internal ends
of an entry into those of the type of the table and the reader turns them back, which fails
exactly for an empty entry of a table closed at both ends. -/

namespace XEmacs.Table.RangeTable

open Lib Interval

variable {α β : Type*}

def rangeTableTypeToSymbol : RangeTableType → String
  | .startClosedEndOpen => "start-closed-end-open"
  | .startClosedEndClosed => "start-closed-end-closed"
  | .startOpenEndOpen => "start-open-end-open"
  | .startOpenEndClosed => "start-open-end-closed"

/-- What reading a range table can signal. -/
inductive ReadError
  /-- "Unknown range table type" -/
  | unknownType (symbol : String)
  /-- "Invalid range format" -/
  | invalidRange (range : ℤ × ℤ)
  /-- What `put-range-table` signals. -/
  | put (error : String × ℤ × ℤ)
  deriving DecidableEq

/-- `range_table_symbol_to_type`, where nil is `none`. -/
def rangeTableSymbolToType : Option String → Except ReadError RangeTableType
  | none => .ok .startClosedEndOpen
  | some "start-closed-end-open" => .ok .startClosedEndOpen
  | some "start-closed-end-closed" => .ok .startClosedEndClosed
  | some "start-open-end-open" => .ok .startOpenEndOpen
  | some "start-open-end-closed" => .ok .startOpenEndClosed
  | some symbol => .error (.unknownType symbol)

/-- The structure `#s(range-table type TYPE data ((START END) VALUE ...))`. -/
structure Plist (α : Type*) where
  type : Option String
  data : List ((ℤ × ℤ) × α)
  deriving DecidableEq

/-- `so` and `ec` of `print_range_table`: whether the start is open and the end closed. -/
def openStartClosedEnd : RangeTableType → ℤ × ℤ
  | .startClosedEndOpen => (0, 0)
  | .startClosedEndClosed => (0, 1)
  | .startOpenEndOpen => (1, 0)
  | .startOpenEndClosed => (1, 1)

/-- `print_range_table` under `print-readably`, as the structure that is written. -/
def printRangeTable (rt : RangeTable α) : Plist α where
  type := some (rangeTableTypeToSymbol rt.type)
  data := rt.entries.map fun rte =>
    ((rte.first - (openStartClosedEnd rt.type).1, rte.last - (openStartClosedEnd rt.type).2), rte.val)

/-- `FIXNUMP` of an integer, with 63 value bits. -/
def FixnumP (n : ℤ) : Prop := -4611686018427387904 ≤ n ∧ n ≤ 4611686018427387903

instance (n : ℤ) : Decidable (FixnumP n) := inferInstanceAs (Decidable (_ ∧ _))

def rangetabDataValidate (data : List ((ℤ × ℤ) × α)) : Except ReadError Unit :=
  match data.find? fun x => ¬ (FixnumP x.1.1 ∧ FixnumP x.1.2) with
  | some x => .error (.invalidRange x.1)
  | none => .ok ()

variable [DecidableEq α] [DecidableEq β]

/-- The loop of `rangetab_instantiate` over the data. -/
def putData : List ((ℤ × ℤ) × α) → RangeTable α → Except ReadError (RangeTable α)
  | [], rangetab => .ok rangetab
  | (range, val) :: data, rangetab =>
    match rangetab.put range.1 range.2 (some val) with
    | .ok rangetab => putData data rangetab
    | .error e => .error (.put e)

/-- `rangetab_instantiate`, after the validation of the keywords. -/
def rangetabInstantiate (plist : Plist α) : Except ReadError (RangeTable α) :=
  match rangeTableSymbolToType plist.type, rangetabDataValidate plist.data with
  | .error e, _ => .error e
  | .ok _, .error e => .error e
  | .ok type, .ok _ => putData plist.data (make type)

/-- A call whose ends are fixnums, as `put-range-table` and `remove-range-table` check. -/
def Call.FixnumEnds : Call α → Prop
  | .put start finish _ => FixnumP start ∧ FixnumP finish
  | .remove start finish => FixnumP start ∧ FixnumP finish
  | .clear => True

instance : (call : Call α) → Decidable call.FixnumEnds
  | .put .. => inferInstanceAs (Decidable (_ ∧ _))
  | .remove .. => inferInstanceAs (Decidable (_ ∧ _))
  | .clear => isTrue trivial

def Within (lo hi : ℤ) (es : List (RangeTableEntry α)) : Prop := ∀ e ∈ es, lo ≤ e.first ∧ e.last ≤ hi

variable {es A B : List (RangeTableEntry α)} {e : RangeTableEntry α} {first last lo hi p : ℤ} {v : α}
  {rt : RangeTable α} {type : RangeTableType} {data : List ((ℤ × ℤ) × α)}

omit [DecidableEq α] in
theorem Cut.within (h : Cut es first last A B) (hes : Within lo hi es) (hfirst : first ≤ hi)
    (hlast : lo ≤ last) : Within lo hi A ∧ Within lo hi B := by
  obtain ⟨pre, rest, rfl, hpre, rfl, rfl⟩ := h.split
  constructor
  · intro e he
    rcases List.mem_append.mp he with he | he
    · exact hes e (List.mem_append_left _ he)
    · obtain ⟨x, hx, rfl⟩ := List.mem_map.mp he
      have := hes x (List.mem_append_right _ (List.mem_filter.mp hx).1)
      simp only
      omega
  · intro e he
    obtain ⟨x, hx, rfl⟩ := List.mem_map.mp he
    have := hes x (List.mem_append_right _ (List.mem_filter.mp hx).1)
    simp only
    omega

theorem putEntries_within (h : Ordered es) (hes : Within lo hi es) (hfirst : lo ≤ first) (hlast : last ≤ hi)
    (val : Option α) : Within lo hi (putEntries es first last val) := by
  by_cases hlt : first < last
  · cases val with
    | none =>
      obtain ⟨A, B, hcut, heq⟩ := putEntries_none h hlt
      obtain ⟨hA, hB⟩ := hcut.within hes (by omega) (by omega)
      rw [heq]
      intro e he
      exact (List.mem_append.mp he).elim (hA e) (hB e)
    | some v =>
      obtain ⟨A, B, A₀, B₀, f, l, hcut, heq, hA₀, hB₀⟩ := putEntries_some h hlt v
      obtain ⟨hA, hB⟩ := hcut.within hes (by omega) (by omega)
      have hstart : Within lo hi A₀ ∧ lo ≤ f := by
        rcases hA₀ with ⟨rfl, rfl, -⟩ | rfl
        · exact ⟨hA, hfirst⟩
        · exact ⟨fun e he => hA e (List.mem_append_left _ he), (hA ⟨f, first, v⟩ (by simp)).1⟩
      have hend : Within lo hi B₀ ∧ l ≤ hi := by
        rcases hB₀ with ⟨rfl, rfl, -⟩ | rfl
        · exact ⟨hB, hlast⟩
        · exact ⟨fun e he => hB e (List.mem_cons_of_mem _ he), (hB ⟨last, l, v⟩ (by simp)).2⟩
      rw [heq]
      intro e he
      rcases List.mem_append.mp he with he | he
      · exact hstart.1 e he
      · rcases List.mem_cons.mp he with rfl | he
        · exact ⟨hstart.2, hend.2⟩
        · exact hend.1 e he
  · rwa [putEntries, if_pos (Int.not_lt.mp hlt)]

/-- A table of a type in order, whose ends were fixnums before they were adjusted. -/
structure HoldsFixnums (type : RangeTableType) (rt : RangeTable α) : Prop where
  type_eq : rt.type = type
  ordered : Ordered rt.entries
  within : Within (-4611686018427387904 + (openStartClosedEnd type).1)
    (4611686018427387903 + (openStartClosedEnd type).2) rt.entries

theorem HoldsFixnums.put (h : HoldsFixnums type rt) {start finish : ℤ} (hstart : FixnumP start)
    (hfinish : FixnumP finish) (val : Option α) :
    HoldsFixnums type ((rt.put start finish val).toOption.getD rt) := by
  obtain ⟨htype, hord, -⟩ := put_step h.ordered start finish val
  refine ⟨htype.trans h.type_eq, hord, ?_⟩
  by_cases hle : start > finish
  · simp only [RangeTable.put, if_pos hle]
    exact h.within
  · simp only [RangeTable.put, if_neg hle]
    refine putEntries_within h.ordered h.within ?_ ?_ val
    all_goals
      rw [h.type_eq]
      cases type <;> simp only [FixnumP, externalToInternalAdjustEnds, openStartClosedEnd] at * <;> omega

theorem run_holdsFixnums {calls : List (Call α)}
    (h : Run step (fun _ call => call.FixnumEnds) (make type) calls rt) : HoldsFixnums type rt := by
  refine h.invariant (I := fun rt => HoldsFixnums type rt) ⟨rfl, .nil, by simp [Within, make]⟩
    fun rt call rt' hrt hok hs => ?_
  cases call with
  | put start finish val =>
    obtain rfl := Option.some.inj hs
    exact hrt.put hok.1 hok.2 (some val)
  | remove start finish =>
    obtain rfl := Option.some.inj hs
    exact hrt.put hok.1 hok.2 none
  | clear =>
    obtain rfl := Option.some.inj hs
    exact ⟨hrt.type_eq, .nil, by simp [Within, clear]⟩

omit [DecidableEq α] in
theorem rangeTableSymbolToType_toSymbol (type : RangeTableType) :
    rangeTableSymbolToType (some (rangeTableTypeToSymbol type)) = .ok type := by cases type <;> rfl

omit [DecidableEq α] in
theorem externalToInternalAdjustEnds_printed (type : RangeTableType) (first last : ℤ) :
    externalToInternalAdjustEnds type (first - (openStartClosedEnd type).1)
      (last - (openStartClosedEnd type).2) = (first, last) := by
  cases type <;> simp [externalToInternalAdjustEnds, openStartClosedEnd]

/-- An entry whose printed start is past its printed end. -/
def Reversed (type : RangeTableType) (e : RangeTableEntry α) : Prop :=
  e.first - (openStartClosedEnd type).1 > e.last - (openStartClosedEnd type).2

omit [DecidableEq α] in
theorem reversed_iff (h : e.first ≤ e.last) :
    Reversed type e ↔ type = .startClosedEndClosed ∧ e.first = e.last := by
  cases type <;> simp [Reversed, openStartClosedEnd] <;> omega

theorem putData_error {x : (ℤ × ℤ) × α} (hx : x ∈ data) (hlt : x.1.1 > x.1.2) (rt : RangeTable α) :
    ∃ e, putData data rt = .error e := by
  induction data generalizing rt with
  | nil => cases hx
  | cons y data ih =>
    rw [putData]
    rcases List.mem_cons.mp hx with rfl | hx
    · rw [put, if_pos hlt]
      exact ⟨_, rfl⟩
    · cases rt.put y.1.1 y.1.2 (some y.2) with
      | ok rt => exact ih hx rt
      | error e => exact ⟨_, rfl⟩

theorem putData_printed (hes : Ordered es) (hdir : ∀ e ∈ es, ¬ Reversed type e) (hrt : Ordered rt.entries)
    (htype : rt.type = type) :
    ∃ rt', putData (printRangeTable ⟨es, type⟩).data rt = .ok rt' ∧ rt'.type = type ∧ Ordered rt'.entries ∧
      ∀ p, value rt'.entries p = (value es p).or (value rt.entries p) := by
  induction es generalizing rt with
  | nil => exact ⟨rt, rfl, htype, hrt, fun p => rfl⟩
  | cons e es ih =>
    obtain ⟨-, hrest, hbefore⟩ := ordered_cons.mp hes
    have hput : rt.put (e.first - (openStartClosedEnd type).1) (e.last - (openStartClosedEnd type).2) (some e.val) =
        .ok { rt with entries := putEntries rt.entries e.first e.last (some e.val) } := by
      have hnot : ¬ e.first - (openStartClosedEnd type).1 > e.last - (openStartClosedEnd type).2 :=
        hdir e List.mem_cons_self
      rw [put, if_neg hnot, putRangeTable, htype, externalToInternalAdjustEnds_printed]
    obtain ⟨rt', hread, htype', hord', hvalue⟩ := @ih
      { rt with entries := putEntries rt.entries e.first e.last (some e.val) } hrest
      (fun x hx => hdir x (List.mem_cons_of_mem e hx)) (putEntries_ordered hrt e.first e.last (some e.val)) htype
    refine ⟨rt', ?_, htype', hord', fun p => ?_⟩
    · rw [← hread, printRangeTable, List.map_cons, putData]
      simp only
      rw [hput]
      rfl
    · rw [hvalue, putEntries_value hrt, value_cons]
      by_cases hp : e.Contains p
      · have hnone : value es p = none := value_eq_none.mpr fun x hx hc => by
          have := hbefore x hx
          have := hp.2
          have := hc.1
          omega
        have hmem : e.first ≤ p ∧ p < e.last := hp
        rw [hnone, if_pos hmem, if_pos hp]
        rfl
      · have hmem : ¬ (e.first ≤ p ∧ p < e.last) := hp
        rw [if_neg hmem, if_neg hp]

omit [DecidableEq α] in
theorem HoldsFixnums.validate (h : HoldsFixnums type rt) (hdir : ∀ e ∈ rt.entries, ¬ Reversed type e) :
    rangetabDataValidate (printRangeTable rt).data = .ok () := by
  have hnone : (printRangeTable rt).data.find? (fun x => ¬ (FixnumP x.1.1 ∧ FixnumP x.1.2)) = none := by
    refine List.find?_eq_none.mpr fun x hx => ?_
    obtain ⟨e, he, rfl⟩ := List.mem_map.mp hx
    have hle := h.ordered.le e he
    have hwithin := h.within e he
    have hnot := hdir e he
    simp only [decide_eq_true_eq, not_not, h.type_eq]
    revert hle hwithin hnot
    cases type <;> simp only [Reversed, FixnumP, openStartClosedEnd] <;> omega
  rw [rangetabDataValidate, hnone]

/-- The printed data after its values have been read back, each as one that is `same`. -/
def ReadBack (same : α → β → Prop) (printed : List ((ℤ × ℤ) × α)) (data : List ((ℤ × ℤ) × β)) : Prop :=
  List.Forall₂ (fun x y => x.1 = y.1 ∧ same x.2 y.2) printed data

def SameEntry (same : α → β → Prop) (e : RangeTableEntry α) (e' : RangeTableEntry β) : Prop :=
  e.first = e'.first ∧ e.last = e'.last ∧ same e.val e'.val

section ReadBack

variable {same : α → β → Prop} {es' : List (RangeTableEntry β)} {data' : List ((ℤ × ℤ) × β)}

omit [DecidableEq α] [DecidableEq β] in
theorem ReadBack.exists_entries (h : ReadBack same (printRangeTable ⟨es, type⟩).data data') :
    ∃ es', List.Forall₂ (SameEntry same) es es' ∧ data' = (printRangeTable ⟨es', type⟩).data := by
  induction es generalizing data' with
  | nil =>
    cases h
    exact ⟨[], .nil, rfl⟩
  | cons e es ih =>
    rcases h with _ | ⟨hhead, htail⟩
    next y data'' =>
    obtain ⟨es', hes', rfl⟩ := ih htail
    obtain ⟨range, val⟩ := y
    obtain ⟨rfl, hval⟩ := hhead
    exact ⟨⟨e.first, e.last, val⟩ :: es', .cons ⟨rfl, rfl, hval⟩ hes', rfl⟩

omit [DecidableEq α] [DecidableEq β] in
theorem mem_of_sameEntry (h : List.Forall₂ (SameEntry same) es es') {e' : RangeTableEntry β} (he' : e' ∈ es') :
    ∃ e ∈ es, e.first = e'.first ∧ e.last = e'.last := by
  induction h with
  | nil => cases he'
  | @cons e x es es' hhead _ ih =>
    rcases List.mem_cons.mp he' with rfl | he'
    · exact ⟨e, List.mem_cons_self, hhead.1, hhead.2.1⟩
    · obtain ⟨y, hy, hends⟩ := ih he'
      exact ⟨y, List.mem_cons_of_mem e hy, hends⟩

omit [DecidableEq α] [DecidableEq β] in
theorem ordered_of_sameEntry (h : List.Forall₂ (SameEntry same) es es') (hes : Ordered es) : Ordered es' := by
  induction h with
  | nil => exact .nil
  | @cons e e' es es' hhead htail ih =>
    obtain ⟨hle, hrest, hbefore⟩ := ordered_cons.mp hes
    refine ordered_cons.mpr ⟨by rw [← hhead.1, ← hhead.2.1]; exact hle, ih hrest, fun x hx => ?_⟩
    obtain ⟨y, hy, hfirst, -⟩ := mem_of_sameEntry htail hx
    rw [← hhead.2.1, ← hfirst]
    exact hbefore y hy

omit [DecidableEq α] [DecidableEq β] in
theorem value_of_sameEntry (h : List.Forall₂ (SameEntry same) es es') (p : ℤ) :
    Option.Rel same (value es p) (value es' p) := by
  induction h with
  | nil => exact .none
  | @cons e e' es es' hhead _ ih =>
    rw [value_cons, value_cons]
    by_cases hp : e.Contains p
    · have hp' : e'.Contains p := by rwa [Contains, ← hhead.1, ← hhead.2.1]
      rw [if_pos hp, if_pos hp']
      exact .some hhead.2.2
    · have hp' : ¬ e'.Contains p := by rwa [Contains, ← hhead.1, ← hhead.2.1]
      rw [if_neg hp, if_neg hp']
      exact ih

/-- Whether reading a table that was printed, with values `same` as those printed, gives a table of
its type that finds the same values. -/
def ReadsBack (same : α → β → Prop) (rt : RangeTable α) (data : List ((ℤ × ℤ) × β)) : Prop :=
  ∃ rt', rangetabInstantiate ⟨(printRangeTable rt).type, data⟩ = .ok rt' ∧ rt'.type = rt.type ∧
    ∀ p, Option.Rel same (rt.lookup p) (rt'.lookup p)

omit [DecidableEq α] in
theorem HoldsFixnums.readsBack (h : HoldsFixnums type rt) (hdir : ∀ e ∈ rt.entries, ¬ Reversed type e)
    (hdata : ReadBack same (printRangeTable rt).data data') : ReadsBack same rt data' := by
  obtain ⟨entries, rttype⟩ := rt
  obtain rfl : rttype = type := h.type_eq
  obtain ⟨es', hes', rfl⟩ := ReadBack.exists_entries hdata
  have hord : Ordered es' := ordered_of_sameEntry hes' h.ordered
  have hdir' : ∀ e' ∈ es', ¬ Reversed rttype e' := fun e' he' => by
    obtain ⟨e, he, hfirst, hlast⟩ := mem_of_sameEntry hes' he'
    rw [Reversed, ← hfirst, ← hlast]
    exact hdir e he
  have hfixnums : HoldsFixnums rttype (⟨es', rttype⟩ : RangeTable β) := ⟨rfl, hord, fun e' he' => by
    obtain ⟨e, he, hfirst, hlast⟩ := mem_of_sameEntry hes' he'
    rw [← hfirst, ← hlast]
    exact h.within e he⟩
  obtain ⟨rt', hput, htype', hord', hvalue⟩ :=
    putData_printed hord hdir' (show Ordered (make rttype).entries from .nil) rfl
  refine ⟨rt', ?_, htype', fun p => ?_⟩
  · rw [rangetabInstantiate]
    simp only [printRangeTable, rangeTableSymbolToType_toSymbol]
    have hvalidate := hfixnums.validate hdir'
    rw [printRangeTable] at hvalidate hput
    simp only [hvalidate]
    exact hput
  · have hlookup : rt'.lookup p = value es' p := by
      rw [lookup, findEntry_value hord', hvalue, make]
      exact Option.or_none
    rw [hlookup, lookup, findEntry_value h.ordered]
    exact value_of_sameEntry hes' p

omit [DecidableEq α] [DecidableEq β] in
theorem ReadBack.ranges {printed : List ((ℤ × ℤ) × α)} (h : ReadBack same printed data') :
    printed.map Prod.fst = data'.map Prod.fst := by
  induction h with
  | nil => rfl
  | cons hhead _ ih => rw [List.map_cons, List.map_cons, hhead.1, ih]

omit [DecidableEq α] in
theorem HoldsFixnums.not_readsBack (h : HoldsFixnums type rt) (he : e ∈ rt.entries) (hreversed : Reversed type e)
    (hdata : ReadBack same (printRangeTable rt).data data') : ¬ ReadsBack same rt data' := by
  rintro ⟨rt', hread, -⟩
  have hrange : (e.first - (openStartClosedEnd type).1, e.last - (openStartClosedEnd type).2) ∈
      data'.map Prod.fst := by
    rw [← hdata.ranges, printRangeTable, List.map_map, h.type_eq]
    exact List.mem_map.mpr ⟨e, he, rfl⟩
  obtain ⟨x, hx, hends⟩ := List.mem_map.mp hrange
  have hlt : x.1.1 > x.1.2 := by
    rw [hends]
    exact hreversed
  rw [rangetabInstantiate] at hread
  split at hread
  · cases hread
  · cases hread
  · next rttype _ _ _ =>
    obtain ⟨error, herror⟩ := putData_error hx hlt (make rttype)
    rw [herror] at hread
    cases hread

/-- A table that calls have built reads back from its printed form exactly if it has no empty entry
or not both ends are closed. -/
theorem readsBack_iff {calls : List (Call α)}
    (h : Run step (fun _ call => call.FixnumEnds) (make type) calls rt)
    (hdata : ReadBack same (printRangeTable rt).data data') :
    ReadsBack same rt data' ↔ ¬ (type = .startClosedEndClosed ∧ ∃ e ∈ rt.entries, e.first = e.last) := by
  have hrt := run_holdsFixnums h
  constructor
  · rintro hreads ⟨htype, e, he, hempty⟩
    refine hrt.not_readsBack he ?_ hdata hreads
    exact (reversed_iff (hrt.ordered.le e he)).mpr ⟨htype, hempty⟩
  · intro hclosed
    refine hrt.readsBack (fun e he hreversed => hclosed ?_) hdata
    obtain ⟨htype, hempty⟩ := (reversed_iff (hrt.ordered.le e he)).mp hreversed
    exact ⟨htype, e, he, hempty⟩

end ReadBack

theorem readsBack_iff_openEnd :
    ∃ rt : RangeTable Char, rt.entries = [⟨1, 5, 'b'⟩, ⟨5, 5, 'a'⟩] ∧
      ReadsBack Eq rt (printRangeTable rt).data := by
  have hexec : (execOk step (fun _ call => call.FixnumEnds) (make .startClosedEndOpen) putTwice).any
      (fun rt => decide (rt.entries = [⟨1, 5, 'b'⟩, ⟨5, 5, 'a'⟩])) = true := by decide +kernel
  obtain ⟨rt, hrt, hentries⟩ := exists_run_of_execOk hexec
  refine ⟨rt, hentries, (readsBack_iff hrt ?_).mpr fun hclosed => by cases hclosed.1⟩
  exact List.forall₂_same.mpr fun x _ => ⟨rfl, rfl⟩

/-- With both ends closed, what is left of the old value is printed as `(6 5)`. -/
theorem putTwice_not_readsBack :
    ∃ rt : RangeTable Char, Run step (fun _ call => call.FixnumEnds) (make .startClosedEndClosed) putTwice rt ∧
      (printRangeTable rt).data = [((1, 5), 'b'), ((6, 5), 'a')] ∧
      rangetabInstantiate (printRangeTable rt) = .error (.put ("start must be <= end", 6, 5)) := by
  have hexec : (execOk step (fun _ call => call.FixnumEnds) (make .startClosedEndClosed) putTwice).any
      (fun rt => decide ((printRangeTable rt).data = [((1, 5), 'b'), ((6, 5), 'a')] ∧
        rangetabInstantiate (printRangeTable rt) = .error (.put ("start must be <= end", 6, 5)))) = true := by
    decide +kernel
  obtain ⟨rt, hrt, hprinted⟩ := exists_run_of_execOk hexec
  exact ⟨rt, hrt, hprinted⟩

end XEmacs.Table.RangeTable
