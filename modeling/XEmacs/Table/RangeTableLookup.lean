import XEmacs.Table.RangeTable
import Mathlib.Order.MinMax

/-! Lookup in range tables. The binary search finds the entry that contains a position in
every ordered list of entries; `put_range_table` keeps the entries ordered, changes the values
in the new range, and no others. -/

namespace XEmacs.Table.RangeTable

open Lib Lib.Interval

variable {α : Type*} {tab es pre rest : List (RangeTableEntry α)} {pos first last : ℤ}

/-- What a search has excluded: the entries before `left` end at or before `pos`, and those from
`right` on start after it. -/
structure Excludes (pos : ℤ) (tab : List (RangeTableEntry α)) (left right : ℕ) : Prop where
  le : left ≤ right
  le_length : right ≤ tab.length
  below : ∀ (j : ℕ) (hj : j < tab.length), j < left → tab[j].last ≤ pos
  above : ∀ (j : ℕ) (hj : j < tab.length), right ≤ j → pos < tab[j].first

theorem Ordered.getElem_le (h : Ordered tab) {i j : ℕ} (hj : j < tab.length) (hij : i < j) :
    tab[i].last ≤ tab[j].first :=
  List.pairwise_iff_getElem.mp h.before i j (Nat.lt_trans hij hj) hj hij

/-- The result of a search: an entry that contains the position, or the place where there is
none. -/
def Located (pos : ℤ) (tab : List (RangeTableEntry α)) (r : ℕ × Bool) : Prop :=
  if r.2 then ∃ h : r.1 < tab.length, tab[r.1].Contains pos else Excludes pos tab r.1 r.1

theorem searchLoop_located (h : Ordered tab) {fuel left right : ℕ} (hinv : Excludes pos tab left right)
    (hfuel : right - left ≤ fuel) : Located pos tab (searchLoop pos tab fuel left right) := by
  induction fuel generalizing left right with
  | zero =>
    obtain rfl : left = right := by
      have hle := hinv.le
      omega
    exact hinv
  | succ fuel ih =>
    rw [searchLoop]
    split
    · rename_i heq
      subst heq
      exact hinv
    · rename_i hne
      have hle := hinv.le
      have hlen := hinv.le_length
      have hmid : (left + right) / 2 < tab.length := by omega
      simp only [List.getElem?_eq_getElem hmid]
      generalize hnewpos : (left + right) / 2 = newpos at hmid ⊢
      have hself : tab[newpos].first ≤ tab[newpos].last := h.le _ (List.getElem_mem hmid)
      split
      · rename_i hge
        refine ih ⟨by omega, hlen, fun j hj hlt => ?_, hinv.above⟩ (by omega)
        rcases Nat.lt_succ_iff_lt_or_eq.mp hlt with hlt | rfl
        · have hbefore := Ordered.getElem_le h hmid hlt
          omega
        · exact hge
      · split
        · rename_i hlt
          refine ih ⟨by omega, by omega, hinv.below, fun j hj hle' => ?_⟩ (by omega)
          rcases Nat.lt_or_eq_of_le hle' with hlt' | rfl
          · have hbefore := Ordered.getElem_le h hj hlt'
            omega
          · exact hlt
        · rename_i hge hlt
          simp only [Located, if_true]
          exact ⟨hmid, by omega, by omega⟩

theorem getRangeTablePos_located (pos : ℤ) (h : Ordered tab) : Located pos tab (getRangeTablePos pos tab) :=
  searchLoop_located h ⟨Nat.zero_le _, Nat.le_refl _, fun _ _ hj => absurd hj (Nat.not_lt_zero _),
    fun _ hj hle => absurd hj (Nat.not_lt.mpr hle)⟩ (Nat.sub_le _ _)

theorem findEntry_value (h : Ordered tab) : (findEntry pos tab).map (·.val) = value tab pos := by
  have hloc := getRangeTablePos_located pos h
  rw [Located] at hloc
  rw [findEntry]
  split at hloc
  · rename_i hfound
    obtain ⟨hlt, hcontains⟩ := hloc
    rw [if_pos hfound, List.getElem?_eq_getElem hlt]
    exact (h.value_eq_some.mpr ⟨_, List.getElem_mem hlt, hcontains, rfl⟩).symm
  · rename_i hfound
    rw [if_neg hfound]
    refine (value_eq_none.mpr fun e he hc => ?_).symm
    obtain ⟨j, hj, rfl⟩ := List.mem_iff_getElem.mp he
    obtain ⟨hc₁, hc₂⟩ := hc
    rcases Nat.lt_or_ge j (getRangeTablePos pos tab).1 with hlt | hge
    · have hbelow := hloc.below j hj hlt
      omega
    · have habove := hloc.above j hj hge
      omega

/-! ### The loop over the overlapping entries -/

theorem insertIdx_append {β : Type*} (l₁ l₂ : List β) (x : β) :
    (l₁ ++ l₂).insertIdx l₁.length x = l₁ ++ x :: l₂ := by
  induction l₁ with
  | nil => rfl
  | cons y l₁ ih => simp only [List.cons_append, List.length_cons, List.insertIdx_succ_cons, ih]

def below (first : ℤ) (es : List (RangeTableEntry α)) : List (RangeTableEntry α) :=
  (es.filter (·.first < first)).map fun e => { e with last := min e.last first }

/-- What is left of the entries after the new range: the code keeps the empty rest of an entry
that ends where the new range ends. -/
def above (first last : ℤ) (es : List (RangeTableEntry α)) : List (RangeTableEntry α) :=
  (es.filter fun e => if e.first < first then last < e.last else last ≤ e.last).map fun e =>
    { e with first := max e.first last }

section

variable {e : RangeTableEntry α}

theorem below_eq_nil (h : ∀ e ∈ es, first ≤ e.first) : below first es = [] := by
  have hnone : es.filter (·.first < first) = [] :=
    List.filter_eq_nil_iff.mpr fun e he => by simpa using h e he
  rw [below, hnone, List.map_nil]

theorem above_eq_self (h : Ordered es) (hfirst : first < last) (hlast : ∀ e ∈ es, last ≤ e.first) :
    above first last es = es := by
  have hall : es.filter (fun e => if e.first < first then last < e.last else last ≤ e.last) = es := by
    refine List.filter_eq_self.mpr fun e he => ?_
    have hle := h.le e he
    have hge := hlast e he
    rw [if_neg (by omega)]
    simp only [decide_eq_true_eq]
    omega
  rw [above, hall]
  refine (List.map_congr_left fun e he => ?_).trans (List.map_id es)
  rw [max_eq_left (hlast e he)]
  rfl

theorem below_cons_of_lt (h : e.first < first) :
    below first (e :: es) = { e with last := min e.last first } :: below first es := by
  rw [below, List.filter_cons_of_pos (by simpa using h), List.map_cons]
  rfl

theorem above_cons_of_pos (h : if e.first < first then last < e.last else last ≤ e.last) :
    above first last (e :: es) = { e with first := max e.first last } :: above first last es := by
  rw [above, List.filter_cons_of_pos (by simpa using h), List.map_cons]
  rfl

theorem above_cons_of_neg (h : ¬ if e.first < first then last < e.last else last ≤ e.last) :
    above first last (e :: es) = above first last es := by
  rw [above, List.filter_cons_of_neg (by simpa using h)]
  rfl

theorem overlapLoop_after (pre : List (RangeTableEntry α)) (m : ℕ) (hlt : first < last) (h : Ordered rest)
    (hfirst : ∀ e ∈ rest, first ≤ e.first) {fuel : ℕ} (hfuel : rest.length ≤ fuel) :
    ∃ i, overlapLoop first last fuel (pre ++ rest) pre.length (some m) =
      (pre ++ above first last rest, i, some m) := by
  induction rest generalizing pre fuel with
  | nil =>
    refine ⟨pre.length, ?_⟩
    cases fuel with
    | zero => rfl
    | succ fuel => simp [overlapLoop, above]
  | cons e rest ih =>
    obtain ⟨hle, hrest, hbefore⟩ := ordered_cons.mp h
    have hge := hfirst e List.mem_cons_self
    have hfirst' : ∀ e ∈ rest, first ≤ e.first := fun x hx => hfirst x (List.mem_cons_of_mem _ hx)
    cases fuel with
    | zero => simp at hfuel
    | succ fuel =>
      have hfuel' : rest.length ≤ fuel := Nat.le_of_succ_le_succ hfuel
      have hget : (pre ++ e :: rest)[pre.length]? = some e := by simp
      rw [overlapLoop, hget]
      simp only [reduceCtorEq, and_false, if_false]
      have hnot : ¬ e.first < first := Int.not_lt.mpr hge
      rw [if_neg (show ¬ e.last < first by omega)]
      by_cases hafter : e.first > last
      · rw [if_pos hafter]
        refine ⟨pre.length, ?_⟩
        rw [above_eq_self h hlt fun x hx => ?_]
        rcases List.mem_cons.mp hx with rfl | hx
        · omega
        · have hx' := hbefore x hx
          omega
      · rw [if_neg hafter, if_neg (fun hc => hnot hc.1), if_neg (fun hc => hnot hc.1)]
        by_cases hend : e.last ≥ last
        · rw [if_pos hend, above_cons_of_pos (by rw [if_neg hnot]; exact hend)]
          obtain ⟨i, hi⟩ := ih (pre ++ [{ e with first := last }]) hrest hfirst' hfuel'
          refine ⟨i, ?_⟩
          rw [max_eq_right (Int.not_lt.mp hafter)]
          simpa using hi
        · rw [if_neg hend, above_cons_of_neg (by rw [if_neg hnot]; exact hend)]
          obtain ⟨i, hi⟩ := ih pre hrest hfirst' hfuel'
          refine ⟨i, ?_⟩
          rw [List.eraseIdx_append_of_length_le (Nat.le_refl _)]
          simpa using hi

theorem overlapLoop_mark {i fuel : ℕ} (hget : es[i]? = some e) (hge : first ≤ e.first) :
    overlapLoop first last (fuel + 1) es i none = overlapLoop first last (fuel + 1) es i (some i) := by
  rw [overlapLoop, overlapLoop, hget]
  simp only [reduceCtorEq, and_true, and_false, if_false]
  rw [if_pos hge]

theorem overlapLoop_spec (pre : List (RangeTableEntry α)) (hlt : first < last) (h : Ordered rest) {fuel : ℕ}
    (hfuel : rest.length < fuel) :
    ∃ i insertMeHere, overlapLoop first last fuel (pre ++ rest) pre.length none =
        (pre ++ below first rest ++ above first last rest, i, insertMeHere) ∧
      insertMeHere.getD i = (pre ++ below first rest).length := by
  induction rest generalizing pre fuel with
  | nil =>
    refine ⟨pre.length, none, ?_, by simp [below]⟩
    cases fuel with
    | zero => simp at hfuel
    | succ fuel => simp [overlapLoop, below, above]
  | cons e rest ih =>
    obtain ⟨hle, hrest, hbefore⟩ := ordered_cons.mp h
    cases fuel with
    | zero => simp at hfuel
    | succ fuel =>
      have hfuel' : rest.length < fuel := Nat.lt_of_succ_lt_succ hfuel
      have hget : (pre ++ e :: rest)[pre.length]? = some e := by simp
      by_cases hge : first ≤ e.first
      · have hall : ∀ x ∈ e :: rest, first ≤ x.first := by
          intro x hx
          rcases List.mem_cons.mp hx with rfl | hx
          · exact hge
          · have hx' := hbefore x hx
            omega
        rw [overlapLoop_mark hget hge, below_eq_nil hall, List.append_nil]
        obtain ⟨i, hi⟩ := overlapLoop_after pre pre.length hlt h hall (Nat.le_of_lt hfuel)
        exact ⟨i, some pre.length, hi, rfl⟩
      · have hfirst : e.first < first := Int.not_le.mp hge
        rw [overlapLoop, hget]
        simp only [and_true, if_neg (show ¬ e.first ≥ first from hge)]
        rw [below_cons_of_lt hfirst]
        -- the entry is before the new range, or what is left of it there is
        have hgo : ∀ e' : RangeTableEntry α, e' = { e with last := min e.last first } → e.last ≤ last →
            ∃ i insertMeHere, overlapLoop first last fuel (pre ++ e' :: rest) (pre.length + 1) none =
                (pre ++ { e with last := min e.last first } :: below first rest ++
                  above first last (e :: rest), i, insertMeHere) ∧
              insertMeHere.getD i = (pre ++ { e with last := min e.last first } :: below first rest).length := by
          rintro e' rfl hend
          rw [above_cons_of_neg (by rw [if_pos hfirst]; omega)]
          obtain ⟨i, m, hi, hm⟩ := ih (pre ++ [{ e with last := min e.last first }]) hrest hfuel'
          exact ⟨i, m, by simpa using hi, by simpa using hm⟩
        by_cases hbef : e.last < first
        · rw [if_pos hbef]
          exact hgo e (by rw [min_eq_left (le_of_lt hbef)]) (by omega)
        · have hmin : min e.last first = first := min_eq_right (Int.not_lt.mp hbef)
          rw [if_neg hbef, if_neg (show ¬ e.first > last by omega)]
          by_cases hend : e.last ≤ last
          · rw [if_pos ⟨hfirst, hend⟩]
            have hset : (pre ++ e :: rest).set pre.length { e with last := first } =
                pre ++ { e with last := first } :: rest := by simp
            rw [hset]
            exact hgo _ (by rw [hmin]) hend
          · have hsplit : e.first < first ∧ e.last > last := ⟨hfirst, Int.not_le.mp hend⟩
            rw [if_neg (fun hc => hend hc.2), if_pos hsplit]
            have hset : ((pre ++ e :: rest).set pre.length { e with last := first }).insertIdx
                (pre.length + 1) { e with first := last } =
                (pre ++ [{ e with last := first }]) ++ { e with first := last } :: rest := by
              have hins := insertIdx_append (pre ++ [{ e with last := first }]) rest { e with first := last }
              simpa using hins
            have hord : Ordered ({ e with first := last } :: rest) :=
              ordered_cons.mpr ⟨le_of_lt hsplit.2, hrest, hbefore⟩
            have hall : ∀ x ∈ ({ e with first := last } : RangeTableEntry α) :: rest, first ≤ x.first := by
              intro x hx
              rcases List.mem_cons.mp hx with rfl | hx
              · exact le_of_lt hlt
              · have hx' := hbefore x hx
                omega
            obtain ⟨f, rfl⟩ : ∃ f, fuel = f + 1 := ⟨fuel - 1, by omega⟩
            have hget' : ((pre ++ [{ e with last := first }]) ++ { e with first := last } :: rest)[pre.length + 1]? =
                some { e with first := last } := by
              simp
            obtain ⟨i, hi⟩ := overlapLoop_after (pre ++ [{ e with last := first }]) (pre.length + 1)
              hlt hord hall hfuel'
            have hbelow : below first rest = [] :=
              below_eq_nil fun x hx => hall x (List.mem_cons_of_mem _ hx)
            have habove : above first last ({ e with first := last } :: rest) = above first last (e :: rest) := by
              rw [above_cons_of_pos, above_cons_of_pos]
              · simp [le_of_lt (Int.lt_trans hfirst hlt)]
              · rw [if_pos hfirst]; exact hsplit.2
              · rw [if_neg (show ¬ last < first by omega)]; exact le_of_lt hsplit.2
            refine ⟨i, some (pre.length + 1), ?_, ?_⟩
            · rw [hset, overlapLoop_mark hget' (le_of_lt hlt)]
              have hlen : (pre ++ [{ e with last := first }]).length = pre.length + 1 := by simp
              rw [hlen] at hi
              rw [hi, habove, hbelow, hmin]
            · simp [hbelow]

end

/-! ### What `put_range_table` leaves -/

/-- The entries before and after a new range. -/
structure Cut (es : List (RangeTableEntry α)) (first last : ℤ) (before after : List (RangeTableEntry α)) :
    Prop where
  split : ∃ pre rest, es = pre ++ rest ∧ (∀ e ∈ pre, e.last ≤ first) ∧
    before = pre ++ below first rest ∧ after = above first last rest

theorem located_split (h : Ordered es) {r : ℕ × Bool} (hloc : Located pos es r) :
    ∃ pre rest, es = pre ++ rest ∧ (∀ e ∈ pre, e.last ≤ pos) ∧
      (if r.2 = false ∧ r.1 > 0 then r.1 - 1 else r.1) = pre.length := by
  set i := if r.2 = false ∧ r.1 > 0 then r.1 - 1 else r.1 with hi
  have hbelow : i ≤ es.length ∧ ∀ (j : ℕ) (hj : j < es.length), j < i → es[j].last ≤ pos := by
    rw [Located] at hloc
    split at hloc
    · rename_i hfound
      obtain ⟨hlt, hcontains⟩ := hloc
      have hir : i = r.1 := by simp [hi, hfound]
      refine ⟨by omega, fun j hj hji => ?_⟩
      have hbefore := Ordered.getElem_le h hlt (show j < r.1 by omega)
      have hle := hcontains.1
      omega
    · have hir : i ≤ r.1 := by
        rw [hi]
        split <;> omega
      have hlen := hloc.le_length
      exact ⟨by omega, fun j hj hji => hloc.below j hj (by omega)⟩
  refine ⟨es.take i, es.drop i, (List.take_append_drop i es).symm, fun e he => ?_, ?_⟩
  · obtain ⟨j, hj, rfl⟩ := List.mem_iff_getElem.mp he
    rw [List.getElem_take]
    have hlen : j < min i es.length := by simpa using hj
    exact hbelow.2 j (by omega) (by omega)
  · simp [hbelow.1]

section Combine

variable [DecidableEq α] (first last : ℤ) (A B : List (RangeTableEntry α)) (v : α)

theorem combineBefore_spec :
    ∃ A₀ f, combineBefore (A ++ ⟨first, last, v⟩ :: B) A.length first last v =
        (A₀ ++ ⟨f, last, v⟩ :: B, A₀.length, f) ∧
      ((A₀ = A ∧ f = first ∧ ∀ a, A.getLast? = some a → a.last = first → a.val ≠ v) ∨
        A = A₀ ++ [⟨f, first, v⟩]) := by
  rcases List.eq_nil_or_concat A with rfl | ⟨A', a, rfl⟩
  · refine ⟨[], first, rfl, .inl ⟨rfl, rfl, ?_⟩⟩
    simp
  · rw [List.concat_eq_append]
    have hpos : (A' ++ [a]).length > 0 := by simp
    have hget : (A' ++ [a] ++ ⟨first, last, v⟩ :: B)[(A' ++ [a]).length - 1]? = some a := by simp
    rw [combineBefore, if_pos hpos, hget]
    simp only
    by_cases hcomb : v = a.val ∧ a.last = first
    · rw [if_pos hcomb]
      refine ⟨A', a.first, ?_, .inr ?_⟩
      · have hset : (A' ++ [a] ++ ⟨first, last, v⟩ :: B).set ((A' ++ [a]).length - 1) { a with last := last } =
            A' ++ [{ a with last := last }] ++ ⟨first, last, v⟩ :: B := by simp
        have herase : (A' ++ [{ a with last := last }] ++ (⟨first, last, v⟩ : RangeTableEntry α) :: B).eraseIdx
            (A' ++ [a]).length = A' ++ [{ a with last := last }] ++ B := by
          rw [List.eraseIdx_append_of_length_le (by simp)]
          simp
        rw [hset, herase, hcomb.1]
        simp
      · obtain ⟨rfl, rfl⟩ := hcomb
        rfl
    · rw [if_neg hcomb]
      refine ⟨A' ++ [a], first, rfl, .inl ⟨rfl, rfl, fun b hb hlast hval => hcomb ?_⟩⟩
      obtain rfl : a = b := by simpa using hb
      exact ⟨hval.symm, hlast⟩

theorem combineAfter_spec (f : ℤ) :
    ∃ B₀ l, combineAfter (A ++ ⟨f, last, v⟩ :: B) A.length f last v = A ++ ⟨f, l, v⟩ :: B₀ ∧
      ((B₀ = B ∧ l = last ∧ ∀ b, B.head? = some b → b.first = last → b.val ≠ v) ∨
        B = ⟨last, l, v⟩ :: B₀) := by
  cases B with
  | nil =>
    refine ⟨[], last, ?_, .inl ⟨rfl, rfl, by simp⟩⟩
    rw [combineAfter, if_neg (by simp)]
  | cons b B =>
    have hlt : A.length + 1 < (A ++ ⟨f, last, v⟩ :: b :: B).length := by simp
    have hget : (A ++ ⟨f, last, v⟩ :: b :: B)[A.length + 1]? = some b := by simp
    rw [combineAfter, if_pos hlt, hget]
    simp only
    by_cases hcomb : v = b.val ∧ b.first = last
    · rw [if_pos hcomb]
      refine ⟨B, b.last, ?_, .inr ?_⟩
      · have hset : (A ++ ⟨f, last, v⟩ :: b :: B).set (A.length + 1) { b with first := f } =
            A ++ ⟨f, last, v⟩ :: { b with first := f } :: B := by simp
        rw [hset, List.eraseIdx_append_of_length_le (Nat.le_refl _), hcomb.1]
        simp
      · obtain ⟨rfl, rfl⟩ := hcomb
        rfl
    · rw [if_neg hcomb]
      refine ⟨b :: B, last, rfl, .inl ⟨rfl, rfl, fun c hc hfirst hval => hcomb ?_⟩⟩
      obtain rfl : b = c := by simpa using hc
      exact ⟨hval.symm, hfirst⟩

end Combine

variable [DecidableEq α]

theorem putEntries_none (h : Ordered es) (hlt : first < last) :
    ∃ A B, Cut es first last A B ∧ putEntries es first last none = A ++ B := by
  obtain ⟨pre, rest, rfl, hpre, hi⟩ := located_split h (getRangeTablePos_located first h)
  have hrest : Ordered rest := (ordered_append.mp h).2.1
  have hfuel : rest.length < 2 * (pre ++ rest).length + 1 := by
    rw [List.length_append]
    omega
  obtain ⟨i, m, hloop, -⟩ := overlapLoop_spec pre hlt hrest hfuel
  refine ⟨_, _, ⟨⟨pre, rest, rfl, hpre, rfl, rfl⟩⟩, ?_⟩
  rw [putEntries, if_neg (by omega)]
  simp only [hi, hloop]

theorem putEntries_some (h : Ordered es) (hlt : first < last) (v : α) :
    ∃ A B A₀ B₀ f l, Cut es first last A B ∧
      putEntries es first last (some v) = A₀ ++ ⟨f, l, v⟩ :: B₀ ∧
      ((A₀ = A ∧ f = first ∧ ∀ a, A.getLast? = some a → a.last = first → a.val ≠ v) ∨
        A = A₀ ++ [⟨f, first, v⟩]) ∧
      ((B₀ = B ∧ l = last ∧ ∀ b, B.head? = some b → b.first = last → b.val ≠ v) ∨
        B = ⟨last, l, v⟩ :: B₀) := by
  obtain ⟨pre, rest, rfl, hpre, hi⟩ := located_split h (getRangeTablePos_located first h)
  have hrest : Ordered rest := (ordered_append.mp h).2.1
  have hfuel : rest.length < 2 * (pre ++ rest).length + 1 := by
    rw [List.length_append]
    omega
  obtain ⟨i, m, hloop, hm⟩ := overlapLoop_spec pre hlt hrest hfuel
  obtain ⟨A₀, f, hbefore, hA⟩ :=
    combineBefore_spec first last (pre ++ below first rest) (above first last rest) v
  obtain ⟨B₀, l, hafter, hB⟩ := combineAfter_spec last A₀ (above first last rest) v f
  refine ⟨_, _, A₀, B₀, f, l, ⟨⟨pre, rest, rfl, hpre, rfl, rfl⟩⟩, ?_, hA, hB⟩
  rw [putEntries, if_neg (by omega)]
  simp only [hi, hloop]
  rw [hm, insertIdx_append, hbefore]
  exact hafter

/-! ### Values and order -/

omit [DecidableEq α] in
theorem value_below (first p : ℤ) (es : List (RangeTableEntry α)) :
    value (below first es) p = if p < first then value es p else none := by
  induction es with
  | nil => simp [below, value]
  | cons e es ih =>
    by_cases hlt : e.first < first
    · have hcontains : ({ e with last := min e.last first } : RangeTableEntry α).Contains p ↔
          e.Contains p ∧ p < first := by
        simp only [Contains, lt_min_iff]
        omega
      rw [below_cons_of_lt hlt, value_cons, value_cons, ih]
      simp only [hcontains]
      split_ifs <;> first | rfl | tauto
    · have hdrop : below first (e :: es) = below first es := by
        rw [below, List.filter_cons_of_neg (by simpa using hlt)]
        rfl
      rw [hdrop, value_cons, ih]
      split_ifs with hp hc
      · have hle := hc.1
        omega
      · rfl
      · rfl

omit [DecidableEq α] in
theorem value_above (first last p : ℤ) (es : List (RangeTableEntry α)) :
    value (above first last es) p = if last ≤ p then value es p else none := by
  induction es with
  | nil => simp [above, value]
  | cons e es ih =>
    by_cases hkeep : if e.first < first then last < e.last else last ≤ e.last
    · have hcontains : ({ e with first := max e.first last } : RangeTableEntry α).Contains p ↔
          e.Contains p ∧ last ≤ p := by
        simp only [Contains, max_le_iff]
        omega
      rw [above_cons_of_pos hkeep, value_cons, value_cons, ih]
      simp only [hcontains]
      split_ifs <;> first | rfl | tauto
    · rw [above_cons_of_neg hkeep, value_cons, ih]
      split_ifs with hp hc
      · obtain ⟨hc₁, hc₂⟩ := hc
        split_ifs at hkeep <;> omega
      · rfl
      · rfl

variable {A B : List (RangeTableEntry α)}

omit [DecidableEq α] in
theorem Cut.value (h : Cut es first last A B) (hlt : first < last) (p : ℤ) :
    Interval.value A p = (if p < first then Interval.value es p else none) ∧
      Interval.value B p = (if last ≤ p then Interval.value es p else none) := by
  obtain ⟨pre, rest, rfl, hpre, rfl, rfl⟩ := h.split
  have hnone : first ≤ p → Interval.value pre p = none := fun hp =>
    value_eq_none.mpr fun e he hc => by
      have hle := hpre e he
      have hlast := hc.2
      omega
  rw [value_append, value_append, value_below, value_above]
  constructor
  · split_ifs with hp
    · rfl
    · rw [hnone (Int.not_lt.mp hp)]
      rfl
  · split_ifs with hp
    · rw [hnone (by omega)]
      rfl
    · rfl

omit [DecidableEq α] in
theorem Cut.ordered (h : Cut es first last A B) (hes : Ordered es) :
    Ordered A ∧ Ordered B ∧ (∀ a ∈ A, a.last ≤ first) ∧ ∀ b ∈ B, last ≤ b.first := by
  obtain ⟨pre, rest, rfl, hpre, rfl, rfl⟩ := h.split
  obtain ⟨hopre, horest, hbefore⟩ := ordered_append.mp hes
  have hmemb : ∀ x ∈ below first rest, ∃ e ∈ rest, e.first < first ∧
      x = { e with last := min e.last first } := by
    intro x hx
    obtain ⟨e, he, rfl⟩ := List.mem_map.mp hx
    obtain ⟨hmem, hlt⟩ := List.mem_filter.mp he
    exact ⟨e, hmem, by simpa using hlt, rfl⟩
  have hmema : ∀ x ∈ above first last rest, ∃ e ∈ rest, last ≤ e.last ∧
      x = { e with first := max e.first last } := by
    intro x hx
    obtain ⟨e, he, rfl⟩ := List.mem_map.mp hx
    obtain ⟨hmem, hkeep⟩ := List.mem_filter.mp he
    refine ⟨e, hmem, ?_, rfl⟩
    split_ifs at hkeep <;> simp only [decide_eq_true_eq] at hkeep <;> omega
  have hbelow : Ordered (below first rest) := by
    refine ⟨fun x hx => ?_, List.pairwise_map.mpr ((horest.before.filter _).imp fun hle => ?_)⟩
    · obtain ⟨e, he, hfirst, rfl⟩ := hmemb x hx
      have hle := horest.le e he
      exact le_min hle (le_of_lt hfirst)
    · exact le_trans (min_le_left _ _) hle
  have habove : Ordered (above first last rest) := by
    refine ⟨fun x hx => ?_, List.pairwise_map.mpr ((horest.before.filter _).imp fun hle => ?_)⟩
    · obtain ⟨e, he, hlast, rfl⟩ := hmema x hx
      exact max_le (horest.le e he) hlast
    · exact le_trans hle (le_max_left _ _)
  refine ⟨ordered_append.mpr ⟨hopre, hbelow, fun a ha b hb => ?_⟩, habove, fun a ha => ?_, fun b hb => ?_⟩
  · obtain ⟨e, he, -, rfl⟩ := hmemb b hb
    exact hbefore a ha e he
  · rcases List.mem_append.mp ha with ha | ha
    · exact hpre a ha
    · obtain ⟨e, he, -, rfl⟩ := hmemb a ha
      exact min_le_right _ _
  · obtain ⟨e, he, -, rfl⟩ := hmema b hb
    exact le_max_right _ _

theorem putEntries_value (h : Ordered es) (first last : ℤ) (val : Option α) (p : ℤ) :
    value (putEntries es first last val) p = if first ≤ p ∧ p < last then val else value es p := by
  by_cases hlt : first < last
  · cases val with
    | none =>
      obtain ⟨A, B, hcut, heq⟩ := putEntries_none h hlt
      obtain ⟨hA, hB⟩ := hcut.value hlt p
      rw [heq, value_append, hA, hB]
      split_ifs <;> first | rfl | omega | simp
    | some v =>
      obtain ⟨A, B, A₀, B₀, f, l, hcut, heq, hbefore, hafter⟩ := putEntries_some h hlt v
      obtain ⟨hA, hB⟩ := hcut.value hlt p
      obtain ⟨hoA, hoB, hleA, hleB⟩ := hcut.ordered h
      -- joining the new range to its neighbours gives no other values
      have hnew : ∀ x y : ℤ, (⟨x, y, v⟩ : RangeTableEntry α).Contains p ↔ x ≤ p ∧ p < y := fun _ _ => Iff.rfl
      have hjoin : value (A₀ ++ ⟨f, l, v⟩ :: B₀) p = value (A ++ ⟨first, last, v⟩ :: B) p := by
        have hl : value (⟨first, l, v⟩ :: B₀) p = value (⟨first, last, v⟩ :: B) p ∧ last ≤ l := by
          rcases hafter with ⟨rfl, rfl, -⟩ | rfl
          · exact ⟨rfl, le_refl _⟩
          · have hle : last ≤ l := hoB.le _ List.mem_cons_self
            refine ⟨?_, hle⟩
            simp only [value_cons, hnew]
            split_ifs <;> first | rfl | omega
        rcases hbefore with ⟨rfl, rfl, -⟩ | rfl
        · rw [value_append, value_append, hl.1]
        · have hle : f ≤ first := hoA.le ⟨f, first, v⟩ (by simp)
          have hf : value (⟨f, l, v⟩ :: B₀) p = value (⟨f, first, v⟩ :: ⟨first, l, v⟩ :: B₀) p := by
            simp only [value_cons, hnew]
            split_ifs <;> first | rfl | omega
          rw [List.append_assoc, List.singleton_append, value_append, value_append, hf, value_cons, hl.1,
            ← value_cons]
      rw [heq, hjoin, value_append, value_cons, hA, hB]
      simp only [hnew]
      split_ifs <;> first | rfl | omega | simp
  · rw [putEntries, if_pos (Int.not_lt.mp hlt), if_neg (by omega)]

theorem putEntries_ordered (h : Ordered es) (first last : ℤ) (val : Option α) :
    Ordered (putEntries es first last val) := by
  by_cases hlt : first < last
  · cases val with
    | none =>
      obtain ⟨A, B, hcut, heq⟩ := putEntries_none h hlt
      obtain ⟨hoA, hoB, hleA, hleB⟩ := hcut.ordered h
      rw [heq]
      refine ordered_append.mpr ⟨hoA, hoB, fun a ha b hb => ?_⟩
      have ha' := hleA a ha
      have hb' := hleB b hb
      omega
    | some v =>
      obtain ⟨A, B, A₀, B₀, f, l, hcut, heq, hbefore, hafter⟩ := putEntries_some h hlt v
      obtain ⟨hoA, hoB, hleA, hleB⟩ := hcut.ordered h
      have hA₀ : Ordered A₀ ∧ f ≤ first ∧ ∀ a ∈ A₀, a.last ≤ f := by
        rcases hbefore with ⟨rfl, rfl, -⟩ | rfl
        · exact ⟨hoA, le_refl _, hleA⟩
        · obtain ⟨h₁, h₂, h₃⟩ := ordered_append.mp hoA
          exact ⟨h₁, h₂.le ⟨f, first, v⟩ (by simp), fun a ha => h₃ a ha ⟨f, first, v⟩ (by simp)⟩
      have hB₀ : Ordered B₀ ∧ last ≤ l ∧ ∀ b ∈ B₀, l ≤ b.first := by
        rcases hafter with ⟨rfl, rfl, -⟩ | rfl
        · exact ⟨hoB, le_refl _, hleB⟩
        · obtain ⟨h₁, h₂, h₃⟩ := ordered_cons.mp hoB
          exact ⟨h₂, h₁, h₃⟩
      obtain ⟨hoA₀, hf, hleA₀⟩ := hA₀
      obtain ⟨hoB₀, hl, hleB₀⟩ := hB₀
      rw [heq]
      refine ordered_append.mpr ⟨hoA₀, ordered_cons.mpr ⟨show f ≤ l by omega, hoB₀, hleB₀⟩, fun a ha b hb => ?_⟩
      have ha' := hleA₀ a ha
      rcases List.mem_cons.mp hb with rfl | hb
      · exact ha'
      · have hb' := hleB₀ b hb
        omega
  · rwa [putEntries, if_pos (Int.not_lt.mp hlt)]

/-- The range with these ends, which are open or closed as the type says, contains `p`. -/
def Covers (type : RangeTableType) (start finish p : ℤ) : Prop :=
  match type with
  | .startClosedEndOpen => start ≤ p ∧ p < finish
  | .startClosedEndClosed => start ≤ p ∧ p ≤ finish
  | .startOpenEndOpen => start < p ∧ p < finish
  | .startOpenEndClosed => start < p ∧ p ≤ finish

instance (type : RangeTableType) (start finish p : ℤ) : Decidable (Covers type start finish p) := by
  cases type <;> exact inferInstanceAs (Decidable (_ ∧ _))

/-- The value at `p` after a call, given the one before it. -/
def valueAfter (type : RangeTableType) (p : ℤ) (current : Option α) : Call α → Option α
  | .put start finish val => if Covers type start finish p then some val else current
  | .remove start finish => if Covers type start finish p then none else current
  | .clear => none

/-- The value of the last call that covers `p`: that of a put, none after a removal. -/
def lastValue (type : RangeTableType) (p : ℤ) (calls : List (Call α)) : Option α :=
  calls.foldl (valueAfter type p) none

variable {rt : RangeTable α} {type : RangeTableType}

omit [DecidableEq α] in
theorem covers_iff (type : RangeTableType) (start finish p : ℤ) :
    Covers type start finish p ↔ (externalToInternalAdjustEnds type start finish).1 ≤ p ∧
      p < (externalToInternalAdjustEnds type start finish).2 := by
  cases type <;> simp only [Covers, externalToInternalAdjustEnds] <;> omega

theorem put_step (h : Ordered rt.entries) (start finish : ℤ) (val : Option α) :
    ((rt.put start finish val).toOption.getD rt).type = rt.type ∧
      Ordered ((rt.put start finish val).toOption.getD rt).entries ∧
      ∀ p, value ((rt.put start finish val).toOption.getD rt).entries p =
        if Covers rt.type start finish p then val else value rt.entries p := by
  by_cases hle : start > finish
  · simp only [put, if_pos hle]
    refine ⟨rfl, h, fun p => ?_⟩
    rw [if_neg]
    · rfl
    · rw [covers_iff]
      cases rt.type <;> simp only [externalToInternalAdjustEnds] <;> omega
  · simp only [put, if_neg hle]
    refine ⟨rfl, putEntries_ordered h _ _ _, fun p => ?_⟩
    have hvalue := putEntries_value h (externalToInternalAdjustEnds rt.type start finish).1
      (externalToInternalAdjustEnds rt.type start finish).2 val p
    simp only [← covers_iff] at hvalue
    exact hvalue

theorem run_value {calls : List (Call α)} {ok : RangeTable α → Call α → Prop}
    (h : Run step ok (make type) calls rt) :
    rt.type = type ∧ Ordered rt.entries ∧ ∀ p, value rt.entries p = lastValue type p calls := by
  induction h with
  | nil => exact ⟨rfl, .nil, fun _ => rfl⟩
  | @snoc calls rt rt' call _ _ hs ih =>
    obtain ⟨rfl, hord, hvalue⟩ := ih
    have hlast : ∀ p, lastValue rt.type p (calls ++ [call]) =
        valueAfter rt.type p (lastValue rt.type p calls) call := fun p => by
      rw [lastValue, List.foldl_append]
      rfl
    cases call with
    | put start finish val =>
      obtain rfl := Option.some.inj hs
      obtain ⟨htype, hord', hvalue'⟩ := put_step hord start finish (some val)
      exact ⟨htype, hord', fun p => by rw [hvalue', hlast, hvalue]; rfl⟩
    | remove start finish =>
      obtain rfl := Option.some.inj hs
      obtain ⟨htype, hord', hvalue'⟩ := put_step hord start finish none
      exact ⟨htype, hord', fun p => by rw [hvalue', hlast, hvalue]; rfl⟩
    | clear =>
      obtain rfl := Option.some.inj hs
      exact ⟨rfl, .nil, fun p => by rw [hlast]; rfl⟩

/-- `get-range-table` returns the value of the last put that covers the position, and the
default where there is none or a removal came after it. -/
theorem run_getRangeTable {calls : List (Call α)} (h : Run step anyStep (make type) calls rt)
    (p : ℤ) (default_ : α) : rt.getRangeTable p default_ = (lastValue type p calls).getD default_ := by
  obtain ⟨-, hord, hvalue⟩ := run_value h
  rw [← hvalue, ← findEntry_value hord, getRangeTable]
  cases findEntry p rt.entries <;> rfl

theorem run_getRangeTable_split :
    ∃ rt : RangeTable Char, Run step anyStep (make .startOpenEndClosed)
        [.put 0 9 'a', .put 3 5 'b', .remove 7 20, .put 4 7 'c'] rt ∧ rt.getRangeTable 3 'z' = 'a' ∧
      rt.getRangeTable 3 'z' = (lastValue .startOpenEndClosed 3
        [.put 0 9 'a', .put 3 5 'b', .remove 7 20, .put 4 7 'c']).getD 'z' := by
  have hexec : (exec step (make .startOpenEndClosed)
      [.put 0 9 'a', .put 3 5 'b', .remove 7 20, .put 4 7 'c']).any
      (fun rt => decide (rt.getRangeTable 3 'z' = 'a')) = true := by decide +kernel
  obtain ⟨rt, hrt, hget⟩ := exists_run_of_exec hexec
  exact ⟨rt, hrt, hget, run_getRangeTable hrt 3 'z'⟩

end XEmacs.Table.RangeTable
