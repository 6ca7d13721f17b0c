import XEmacs.Sequence.MergeLists

/-! `list_array_merge_into_list`. Its tortoise starts at the head of the list when the loop has
turned 1024 times, far behind the loop if the head has been linked by then, and else ahead of it,
where it may be caught up with. -/

namespace XEmacs.Sequences

open Lib

variable {Obj : Type}

/-- From which of the two the elements come, the list or the array, until one of them ends. -/
def sides (takes : Obj → Obj → Bool) : List Obj → List Obj → List Bool
  | x :: xs, y :: ys =>
    if takes x y then true :: sides takes xs (y :: ys) else false :: sides takes (x :: xs) ys
  | _, _ => []
termination_by xs ys => xs.length + ys.length

/-- How many conses the tortoise has gone on after `n` turns. -/
def reach (n : ℕ) : ℕ := (n - 1023) / 2

theorem reach_succ {n : ℕ} (h : 1024 ≤ n) : reach (n + 1) = reach n + (n + 1) % 2 := by
  simp only [reach]
  omega

theorem reach_of_le {n : ℕ} (h : n ≤ 1024) : reach n = 0 := by
  simp only [reach]
  omega

/-- The loop is not mistaken for one over a circular list: the head is among the first 1024
elements, or the tortoise stays ahead in the list. -/
def Passes (length : ℕ) (flags : List Bool) : Prop :=
  true ∈ flags.take 1024 ∨
    ∀ n, 1024 < n → n ≤ flags.length → (flags.take n).count true < reach n ∧ reach n ≤ length

/-- The merged elements, where the array may be the first sequence. -/
def mergeInOrder (check : Obj → Obj → Bool) (reverseOrder : Bool) (xs ys : List Obj) : List Obj :=
  if reverseOrder then stableMerge check ys xs else stableMerge check xs ys

section

variable {check : Obj → Obj → Bool} {reverseOrder : Bool} {x y : Obj} (xs ys : List Obj)

theorem mergeInOrder_nil_left : mergeInOrder check reverseOrder [] ys = ys := by
  cases reverseOrder
  · exact stableMerge_nil_left check ys
  · exact stableMerge_nil_right check ys

theorem mergeInOrder_nil_right : mergeInOrder check reverseOrder xs [] = xs := by
  cases reverseOrder
  · exact stableMerge_nil_right check xs
  · exact stableMerge_nil_left check xs

theorem mergeInOrder_list (h : takesList check reverseOrder x y = true) :
    mergeInOrder check reverseOrder (x :: xs) (y :: ys) =
      x :: mergeInOrder check reverseOrder xs (y :: ys) := by
  cases reverseOrder
  · exact stableMerge_cons_left xs ys (by simpa [takesList] using h)
  · exact stableMerge_cons_right ys xs h

theorem mergeInOrder_array (h : takesList check reverseOrder x y = false) :
    mergeInOrder check reverseOrder (x :: xs) (y :: ys) =
      y :: mergeInOrder check reverseOrder (x :: xs) ys := by
  cases reverseOrder
  · exact stableMerge_cons_right xs ys (by simpa [takesList] using h)
  · exact stableMerge_cons_left ys xs h

end

theorem list_eq (h : Conses Obj) (xs : List Obj) :
    ∃ cells, SList (h.list xs).1.cdr (h.list xs).2 cells ∧ cells.map (h.list xs).1.car = xs ∧
      (∀ z ∈ cells, h.next ≤ z) ∧ (∀ z ∈ cells, z < (h.list xs).1.next) ∧
      h.next ≤ (h.list xs).1.next ∧
      ∀ z < h.next, (h.list xs).1.car z = h.car z ∧ (h.list xs).1.cdr z = h.cdr z := by
  induction xs with
  | nil => exact ⟨[], rfl, rfl, by simp, by simp, le_rfl, fun _ _ => ⟨rfl, rfl⟩⟩
  | cons x xs ih =>
    obtain ⟨cells, hlist, hcar, hnew, hbelow, hnext, hold⟩ := ih
    rw [Conses.list]
    generalize h.list xs = h₁ at hlist hcar hnew hbelow hnext hold
    have hne : ∀ z < h₁.1.next, z ≠ h₁.1.next := fun z hz => hz.ne
    have hcdr : ∀ z < h₁.1.next, (h₁.1.cons x h₁.2).cdr z = h₁.1.cdr z := fun z hz =>
      Function.update_of_ne (hne z hz) _ _
    have hcar' : ∀ z < h₁.1.next, (h₁.1.cons x h₁.2).car z = h₁.1.car z := fun z hz =>
      Function.update_of_ne (hne z hz) _ _
    refine ⟨h₁.1.next :: cells, ⟨rfl, ?_⟩, ?_, ?_, ?_, ?_, ?_⟩
    · rw [show (h₁.1.cons x h₁.2).cdr h₁.1.next = h₁.2 from Function.update_self _ _ _]
      exact hlist.congr fun z hz => hcdr z (hbelow z hz)
    · rw [List.map_cons, show (h₁.1.cons x h₁.2).car h₁.1.next = x from Function.update_self _ _ _,
        List.map_congr_left fun z hz => hcar' z (hbelow z hz), hcar]
    · exact List.forall_mem_cons.mpr ⟨hnext, hnew⟩
    · exact List.forall_mem_cons.mpr ⟨Nat.lt_succ_self _, fun z hz => Nat.lt_succ_of_lt (hbelow z hz)⟩
    · exact Nat.le_succ_of_le hnext
    · intro z hz
      have hz' : z < h₁.1.next := lt_of_lt_of_le hz hnext
      exact ⟨(hcar' z hz').trans (hold z hz).1, (hcdr z hz').trans (hold z hz).2⟩

/-! ### The tortoise -/

/-- Where the tortoise is after the turns `flags`, which have linked `c`: in `c` behind the head, or
else ahead in the list. -/
def TortoiseAt (cells : List ℕ) (flags : List Bool) (c : List ℕ) (tortoise : Option ℕ) : Prop :=
  if true ∈ flags.take 1024 then
    ∃ i < 1024, ∃ hi : i + reach flags.length < c.length,
      tortoise = some (c)[i + reach flags.length]
  else
    tortoise = cells[reach flags.length]? ∧
      ∀ n, 1024 < n → n ≤ flags.length →
        (flags.take n).count true < reach n ∧ reach n ≤ cells.length

section

variable {h : Conses Obj} {cells c xs : List ℕ} {flags : List Bool} {b : Bool} {z : ℕ}
  {tail value list tortoise : Option ℕ}

theorem mem_take_of_mem_take (hmem : true ∈ flags.take 1024) (more : List Bool) :
    true ∈ (flags ++ more).take 1024 := by
  rw [List.take_append]
  exact List.mem_append_left _ hmem

theorem TortoiseAt.behind (hb : Building h.cdr value tail (c ++ [z]))
    (hlength : c.length = flags.length) (htortoise : TortoiseAt cells flags c tortoise)
    (hmem : true ∈ flags.take 1024) (hlist : ∀ y, list = some y → y ∉ c ++ [z]) :
    ∃ tortoise', (if flags.length + 1 > 1024 then
        walkTortoise h (flags.length + 1) .xcdrOfNil list tortoise
      else .ok tortoise) = .ok tortoise' ∧
      TortoiseAt cells (flags ++ [b]) (c ++ [z]) tortoise' := by
  rw [TortoiseAt, if_pos hmem] at htortoise
  obtain ⟨i, hi, hlt, heq⟩ := htortoise
  have hmem' := mem_take_of_mem_take hmem [b]
  have hlt' : i + reach flags.length < (c ++ [z]).length := by
    rw [List.length_append]
    omega
  have hget : (c ++ [z])[i + reach flags.length] = (c)[i + reach flags.length] :=
    List.getElem_append_left hlt
  by_cases hlate : flags.length + 1 > 1024
  · have hbound : i + reach flags.length + 1 < (c ++ [z]).length := by
      rw [List.length_append, List.length_singleton]
      omega
    obtain ⟨hj, hwalk⟩ := walkTortoise_linked (flags.length + 1) .xcdrOfNil hb
      hbound hlist
    rw [if_pos hlate, heq, ← hget, hwalk]
    refine ⟨_, rfl, ?_⟩
    rw [TortoiseAt, if_pos hmem', List.length_append, List.length_singleton,
      reach_succ (by omega : 1024 ≤ flags.length)]
    exact ⟨i, hi, by omega, by simp only [Nat.add_assoc]⟩
  · rw [if_neg hlate]
    refine ⟨tortoise, rfl, ?_⟩
    have hzero : reach flags.length = 0 := reach_of_le (by omega)
    have hzero' : reach (flags ++ [b]).length = 0 := reach_of_le (by
      rw [List.length_append, List.length_singleton]
      omega)
    simp only [hzero, Nat.add_zero] at heq hlt
    rw [TortoiseAt, if_pos hmem']
    refine ⟨i, hi, ?_, ?_⟩
    · rw [hzero', List.length_append]
      omega
    · simp only [hzero', Nat.add_zero]
      rw [heq, List.getElem_append_left hlt]

theorem TortoiseAt.early (hlength : c.length = flags.length)
    (htortoise : TortoiseAt cells flags c tortoise) (hmem : true ∉ flags.take 1024)
    (hearly : flags.length + 1 ≤ 1024) (hz : b = true → cells.head? = some z) :
    TortoiseAt cells (flags ++ [b]) (c ++ [z]) tortoise := by
  have hzero : reach flags.length = 0 := reach_of_le (by omega)
  rw [TortoiseAt, if_neg hmem, hzero] at htortoise
  have hreach : reach (flags ++ [b]).length = 0 := reach_of_le (by
    rw [List.length_append, List.length_singleton]
    exact hearly)
  have htake : (flags ++ [b]).take 1024 = flags ++ [b] := List.take_of_length_le (by
    rw [List.length_append, List.length_singleton]
    exact hearly)
  rw [List.take_of_length_le (by omega)] at hmem
  cases b with
  | true =>
    have hmem' : true ∈ (flags ++ [true]).take 1024 := by
      rw [htake]
      exact List.mem_append_right _ List.mem_cons_self
    rw [TortoiseAt, if_pos hmem']
    refine ⟨c.length, by omega, ?_, ?_⟩
    · rw [hreach, List.length_append, List.length_singleton]
      omega
    · simp only [hreach, Nat.add_zero]
      rw [htortoise.1, List.getElem_concat_length rfl, ← hz rfl, List.head?_eq_getElem?]
  | false =>
    have hmem' : true ∉ (flags ++ [false]).take 1024 := by
      rw [htake]
      intro hmem'
      rcases List.mem_append.mp hmem' with hmem' | hmem'
      · exact hmem hmem'
      · exact Bool.false_ne_true (List.mem_singleton.mp hmem').symm
    rw [TortoiseAt, if_neg hmem', hreach]
    refine ⟨htortoise.1, fun n hn hle => ?_⟩
    rw [List.length_append, List.length_singleton] at hle
    omega

theorem getElem?_eq_iff {i j : ℕ} (hnodup : cells.Nodup) (hij : i ≤ j) (hj : j ≤ cells.length) :
    cells[i]? = cells[j]? ↔ i = j := by
  constructor
  · intro heq
    by_contra hne
    have hi : i < cells.length := by omega
    rw [List.getElem?_eq_getElem hi] at heq
    obtain ⟨hj', hget⟩ := List.getElem?_eq_some_iff.mp heq.symm
    exact hne ((List.Nodup.getElem_inj_iff hnodup).mp hget.symm)
  · rintro rfl
    rfl

theorem not_passes (length : ℕ) (hmem : true ∉ flags.take 1024) (hlate : 1024 ≤ flags.length)
    (hbad : ¬ ((flags ++ [b]).count true < reach (flags.length + 1) ∧
      reach (flags.length + 1) ≤ length)) (more : List Bool) :
    ¬ Passes length (flags ++ [b] ++ more) := by
  rintro (hearly | hall)
  · rw [List.append_assoc, List.take_append_of_le_length hlate] at hearly
    exact hmem hearly
  · have hlength : (flags ++ [b]).length = flags.length + 1 := by
      rw [List.length_append, List.length_singleton]
    have hlast := hall (flags.length + 1) (by omega) (by
      rw [List.length_append, hlength]
      omega)
    rw [List.take_append_of_le_length hlength.ge, List.take_of_length_le hlength.le] at hlast
    exact hbad hlast

theorem TortoiseAt.ahead (hnodup : cells.Nodup) (htortoise : TortoiseAt cells flags c tortoise)
    (hmem : true ∉ flags.take 1024) (hlate : 1024 ≤ flags.length)
    (hcdr : ∀ i, ∀ hi : i < cells.length, flags.count true ≤ i → h.cdr cells[i] = cells[i + 1]?)
    (hlist : list = cells[(flags ++ [b]).count true]?) :
    (∃ tortoise', walkTortoise h (flags.length + 1) .xcdrOfNil list tortoise = .ok tortoise' ∧
      TortoiseAt cells (flags ++ [b]) (c ++ [z]) tortoise') ∨
    ∃ e, walkTortoise h (flags.length + 1) .xcdrOfNil list tortoise = .error e ∧ e ≠ .unfinished ∧
      ∀ more, ¬ Passes cells.length (flags ++ [b] ++ more) := by
  rw [TortoiseAt, if_neg hmem] at htortoise
  obtain ⟨htortoise, hall⟩ := htortoise
  have hcount : flags.count true ≤ (flags ++ [b]).count true ∧
      (flags ++ [b]).count true ≤ flags.count true + 1 := by
    rw [List.count_append]
    have hle : [b].count true ≤ [b].length := List.count_le_length
    rw [List.length_singleton] at hle
    omega
  have hreach := reach_succ hlate
  -- where the list is before this turn
  have hbefore : flags.count true ≤ reach flags.length ∧ reach flags.length ≤ cells.length ∧
      (1024 < flags.length → flags.count true < reach flags.length) := by
    by_cases hlength : flags.length = 1024
    · rw [List.take_of_length_le hlength.le] at hmem
      rw [List.count_eq_zero.mpr hmem]
      exact ⟨Nat.zero_le _, by rw [reach_of_le hlength.le]; exact Nat.zero_le _, fun h => by omega⟩
    · have hlast := hall flags.length (by omega) le_rfl
      rw [List.take_length] at hlast
      exact ⟨hlast.1.le, hlast.2, fun _ => hlast.1⟩
  have hfail := fun hbad => not_passes (b := b) cells.length hmem hlate hbad
  have hkeep : (flags ++ [b]).count true < reach (flags.length + 1) →
      reach (flags.length + 1) ≤ cells.length →
      TortoiseAt cells (flags ++ [b]) (c ++ [z]) cells[reach (flags.length + 1)]? := by
    intro hlt hle
    have hlength : (flags ++ [b]).length = flags.length + 1 := by
      rw [List.length_append, List.length_singleton]
    rw [TortoiseAt, List.take_append_of_le_length hlate, if_neg hmem, hlength]
    refine ⟨rfl, fun n hn hnle => ?_⟩
    by_cases hlast : n = flags.length + 1
    · subst hlast
      rw [List.take_of_length_le hlength.le]
      exact ⟨hlt, hle⟩
    · rw [List.take_append_of_le_length (by omega)]
      exact hall n hn (by omega)
  -- the comparison at the end of the turn
  have hcompare : reach (flags.length + 1) ≤ cells.length →
      (flags ++ [b]).count true ≤ reach (flags.length + 1) →
      ∀ turn : Except MergeError (Option ℕ),
      (turn = if list = cells[reach (flags.length + 1)]? then .error .circularList
        else .ok cells[reach (flags.length + 1)]?) →
      (∃ tortoise', turn = .ok tortoise' ∧ TortoiseAt cells (flags ++ [b]) (c ++ [z]) tortoise') ∨
      ∃ e, turn = .error e ∧ e ≠ .unfinished ∧
        ∀ more, ¬ Passes cells.length (flags ++ [b] ++ more) := by
    rintro hle hcount' turn rfl
    have hsame := getElem?_eq_iff hnodup hcount' hle
    rw [← hlist] at hsame
    split
    case isTrue heq =>
      have hcaught := hsame.mp heq
      exact Or.inr ⟨_, rfl, fun h => MergeError.noConfusion h, hfail fun h => by omega⟩
    case isFalse hne =>
      have hahead : ¬ (flags ++ [b]).count true = reach (flags.length + 1) :=
        fun heq => hne (hsame.mpr heq)
      exact Or.inl ⟨_, rfl, hkeep (by omega) hle⟩
  rcases Nat.mod_two_eq_zero_or_one (flags.length + 1) with heven | hodd
  · have hstays : reach (flags.length + 1) = reach flags.length := by omega
    have hlt := hbefore.2.2 (by omega)
    refine hcompare (by omega) (by omega) _ ?_
    rw [walkTortoise_even heven, htortoise, hstays]
  · rw [hodd] at hreach
    by_cases hend : reach flags.length = cells.length
    · have hnone : tortoise = none := by
        rw [htortoise, hend, List.getElem?_eq_none le_rfl]
      rw [hnone, walkTortoise_nil hodd]
      exact Or.inr ⟨_, rfl, fun h => MergeError.noConfusion h, hfail fun h => by omega⟩
    · have hi : reach flags.length < cells.length := by omega
      refine hcompare (by omega) (by omega) _ ?_
      rw [htortoise, List.getElem?_eq_getElem hi, walkTortoise_cons hodd, hcdr _ hi hbefore.1,
        hreach]

theorem TortoiseAt.turn (hb : Building h.cdr value tail (c ++ [z])) (hlength : c.length = flags.length)
    (hnodup : cells.Nodup) (htortoise : TortoiseAt cells flags c tortoise)
    (hcdr : ∀ i, ∀ hi : i < cells.length, flags.count true ≤ i → h.cdr cells[i] = cells[i + 1]?)
    (hlist : list = cells[(flags ++ [b]).count true]?) (hapart : ∀ y, list = some y → y ∉ c ++ [z])
    (hz : b = true → cells[flags.count true]? = some z) :
    (∃ tortoise', (if flags.length + 1 > 1024 then
        walkTortoise h (flags.length + 1) .xcdrOfNil list tortoise
      else .ok tortoise) = .ok tortoise' ∧ TortoiseAt cells (flags ++ [b]) (c ++ [z]) tortoise') ∨
    ∃ e, (if flags.length + 1 > 1024 then
        walkTortoise h (flags.length + 1) .xcdrOfNil list tortoise
      else .ok tortoise) = .error e ∧ e ≠ .unfinished ∧
      ∀ more, ¬ Passes cells.length (flags ++ [b] ++ more) := by
  by_cases hmem : true ∈ flags.take 1024
  · exact Or.inl (htortoise.behind hb hlength hmem hapart)
  · by_cases hlate : flags.length + 1 > 1024
    · rw [if_pos hlate]
      exact htortoise.ahead hnodup hmem (by omega) hcdr hlist
    · rw [if_neg hlate]
      refine Or.inl ⟨tortoise, rfl, htortoise.early hlength hmem (by omega) fun htrue => ?_⟩
      rw [List.take_of_length_le (by omega)] at hmem
      rw [← hz htrue, List.count_eq_zero.mpr hmem, List.head?_eq_getElem?]

theorem TortoiseAt.passes (htortoise : TortoiseAt cells flags c tortoise) :
    Passes cells.length flags := by
  rw [TortoiseAt] at htortoise
  split at htortoise
  case isTrue hmem => exact Or.inl hmem
  case isFalse => exact Or.inr htortoise.2

end

/-! ### The loop -/

/-- The loop after the turns `flags`, with `xs` left of the list, whose conses were `cells`. -/
structure ListArrayMerging (cells : List ℕ) (h : Conses Obj) (s : ListArrayMerge) (flags : List Bool)
    (c xs : List ℕ) : Prop where
  building : Building h.cdr s.value s.tail c
  length : c.length = flags.length
  looped : s.looped = flags.length
  rest : SList h.cdr s.list xs
  drop : cells.drop (flags.count true) = xs
  nodup : cells.Nodup
  apart : ∀ x ∈ xs, x ∉ c
  belowLinked : ∀ x ∈ c, x < h.next
  belowRest : ∀ x ∈ xs, x < h.next
  tortoise : TortoiseAt cells flags c s.tortoise

namespace ListArrayMerging

variable {cells c xs : List ℕ} {h h' : Conses Obj} {s : ListArrayMerge} {flags : List Bool} {z : ℕ}

theorem cdr_cells (hm : ListArrayMerging cells h s flags c xs) (hsame : ∀ x ∈ xs, h'.cdr x = h.cdr x)
    (i : ℕ) (hi : i < cells.length) (hle : flags.count true ≤ i) :
    h'.cdr cells[i] = cells[i + 1]? := by
  have hi' : i - flags.count true < xs.length := by
    rw [← hm.drop, List.length_drop]
    omega
  have hget : xs[i - flags.count true] = cells[i] := by
    simp only [← hm.drop, List.getElem_drop]
    congr 1
    omega
  have hnext := hm.rest.next_getElem hi'
  rw [hget] at hnext
  rw [hsame _ (hget ▸ List.getElem_mem hi'), hnext, ← hm.drop, List.getElem?_drop]
  congr 1
  omega

theorem apart_concat (hm : ListArrayMerging cells h s flags c xs) {xs' : List ℕ}
    (hsub : ∀ x ∈ xs', x ∈ xs) (hz : z ∉ xs') : ∀ x ∈ xs', x ∉ c ++ [z] := by
  intro x hx hmem
  rcases List.mem_append.mp hmem with hmem | hmem
  · exact hm.apart x (hsub x hx) hmem
  · exact hz (List.mem_singleton.mp hmem ▸ hx)

end ListArrayMerging

section

variable {takes : Obj → Obj → Bool} {x y : Obj} (xs ys : List Obj)

@[simp] theorem sides_nil_left : sides takes [] ys = [] := by
  rw [sides]
  rintro _ _ _ _ ⟨⟩

@[simp] theorem sides_nil_right : sides takes xs [] = [] := by
  rw [sides]
  rintro _ _ _ _ _ ⟨⟩

theorem sides_cons_list (h : takes x y = true) :
    sides takes (x :: xs) (y :: ys) = true :: sides takes xs (y :: ys) := by
  rw [sides, if_pos h]

theorem sides_cons_array (h : takes x y = false) :
    sides takes (x :: xs) (y :: ys) = false :: sides takes (x :: xs) ys := by
  rw [sides, h, if_neg Bool.false_ne_true]

end

/-- What the loop gives: the list of the merged elements, or an error; unless it is not given
turns enough. -/
def LoopResult (cells : List ℕ) (all : List Bool) (elements : List Obj) (bound fuel : ℕ)
    (result : Except MergeError (Conses Obj × Option ℕ)) : Prop :=
  (∃ h p zs, result = .ok (h, p) ∧ Passes cells.length all ∧ SList h.cdr p zs ∧
    zs.map h.car = elements ∧ ∀ z ∈ zs, z < h.next) ∨
  (∃ e, result = .error e ∧ e ≠ .unfinished ∧ ¬ Passes cells.length all) ∨
  (result = .error .unfinished ∧ fuel ≤ bound)

theorem LoopResult.succ {cells : List ℕ} {all : List Bool} {elements : List Obj} {bound fuel : ℕ}
    {result : Except MergeError (Conses Obj × Option ℕ)}
    (hresult : LoopResult cells all elements bound fuel result) :
    LoopResult cells all elements (bound + 1) (fuel + 1) result :=
  hresult.imp_right fun h => h.imp_right fun h => ⟨h.1, Nat.succ_le_succ h.2⟩

namespace ListArrayMerging

variable {cells c xs : List ℕ} {h : Conses Obj} {flags : List Bool} {x : ℕ} {y : Obj}
  {list tail value tortoise : Option ℕ} {arrayIndex looped : ℕ}

theorem takeList
    (hm : ListArrayMerging cells h ⟨some x, tail, value, tortoise, arrayIndex, looped⟩ flags c
      (x :: xs)) :
    let h' := (h.attach tail value (some x)).1
    (∃ tortoise', (if flags.length + 1 > 1024 then
        walkTortoise h' (flags.length + 1) .xcdrOfNil (h'.cdr x) tortoise
      else .ok tortoise) = .ok tortoise' ∧
      ListArrayMerging cells h' ⟨h'.cdr x, some x, (h.attach tail value (some x)).2, tortoise',
        arrayIndex, flags.length + 1⟩ (flags ++ [true]) (c ++ [x]) xs) ∨
    ∃ e, (if flags.length + 1 > 1024 then
        walkTortoise h' (flags.length + 1) .xcdrOfNil (h'.cdr x) tortoise
      else .ok tortoise) = .error e ∧ e ≠ .unfinished ∧
      ∀ more, ¬ Passes cells.length (flags ++ [true] ++ more) := by
  intro h'
  have hx : x ∉ c := hm.apart x List.mem_cons_self
  have hcons := List.nodup_cons.mp hm.rest.nodup
  have hb := building_attach hm.building hx
  have hsame : ∀ z ∈ x :: xs, h'.cdr z = h.cdr z := fun z hz => h.attach_cdr_of_ne fun htail =>
    hm.apart z hz (List.mem_of_getLast? (hm.building.last ▸ htail))
  have hrest : SList h'.cdr (h'.cdr x) xs := by
    rw [hsame x List.mem_cons_self]
    exact hm.rest.2.congr fun z hz => hsame z (List.mem_cons_of_mem x hz)
  have hdrop : cells.drop ((flags ++ [true]).count true) = xs := by
    rw [List.count_append, List.count_singleton_self, ← List.tail_drop, hm.drop, List.tail_cons]
  have hapart := hm.apart_concat (fun z hz => List.mem_cons_of_mem x hz) hcons.1
  have hlist : h'.cdr x = cells[(flags ++ [true]).count true]? := by
    rw [hrest.head?_eq, ← hdrop, List.head?_drop]
  have hturn := TortoiseAt.turn hb hm.length hm.nodup hm.tortoise (hm.cdr_cells hsame) hlist
    (fun z hz => hapart z (List.mem_of_mem_head? (hrest.head?_eq ▸ hz)))
    (fun _ => by rw [← List.head?_drop, hm.drop, List.head?_cons])
  refine hturn.imp_left fun ⟨tortoise', hwalk, htortoise⟩ => ⟨tortoise', hwalk, hb, ?_, ?_, hrest,
    hdrop, hm.nodup, hapart, ?_, ?_, htortoise⟩
  · rw [List.length_append, List.length_append, hm.length]
    rfl
  · rw [List.length_append]
    rfl
  · rw [h.attach_next]
    intro z hz
    rcases List.mem_append.mp hz with hz | hz
    · exact hm.belowLinked z hz
    · exact List.mem_singleton.mp hz ▸ hm.belowRest x List.mem_cons_self
  · rw [h.attach_next]
    exact fun z hz => hm.belowRest z (List.mem_cons_of_mem x hz)

theorem takeArray (hm : ListArrayMerging cells h ⟨some x, tail, value, tortoise, arrayIndex, looped⟩
      flags c (x :: xs)) :
    let h' := ((h.cons y tail).attach tail value (some h.next)).1
    (∃ tortoise', (if flags.length + 1 > 1024 then
        walkTortoise h' (flags.length + 1) .xcdrOfNil (some x) tortoise
      else .ok tortoise) = .ok tortoise' ∧
      ListArrayMerging cells h' ⟨some x, some h.next,
        ((h.cons y tail).attach tail value (some h.next)).2, tortoise', arrayIndex + 1,
        flags.length + 1⟩ (flags ++ [false]) (c ++ [h.next]) (x :: xs)) ∨
    ∃ e, (if flags.length + 1 > 1024 then
        walkTortoise h' (flags.length + 1) .xcdrOfNil (some x) tortoise
      else .ok tortoise) = .error e ∧ e ≠ .unfinished ∧
      ∀ more, ¬ Passes cells.length (flags ++ [false] ++ more) := by
  intro h'
  have hnew : ∀ z < h.next, (h.cons y tail).cdr z = h.cdr z := fun z hz =>
    Function.update_of_ne hz.ne _ _
  have hb₁ := hm.building.congr fun z hz => hnew z (hm.belowLinked z hz)
  have hfresh : h.next ∉ c := fun hz => Nat.lt_irrefl _ (hm.belowLinked _ hz)
  have hfresh' : h.next ∉ x :: xs := fun hz => Nat.lt_irrefl _ (hm.belowRest _ hz)
  have hb := building_attach hb₁ hfresh
  have hsame : ∀ z ∈ x :: xs, h'.cdr z = h.cdr z := fun z hz =>
    ((h.cons y tail).attach_cdr_of_ne fun htail =>
      hm.apart z hz (List.mem_of_getLast? (hm.building.last ▸ htail))).trans
        (hnew z (hm.belowRest z hz))
  have hrest : SList h'.cdr (some x) (x :: xs) := hm.rest.congr hsame
  have hdrop : cells.drop ((flags ++ [false]).count true) = x :: xs := by
    rw [List.count_append, List.count_singleton, if_neg (by decide), Nat.add_zero, hm.drop]
  have hapart := hm.apart_concat (fun z hz => hz) hfresh'
  have hlist : some x = cells[(flags ++ [false]).count true]? := by
    rw [← List.head?_drop, hdrop, List.head?_cons]
  have hturn := TortoiseAt.turn hb hm.length hm.nodup hm.tortoise (hm.cdr_cells hsame) hlist
    (fun z hz => Option.some_inj.mp hz ▸ hapart x List.mem_cons_self)
    (fun hfalse => absurd hfalse Bool.false_ne_true)
  refine hturn.imp_left fun ⟨tortoise', hwalk, htortoise⟩ => ⟨tortoise', hwalk, hb, ?_, ?_, hrest,
    hdrop, hm.nodup, hapart, ?_, ?_, htortoise⟩
  · rw [List.length_append, List.length_append, hm.length]
    rfl
  · rw [List.length_append]
    rfl
  · rw [Conses.attach_next]
    intro z hz
    rcases List.mem_append.mp hz with hz | hz
    · exact Nat.lt_succ_of_lt (hm.belowLinked z hz)
    · exact List.mem_singleton.mp hz ▸ Nat.lt_succ_self _
  · rw [Conses.attach_next]
    exact fun z hz => Nat.lt_succ_of_lt (hm.belowRest z hz)

end ListArrayMerging

theorem listArrayMergeLoop_eq (check : Obj → Obj → Bool) (reverseOrder : Bool) (array : List Obj)
    {fuel : ℕ} {cells c xs : List ℕ} {h : Conses Obj} {s : ListArrayMerge} {flags : List Bool}
    {ys : List Obj} (hm : ListArrayMerging cells h s flags c xs) (hys : array.drop s.arrayIndex = ys) :
    LoopResult cells (flags ++ sides (takesList check reverseOrder) (xs.map h.car) ys)
      (c.map h.car ++ mergeInOrder check reverseOrder (xs.map h.car) ys) (xs.length + ys.length) fuel
      (listArrayMergeLoop check reverseOrder array fuel h s) := by
  induction fuel generalizing c xs h s flags ys with
  | zero => exact Or.inr (Or.inr ⟨rfl, Nat.zero_le _⟩)
  | succ fuel ih =>
    obtain ⟨list, tail, value, tortoise, arrayIndex, looped⟩ := s
    have hlooped : looped = flags.length := hm.looped
    cases xs with
    | nil =>
      obtain rfl : list = none := hm.rest
      obtain ⟨new, hlist, hcar, hnew, hbelow, hnext, hold⟩ := list_eq h (array.drop arrayIndex)
      have hb := hm.building.congr fun y hy => (hold y (hm.belowLinked y hy)).2
      refine Or.inl ⟨((h.list (array.drop arrayIndex)).1.attach tail value
          (h.list (array.drop arrayIndex)).2).1,
        ((h.list (array.drop arrayIndex)).1.attach tail value (h.list (array.drop arrayIndex)).2).2,
        c ++ new, rfl, ?_, finish_attach hb hlist fun y hy hmem => ?_, ?_, fun y hy => ?_⟩
      · rw [List.map_nil, sides_nil_left, List.append_nil]
        exact hm.tortoise.passes
      · exact absurd (hm.belowLinked y hmem) (Nat.not_lt.mpr (hnew y hy))
      · rw [Conses.attach_car, List.map_append, hcar,
          List.map_congr_left fun y hy => (hold y (hm.belowLinked y hy)).1, List.map_nil,
          mergeInOrder_nil_left]
        exact congrArg _ hys
      · rw [Conses.attach_next]
        exact (List.mem_append.mp hy).elim (fun hy => lt_of_lt_of_le (hm.belowLinked y hy) hnext)
          (hbelow y)
    | cons x xs =>
      obtain rfl : list = some x := hm.rest.1
      cases ys with
      | nil =>
        have hnone : array[arrayIndex]? = none := by
          rw [← List.head?_drop, show array.drop arrayIndex = [] from hys, List.head?_nil]
        rw [listArrayMergeLoop]
        simp only [hnone]
        refine Or.inl ⟨(h.attach tail value (some x)).1, (h.attach tail value (some x)).2,
          c ++ x :: xs, rfl, ?_, finish_attach hm.building hm.rest hm.apart, ?_, fun y hy => ?_⟩
        · rw [sides_nil_right, List.append_nil]
          exact hm.tortoise.passes
        · rw [Conses.attach_car, List.map_append, mergeInOrder_nil_right]
        · rw [h.attach_next]
          exact (List.mem_append.mp hy).elim (hm.belowLinked y) (hm.belowRest y)
      | cons y ys =>
        have hsome : array[arrayIndex]? = some y := by
          rw [← List.head?_drop, show array.drop arrayIndex = y :: ys from hys, List.head?_cons]
        have hnext : array.drop (arrayIndex + 1) = ys := by
          rw [← List.tail_drop, show array.drop arrayIndex = y :: ys from hys, List.tail_cons]
        rw [listArrayMergeLoop]
        simp only [hsome, hlooped]
        cases htakes : takesList check reverseOrder (h.car x) y with
        | true =>
          rw [if_pos rfl, List.map_cons, sides_cons_list _ _ htakes, mergeInOrder_list _ _ htakes,
            List.append_cons, List.append_cons (c.map h.car)]
          rcases hm.takeList with ⟨tortoise', hwalk, hm'⟩ | ⟨e, hwalk, hne, hall⟩
          · have hresult := (ih hm' hys).succ
            rw [Conses.attach_car, List.map_append] at hresult
            rw [hwalk, List.length_cons, Nat.add_right_comm]
            exact hresult
          · refine Or.inr (Or.inl ⟨e, ?_, hne, hall _⟩)
            rw [hwalk]
            rfl
        | false =>
          rw [if_neg Bool.false_ne_true, List.map_cons, sides_cons_array _ _ htakes,
            mergeInOrder_array _ _ htakes, List.append_cons, List.append_cons (c.map h.car)]
          rcases hm.takeArray (y := y) with ⟨tortoise', hwalk, hm'⟩ | ⟨e, hwalk, hne, hall⟩
          · have hcar : ∀ z < h.next, (h.cons y tail).car z = h.car z := fun z hz =>
              Function.update_of_ne hz.ne _ _
            have hresult := (ih hm' hnext).succ
            rw [Conses.attach_car, List.map_append,
              List.map_congr_left fun z hz => hcar z (hm.belowRest z hz),
              List.map_congr_left fun z hz => hcar z (hm.belowLinked z hz), List.map_singleton,
              show (h.cons y tail).car h.next = y from Function.update_self _ _ _] at hresult
            rw [hwalk, show (x :: xs).length + (y :: ys).length = (x :: xs).length + ys.length + 1 from rfl]
            exact hresult
          · refine Or.inr (Or.inl ⟨e, ?_, hne, hall _⟩)
            rw [hwalk]
            rfl

theorem listArrayMergeIntoList_eq (check : Obj → Obj → Bool) (fuel : ℕ) {h : Conses Obj}
    {p : Option ℕ} {xs : List ℕ} (hxs : SList h.cdr p xs) (hbelow : ∀ x ∈ xs, x < h.next)
    (array : List Obj) (reverseOrder : Bool) :
    LoopResult xs (sides (takesList check reverseOrder) (xs.map h.car) array)
      (mergeInOrder check reverseOrder (xs.map h.car) array) (xs.length + array.length) fuel
      (listArrayMergeIntoList check fuel h p array reverseOrder) := by
  have htortoise : TortoiseAt xs [] [] p := by
    rw [TortoiseAt, if_neg (by simp)]
    refine ⟨?_, fun n hn hle => absurd hle (by rw [List.length_nil]; omega)⟩
    rw [hxs.head?_eq, List.head?_eq_getElem?]
    rfl
  have hm : ListArrayMerging xs h ⟨p, none, none, p, 0, 0⟩ [] [] xs :=
    ⟨Building.nil, rfl, rfl, hxs, List.drop_zero, hxs.nodup, fun _ _ => List.not_mem_nil,
      fun _ hx => absurd hx List.not_mem_nil, hbelow, htortoise⟩
  exact listArrayMergeLoop_eq check reverseOrder array hm List.drop_zero

end XEmacs.Sequences
