import Mathlib.Order.Bounds.Basic
import XEmacs.Sequence.MismatchExact
import XEmacs.Sequence.Search

/-! `search` finds the first occurrence, or the last from the end. The loops of `position` are a
search for the first or the last element of a range, and of `mismatch` only matters whether it is
nil. -/

namespace XEmacs.Sequences

open Lib

variable {Obj : Type} {L : Objects Obj} {T : Test Obj}

section Found

variable {p : Obj → Prop} {xs : List Obj} {lo hi : ℕ} {x : Obj} {r : Option ℕ}

def FirstFound (p : Obj → Prop) (xs : List Obj) (lo hi : ℕ) (r : Option ℕ) : Prop :=
  match r with
  | none => ∀ k x, lo ≤ k → k < hi → xs[k]? = some x → ¬p x
  | some i => (lo ≤ i ∧ i < hi) ∧ (∃ x, xs[i]? = some x ∧ p x) ∧ ∀ k x, lo ≤ k → k < i → xs[k]? = some x → ¬p x

def LastFound (p : Obj → Prop) (xs : List Obj) (lo hi : ℕ) (r : Option ℕ) : Prop :=
  match r with
  | none => ∀ k x, lo ≤ k → k < hi → xs[k]? = some x → ¬p x
  | some i => (lo ≤ i ∧ i < hi) ∧ (∃ x, xs[i]? = some x ∧ p x) ∧ ∀ k x, i < k → k < hi → xs[k]? = some x → ¬p x

theorem firstFound_of_le (h : hi ≤ lo) : FirstFound p xs lo hi none := by
  intro k x hlo hhi
  omega

theorem firstFound_none_of_length_le (h : xs.length ≤ lo) : FirstFound p xs lo hi none := by
  intro k x hlo _ hx
  have hlt := (List.getElem?_eq_some_iff.mp hx).1
  omega

theorem firstFound_of_found (hlt : lo < hi) (hx : xs[lo]? = some x) (hp : p x) : FirstFound p xs lo hi (some lo) :=
  ⟨⟨le_refl lo, hlt⟩, ⟨x, hx, hp⟩, fun _ _ hlo hk => absurd hk (not_lt.mpr hlo)⟩

theorem FirstFound.of_succ (hx : xs[lo]? = some x) (hp : ¬p x) (h : FirstFound p xs (lo + 1) hi r) :
    FirstFound p xs lo hi r := by
  have hskip {k : ℕ} {y : Obj} (hlo : lo ≤ k) (hy : xs[k]? = some y) (hrest : lo + 1 ≤ k → ¬p y) : ¬p y := by
    rcases hlo.eq_or_lt with rfl | hlt
    · rwa [← Option.some.inj (hx.symm.trans hy)]
    · exact hrest hlt
  cases r with
  | none => exact fun k y hlo hhi hy => hskip hlo hy fun hlt => h k y hlt hhi hy
  | some i =>
    obtain ⟨⟨hlo, hhi⟩, hfound, hnone⟩ := h
    exact ⟨⟨by omega, hhi⟩, hfound, fun k y hlo hi hy => hskip hlo hy fun hlt => hnone k y hlt hi hy⟩

theorem lastFound_of_le (h : hi ≤ lo) : LastFound p xs lo hi none := by
  intro k x hlo hhi
  omega

theorem lastFound_of_found (hle : lo ≤ hi) (hx : xs[hi]? = some x) (hp : p x) :
    LastFound p xs lo (hi + 1) (some hi) :=
  ⟨⟨hle, Nat.lt_succ_self hi⟩, ⟨x, hx, hp⟩, fun k _ hlo hk => by omega⟩

theorem LastFound.succ (hx : xs[hi]? = some x) (hp : ¬p x) (h : LastFound p xs lo hi r) :
    LastFound p xs lo (hi + 1) r := by
  have hskip {k : ℕ} {y : Obj} (hhi : k < hi + 1) (hy : xs[k]? = some y) (hrest : k < hi → ¬p y) : ¬p y := by
    rcases (Nat.lt_succ_iff.mp hhi).eq_or_lt with rfl | hlt
    · rwa [← Option.some.inj (hx.symm.trans hy)]
    · exact hrest hlt
  cases r with
  | none => exact fun k y hlo hhi hy => hskip hhi hy fun hlt => h k y hlo hlt hy
  | some i =>
    obtain ⟨⟨hlo, hhi⟩, hfound, hnone⟩ := h
    exact ⟨⟨hlo, by omega⟩, hfound, fun k y hi hhi hy => hskip hhi hy fun hlt => hnone k y hi hlt hy⟩

end Found

/-! ### The loops of `position` -/

section Loops

variable (item : Obj) {xs : List Obj} (lo : ℕ) {hi : ℕ}

def Test.Finds (T : Test Obj) (item elt : Obj) : Prop := T.checkTest item elt = T.testNotUnboundp

theorem getElem?_of_drop {α : Type} {xs tail : List α} {x : α} {k : ℕ} (h : xs.drop k = x :: tail) :
    xs[k]? = some x ∧ xs.drop (k + 1) = tail := by
  have hget : (xs.drop k)[0]? = some x := by rw [h]; rfl
  rw [List.getElem?_drop, Nat.add_zero] at hget
  exact ⟨hget, by rw [← List.drop_drop, h]; rfl⟩

theorem listPositionLoop_spec (T : Test Obj) (item : Obj) (lo : ℕ) (hi : ℤ) {xs tail : List Obj} {ii : ℕ} (htail : xs.drop ii = tail) (hii : ii ≤ xs.length) :
    ∃ r : Option ℕ, FirstFound (T.Finds item) xs (max lo ii) (min hi.toNat xs.length) r ∧
      (listPositionLoop T item lo hi tail ii).1 = r.map Nat.cast ∧
      (r = none → (listPositionLoop T item lo hi tail ii).2 = (max ii (min hi.toNat xs.length) : ℕ)) := by
  induction tail generalizing ii with
  | nil =>
    have hle : xs.length ≤ ii := List.drop_eq_nil_iff.mp htail
    refine ⟨none, firstFound_none_of_length_le (hle.trans (le_max_right lo ii)), rfl, fun _ => ?_⟩
    rw [listPositionLoop]
    omega
  | cons x tail ih =>
    obtain ⟨hx, hrest⟩ := getElem?_of_drop htail
    have hlt : ii < xs.length := (List.getElem?_eq_some_iff.mp hx).1
    rw [listPositionLoop]
    by_cases hfound : lo ≤ ii ∧ (ii : ℤ) < hi ∧ T.Finds item x
    · obtain ⟨hlo, hend, hp⟩ := hfound
      rw [if_pos ⟨Int.ofNat_le.mpr hlo, hend, hp⟩, max_eq_right hlo]
      exact ⟨some ii, firstFound_of_found (by omega) hx hp, rfl, fun h => absurd h (Option.some_ne_none ii)⟩
    · rw [if_neg fun h => hfound ⟨Int.ofNat_le.mp h.1, h.2.1, h.2.2⟩]
      by_cases hend : (ii : ℤ) ≥ hi
      · rw [if_pos hend]
        exact ⟨none, firstFound_of_le (by omega), rfl, fun _ => by show (ii : ℤ) = _; omega⟩
      · rw [if_neg hend]
        obtain ⟨r, hfirst, hindex, hlast⟩ := ih hrest hlt
        refine ⟨r, ?_, hindex, fun h => (hlast h).trans (by omega)⟩
        by_cases hlo : lo ≤ ii
        · rw [max_eq_right (by omega)] at hfirst
          rw [max_eq_right hlo]
          exact hfirst.of_succ hx fun hp => hfound ⟨hlo, by omega, hp⟩
        · rwa [show max lo ii = max lo (ii + 1) by omega]

theorem stringPositionLoop_spec (T : Test Obj) (item : Obj) (lo : ℕ) (hi : ℤ) {characters cursor : List ℕ} {ii : ℕ}
    (hcursor : characters.drop ii = cursor) (hii : ii ≤ characters.length) :
    ∃ r : Option ℕ,
      FirstFound (T.Finds item) (characters.map L.makeChar) (max lo ii) (min hi.toNat characters.length) r ∧
      (stringPositionLoop L T item lo hi cursor ii).1 = r.map Nat.cast ∧
      (r = none → (stringPositionLoop L T item lo hi cursor ii).2 = (max ii (min hi.toNat characters.length) : ℕ)) := by
  induction cursor generalizing ii with
  | nil =>
    have hle : characters.length ≤ ii := List.drop_eq_nil_iff.mp hcursor
    refine ⟨none, firstFound_none_of_length_le ?_, rfl, fun _ => ?_⟩
    · rw [List.length_map]
      exact hle.trans (le_max_right lo ii)
    · rw [stringPositionLoop]
      omega
  | cons c cursor ih =>
    obtain ⟨hc, hrest⟩ := getElem?_of_drop hcursor
    have hlt : ii < characters.length := (List.getElem?_eq_some_iff.mp hc).1
    have hx : (characters.map L.makeChar)[ii]? = some (L.makeChar c) := by rw [List.getElem?_map, hc]; rfl
    rw [stringPositionLoop]
    by_cases hend : (ii : ℤ) < hi
    · rw [if_pos hend]
      by_cases hfound : lo ≤ ii ∧ T.Finds item (L.makeChar c)
      · rw [if_pos ⟨Int.ofNat_le.mpr hfound.1, hfound.2⟩, max_eq_right hfound.1]
        exact ⟨some ii, firstFound_of_found (by omega) hx hfound.2, rfl, fun h => absurd h (Option.some_ne_none ii)⟩
      · rw [if_neg fun h => hfound ⟨Int.ofNat_le.mp h.1, h.2⟩]
        obtain ⟨r, hfirst, hindex, hlast⟩ := ih hrest hlt
        refine ⟨r, ?_, hindex, fun h => (hlast h).trans (by omega)⟩
        by_cases hlo : lo ≤ ii
        · rw [max_eq_right (by omega)] at hfirst
          rw [max_eq_right hlo]
          exact hfirst.of_succ hx fun hp => hfound ⟨hlo, hp⟩
        · rwa [show max lo ii = max lo (ii + 1) by omega]
    · rw [if_neg hend]
      exact ⟨none, firstFound_of_le (by omega), rfl, fun _ => by show (ii : ℤ) = _; omega⟩

theorem arrayPositionLoop_firstFound (sequence : Sequence L) {n ii : ℕ} (hn : ii + n = hi)
    (hhi : hi ≤ sequence.elements.length) :
    ∃ r : Option ℕ, arrayPositionLoop T item sequence n ii = .ok (r.map Nat.cast) ∧
      FirstFound (T.Finds item) sequence.elements ii hi r := by
  induction n generalizing ii with
  | zero => exact ⟨none, rfl, firstFound_of_le (by omega)⟩
  | succ n ih =>
    obtain ⟨x, tail, hdrop⟩ := List.exists_cons_of_length_pos
      (show 0 < (sequence.elements.drop ii).length by rw [List.length_drop]; omega)
    obtain ⟨hx, -⟩ := getElem?_of_drop hdrop
    have hstep : arrayPositionLoop T item sequence (n + 1) ii =
        if T.checkTest item x = T.testNotUnboundp then .ok (some (ii : ℤ))
        else arrayPositionLoop T item sequence n (ii + 1) := by
      rw [arrayPositionLoop, Sequence.aref_eq hdrop]
      rfl
    by_cases hp : T.Finds item x
    · exact ⟨some ii, hstep.trans (if_pos hp), firstFound_of_found (by omega) hx hp⟩
    · have hn' : ii + 1 + n = hi := by omega
      obtain ⟨r, hloop, hfirst⟩ := ih hn'
      exact ⟨r, (hstep.trans (if_neg hp)).trans hloop, hfirst.of_succ hx hp⟩

theorem positionFromEndLoop_lastFound {element : ℤ → Except Error Obj} {n : ℕ}
    (helement : ∀ k, k < n → ∃ x, xs[lo + k]? = some x ∧ element ((lo : ℤ) + k) = .ok x) :
    ∃ r : Option ℕ, positionFromEndLoop T item element lo n = .ok (r.map Nat.cast) ∧
      LastFound (T.Finds item) xs lo (lo + n) r := by
  induction n with
  | zero => exact ⟨none, rfl, lastFound_of_le (le_refl _)⟩
  | succ n ih =>
    obtain ⟨x, hx, heq⟩ := helement n (Nat.lt_succ_self n)
    have hstep : positionFromEndLoop T item element lo (n + 1) =
        if T.checkTest item x = T.testNotUnboundp then .ok (some ((lo : ℤ) + n))
        else positionFromEndLoop T item element lo n := by
      rw [positionFromEndLoop, heq]
      rfl
    by_cases hp : T.Finds item x
    · exact ⟨some (lo + n), hstep.trans (if_pos hp), lastFound_of_found (Nat.le_add_right lo n) hx hp⟩
    · obtain ⟨r, hloop, hlast⟩ := ih fun k hk => helement k (hk.trans (Nat.lt_succ_self n))
      exact ⟨r, (hstep.trans (if_neg hp)).trans hloop, hlast.succ hx hp⟩

end Loops

/-! ### `position` -/

section

variable {start e : ℕ}

theorem elemcountOrNil_some (h : e ≤ L.mostPositiveFixnum) : L.elemcountOrNil (some e) = e :=
  elemcount_eq h

theorem listPositionConsBefore_first {list : List Obj} (item : Obj) (hle : start ≤ e) (hlast : e ≤ list.length) :
    ∃ r : Option ℕ, listPositionConsBefore (L := L) T item list start (some e) = .ok (r.map Nat.cast) ∧
      FirstFound (T.Finds item) list start e r := by
  obtain ⟨r, hfirst, hindex, hnone⟩ := listPositionLoop_spec T item start e
    (@List.drop_zero _ list) (Nat.zero_le _)
  rw [max_eq_left (Nat.zero_le start), Int.toNat_natCast, min_eq_left hlast] at hfirst
  refine ⟨r, ?_, hfirst⟩
  rw [listPositionConsBefore]
  simp only
  rw [show (0 : ℤ) = (0 : ℕ) from rfl]
  generalize listPositionLoop T item start e list (0 : ℕ) = stopped at hindex hnone ⊢
  obtain ⟨found, last⟩ := stopped
  obtain rfl : found = r.map Nat.cast := hindex
  cases r with
  | some i => rfl
  | none =>
    have hreached := hnone rfl
    exact if_neg (by simp only [Option.isSome_some, and_true]; omega)

theorem position_first (sequence : Sequence L) (item : Obj)
    (h : ValidRange sequence.elements.length start (some e)) :
    ∃ r : Option ℕ, position T item sequence start (some e) false = .ok (r.map Nat.cast) ∧
      FirstFound (T.Finds item) sequence.elements start e r := by
  have hle : start ≤ e := h.1
  have hlast : e ≤ sequence.elements.length := h.2
  have hlength := sequence.length_le
  have hstart : L.elemcount start = start := elemcount_eq (hle.trans (hlast.trans hlength))
  have hend : L.elemcountOrNil (some e) = e := elemcountOrNil_some (hlast.trans hlength)
  have hcheck : checkSequenceRange start (some e) sequence.length = .ok () := checkSequenceRange_eq_ok h le_rfl
  have harray : ∃ r : Option ℕ, arrayPositionLoop T item sequence (min (e : ℤ) sequence.length - start).toNat start =
      .ok (r.map Nat.cast) ∧ FirstFound (T.Finds item) sequence.elements start e r :=
    arrayPositionLoop_firstFound item sequence (by rw [Sequence.length]; omega) hlast
  rw [position]
  simp only [hstart, hend, hcheck]
  obtain ⟨contents, hlength⟩ := sequence
  cases contents with
  | list elements =>
    cases elements with
    | nil => exact harray
    | cons x list =>
      show ∃ r : Option ℕ, (if ¬(start : ℤ) < e then Except.ok none
        else listPositionConsBefore (L := L) T item (x :: list) start (some e)) = _ ∧ _
      by_cases hlt : start < e
      · rw [if_neg (not_not.mpr (Int.ofNat_lt.mpr hlt))]
        exact listPositionConsBefore_first item hle hlast
      · rw [if_pos fun h => hlt (Int.ofNat_lt.mp h)]
        exact ⟨none, rfl, firstFound_of_le (not_lt.mp hlt)⟩
  | string characters => 
    have hcharacters : e ≤ characters.length := (List.length_map L.makeChar) ▸ hlast
    have hascii : min (asciiEnd characters : ℤ) start = (min (asciiEnd characters) start : ℕ) := by omega
    obtain ⟨r, hfirst, hindex, -⟩ := stringPositionLoop_spec (L := L) T item start e
      (rfl : characters.drop (min (asciiEnd characters) start) = _) (by omega)
    rw [max_eq_left (min_le_right _ start), Int.toNat_natCast, min_eq_left hcharacters] at hfirst
    refine ⟨r, ?_, hfirst⟩
    simp only [hascii, Int.toNat_natCast, Option.isSome_some, if_true, Bool.false_eq_true, not_false_eq_true]
    generalize stringPositionLoop L T item start e _ _ = stopped at hindex ⊢
    obtain ⟨found, last⟩ := stopped
    obtain rfl : found = r.map Nat.cast := hindex
    cases r with
    | some i => rfl
    | none => exact ite_self _
  | vector elements => exact harray
  | bitVector bits => exact harray

theorem storageElement_storage (sequence : Sequence L) {n k : ℕ} (hlast : start + n ≤ sequence.elements.length)
    (hk : k < n) :
    ∃ x, sequence.elements[start + k]? = some x ∧
      storageElement (storage sequence start (start + n : ℕ)) start ((start : ℤ) + k) = .ok x := by
  have hlt : start + k < sequence.elements.length := by omega
  have hget : sequence.elements[start + k]? = some sequence.elements[start + k] := List.getElem?_eq_getElem hlt
  refine ⟨sequence.elements[start + k], hget, ?_⟩
  rw [storageElement, storage_eq sequence (Int.natCast_add start n), add_sub_cancel_left, Int.toNat_natCast,
    List.getElem?_take_of_lt hk, List.getElem?_drop, hget]

theorem aref_element (sequence : Sequence L) {n k : ℕ} (hlast : start + n ≤ sequence.elements.length) (hk : k < n) :
    ∃ x, sequence.elements[start + k]? = some x ∧ sequence.aref ((start : ℤ) + k) = .ok x := by
  have hlt : start + k < sequence.elements.length := by omega
  have hdrop := List.drop_eq_getElem_cons hlt
  exact ⟨_, (getElem?_of_drop hdrop).1, Sequence.aref_eq hdrop⟩

theorem position_last (sequence : Sequence L) (item : Obj)
    (h : ValidRange sequence.elements.length start (some e)) :
    ∃ r : Option ℕ, position T item sequence start (some e) true = .ok (r.map Nat.cast) ∧
      LastFound (T.Finds item) sequence.elements start e r := by
  have hle : start ≤ e := h.1
  have hlast : e ≤ sequence.elements.length := h.2
  have hlength := sequence.length_le
  have hstart : L.elemcount start = start := elemcount_eq (hle.trans (hlast.trans hlength))
  have hend : L.elemcountOrNil (some e) = e := elemcountOrNil_some (hlast.trans hlength)
  have hcheck : checkSequenceRange start (some e) sequence.length = .ok () := checkSequenceRange_eq_ok h le_rfl
  obtain ⟨n, rfl⟩ : ∃ n, e = start + n := Nat.exists_eq_add_of_le hle
  have hcount : ((start + n : ℕ) - (start : ℤ)).toNat = n := by omega
  have hmin : min ((start + n : ℕ) : ℤ) sequence.length = (start + n : ℕ) := min_eq_left (Int.ofNat_le.mpr hlast)
  have hstorage := positionFromEndLoop_lastFound (T := T) item start
    fun k hk => storageElement_storage sequence hlast hk
  have harray := positionFromEndLoop_lastFound (T := T) item start fun k hk => aref_element sequence hlast hk
  have hmost : (if (L.mostPositiveFixnum : ℤ) = (start + n : ℕ) then sequence.length else (start + n : ℕ)) =
      (start + n : ℕ) := by
    have hle' : sequence.length ≤ L.mostPositiveFixnum := Int.ofNat_le.mpr hlength
    have hle : ((start + n : ℕ) : ℤ) ≤ sequence.length := Int.ofNat_le.mpr hlast
    split <;> omega
  rw [position]
  simp only [hstart, hend, hcheck, Option.isSome_some, if_true, hmin, hmost, hcount]
  obtain ⟨contents, hlength⟩ := sequence
  cases contents with
  | list elements =>
    cases elements with
    | nil => exact harray
    | cons x list =>
      obtain ⟨r, hloop, hfound⟩ := hstorage
      refine ⟨r, ?_, hfound⟩
      simp only [not_true_eq_false, if_false, hloop]
      by_cases hlt : start < start + n
      · rw [if_neg (not_not.mpr (Int.ofNat_lt.mpr hlt))]
        cases r <;> rfl
      · rw [if_pos fun h => hlt (Int.ofNat_lt.mp h)]
        cases r with
        | none => rfl
        | some i => exact absurd hfound.1 (by omega)
  | string characters =>
    have hcharacters : start + n ≤ characters.length := (List.length_map L.makeChar) ▸ hlast
    have hmin : min (characters.length : ℤ) (start + n : ℕ) = (start + n : ℕ) :=
      min_eq_right (Int.ofNat_le.mpr hcharacters)
    simp only [not_true_eq_false, if_false, hmin, ite_self, hcount]
    exact (ite_self _).symm ▸ hstorage
  | vector elements => exact harray
  | bitVector bits => exact harray

end

/-! ### `mismatch` of as many elements -/

section Confirms

def Confirms (value : Except Error (Option ℤ)) (p : Prop) : Prop :=
  ∃ o, value = .ok o ∧ (o = none ↔ p)

variable {r : Obj → Obj → Bool} {base : ℕ} {xs ys : List Obj} {p c : Prop} [Decidable c]

theorem confirms_map_cast {o : Option ℕ} (h : o = none ↔ p) : Confirms (.ok (o.map Nat.cast)) p :=
  ⟨_, rfl, Option.map_eq_none_iff.trans h⟩

theorem confirms_early {o : Option ℕ} (h : o = none ↔ p) (hearly : c → p) :
    Confirms (.ok (if c then none else o.map Nat.cast)) p := by
  split
  case isTrue hc => exact ⟨none, rfl, fun _ => hearly hc, fun _ => rfl⟩
  case isFalse => exact confirms_map_cast h

variable {start1 e1 start2 e2 : ℕ}

theorem subseq_of_le (h : e1 ≤ start1) : subseq xs start1 (some e1) = [] := by
  rw [subseq, Option.getD_some, Nat.sub_eq_zero_of_le h, List.take_zero]

theorem allMatch_of_end (h : start1 ≠ 0 ∧ start1 = xs.length) (h₁ : ValidRange xs.length start1 (some e1))
    (hlength : e1 - start1 = e2 - start2) :
    AllMatch T (subseq xs start1 (some e1)) (subseq ys start2 (some e2)) := by
  have hend : e1 ≤ start1 := h.2 ▸ h₁.2
  rw [subseq_of_le hend, subseq_of_le (by omega)]
  exact List.Forall₂.nil

theorem allMatch_of_end' (h : start2 ≠ 0 ∧ start2 = ys.length) (h₂ : ValidRange ys.length start2 (some e2))
    (hlength : e1 - start1 = e2 - start2) :
    AllMatch T (subseq xs start1 (some e1)) (subseq ys start2 (some e2)) := by
  have hend : e2 ≤ start2 := h.2 ▸ h₂.2
  rw [subseq_of_le hend, subseq_of_le (by omega)]
  exact List.Forall₂.nil

theorem swapped_eq_none_iff : firstMismatch (T.oriented false) base ys xs = none ↔ AllMatch T xs ys := by
  rw [T.oriented_false, firstMismatch_swap]
  exact firstMismatch_eq_none_iff T.matches base xs ys

variable {list list' : List Obj} {string string' : List ℕ} {array array' : Sequence L}
  (hlength : e1 - start1 = e2 - start2)

include hlength

theorem mismatchListList_confirms (hlist : list.length ≤ L.mostPositiveFixnum)
    (hlist' : list'.length ≤ L.mostPositiveFixnum) (h₁ : ValidRange list.length start1 (some e1))
    (h₂ : ValidRange list'.length start2 (some e2)) :
    Confirms (mismatchListList (L := L) T list start1 (some e1) list' start2 (some e2))
      (AllMatch T (subseq list start1 (some e1)) (subseq list' start2 (some e2))) := by
  rw [mismatchListList_eq T h₁ hlist h₂ hlist']
  apply confirms_early (firstMismatch_eq_none_iff T.matches start1 _ _)
  rintro (hend | hend)
  · exact allMatch_of_end hend h₁ hlength
  · exact allMatch_of_end' hend h₂ hlength

theorem mismatchListString_confirms (hlist : list.length ≤ L.mostPositiveFixnum)
    (hstring : string.length ≤ L.mostPositiveFixnum) (h₁ : ValidRange list.length start1 (some e1))
    (h₂ : ValidRange string.length start2 (some e2)) :
    Confirms (mismatchListString (L := L) T list start1 (some e1) string start2 (some e2) true)
      (AllMatch T (subseq list start1 (some e1)) (subseq (string.map L.makeChar) start2 (some e2))) := by
  rw [mismatchListString_eq T true h₁ hlist h₂ hstring, ← subseq_map]
  exact confirms_early (firstMismatch_eq_none_iff T.matches _ _ _) fun hend => allMatch_of_end hend h₁ hlength

theorem mismatchStringList_confirms (hlist : list.length ≤ L.mostPositiveFixnum)
    (hstring : string.length ≤ L.mostPositiveFixnum) (h₁ : ValidRange string.length start1 (some e1))
    (h₂ : ValidRange list.length start2 (some e2)) :
    Confirms (mismatchListString (L := L) T list start2 (some e2) string start1 (some e1) false)
      (AllMatch T (subseq (string.map L.makeChar) start1 (some e1)) (subseq list start2 (some e2))) := by
  rw [mismatchListString_eq T false h₂ hlist h₁ hstring, ← subseq_map]
  exact confirms_early swapped_eq_none_iff fun hend => allMatch_of_end' hend h₂ hlength

theorem mismatchListArray_confirms (hlist : list.length ≤ L.mostPositiveFixnum)
    (h₁ : ValidRange list.length start1 (some e1)) (h₂ : ValidRange array.elements.length start2 (some e2)) :
    Confirms (mismatchListArray T list start1 (some e1) array start2 (some e2) true)
      (AllMatch T (subseq list start1 (some e1)) (subseq array.elements start2 (some e2))) := by
  rw [mismatchListArray_eq T true h₁ hlist h₂]
  exact confirms_early (firstMismatch_eq_none_iff T.matches _ _ _) fun hend => allMatch_of_end hend h₁ hlength

theorem mismatchArrayList_confirms (hlist : list.length ≤ L.mostPositiveFixnum)
    (h₁ : ValidRange array.elements.length start1 (some e1)) (h₂ : ValidRange list.length start2 (some e2)) :
    Confirms (mismatchListArray T list start2 (some e2) array start1 (some e1) false)
      (AllMatch T (subseq array.elements start1 (some e1)) (subseq list start2 (some e2))) := by
  rw [mismatchListArray_eq T false h₂ hlist h₁]
  exact confirms_early swapped_eq_none_iff fun hend => allMatch_of_end' hend h₂ hlength

omit hlength

theorem mismatchStringArray_confirms (hstring : string.length ≤ L.mostPositiveFixnum) (hnilp : array.nilp = false)
    (h₁ : ValidRange string.length start1 (some e1)) (h₂ : ValidRange array.elements.length start2 (some e2)) :
    Confirms (mismatchStringArray T string start1 (some e1) array start2 (some e2) true)
      (AllMatch T (subseq (string.map L.makeChar) start1 (some e1)) (subseq array.elements start2 (some e2))) := by
  rw [mismatchStringArray_eq T true h₁ hstring h₂ hnilp, ← subseq_map]
  exact confirms_map_cast (firstMismatch_eq_none_iff T.matches _ _ _)

theorem mismatchArrayString_confirms (hstring : string.length ≤ L.mostPositiveFixnum) (hnilp : array.nilp = false)
    (h₁ : ValidRange array.elements.length start1 (some e1)) (h₂ : ValidRange string.length start2 (some e2)) :
    Confirms (mismatchStringArray T string start2 (some e2) array start1 (some e1) false)
      (AllMatch T (subseq array.elements start1 (some e1)) (subseq (string.map L.makeChar) start2 (some e2))) := by
  rw [mismatchStringArray_eq T false h₂ hstring h₁ hnilp, ← subseq_map]
  exact confirms_map_cast swapped_eq_none_iff

theorem mismatchStringString_confirms (hstring : string.length ≤ L.mostPositiveFixnum)
    (hstring' : string'.length ≤ L.mostPositiveFixnum) (h₁ : ValidRange string.length start1 (some e1))
    (h₂ : ValidRange string'.length start2 (some e2)) :
    Confirms (mismatchStringString (L := L) T string start1 (some e1) string' start2 (some e2))
      (AllMatch T (subseq (string.map L.makeChar) start1 (some e1))
        (subseq (string'.map L.makeChar) start2 (some e2))) := by
  rw [mismatchStringString_eq T h₁ hstring h₂ hstring', ← subseq_map, ← subseq_map]
  exact confirms_map_cast (firstMismatch_eq_none_iff T.matches _ _ _)

theorem mismatchArrayArray_confirms (h₁ : ValidRange array.elements.length start1 (some e1))
    (h₂ : ValidRange array'.elements.length start2 (some e2)) :
    Confirms (mismatchArrayArray T array start1 (some e1) array' start2 (some e2))
      (AllMatch T (subseq array.elements start1 (some e1)) (subseq array'.elements start2 (some e2))) := by
  rw [mismatchArrayArray_eq T h₁ h₂]
  exact confirms_map_cast (firstMismatch_eq_none_iff T.matches _ _ _)

end Confirms

theorem mismatch_confirms (a b : Sequence L) (fromEnd : Bool) {start1 e1 start2 e2 : ℕ}
    (h₁ : ValidRange a.elements.length start1 (some e1)) (h₂ : ValidRange b.elements.length start2 (some e2))
    (hlength : e1 - start1 = e2 - start2) :
    Confirms (mismatch T a b fromEnd start1 (some e1) start2 (some e2))
      (AllMatch T (subseq a.elements start1 (some e1)) (subseq b.elements start2 (some e2))) := by
  cases fromEnd with
  | true =>
    rw [mismatch, if_pos rfl, mismatchFromEnd_eq T h₁ h₂]
    exact confirms_map_cast (lastMismatch_eq_none_iff T.matches start1 _ _)
  | false =>
    rw [mismatch, if_neg Bool.false_ne_true]
    have hstring (string : List ℕ) (start e : ℕ) (h : ValidRange (string.map L.makeChar).length start (some e)) :
        ValidRange string.length start (some e) := by
      rwa [List.length_map] at h
    have hfixnum (string : List ℕ) (h : (string.map L.makeChar).length ≤ L.mostPositiveFixnum) :
        string.length ≤ L.mostPositiveFixnum := by
      rwa [List.length_map] at h
    obtain ⟨contents, hle⟩ := a
    obtain ⟨contents', hle'⟩ := b
    cases contents with
    | list list =>
      cases contents' with
      | list list' => exact mismatchListList_confirms hlength hle hle' h₁ h₂
      | string string => exact mismatchListString_confirms hlength hle (hfixnum _ hle') h₁ (hstring _ _ _ h₂)
      | vector elements => exact mismatchListArray_confirms hlength hle h₁ h₂
      | bitVector bits => exact mismatchListArray_confirms hlength hle h₁ h₂
    | string string =>
      cases contents' with
      | list list => exact mismatchStringList_confirms hlength hle' (hfixnum _ hle) (hstring _ _ _ h₁) h₂
      | string string' =>
        exact mismatchStringString_confirms (hfixnum _ hle) (hfixnum _ hle') (hstring _ _ _ h₁) (hstring _ _ _ h₂)
      | vector elements => exact mismatchStringArray_confirms (hfixnum _ hle) rfl (hstring _ _ _ h₁) h₂
      | bitVector bits => exact mismatchStringArray_confirms (hfixnum _ hle) rfl (hstring _ _ _ h₁) h₂
    | vector elements =>
      cases contents' with
      | list list => exact mismatchArrayList_confirms hlength hle' h₁ h₂
      | string string => exact mismatchArrayString_confirms (hfixnum _ hle') rfl h₁ (hstring _ _ _ h₂)
      | vector elements' => exact mismatchArrayArray_confirms h₁ h₂
      | bitVector bits => exact mismatchArrayArray_confirms h₁ h₂
    | bitVector bits =>
      cases contents' with
      | list list => exact mismatchArrayList_confirms hlength hle' h₁ h₂
      | string string => exact mismatchArrayString_confirms (hfixnum _ hle') rfl h₁ (hstring _ _ _ h₂)
      | vector elements => exact mismatchArrayArray_confirms h₁ h₂
      | bitVector bits' => exact mismatchArrayArray_confirms h₁ h₂

section Occurrences

variable (T) in
/-- The indices between two bounds at which the elements of a pattern match those of a list. -/
def Occurrences (pattern ys : List Obj) (lo hi : ℕ) : Set ℕ :=
  {i | lo ≤ i ∧ i + pattern.length ≤ hi ∧ AllMatch T pattern (subseq ys i (some (i + pattern.length)))}

/-- What `search` is to give for a set of occurrences. -/
def IsAnswer (fromEnd : Bool) (occurrences : Set ℕ) : Option ℕ → Prop
  | none => occurrences = ∅
  | some i => if fromEnd then IsGreatest occurrences i else IsLeast occurrences i

variable {x y : Obj} {pattern ys : List Obj} {lo hi k e i : ℕ}

theorem finds_iff : T.Finds (T.key x) y ↔ T.matches x y = true :=
  (T.matches_iff x y).symm

theorem subseq_cons (hx : ys[k]? = some x) (hlt : k < e) :
    subseq ys k (some e) = x :: subseq ys (k + 1) (some e) := by
  obtain ⟨hlength, rfl⟩ := List.getElem?_eq_some_iff.mp hx
  rw [subseq, subseq, Option.getD_some, List.drop_eq_getElem_cons hlength,
    show e - k = e - (k + 1) + 1 by omega, List.take_succ_cons]

theorem subseq_concat (hx : ys[e]? = some x) (hle : k ≤ e) :
    subseq ys k (some (e + 1)) = subseq ys k (some e) ++ [x] := by
  rw [subseq, subseq, Option.getD_some, Option.getD_some, show e + 1 - k = e - k + 1 by omega, List.take_add_one,
    List.getElem?_drop, show k + (e - k) = e by omega, hx]
  rfl

theorem exists_getElem? (h : k < ys.length) : ∃ y, ys[k]? = some y :=
  ⟨ys[k], List.getElem?_eq_getElem h⟩

theorem mem_occurrences_cons (hhi : hi ≤ ys.length) :
    i ∈ Occurrences T (x :: pattern) ys lo hi ↔
      lo ≤ i ∧ i + pattern.length + 1 ≤ hi ∧ (∃ y, ys[i]? = some y ∧ T.Finds (T.key x) y) ∧
        AllMatch T pattern (subseq ys (i + 1) (some (i + pattern.length + 1))) := by
  apply and_congr_right
  intro _
  apply and_congr_right
  intro hle
  rw [List.length_cons] at hle ⊢
  obtain ⟨y, hy⟩ := exists_getElem? (show i < ys.length by omega)
  rw [subseq_cons hy (by omega), AllMatch, List.forall₂_cons, ← finds_iff, hy]
  simp [AllMatch, Nat.add_assoc]

theorem allMatch_concat {xs : List Obj} :
    AllMatch T (pattern ++ [x]) (xs ++ [y]) ↔ AllMatch T pattern xs ∧ T.matches x y = true := by
  rw [AllMatch, ← List.forall₂_reverse_iff, List.reverse_append, List.reverse_append, List.reverse_singleton,
    List.reverse_singleton, List.singleton_append, List.singleton_append, List.forall₂_cons,
    List.forall₂_reverse_iff, and_comm, AllMatch]

theorem mem_occurrences_concat (hhi : hi ≤ ys.length) :
    i ∈ Occurrences T (pattern ++ [x]) ys lo hi ↔
      lo ≤ i ∧ i + pattern.length + 1 ≤ hi ∧ (∃ y, ys[i + pattern.length]? = some y ∧ T.Finds (T.key x) y) ∧
        AllMatch T pattern (subseq ys i (some (i + pattern.length))) := by
  apply and_congr_right
  intro _
  rw [List.length_append, List.length_singleton, ← Nat.add_assoc]
  apply and_congr_right
  intro hle
  obtain ⟨y, hy⟩ := exists_getElem? (show i + pattern.length < ys.length by omega)
  rw [subseq_concat hy (Nat.le_add_right _ _), allMatch_concat, ← finds_iff, hy]
  simp [and_comm]

theorem le_of_firstFound {ii p : ℕ} (hhi : hi ≤ ys.length) (hfirst : FirstFound (T.Finds (T.key x)) ys ii hi (some p))
    (hbefore : ∀ j ∈ Occurrences T (x :: pattern) ys lo hi, ii ≤ j) :
    ∀ j ∈ Occurrences T (x :: pattern) ys lo hi, p ≤ j := by
  intro j hj
  obtain ⟨-, -, ⟨y, hy, hfinds⟩, -⟩ := (mem_occurrences_cons hhi).mp hj
  by_contra hlt
  exact hfirst.2.2 j y (hbefore j hj) (not_le.mp hlt) hy hfinds

theorem eq_empty_of_firstFound {ii : ℕ} (hhi : hi ≤ ys.length)
    (hfirst : FirstFound (T.Finds (T.key x)) ys ii hi none)
    (hbefore : ∀ j ∈ Occurrences T (x :: pattern) ys lo hi, ii ≤ j) :
    Occurrences T (x :: pattern) ys lo hi = ∅ := by
  apply Set.eq_empty_of_forall_notMem
  intro j hj
  obtain ⟨-, hle, ⟨y, hy, hfinds⟩, -⟩ := (mem_occurrences_cons hhi).mp hj
  exact hfirst j y (hbefore j hj) (by omega) hy hfinds

theorem le_of_lastFound {ii p : ℕ} (hhi : hi ≤ ys.length) (hlast : LastFound (T.Finds (T.key x)) ys lo ii (some p))
    (hafter : ∀ j ∈ Occurrences T (pattern ++ [x]) ys lo hi, j + pattern.length < ii) :
    ∀ j ∈ Occurrences T (pattern ++ [x]) ys lo hi, j + pattern.length ≤ p := by
  intro j hj
  obtain ⟨-, -, ⟨y, hy, hfinds⟩, -⟩ := (mem_occurrences_concat hhi).mp hj
  by_contra hlt
  exact hlast.2.2 (j + pattern.length) y (not_le.mp hlt) (hafter j hj) hy hfinds

theorem eq_empty_of_lastFound {ii : ℕ} (hhi : hi ≤ ys.length) (hlast : LastFound (T.Finds (T.key x)) ys lo ii none)
    (hafter : ∀ j ∈ Occurrences T (pattern ++ [x]) ys lo hi, j + pattern.length < ii) :
    Occurrences T (pattern ++ [x]) ys lo hi = ∅ := by
  apply Set.eq_empty_of_forall_notMem
  intro j hj
  obtain ⟨hle, -, ⟨y, hy, hfinds⟩, -⟩ := (mem_occurrences_concat hhi).mp hj
  exact hlast (j + pattern.length) y (by omega) (hafter j hj) hy hfinds

end Occurrences

/-! ### The loops of `search` -/

section Search

variable {a b : Sequence L} {s : SearchBounds} {x : Obj} {pattern : List Obj}

theorem restMismatch_confirms (h₁ : ValidRange a.elements.length (s.starting1 + 1) (some s.ending1))
    (h₂ : s.ending2 ≤ b.elements.length) (hlength1 : s.length1 = pattern.length + 1)
    (hpattern : subseq a.elements (s.starting1 + 1) (some s.ending1) = pattern) {p : ℕ}
    (hle : p + pattern.length + 1 ≤ s.ending2) :
    Confirms (restMismatch T a b s p)
      (AllMatch T pattern (subseq b.elements (p + 1) (some (p + pattern.length + 1)))) := by
  have hvalid : ValidRange b.elements.length (1 + p) (some (s.length1 + p)) :=
    ⟨show 1 + p ≤ s.length1 + p by omega, show s.length1 + p ≤ b.elements.length by omega⟩
  rw [← hpattern, show p + 1 = 1 + p by omega, show p + (subseq a.elements _ _).length + 1 = s.length1 + p by
    rw [hpattern]; omega]
  apply mismatch_confirms a b false h₁ hvalid
  rw [SearchBounds.length1] at hlength1 ⊢
  omega

theorem searchLoop_isAnswer (h₁ : ValidRange a.elements.length (s.starting1 + 1) (some s.ending1))
    (h₂ : s.ending2 ≤ b.elements.length)
    (hpattern : subseq a.elements (s.starting1 + 1) (some s.ending1) = pattern) {fuel ii : ℕ}
    (hfuel : s.ending2 - ii < fuel) (hii : s.starting2 ≤ ii)
    (hbefore : ∀ j ∈ Occurrences T (x :: pattern) b.elements s.starting2 s.ending2, ii ≤ j) :
    ∃ r : Option ℕ, searchLoop T a b s (T.key x) fuel ii = some (.ok (r.map Nat.cast)) ∧
      IsAnswer false (Occurrences T (x :: pattern) b.elements s.starting2 s.ending2) r := by
  have hlength1 : s.length1 = pattern.length + 1 := by
    have hle : s.starting1 + 1 ≤ s.ending1 := h₁.1
    rw [← hpattern, length_subseq h₁, Option.getD_some, SearchBounds.length1]
    omega
  induction fuel generalizing ii with
  | zero => omega
  | succ fuel ih =>
    rw [searchLoop]
    by_cases hlt : ii < s.ending2
    · rw [if_pos hlt]
      have hvalid : ValidRange b.elements.length ii (some s.ending2) := ⟨hlt.le, h₂⟩
      obtain ⟨r, hposition, hfirst⟩ := position_first (T := T) b (T.key x) hvalid
      rw [hposition]
      cases r with
      | none => exact ⟨none, rfl, eq_empty_of_firstFound h₂ hfirst hbefore⟩
      | some p =>
        have hleast := le_of_firstFound h₂ hfirst hbefore
        have hskip (hp : p ∉ Occurrences T (x :: pattern) b.elements s.starting2 s.ending2) :
            ∃ r : Option ℕ, searchLoop T a b s (T.key x) fuel (p + 1) = some (.ok (r.map Nat.cast)) ∧
              IsAnswer false (Occurrences T (x :: pattern) b.elements s.starting2 s.ending2) r := by
          have hrange := hfirst.1
          apply ih (by omega) (by omega)
          exact fun j hj => (hleast j hj).lt_of_ne fun heq => hp (heq ▸ hj)
        simp only [Option.map_some, Int.toNat_natCast]
        by_cases hle : s.length1 + p ≤ s.ending2
        · have hle' : p + pattern.length + 1 ≤ s.ending2 := by omega
          rw [if_pos (by omega)]
          obtain ⟨o, hmismatch, ho⟩ := restMismatch_confirms (T := T) h₁ h₂ hlength1 hpattern hle'
          rw [hmismatch]
          cases o with
          | none =>
            refine ⟨some p, rfl, ?_⟩
            have hmem : p ∈ Occurrences T (x :: pattern) b.elements s.starting2 s.ending2 :=
              (mem_occurrences_cons h₂).mpr ⟨hii.trans hfirst.1.1, hle', hfirst.2.1, ho.mp rfl⟩
            exact ⟨hmem, hleast⟩
          | some index =>
            exact hskip fun hp => absurd (ho.mpr ((mem_occurrences_cons h₂).mp hp).2.2.2) (Option.some_ne_none index)
        · rw [if_neg (by omega)]
          exact hskip fun hp => hle (by have := ((mem_occurrences_cons h₂).mp hp).2.1; omega)
    · rw [if_neg hlt]
      refine ⟨none, rfl, Set.eq_empty_of_forall_notMem fun j hj => ?_⟩
      have hle := hbefore j hj
      have hend := ((mem_occurrences_cons h₂).mp hj).2.1
      omega

theorem initialMismatch_confirms (h₁ : ValidRange a.elements.length s.starting1 (some (s.ending1 - 1)))
    (h₂ : s.ending2 ≤ b.elements.length) (hlength1 : s.length1 = pattern.length + 1)
    (hpattern : subseq a.elements s.starting1 (some (s.ending1 - 1)) = pattern) {i : ℕ}
    (hle : i + pattern.length + 1 ≤ s.ending2) :
    Confirms (initialMismatch T a b s (i + pattern.length))
      (AllMatch T pattern (subseq b.elements i (some (i + pattern.length)))) := by
  have hvalid : ValidRange b.elements.length i (some (i + pattern.length)) :=
    ⟨Nat.le_add_right i _, show i + pattern.length ≤ b.elements.length by omega⟩
  have hconfirms := mismatch_confirms (T := T) a b true h₁ hvalid (by
    rw [SearchBounds.length1] at hlength1
    omega)
  rw [hpattern] at hconfirms
  rwa [initialMismatch, show i + pattern.length + 1 - s.length1 = i by omega]

theorem searchFromEndLoop_isAnswer (h₁ : ValidRange a.elements.length s.starting1 (some (s.ending1 - 1)))
    (hlt₁ : s.starting1 < s.ending1) (h₂ : s.ending2 ≤ b.elements.length)
    (hpattern : subseq a.elements s.starting1 (some (s.ending1 - 1)) = pattern) {fuel ii : ℕ}
    (hfuel : ii - s.starting2 < fuel) (hii : ii ≤ s.ending2)
    (hafter : ∀ j ∈ Occurrences T (pattern ++ [x]) b.elements s.starting2 s.ending2, j + pattern.length < ii) :
    ∃ r : Option ℕ, searchFromEndLoop T a b s (T.key x) fuel ii = some (.ok (r.map Nat.cast)) ∧
      IsAnswer true (Occurrences T (pattern ++ [x]) b.elements s.starting2 s.ending2) r := by
  have hlength1 : s.length1 = pattern.length + 1 := by
    rw [← hpattern, length_subseq h₁, Option.getD_some, SearchBounds.length1]
    omega
  induction fuel generalizing ii with
  | zero => omega
  | succ fuel ih =>
    rw [searchFromEndLoop]
    by_cases hlt : s.starting2 < ii
    · rw [if_pos hlt]
      have hvalid : ValidRange b.elements.length s.starting2 (some ii) := ⟨hlt.le, hii.trans h₂⟩
      obtain ⟨r, hposition, hlast⟩ := position_last (T := T) b (T.key x) hvalid
      rw [hposition]
      cases r with
      | none => exact ⟨none, rfl, eq_empty_of_lastFound h₂ hlast hafter⟩
      | some p =>
        have hrange := hlast.1
        have hgreatest := le_of_lastFound h₂ hlast hafter
        have hskip (hp : ∀ j ∈ Occurrences T (pattern ++ [x]) b.elements s.starting2 s.ending2,
            j + pattern.length ≠ p) :
            ∃ r : Option ℕ, searchFromEndLoop T a b s (T.key x) fuel p = some (.ok (r.map Nat.cast)) ∧
              IsAnswer true (Occurrences T (pattern ++ [x]) b.elements s.starting2 s.ending2) r := by
          apply ih (by omega) (by omega)
          exact fun j hj => (hgreatest j hj).lt_of_ne (hp j hj)
        simp only [Option.map_some, Int.toNat_natCast]
        by_cases hle : s.starting2 + pattern.length ≤ p
        · obtain ⟨i, rfl⟩ : ∃ i, p = i + pattern.length := ⟨p - pattern.length, by omega⟩
          rw [if_pos (by omega)]
          obtain ⟨o, hmismatch, ho⟩ := initialMismatch_confirms (T := T) h₁ h₂ hlength1 hpattern
            (show i + pattern.length + 1 ≤ s.ending2 by omega)
          rw [hmismatch]
          cases o with
          | none =>
            have hindex : ((i + pattern.length : ℕ) : ℤ) - s.length1 + 1 = i := by omega
            refine ⟨some i, by simp only [hindex, Option.map_some], ?_⟩
            have hmem : i ∈ Occurrences T (pattern ++ [x]) b.elements s.starting2 s.ending2 :=
              (mem_occurrences_concat h₂).mpr ⟨by omega, by omega, hlast.2.1, ho.mp rfl⟩
            exact ⟨hmem, fun j hj => Nat.le_of_add_le_add_right (hgreatest j hj)⟩
          | some index =>
            apply hskip
            intro j hj heq
            obtain rfl : j = i := Nat.add_right_cancel heq
            exact absurd (ho.mpr ((mem_occurrences_concat h₂).mp hj).2.2.2) (Option.some_ne_none index)
        · rw [if_neg (by omega)]
          apply hskip
          intro j hj heq
          have hstart := ((mem_occurrences_concat h₂).mp hj).1
          omega
    · rw [if_neg hlt]
      refine ⟨none, rfl, Set.eq_empty_of_forall_notMem fun j hj => ?_⟩
      have hend := hafter j hj
      have hstart := ((mem_occurrences_concat h₂).mp hj).1
      omega

end Search

section

variable {a b : Sequence L} {start1 start2 : ℕ} {end1 end2 : Option ℕ}

theorem searchEnd_eq {sequence : Sequence L} {start : ℕ} {ending : Option ℕ}
    (h : ValidRange sequence.elements.length start ending) :
    searchEnd sequence start ending = .ok (ending.getD sequence.elements.length) := by
  have hcheck : checkSequenceRange start ending sequence.length = .ok () := checkSequenceRange_eq_ok h le_rfl
  rw [searchEnd, hcheck, min_eq_left h.2]
  rfl

theorem occurrences_nil (ys : List Obj) (lo hi : ℕ) : Occurrences T [] ys lo hi = Set.Icc lo hi := by
  apply Set.ext
  intro i
  rw [Occurrences, Set.mem_ofPred_eq, Set.mem_Icc, List.length_nil, Nat.add_zero, subseq_of_le (le_refl i)]
  exact and_congr_right fun _ => and_iff_left List.Forall₂.nil

theorem isAnswer_nil {fromEnd : Bool} {ys : List Obj} {lo hi : ℕ} (h : lo ≤ hi) :
    IsAnswer fromEnd (Occurrences T [] ys lo hi) (some (if fromEnd then hi else lo)) := by
  rw [occurrences_nil]
  cases fromEnd with
  | true => exact isGreatest_Icc h
  | false => exact isLeast_Icc h

theorem le_numbers {n : ℕ} (h : n ≤ 3) : n ≤ numbers.mostPositiveFixnum :=
  h.trans (by decide)

end

end XEmacs.Sequences
