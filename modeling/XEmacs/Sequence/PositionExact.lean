import XEmacs.Sequence.Position

/-! When `position` and `find` are right. The loops are exact for any bounds: a loop that finds nothing stops at
the end or with the sequence, whichever comes first, and that index decides whether the bounds are checked. -/

namespace XEmacs.Sequences

variable {Obj : Type} {L : Objects Obj} {T : Test Obj} {item : Obj}

section Loops

variable {xs : List Obj} {lo : ℕ} {hi : ℤ}

def Found (fromEnd : Bool) (p : Obj → Prop) (xs : List Obj) (lo hi : ℕ) (r : Option ℕ) : Prop :=
  if fromEnd then LastFound p xs lo hi r else FirstFound p xs lo hi r

def NoneFound (p : Obj → Prop) (xs : List Obj) (lo hi : ℕ) : Prop := FirstFound p xs lo hi none

theorem FirstFound.eq_none_iff {p : Obj → Prop} {hi : ℕ} {r : Option ℕ} (h : FirstFound p xs lo hi r) :
    r = none ↔ NoneFound p xs lo hi := by
  cases r with
  | none => exact iff_of_true rfl h
  | some i =>
    obtain ⟨⟨hlo, hhi⟩, ⟨x, hx, hp⟩, -⟩ := h
    exact iff_of_false (Option.some_ne_none i) fun hnone => hnone i x hlo hhi hx hp

theorem LastFound.eq_none_iff {p : Obj → Prop} {hi : ℕ} {r : Option ℕ} (h : LastFound p xs lo hi r) :
    r = none ↔ NoneFound p xs lo hi := by
  cases r with
  | none => exact iff_of_true rfl h
  | some i =>
    obtain ⟨⟨hlo, hhi⟩, ⟨x, hx, hp⟩, -⟩ := h
    exact iff_of_false (Option.some_ne_none i) fun hnone => hnone i x hlo hhi hx hp

theorem characterPositionLoop_eq {X : Characters L} {T : ItemTest Obj} {citem : ℕ}
    (hitem : T.fastCharacter X item = some citem) (cursor : List ℕ) (ii : ℤ) :
    characterPositionLoop citem T.testNotUnboundp lo hi cursor ii =
      stringPositionLoop L T.toTest item lo hi cursor ii := by
  have hfast : T.eqNokey = true ∧ X.xchar item = some citem := by
    rw [ItemTest.fastCharacter] at hitem
    split at hitem
    · exact ⟨‹_›, hitem⟩
    · cases hitem
  have heq (c : ℕ) : (c == citem) = T.checkTest item (L.makeChar c) := by
    rw [Bool.eq_iff_iff, beq_iff_eq, T.eq_of_eqNokey hfast.1]
    constructor
    · rintro rfl
      exact X.xchar_eq_some.mp hfast.2
    · intro h
      exact Option.some.inj ((X.xchar_eq_some.mpr h).symm.trans hfast.2)
  induction cursor generalizing ii with
  | nil => rfl
  | cons c cursor ih => rw [characterPositionLoop, stringPositionLoop, heq, ih]

theorem storagePositionLoop_spec {storage : List Obj} {n : ℕ}
    (hstorage : ∀ k, k < n → ∃ x, xs[lo + k]? = some x ∧ storage[k]? = some x) :
    ∃ r : Option ℕ, LastFound (T.Finds item) xs lo (lo + n) r ∧
      storagePositionLoop T item storage lo n = .ok (r.bind fun i => withElement xs i) := by
  induction n with
  | zero => exact ⟨none, lastFound_of_le (le_refl _), rfl⟩
  | succ n ih =>
    obtain ⟨x, hx, hstored⟩ := hstorage n (Nat.lt_succ_self n)
    rw [storagePositionLoop]
    simp only [hstored]
    by_cases hp : T.checkTest item x = T.testNotUnboundp
    · rw [if_pos hp]
      refine ⟨some (lo + n), lastFound_of_found (Nat.le_add_right lo n) hx hp, ?_⟩
      rw [Option.bind_some, withElement, Int.toNat_natCast, hx]
      rfl
    · rw [if_neg hp]
      obtain ⟨r, hlast, hloop⟩ := ih fun k hk => hstorage k (hk.trans (Nat.lt_succ_self n))
      exact ⟨r, hlast.succ hx hp, hloop⟩

theorem storagePositionLoop_notAnElement {storage : List Obj} {starting : ℤ} {n : ℕ} (h : storage.length < n) :
    storagePositionLoop T item storage starting n = .error .notAnElement := by
  obtain ⟨n, rfl⟩ : ∃ m, n = m + 1 := ⟨n - 1, by omega⟩
  rw [storagePositionLoop, List.getElem?_eq_none (by omega)]

end Loops

section Bounds

variable {n start : ℕ} {ending : Option ℕ}

theorem checkSequenceRange_of_not_valid (h : ¬ValidRange n start ending) :
    checkSequenceRange start ending n = .error .argsOutOfRange := by
  apply if_neg
  intro hcheck
  apply h
  cases ending with
  | none => exact ⟨Int.ofNat_le.mp hcheck.1, le_refl n⟩
  | some e => exact ⟨Int.ofNat_le.mp hcheck.1, Int.ofNat_le.mp hcheck.2⟩

theorem checkSequenceRange_of_short {ii : ℕ} (h : ii < start ∨ ∃ e, ending = some e ∧ ii < e) :
    checkSequenceRange start ending ii = .error .argsOutOfRange := by
  apply checkSequenceRange_of_not_valid
  rintro ⟨hle, hlast⟩
  rcases h with hlt | ⟨e, rfl, hlt⟩
  · omega
  · exact absurd hlast (not_le.mpr hlt)

theorem endingOf_eq (h : ∀ e, ending = some e → e ≤ L.mostPositiveFixnum) :
    L.endingOf ending = (ending.getD L.mostPositiveFixnum : ℕ) := by
  cases ending with
  | none => rfl
  | some e => exact elemcount_eq (h e rfl)

theorem endingInList_eq {pointer : ℕ → ℤ} (h : ∀ e, ending = some e → e ≤ L.mostPositiveFixnum) :
    L.endingInList pointer ending = (ending.getD L.mostPositiveFixnum : ℕ) := by
  cases ending with
  | none => rfl
  | some e => exact if_pos (h e rfl)

theorem ValidRange.fixnums (h : ValidRange n start ending) (hn : n ≤ L.mostPositiveFixnum) :
    start ≤ L.mostPositiveFixnum ∧ ∀ e, ending = some e → e ≤ L.mostPositiveFixnum := by
  obtain ⟨hle, hlast⟩ := h
  refine ⟨hle.trans (hlast.trans hn), ?_⟩
  rintro e rfl
  exact hlast.trans hn

theorem elemcount_le {k : ℕ} : L.elemcount k ≤ k := by
  rw [Objects.elemcount]
  split <;> omega

theorem elemcount_le_fixnum {k : ℕ} : L.elemcount k ≤ 1 + L.mostPositiveFixnum := by
  rw [Objects.elemcount]
  split <;> omega

end Bounds

section Right

/-- What `position` and `find` are to return: the index and the element that is first or last, or the error for
bounds that are not valid. -/
def PositionRight (p : Obj → Prop) (xs : List Obj) (start : ℕ) (ending : Option ℕ) (fromEnd : Bool) (default_ : Obj)
    (index : Except Fault (Option ℤ)) (object : Except Fault Obj) : Prop :=
  (ValidRange xs.length start ending → ∃ r : Option ℕ, Found fromEnd p xs start (ending.getD xs.length) r ∧
    index = .ok (r.map Nat.cast) ∧ object = .ok ((r.bind fun i => xs[i]?).getD default_)) ∧
  (¬ValidRange xs.length start ending →
    index = .error (.signal .argsOutOfRange) ∧ object = .error (.signal .argsOutOfRange))

def ObjectRight (p : Obj → Prop) (xs : List Obj) (start : ℕ) (ending : Option ℕ) (fromEnd : Bool)
    (value : Except Fault (Option (ℤ × Obj))) : Prop :=
  (ValidRange xs.length start ending → ∃ r : Option ℕ, Found fromEnd p xs start (ending.getD xs.length) r ∧
    value = .ok (r.bind fun i => withElement xs i)) ∧
  (¬ValidRange xs.length start ending → value = .error (.signal .argsOutOfRange))

variable {p : Obj → Prop} {xs : List Obj} {start : ℕ} {ending : Option ℕ} {fromEnd : Bool} {default_ : Obj}
  {value : Except Fault (Option (ℤ × Obj))}

theorem Found.lt_length {hi : ℕ} {i : ℕ} (h : Found fromEnd p xs start hi (some i)) : ∃ x, xs[i]? = some x := by
  cases fromEnd with
  | false =>
    obtain ⟨-, ⟨x, hx, -⟩, -⟩ := (h : FirstFound p xs start hi (some i))
    exact ⟨x, hx⟩
  | true =>
    obtain ⟨-, ⟨x, hx, -⟩, -⟩ := (h : LastFound p xs start hi (some i))
    exact ⟨x, hx⟩

theorem withElement_natCast (i : ℕ) : withElement xs i = xs[i]?.map fun x => ((i : ℤ), x) := rfl

theorem positionRight_iff_objectRight :
    PositionRight p xs start ending fromEnd default_ (value.map (Option.map Prod.fst))
      (value.map fun found => (found.map Prod.snd).getD default_) ↔ ObjectRight p xs start ending fromEnd value := by
  apply and_congr
  · apply imp_congr_right
    intro _
    apply exists_congr
    intro r
    apply and_congr_right
    intro hfound
    cases value with
    | error e => exact iff_of_false (fun h => by cases h.1) fun h => by cases h
    | ok found =>
      cases r with
      | none =>
        cases found with
        | none => exact iff_of_true ⟨rfl, rfl⟩ rfl
        | some pair => exact iff_of_false (fun h => by cases h.1) fun h => by cases h
      | some i =>
        obtain ⟨x, hx⟩ := hfound.lt_length
        rw [Option.bind_some, Option.bind_some, withElement_natCast, hx]
        cases found with
        | none => exact iff_of_false (fun h => by cases h.1) fun h => by cases h
        | some pair =>
          obtain ⟨index, object⟩ := pair
          constructor
          · rintro ⟨hindex, hobject⟩
            cases hindex
            cases hobject
            rfl
          · intro h
            cases h
            exact ⟨rfl, rfl⟩
  · apply imp_congr_right
    intro _
    cases value with
    | error e => simp [Except.map]
    | ok found => exact iff_of_false (fun h => by cases h.1) fun h => by cases h

end Right

section Cases

variable (T item) (pointer : ℕ → ℤ) {xs : List Obj} {start : ℕ} {ending : Option ℕ}

theorem getD_eq_min {n : ℕ} (h : ValidRange n start ending) (hn : n ≤ L.mostPositiveFixnum) :
    ending.getD n = min (ending.getD L.mostPositiveFixnum) n := by
  cases ending with
  | none => exact (min_eq_right hn).symm
  | some e => exact (min_eq_left h.2).symm

theorem listPosition_eq (hlength : xs.length ≤ L.mostPositiveFixnum) {last : ℕ}
    (hlast : (L.endingInList pointer ending).toNat = last) :
    ∃ r : Option ℕ, FirstFound (T.Finds item) xs start (min last xs.length) r ∧
      listPosition (L := L) pointer T item xs start ending =
        r.elim (if xs.length < start ∨ ending.isSome ∧ (last < start ∨ xs.length < last) then
          .error (.signal .argsOutOfRange) else .ok none) fun i => .ok (withElement xs i) := by
  obtain ⟨r, hfirst, hindex, hstop⟩ := listPositionLoop_spec T item start
    (L.endingInList pointer ending) (List.drop_zero (l := xs)) (Nat.zero_le _)
  rw [max_eq_left (Nat.zero_le start), hlast] at hfirst
  rw [hlast, max_eq_right (Nat.zero_le _)] at hstop
  refine ⟨r, hfirst, ?_⟩
  rw [show ((0 : ℕ) : ℤ) = 0 from rfl] at hindex hstop
  rw [listPosition]
  simp only
  generalize listPositionLoop T item start (L.endingInList pointer ending) xs 0 = stopped at hindex hstop ⊢
  obtain ⟨found, ii⟩ := stopped
  cases r with
  | some i =>
    cases hindex
    rfl
  | none =>
    cases hindex
    obtain rfl : ii = (min last xs.length : ℕ) := hstop rfl
    have hcheck : ((min last xs.length : ℕ) : ℤ) < start ∨
        ((min last xs.length : ℕ) : ℤ) < L.endingInList pointer ending ∧ ending.isSome ↔
        xs.length < start ∨ ending.isSome ∧ (last < start ∨ xs.length < last) := by
      cases ending with
      | none =>
        have hmost : last = L.mostPositiveFixnum := hlast.symm
        simp only [Option.isSome_none, Bool.false_eq_true, and_false, false_and, or_false]
        omega
      | some e =>
        simp only [Option.isSome_some, and_true, true_and]
        omega
    simp only [hcheck]
    by_cases h : xs.length < start ∨ ending.isSome ∧ (last < start ∨ xs.length < last)
    · rw [if_pos h, Option.elim_none, if_pos h, checkSequenceRange_of_short]
      · rfl
      · rcases h with hlt | ⟨hsome, hlt | hlt⟩
        · exact .inl (by omega)
        · exact .inl (by omega)
        · obtain ⟨e, rfl⟩ := Option.isSome_iff_exists.mp hsome
          refine .inr ⟨e, rfl, ?_⟩
          by_cases he : e ≤ L.mostPositiveFixnum
          · have hend : L.endingInList pointer (some e) = e := if_pos he
            omega
          · omega
    · rw [if_neg h, Option.elim_none, if_neg h]
      rfl

theorem listPosition_right (hlength : xs.length ≤ L.mostPositiveFixnum) {last : ℕ}
    (hlast : (L.endingInList pointer ending).toNat = last) :
    ObjectRight (T.Finds item) xs start ending false (listPosition (L := L) pointer T item xs start ending) ↔
      ValidRange xs.length start ending ∨ NoneFound (T.Finds item) xs start (min last xs.length) ∧
        (xs.length < start ∨ ending.isSome ∧ (last < start ∨ xs.length < last)) := by
  obtain ⟨r, hfirst, hrun⟩ := listPosition_eq T item pointer hlength hlast
  rw [hrun]
  by_cases hvalid : ValidRange xs.length start ending
  · have hend : last = ending.getD L.mostPositiveFixnum := by
      rw [← hlast, endingInList_eq (hvalid.fixnums hlength).2, Int.toNat_natCast]
    refine iff_of_true ⟨fun _ => ⟨r, ?_, ?_⟩, fun h => absurd hvalid h⟩ (.inl hvalid)
    · rw [getD_eq_min hvalid hlength, ← hend]
      exact hfirst
    · cases r with
      | some i => rfl
      | none =>
        apply if_neg
        obtain ⟨hle, hn⟩ := hvalid
        rintro (hlt | ⟨hsome, hlt⟩)
        · omega
        · obtain ⟨e, rfl⟩ := Option.isSome_iff_exists.mp hsome
          simp only [Option.getD_some] at hend hle hn
          omega
  · rw [ObjectRight, ← hfirst.eq_none_iff]
    constructor
    · intro h
      have herror := h.2 hvalid
      cases r with
      | some i => cases herror
      | none =>
        by_cases hcheck : xs.length < start ∨ ending.isSome ∧ (last < start ∨ xs.length < last)
        · exact .inr ⟨rfl, hcheck⟩
        · rw [Option.elim_none, if_neg hcheck] at herror
          cases herror
    · rintro (h | ⟨rfl, hcheck⟩)
      · exact absurd h hvalid
      · exact ⟨fun h => absurd h hvalid, fun _ => if_pos hcheck⟩

theorem storage_getElem (sequence : Sequence L) {n k : ℕ} (hlast : start + n ≤ sequence.elements.length) (hk : k < n) :
    ∃ x, sequence.elements[start + k]? = some x ∧ (storage sequence start (start + n : ℕ))[k]? = some x := by
  have hlt : start + k < sequence.elements.length := by omega
  refine ⟨sequence.elements[start + k], List.getElem?_eq_getElem hlt, ?_⟩
  rw [storage_eq sequence (Int.natCast_add start n), List.getElem?_take_of_lt hk, List.getElem?_drop, List.getElem?_eq_getElem hlt]

theorem storagePositionLoop_found (sequence : Sequence L) {e : ℕ} (hle : start ≤ e)
    (hlast : e ≤ sequence.elements.length) :
    ∃ r : Option ℕ, Found true (T.Finds item) sequence.elements start e r ∧
      storagePositionLoop T item (storage sequence start e) start ((e : ℤ) - start).toNat =
        .ok (r.bind fun i => withElement sequence.elements i) := by
  obtain ⟨n, rfl⟩ : ∃ n, e = start + n := Nat.exists_eq_add_of_le hle
  rw [show ((start + n : ℕ) - (start : ℤ)).toNat = n by omega]
  exact storagePositionLoop_spec fun k hk => storage_getElem sequence hlast hk

theorem listPositionFromEnd_eq (sequence : Sequence L) {e : ℕ} (hstart : L.elemcount start = start)
    (he : (if L.mostPositiveFixnum = L.endingOf ending then sequence.length else L.endingOf ending) = e) :
    listPositionFromEnd T item sequence start ending = if e < start then .error .memoryFull else
      storagePositionLoop T item (storage sequence start e) start ((e : ℤ) - start).toNat >>= fun found =>
        found.elim ((signals (checkSequenceRange start ending sequence.length)).map fun _ => none) (.ok ∘ some) := by
  rw [listPositionFromEnd]
  simp only [he, hstart]
  by_cases hlt : e < start
  · rw [allocaArray, if_neg (by omega), if_pos hlt]
    rfl
  · rw [allocaArray, if_pos (by omega), if_neg hlt]
    generalize storagePositionLoop T item (storage sequence start e) start ((e : ℤ) - start).toNat = looped
    cases looped with
    | error e => rfl
    | ok found =>
      cases found with
      | none => cases checkSequenceRange start ending sequence.length <;> rfl
      | some pair => rfl

theorem storage_length_lt (sequence : Sequence L) {e : ℕ} (hlt : start < e) (hn : sequence.elements.length < e) :
    (storage sequence start e).length < ((e : ℤ) - start).toNat := by
  obtain ⟨n, rfl⟩ : ∃ n, e = start + n := Nat.exists_eq_add_of_le hlt.le
  rw [storage_eq sequence (Int.natCast_add start n), List.length_take, List.length_drop]
  omega

theorem listPositionFromEnd_right (sequence : Sequence L) (hlt : L.elemcount start < L.endingOf ending) :
    ObjectRight (T.Finds item) sequence.elements start ending true
        (listPositionFromEnd T item sequence start ending) ↔
      ValidRange sequence.elements.length start ending ∨ ending = some L.mostPositiveFixnum ∧
        start ≤ sequence.elements.length ∧
          NoneFound (T.Finds item) sequence.elements start sequence.elements.length := by
  have hlength : sequence.elements.length ≤ L.mostPositiveFixnum := sequence.length_le
  have hstart : L.elemcount start = start := by
    have hend : L.endingOf ending ≤ 1 + L.mostPositiveFixnum := by
      cases ending with
      | none => exact Int.le_add_of_nonneg_left (by omega)
      | some e => exact elemcount_le_fixnum
    rw [Objects.elemcount] at hlt ⊢
    split at hlt
    · exact if_pos ‹_›
    · omega
  by_cases hvalid : ValidRange sequence.elements.length start ending
  · have hlast : (if L.mostPositiveFixnum = L.endingOf ending then sequence.length else L.endingOf ending) =
        (ending.getD sequence.elements.length : ℕ) := by
      rw [endingOf_eq (hvalid.fixnums hlength).2]
      cases ending with
      | none => exact if_pos rfl
      | some e =>
        have hle : e ≤ sequence.elements.length := hvalid.2
        simp only [Option.getD_some, Sequence.length]
        split <;> omega
    obtain ⟨r, hfound, hloop⟩ := storagePositionLoop_found T item sequence hvalid.1 hvalid.2
    have hcheck : checkSequenceRange start ending sequence.length = .ok () := checkSequenceRange_eq_ok hvalid le_rfl
    refine iff_of_true ⟨fun _ => ⟨r, hfound, ?_⟩, fun h => absurd hvalid h⟩ (.inl hvalid)
    rw [listPositionFromEnd_eq T item sequence hstart hlast, if_neg (not_lt.mpr hvalid.1), hloop, hcheck]
    generalize (r.bind fun i => withElement sequence.elements i) = found
    cases found <;> rfl
  · rw [or_iff_right hvalid, ObjectRight, imp_iff_right hvalid, and_iff_right fun h => absurd h hvalid]
    have hcheck : checkSequenceRange start ending sequence.length = .error .argsOutOfRange :=
      checkSequenceRange_of_not_valid hvalid
    by_cases hmost : L.mostPositiveFixnum = L.endingOf ending
    · have hlast : (if L.mostPositiveFixnum = L.endingOf ending then sequence.length else L.endingOf ending) =
          (sequence.elements.length : ℕ) := if_pos hmost
      rw [listPositionFromEnd_eq T item sequence hstart hlast]
      by_cases hle : start ≤ sequence.elements.length
      · obtain ⟨r, hfound, hloop⟩ := storagePositionLoop_found T item sequence hle le_rfl
        have hend : ending = some L.mostPositiveFixnum := by
          cases ending with
          | none => exact absurd ⟨hle, le_refl _⟩ hvalid
          | some e =>
            rw [Objects.endingOf, Objects.elemcount] at hmost
            split at hmost
            · rw [Int.ofNat_inj.mp hmost]
            · omega
        rw [if_neg (not_lt.mpr hle), hloop, hcheck, ← LastFound.eq_none_iff hfound, and_iff_right hend,
          and_iff_right hle]
        cases r with
        | none => exact iff_of_true rfl rfl
        | some i =>
          obtain ⟨x, hx⟩ := hfound.lt_length
          rw [Option.bind_some, withElement_natCast, hx]
          exact iff_of_false (fun h => by cases h) (Option.some_ne_none i)
      · rw [if_pos (not_le.mp hle)]
        exact iff_of_false (fun h => by cases h) fun h => hle h.2.1
    · obtain ⟨e, rfl⟩ : ∃ e, ending = some e := by
        cases ending with
        | none => exact absurd rfl hmost
        | some e => exact ⟨e, rfl⟩
      have hnot : ¬(start ≤ e ∧ e ≤ sequence.elements.length) := hvalid
      have hle : L.elemcount e ≤ e := elemcount_le
      obtain ⟨last, hlast⟩ : ∃ last : ℕ, L.endingOf (some e) = last := Int.eq_ofNat_of_zero_le (by omega)
      have hn : sequence.elements.length < last := by
        rw [Objects.endingOf, Objects.elemcount] at hlast
        rw [Objects.endingOf] at hlt
        split at hlast <;> omega
      rw [listPositionFromEnd_eq T item sequence hstart ((if_neg hmost).trans hlast), if_neg (by omega),
        storagePositionLoop_notAnElement (storage_length_lt sequence (by omega) hn)]
      refine iff_of_false (fun h => by cases h) fun h => hmost ?_
      rw [h.1]
      exact (elemcount_eq (le_refl _)).symm

theorem stringAsciiEnd_le (characters : List ℕ) : stringAsciiEnd characters ≤ characters.length :=
  (min_le_left _ _).trans (List.takeWhile_prefix _).length_le

theorem stringPosition_eq {X : Characters L} {T : ItemTest Obj} (sequence : Sequence L) {characters : List ℕ}
    (hcontents : sequence.elements = characters.map L.makeChar) {st last : ℕ} (hst : L.elemcount start = st)
    (hlast : L.endingOf ending = last) :
    ∃ r : Option ℕ, FirstFound (T.Finds item) sequence.elements st (min last characters.length) r ∧
      stringPosition X T item sequence characters start ending =
        r.elim ((checkAfter sequence start ending
          (max (min (stringAsciiEnd characters) st) (min last characters.length) : ℕ)).map fun _ => none)
          fun i => .ok (if (T.fastCharacter X item).isSome then some ((i : ℤ), item)
            else withElement sequence.elements i) := by
  have hii : min (stringAsciiEnd characters : ℤ) st = (min (stringAsciiEnd characters) st : ℕ) := by omega
  obtain ⟨r, hfirst, hindex, hstop⟩ := stringPositionLoop_spec (L := L) T.toTest item st
    last (rfl : characters.drop (min (stringAsciiEnd characters) st) = _)
    ((min_le_left _ _).trans (stringAsciiEnd_le characters))
  rw [max_eq_left (min_le_right _ st), Int.toNat_natCast, ← hcontents] at hfirst
  rw [Int.toNat_natCast] at hstop
  refine ⟨r, hfirst, ?_⟩
  rw [stringPosition]
  simp only [hst, hlast, hii, Int.toNat_natCast]
  cases hfast : T.fastCharacter X item with
  | some citem =>
    simp only [characterPositionLoop_eq hfast]
    generalize stringPositionLoop L T.toTest item st last _ _ = stopped at hindex hstop ⊢
    obtain ⟨found, ii⟩ := stopped
    cases r with
    | some i =>
      cases hindex
      rfl
    | none =>
      cases hindex
      obtain rfl := hstop rfl
      rfl
  | none =>
    simp only
    generalize stringPositionLoop L T.toTest item st last _ _ = stopped at hindex hstop ⊢
    obtain ⟨found, ii⟩ := stopped
    cases r with
    | some i =>
      cases hindex
      rfl
    | none =>
      cases hindex
      obtain rfl := hstop rfl
      rfl

theorem elemcount_cases {k : ℕ} :
    ∃ m : ℕ, L.elemcount k = m ∧ (m = k ∨ L.mostPositiveFixnum < m ∧ L.mostPositiveFixnum < k) := by
  rw [Objects.elemcount]
  split
  · exact ⟨k, rfl, .inl rfl⟩
  · exact ⟨1 + L.mostPositiveFixnum, rfl, .inr ⟨by omega, by omega⟩⟩

theorem noneFound_congr {p : Obj → Prop} {lo lo' hi : ℕ} (h : lo' = lo ∨ xs.length ≤ lo' ∧ xs.length ≤ lo) :
    NoneFound p xs lo' hi ↔ NoneFound p xs lo hi := by
  rcases h with rfl | ⟨hlo', hlo⟩
  · exact Iff.rfl
  · exact iff_of_true (firstFound_none_of_length_le hlo') (firstFound_none_of_length_le hlo)

theorem withElement_item_iff {X : Characters L} {T : ItemTest Obj} {i : ℕ} {x : Obj} {o : Option (ℤ × Obj)}
    {q : Option ℕ → Prop} (hq : q (some i)) (hx : xs[i]? = some x) (hp : T.Finds item x)
    (ho : o = if (T.fastCharacter X item).isSome then some ((i : ℤ), item) else withElement xs i) :
    (∃ r : Option ℕ, q r ∧ o = r.bind fun i => withElement xs i) ↔
      ((T.fastCharacter X item).isSome → T.testNotUnboundp = true) := by
  rw [ho]
  by_cases hfast : (T.fastCharacter X item).isSome
  · rw [if_pos hfast, imp_iff_right hfast]
    have heq : T.checkTest item x = true ↔ item = x := by
      apply T.eq_of_eqNokey
      rw [ItemTest.fastCharacter] at hfast
      split at hfast
      · assumption
      · cases hfast
    rw [← show T.checkTest item x = T.testNotUnboundp from hp, heq]
    constructor
    · rintro ⟨r, -, hr⟩
      cases r with
      | none => cases hr
      | some j =>
        obtain ⟨y, hy, hpair⟩ := Option.map_eq_some_iff.mp hr.symm
        cases hpair
        exact Option.some.inj (hy.symm.trans hx)
    · rintro rfl
      exact ⟨some i, hq, by rw [Option.bind_some, withElement_natCast, hx]; rfl⟩
  · rw [if_neg hfast]
    exact iff_of_true ⟨some i, hq, rfl⟩ fun h => absurd h hfast

theorem checkAfter_of_valid (sequence : Sequence L) (ii : ℤ)
    (hvalid : ValidRange sequence.elements.length start ending) :
    checkAfter sequence start ending ii = .ok () := by
  have hcheck : checkSequenceRange start ending sequence.length = .ok () := checkSequenceRange_eq_ok hvalid le_rfl
  rw [checkAfter, hcheck]
  exact ite_self _

theorem checkAfter_of_not_valid (sequence : Sequence L) (ii : ℤ)
    (hvalid : ¬ValidRange sequence.elements.length start ending) :
    checkAfter sequence start ending ii =
      if ii < L.elemcount start ∨ ii < L.endingOf ending ∧ ending.isSome then .error (.signal .argsOutOfRange)
      else .ok () := by
  have hcheck : checkSequenceRange start ending sequence.length = .error .argsOutOfRange :=
    checkSequenceRange_of_not_valid hvalid
  rw [checkAfter, hcheck]
  rfl

theorem checkedAfter_iff {n st last k : ℕ} (hn : n ≤ L.mostPositiveFixnum) (hk : k ≤ n)
    (hstart : st = start ∨ L.mostPositiveFixnum < st ∧ L.mostPositiveFixnum < start) (hlast : L.endingOf ending = last)
    (hvalid : ¬ValidRange n start ending) :
    (((max (min k st) (min last n) : ℕ) : ℤ) < st ∨ ((max (min k st) (min last n) : ℕ) : ℤ) < last ∧ ending.isSome) ↔
      (ending.getD n < start → k < start) := by
  rw [Int.ofNat_lt, Int.ofNat_lt]
  cases ending with
  | none =>
    have hlt : ¬(start ≤ n ∧ n ≤ n) := hvalid
    simp only [Option.getD_none]
    omega
  | some e =>
    have hlt : ¬(start ≤ e ∧ e ≤ n) := hvalid
    rw [Objects.endingOf] at hlast
    obtain ⟨m, hm, hcases⟩ := elemcount_cases (L := L) (k := e)
    simp only [Option.getD_some, Option.isSome_some, and_true]
    omega

theorem stringPosition_right {X : Characters L} {T : ItemTest Obj} (sequence : Sequence L) {characters : List ℕ}
    (hcontents : sequence.elements = characters.map L.makeChar) :
    ObjectRight (T.Finds item) sequence.elements start ending false
        (stringPosition X T item sequence characters start ending) ↔
      (ValidRange sequence.elements.length start ending ∧ ((T.fastCharacter X item).isSome → T.testNotUnboundp = true ∨
        NoneFound (T.Finds item) sequence.elements start (ending.getD sequence.elements.length))) ∨
      (¬ValidRange sequence.elements.length start ending ∧
        NoneFound (T.Finds item) sequence.elements start (min (L.endingOf ending).toNat sequence.elements.length) ∧
        (ending.getD sequence.elements.length < start → stringAsciiEnd characters < start)) := by
  have hlength : sequence.elements.length ≤ L.mostPositiveFixnum := sequence.length_le
  have hn : sequence.elements.length = characters.length := by rw [hcontents, List.length_map]
  obtain ⟨st, hst, hstart⟩ := elemcount_cases (L := L) (k := start)
  obtain ⟨last, hlast⟩ : ∃ last : ℕ, L.endingOf ending = last := by
    cases ending with
    | none => exact ⟨_, rfl⟩
    | some e =>
      obtain ⟨m, hm, -⟩ := elemcount_cases (L := L) (k := e)
      exact ⟨m, hm⟩
  obtain ⟨r, hfirst, hrun⟩ := stringPosition_eq item (X := X) (T := T) sequence hcontents hst hlast
  rw [← hn] at hfirst hrun
  rw [hrun]
  by_cases hvalid : ValidRange sequence.elements.length start ending
  · rw [or_iff_left fun h => h.1 hvalid, and_iff_right hvalid, ObjectRight, imp_iff_right hvalid,
      and_iff_left fun h => absurd hvalid h]
    obtain ⟨hfixnum, hfixnums⟩ := hvalid.fixnums hlength
    obtain rfl : st = start := by omega
    obtain rfl : last = ending.getD L.mostPositiveFixnum := by
      rw [endingOf_eq hfixnums] at hlast
      exact (Int.ofNat_inj.mp hlast).symm
    rw [← getD_eq_min hvalid hlength] at hfirst ⊢
    cases r with
    | none =>
      refine iff_of_true ⟨none, hfirst, ?_⟩ fun _ => .inr hfirst
      rw [Option.elim_none, checkAfter_of_valid sequence _ hvalid]
      rfl
    | some i =>
      obtain ⟨-, ⟨x, hx, hp⟩, -⟩ := id hfirst
      rw [Option.elim_some, or_iff_left fun h => absurd (hfirst.eq_none_iff.mpr h) (Option.some_ne_none i)]
      simp only [Except.ok.injEq]
      exact withElement_item_iff item hfirst hx hp rfl
  · rw [or_iff_right fun h => hvalid h.1, and_iff_right hvalid, ObjectRight, imp_iff_right hvalid,
      and_iff_right fun h => absurd h hvalid]
    have hnone : NoneFound (T.Finds item) sequence.elements st (min last sequence.elements.length) ↔
        NoneFound (T.Finds item) sequence.elements start (min last sequence.elements.length) :=
      noneFound_congr (by omega)
    rw [hlast, Int.toNat_natCast, ← hnone, ← hfirst.eq_none_iff]
    cases r with
    | some i => exact iff_of_false (fun h => by cases h) fun h => Option.some_ne_none i h.1
    | none =>
      rw [Option.elim_none, checkAfter_of_not_valid sequence _ hvalid, and_iff_right rfl, hst, hlast]
      have hchecked := checkedAfter_iff hlength (hn ▸ stringAsciiEnd_le characters) hstart hlast hvalid
      by_cases h : ending.getD sequence.elements.length < start → stringAsciiEnd characters < start
      · rw [if_pos (hchecked.mpr h)]
        exact iff_of_true rfl h
      · rw [if_neg fun hc => h (hchecked.mp hc)]
        exact iff_of_false (fun h => by cases h) h

theorem stringPositionFromEnd_eq (sequence : Sequence L) (characters : List ℕ) {st last : ℕ}
    (hst : L.elemcount start = st) (hlast : L.endingOf ending = last) {ii : ℕ}
    (hii : max (min (stringAsciiEnd characters) st) (min characters.length last) = ii) :
    stringPositionFromEnd T item sequence characters start ending =
      if ending.isSome ∧ last < st then .error .memoryFull
      else checkAfter sequence start ending ii >>= fun _ =>
        storagePositionLoop T item (storage sequence st (if ii = characters.length then ii else last : ℕ)) st
          (((if ii = characters.length then ii else last : ℕ) : ℤ) - st).toNat := by
  have hii' : max (min (stringAsciiEnd characters : ℤ) st) (min (characters.length : ℤ) last) = (ii : ℕ) := by omega
  have hif : (if (ii : ℤ) = characters.length then (ii : ℤ) else last) =
      (if ii = characters.length then ii else last : ℕ) := by split <;> split <;> omega
  rw [stringPositionFromEnd]
  simp only [hst, hlast, hii', hif]
  cases ending with
  | none => rfl
  | some e =>
    simp only [Option.isSome_some, if_true, true_and]
    by_cases hlt : last < st
    · rw [allocaArray, if_neg (by omega), if_pos hlt]
      rfl
    · rw [allocaArray, if_pos (by omega), if_neg hlt]
      rfl

theorem stringPositionFromEnd_right (sequence : Sequence L) {characters : List ℕ}
    (hcontents : sequence.elements = characters.map L.makeChar) :
    ObjectRight (T.Finds item) sequence.elements start ending true
        (stringPositionFromEnd T item sequence characters start ending) ↔
      ∀ e, ending = some e → L.elemcount start ≤ L.elemcount e := by
  have hlength : sequence.elements.length ≤ L.mostPositiveFixnum := sequence.length_le
  have hn : sequence.elements.length = characters.length := by rw [hcontents, List.length_map]
  have hascii := stringAsciiEnd_le characters
  by_cases hvalid : ValidRange sequence.elements.length start ending
  · obtain ⟨hfixnum, hfixnums⟩ := hvalid.fixnums hlength
    have hst : L.elemcount start = start := elemcount_eq hfixnum
    have hlast := endingOf_eq hfixnums
    obtain ⟨hle, hend⟩ := id hvalid
    have hmin := getD_eq_min hvalid hlength
    obtain ⟨r, hfound, hloop⟩ := storagePositionLoop_found T item sequence hle hend
    have hstop : (if ending.getD sequence.elements.length = characters.length then
        ending.getD sequence.elements.length else ending.getD L.mostPositiveFixnum) =
        ending.getD sequence.elements.length := by
      split <;> omega
    have hii : max (min (stringAsciiEnd characters) start) (min characters.length (ending.getD L.mostPositiveFixnum)) =
        ending.getD sequence.elements.length := by omega
    refine iff_of_true ⟨fun _ => ⟨r, hfound, ?_⟩, fun h => absurd hvalid h⟩ ?_
    · rw [stringPositionFromEnd_eq T item sequence characters hst hlast hii, checkAfter_of_valid sequence _ hvalid, hstop, ← hloop, if_neg]
      · rfl
      · omega
    · rintro e rfl
      rw [hst, elemcount_eq (hfixnums e rfl)]
      exact Int.ofNat_le.mpr hle
  · obtain ⟨st, hst, hstart⟩ := elemcount_cases (L := L) (k := start)
    rw [ObjectRight, imp_iff_right hvalid, and_iff_right fun h => absurd h hvalid]
    cases ending with
    | none =>
      have hlt : ¬(start ≤ sequence.elements.length ∧ sequence.elements.length ≤ sequence.elements.length) := hvalid
      refine iff_of_true ?_ fun e he => by cases he
      rw [stringPositionFromEnd_eq T item sequence characters hst rfl rfl, if_neg fun h => Bool.false_ne_true h.1,
        checkAfter_of_not_valid sequence _ hvalid, if_pos (.inl (by omega))]
      rfl
    | some e =>
      obtain ⟨last, hlast, hend⟩ := elemcount_cases (L := L) (k := e)
      have hlt : ¬(start ≤ e ∧ e ≤ sequence.elements.length) := hvalid
      have hiff : (∀ k, some e = some k → L.elemcount start ≤ L.elemcount k) ↔ st ≤ last := by
        rw [← Int.ofNat_le, ← hst, ← hlast]
        exact ⟨fun h => h e rfl, fun h k hk => Option.some.inj hk ▸ h⟩
      have hending : L.endingOf (some e) = last := hlast
      rw [hiff, stringPositionFromEnd_eq T item sequence characters hst hending rfl]
      by_cases hle : st ≤ last
      · refine iff_of_true ?_ hle
        rw [if_neg fun h => not_le.mpr h.2 hle, checkAfter_of_not_valid sequence _ hvalid,
          if_pos (.inr ⟨by rw [hending, Int.ofNat_lt]; omega, rfl⟩)]
        rfl
      · rw [if_pos ⟨rfl, not_le.mp hle⟩]
        exact iff_of_false (fun h => by cases h) hle

theorem arrayPosition_right (sequence : Sequence L) (fromEnd : Bool) :
    ObjectRight (T.Finds item) sequence.elements start ending fromEnd
      (arrayPosition T item sequence start ending fromEnd) := by
  have hlength : sequence.elements.length ≤ L.mostPositiveFixnum := sequence.length_le
  constructor
  · intro hvalid
    have hcheck : checkSequenceRange start ending sequence.length = .ok () := checkSequenceRange_eq_ok hvalid le_rfl
    obtain ⟨hfixnum, hfixnums⟩ := hvalid.fixnums hlength
    obtain ⟨hle, hend⟩ := id hvalid
    have hmin : min (L.endingOf ending) sequence.length = (ending.getD sequence.elements.length : ℕ) := by
      rw [endingOf_eq hfixnums, getD_eq_min hvalid hlength, Sequence.length]
      omega
    obtain ⟨n, hn⟩ : ∃ n, ending.getD sequence.elements.length = start + n := Nat.exists_eq_add_of_le hle
    rw [arrayPosition]
    simp only [hcheck, hmin, elemcount_eq hfixnum]
    rw [hn] at hend ⊢
    rw [show ((start + n : ℕ) - (start : ℤ)).toNat = n by omega]
    cases fromEnd with
    | false =>
      obtain ⟨r, hloop, hfound⟩ := arrayPositionLoop_firstFound (T := T) item sequence rfl hend
      refine ⟨r, hfound, ?_⟩
      simp only [hloop, Bool.false_eq_true, if_false]
      cases r <;> rfl
    | true =>
      obtain ⟨r, hloop, hfound⟩ := positionFromEndLoop_lastFound (T := T) item start
        fun k hk => aref_element sequence hend hk
      refine ⟨r, hfound, ?_⟩
      simp only [hloop, if_true]
      cases r <;> rfl
  · intro hvalid
    have hcheck : checkSequenceRange start ending sequence.length = .error .argsOutOfRange :=
      checkSequenceRange_of_not_valid hvalid
    rw [arrayPosition, hcheck]
    rfl

end Cases

section

variable (pointer : ℕ → ℤ) (X : Characters L) (T : ItemTest Obj) (item : Obj) (sequence : Sequence L) (start : ℕ)
  (ending : Option ℕ) (fromEnd : Bool)

/-- A list is right up to the bounds, and with a string the fast loop does not look for another
character. -/
def PositionSafe : Prop :=
  let xs := sequence.elements
  let valid := ValidRange xs.length start ending
  let last := (L.endingInList pointer ending).toNat
  match sequence.contents with
  | .list (_ :: _) =>
    valid ∨ L.endingOf ending ≤ L.elemcount start ∨
      if fromEnd then
        ending = some L.mostPositiveFixnum ∧ start ≤ xs.length ∧ NoneFound (T.Finds item) xs start xs.length
      else
        NoneFound (T.Finds item) xs start (min last xs.length) ∧
          (xs.length < start ∨ ending.isSome ∧ (last < start ∨ xs.length < last))
  | .string characters =>
    if fromEnd then ∀ e, ending = some e → L.elemcount start ≤ L.elemcount e
    else
      (valid ∧ ((T.fastCharacter X item).isSome → T.testNotUnboundp = true ∨
        NoneFound (T.Finds item) xs start (ending.getD xs.length))) ∨
      (¬valid ∧ NoneFound (T.Finds item) xs start (min (L.endingOf ending).toNat xs.length) ∧
        (ending.getD xs.length < start → stringAsciiEnd characters < start))
  | _ => True

variable {ending start fromEnd} in
theorem checkOnly_right {p : Obj → Prop} (hle : L.endingOf ending ≤ L.elemcount start) :
    ObjectRight p sequence.elements start ending fromEnd
      ((signals (checkSequenceRange start ending sequence.length)).map fun _ => none) := by
  have hlength : sequence.elements.length ≤ L.mostPositiveFixnum := sequence.length_le
  constructor
  · intro hvalid
    have hcheck : checkSequenceRange start ending sequence.length = .ok () := checkSequenceRange_eq_ok hvalid le_rfl
    obtain ⟨hfixnum, hfixnums⟩ := hvalid.fixnums hlength
    rw [endingOf_eq hfixnums, elemcount_eq hfixnum, Int.ofNat_le] at hle
    have hend : ending.getD sequence.elements.length ≤ start := by
      rw [getD_eq_min hvalid hlength]
      exact (min_le_left _ _).trans hle
    refine ⟨none, ?_, by rw [hcheck]; rfl⟩
    cases fromEnd with
    | false => exact firstFound_of_le hend
    | true => exact lastFound_of_le hend
  · intro hvalid
    have hcheck : checkSequenceRange start ending sequence.length = .error .argsOutOfRange :=
      checkSequenceRange_of_not_valid hvalid
    rw [hcheck]
    rfl

theorem positionWithObject_right :
    ObjectRight (T.Finds item) sequence.elements start ending fromEnd
        (positionWithObject pointer X T item sequence start ending fromEnd) ↔
      PositionSafe pointer X T item sequence start ending fromEnd := by
  have hlength : sequence.elements.length ≤ L.mostPositiveFixnum := sequence.length_le
  cases hcontents : sequence.contents with
  | list elements =>
    cases elements with
    | nil =>
      simp only [positionWithObject, PositionSafe, hcontents, iff_true]
      exact arrayPosition_right T.toTest item sequence fromEnd
    | cons x list =>
      have hlist : x :: list = sequence.elements := by rw [Sequence.elements, hcontents]; rfl
      simp only [positionWithObject, PositionSafe, hcontents]
      rw [hlist]
      by_cases hlt : L.elemcount start < L.endingOf ending
      · rw [if_neg (not_not.mpr hlt), or_iff_right (not_le.mpr hlt)]
        cases fromEnd with
        | false => exact listPosition_right T.toTest item pointer hlength rfl
        | true => exact listPositionFromEnd_right T.toTest item sequence hlt
      · rw [if_pos hlt]
        exact iff_of_true (checkOnly_right sequence (not_lt.mp hlt)) (.inr (.inl (not_lt.mp hlt)))
  | string characters =>
    have hchars : sequence.elements = characters.map L.makeChar := by rw [Sequence.elements, hcontents]; rfl
    simp only [positionWithObject, PositionSafe, hcontents]
    cases fromEnd with
    | false => exact stringPosition_right item sequence hchars
    | true => exact stringPositionFromEnd_right T.toTest item sequence hchars
  | vector elements =>
    simp only [positionWithObject, PositionSafe, hcontents, iff_true]
    exact arrayPosition_right T.toTest item sequence fromEnd
  | bitVector bits =>
    simp only [positionWithObject, PositionSafe, hcontents, iff_true]
    exact arrayPosition_right T.toTest item sequence fromEnd

end

def numberCharacters : Characters numbers where
  xchar := some
  xchar_eq_some := Option.some_inj

/-- The default test, or its negation, for an item that is no bignum. -/
def itemEql (testNotUnboundp : Bool) : ItemTest ℕ where
  test x y := x == y
  key x := x
  testNotUnboundp := testNotUnboundp
  eqNokey := true
  eq_of_eqNokey _ _ _ := beq_iff_eq

/-- The calls of the functions with a letter, or letters, and with these bounds. -/
def positionCall (T : ItemTest ℕ) (sequence : Sequence numbers) (start : ℕ) (ending : Option ℕ) (fromEnd : Bool) :
    Except Fault (Option ℤ) × Except Fault ℕ :=
  (fposition Nat.cast numberCharacters T 97 sequence start ending fromEnd,
    ffind Nat.cast numberCharacters T 97 sequence start ending fromEnd 0)

end XEmacs.Sequences
