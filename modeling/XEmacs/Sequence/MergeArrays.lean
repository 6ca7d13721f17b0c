import XEmacs.Sequence.MergeTortoise

/-! Merging and sorting in the memory. The words that a loop writes do not change what it still
has to read, since an array that begins in the destination is read from a copy. -/

namespace XEmacs.Sequences

open Lib

variable {Obj : Type}

section

variable {mem : Memory Obj} {p q n i : ℕ} {xs : List Obj}

@[simp] theorem length_readArray : (readArray mem p n).length = n := by
  rw [readArray, List.length_map, List.length_range]

theorem getElem_readArray (h : i < (readArray mem p n).length) :
    (readArray mem p n)[i] = mem (p + i) := by
  simp only [readArray, List.getElem_map, List.getElem_range]

theorem readArray_add (m : ℕ) :
    readArray mem p (m + n) = readArray mem p m ++ readArray mem (p + m) n := by
  simp only [readArray, List.range_add, List.map_append, List.map_map]
  congr 1
  apply List.map_congr_left
  intro i _
  exact congrArg mem (Nat.add_assoc p m i).symm

theorem readArray_congr {mem' : Memory Obj} (h : ∀ i < n, mem' (p + i) = mem (p + i)) :
    readArray mem' p n = readArray mem p n :=
  List.map_congr_left fun i hi => h i (List.mem_range.mp hi)

theorem writeArray_of_lt (h : i < p) : writeArray mem p xs i = mem i := by
  induction xs generalizing mem p with
  | nil => rfl
  | cons x xs ih =>
    rw [writeArray, ih (Nat.lt_succ_of_lt h)]
    exact Function.update_of_ne h.ne _ _

theorem writeArray_of_ge (h : p + xs.length ≤ i) : writeArray mem p xs i = mem i := by
  induction xs generalizing mem p with
  | nil => rfl
  | cons x xs ih =>
    rw [List.length_cons] at h
    rw [writeArray, ih (by omega)]
    exact Function.update_of_ne (by omega) _ _

theorem writeArray_getElem (h : i < xs.length) : writeArray mem p xs (p + i) = xs[i] := by
  induction xs generalizing mem p i with
  | nil => exact absurd h (Nat.not_lt_zero i)
  | cons x xs ih =>
    rw [writeArray]
    cases i with
    | zero =>
      show writeArray _ (p + 1) xs p = x
      rw [writeArray_of_lt (Nat.lt_add_one p)]
      exact Function.update_self _ _ _
    | succ i =>
      rw [← Nat.add_assoc, Nat.add_right_comm, ih (Nat.lt_of_succ_lt_succ h)]
      rfl

theorem readArray_writeArray (h : xs.length = n) : readArray (writeArray mem p xs) p n = xs := by
  apply List.ext_getElem
  · rw [length_readArray, h]
  · intro i hi hi'
    rw [getElem_readArray, writeArray_getElem hi']

end

/-- The elements that are read, of an array with `n` of them. -/
def contents (read : Memory Obj → ℕ → Obj) (mem : Memory Obj) (n : ℕ) : List Obj :=
  (List.range n).map (read mem)

/-- Writing from `lo` up to `hi` does not change what is read. -/
def Steady (read : Memory Obj → ℕ → Obj) (n lo hi : ℕ) : Prop :=
  ∀ mem d v, lo ≤ d → d < hi → ∀ i < n, read (Function.update mem d v) i = read mem i

section

variable {read front back : Memory Obj → ℕ → Obj} {mem : Memory Obj} {n lo hi d i : ℕ} {v : Obj}

theorem Steady.contents (h : Steady read n lo hi) (hlo : lo ≤ d) (hhi : d < hi) :
    contents read (Function.update mem d v) n = contents read mem n :=
  List.map_congr_left fun i hi => h mem d v hlo hhi i (List.mem_range.mp hi)

theorem drop_contents (h : i < n) :
    (contents read mem n).drop i = read mem i :: (contents read mem n).drop (i + 1) := by
  have hlength : i < (contents read mem n).length := by
    rwa [contents, List.length_map, List.length_range]
  rw [List.drop_eq_getElem_cons hlength]
  simp only [contents, List.getElem_map, List.getElem_range]

theorem drop_contents_of_le (h : n ≤ i) : (contents read mem n).drop i = [] :=
  List.drop_eq_nil_of_le (by rwa [contents, List.length_map, List.length_range])

theorem arrayMergeRest_eq {m dest : ℕ} (hsteady : Steady read n lo hi) (hlo : lo ≤ dest)
    (hhi : dest + m ≤ hi) (hm : i + m = n) :
    arrayMergeRest read m mem dest i = writeArray mem dest ((contents read mem n).drop i) := by
  induction m generalizing mem dest i with
  | zero =>
    rw [drop_contents_of_le (by omega)]
    rfl
  | succ m ih =>
    rw [arrayMergeRest, ih (by omega) (by omega) (by omega), hsteady.contents hlo (by omega),
      drop_contents (i := i) (by omega)]
    rfl

theorem arrayMergeLoop_eq (check : Obj → Obj → Bool) {frontLen backLen m dest fronting backing : ℕ}
    (hfront : Steady front frontLen lo hi) (hback : Steady back backLen lo hi) (hlo : lo ≤ dest)
    (hhi : dest + m ≤ hi) (hf : fronting ≤ frontLen) (hb : backing ≤ backLen)
    (hm : fronting + backing + m = frontLen + backLen) :
    arrayMergeLoop check front back frontLen backLen m mem dest fronting backing =
      writeArray mem dest (stableMerge check ((contents front mem frontLen).drop fronting)
        ((contents back mem backLen).drop backing)) := by
  induction m generalizing mem dest fronting backing with
  | zero =>
    rw [drop_contents_of_le (by omega), drop_contents_of_le (by omega), stableMerge_nil_left]
    rfl
  | succ m ih =>
    rw [arrayMergeLoop]
    by_cases hfe : fronting ≥ frontLen
    · rw [if_pos hfe, arrayMergeRest_eq hback hlo hhi (by omega), drop_contents_of_le hfe,
        stableMerge_nil_left]
    rw [if_neg hfe]
    by_cases hbe : backing ≥ backLen
    · rw [if_pos hbe, arrayMergeRest_eq hfront hlo hhi (by omega),
        @drop_contents_of_le _ back _ _ _ hbe, stableMerge_nil_right]
    rw [if_neg hbe, drop_contents (i := fronting) (by omega), drop_contents (i := backing) (by omega)]
    cases hcheck : check (back mem backing) (front mem fronting) with
    | false =>
      rw [if_pos rfl, stableMerge_cons_left _ _ hcheck, ih (by omega) (by omega) (by omega) hb (by omega),
        hfront.contents hlo (by omega), hback.contents hlo (by omega), writeArray,
        ← drop_contents (by omega)]
    | true =>
      rw [if_neg Bool.false_ne_true.symm, stableMerge_cons_right _ _ hcheck,
        ih (by omega) (by omega) hf (by omega) (by omega),
        hfront.contents hlo (by omega), hback.contents hlo (by omega), writeArray,
        ← drop_contents (by omega)]

theorem steady_staging {dest destLen p n : ℕ}
    (h : (dest ≤ p ∧ p < dest + destLen) ∨ p + n ≤ dest ∨ dest + destLen ≤ p) :
    Steady (staging mem dest destLen p) n dest (dest + destLen) := by
  intro mem' d v hlo hhi i hi
  rw [staging]
  split
  case isTrue => rfl
  case isFalse hp => exact Function.update_of_ne (by omega) _ _

theorem contents_staging (dest destLen p : ℕ) :
    contents (staging mem dest destLen p) mem n = readArray mem p n := by
  rw [contents, staging]
  split <;> rfl

theorem arrayMerge_eq (check : Obj → Obj → Bool) (mem : Memory Obj)
    (dest front frontLen back backLen : ℕ)
    (hfront : (dest ≤ front ∧ front < dest + (frontLen + backLen)) ∨ front + frontLen ≤ dest ∨
      dest + (frontLen + backLen) ≤ front)
    (hback : (dest ≤ back ∧ back < dest + (frontLen + backLen)) ∨ back + backLen ≤ dest ∨
      dest + (frontLen + backLen) ≤ back) :
    arrayMerge check mem dest (frontLen + backLen) front frontLen back backLen =
      .ok (writeArray mem dest (stableMerge check (readArray mem front frontLen)
        (readArray mem back backLen))) := by
  rw [arrayMerge, if_neg (not_not.mpr (Nat.add_comm frontLen backLen))]
  split
  case isTrue hzero =>
    obtain ⟨rfl, rfl⟩ := Nat.add_eq_zero_iff.mp hzero
    rw [readArray, List.range_zero, List.map_nil, readArray, List.range_zero, List.map_nil,
      stableMerge_nil_left]
    rfl
  case isFalse =>
    rw [arrayMergeLoop_eq check (steady_staging hfront) (steady_staging hback) le_rfl le_rfl
      (Nat.zero_le _) (Nat.zero_le _) (by omega), contents_staging, contents_staging, List.drop_zero,
      List.drop_zero]

end

def Outside (p n : ℕ) (mem mem' : Memory Obj) : Prop :=
  ∀ i, i < p ∨ p + n ≤ i → mem' i = mem i

theorem arraySort_eq {check : Obj → Obj → Bool} {set : Set Obj}
    (horder : StrictWeakOrderOn check set) {mem : Memory Obj} {p n : ℕ}
    (hset : ∀ x ∈ readArray mem p n, x ∈ set) :
    ∃ mem', arraySort check mem p n = .ok mem' ∧
      Sorts check set (readArray mem p n) (readArray mem' p n) ∧ Outside p n mem mem' := by
  induction n using Nat.strong_induction_on generalizing mem p with
  | _ n ih =>
    rw [arraySort]
    by_cases hshort : n < 2
    · rw [if_pos hshort]
      exact ⟨mem, rfl, sorts_of_length_lt_two (by rwa [length_readArray]), fun _ _ => rfl⟩
    · rw [if_neg hshort]
      have hsplit : n / 2 + (n - n / 2) = n := by omega
      have hread : readArray mem p n =
          readArray mem p (n / 2) ++ readArray mem (p + n / 2) (n - n / 2) := by
        rw [← readArray_add, hsplit]
      rw [hread] at hset ⊢
      obtain ⟨mem₁, hrun₁, hsorts₁, hout₁⟩ := ih (n / 2) (by omega) fun x hx =>
        hset x (List.mem_append_left _ hx)
      have hback : readArray mem₁ (p + n / 2) (n - n / 2) =
          readArray mem (p + n / 2) (n - n / 2) :=
        readArray_congr fun i _ => hout₁ _ (Or.inr (by omega))
      obtain ⟨mem₂, hrun₂, hsorts₂, hout₂⟩ := ih (n - n / 2) (by omega) fun x hx =>
        hset x (List.mem_append_right _ (hback ▸ hx))
      have hfront : readArray mem₂ p (n / 2) = readArray mem₁ p (n / 2) :=
        readArray_congr fun i _ => hout₂ _ (Or.inl (by omega))
      rw [hback] at hsorts₂
      have hmerge := arrayMerge_eq check mem₂ p p (n / 2) (p + n / 2) (n - n / 2)
        (Or.inl ⟨le_rfl, by omega⟩) (Or.inl ⟨by omega, by omega⟩)
      have hsorts := Sorts.merge horder (fun x hx => hset x (List.mem_append_left _ hx))
        (fun x hx => hset x (List.mem_append_right _ hx)) hsorts₁ hsorts₂
      rw [hsplit, hfront] at hmerge
      have hlength : (stableMerge check (readArray mem₁ p (n / 2))
          (readArray mem₂ (p + n / 2) (n - n / 2))).length = n := by
        rw [hsorts.perm.length_eq, List.length_append, length_readArray, length_readArray, hsplit]
      refine ⟨writeArray mem₂ p (stableMerge check (readArray mem₁ p (n / 2))
        (readArray mem₂ (p + n / 2) (n - n / 2))), ?_, ?_, ?_⟩
      · show arraySort _ _ _ _ >>= _ = _
        rw [hrun₁]
        show arraySort _ _ _ _ >>= _ = _
        rw [hrun₂]
        exact hmerge
      · rw [readArray_writeArray hlength]
        exact hsorts
      · intro i hi
        rw [hi.elim (fun h => writeArray_of_lt h) fun h => writeArray_of_ge (by omega)]
        rw [hout₂ i (by omega), hout₁ i (by omega)]

section

variable {h : Conses Obj} {mem : Memory Obj} {output : ℕ}

theorem listListMergeIntoArray_eq (check : Obj → Obj → Bool) {p q : Option ℕ} {xs ys : List ℕ}
    {n : ℕ} (hxs : SList h.cdr p xs) (hys : SList h.cdr q ys) (hn : xs.length + ys.length = n) :
    listListMergeIntoArray check h n mem output p q =
      .ok (writeArray mem output (stableMerge check (xs.map h.car) (ys.map h.car))) := by
  induction n generalizing mem output p q xs ys with
  | zero =>
    obtain ⟨hx, hy⟩ := Nat.add_eq_zero_iff.mp hn
    rw [List.length_eq_zero_iff.mp hx, List.length_eq_zero_iff.mp hy, listListMergeIntoArray,
      List.map_nil, stableMerge_nil_left]
    rfl
  | succ n ih =>
    cases xs with
    | nil =>
      have hnil : SList h.cdr p [] := hxs
      obtain rfl : p = none := hxs
      cases ys with
      | nil => exact absurd hn (Nat.succ_ne_zero n).symm
      | cons y ys =>
        obtain rfl : q = some y := hys.1
        rw [listListMergeIntoArray, ih hnil hys.2 (by simpa using hn), List.map_nil,
          stableMerge_nil_left, stableMerge_nil_left]
        rfl
    | cons x xs =>
      obtain rfl : p = some x := hxs.1
      cases ys with
      | nil =>
        have hnil : SList h.cdr q [] := hys
        obtain rfl : q = none := hys
        rw [listListMergeIntoArray, ih hxs.2 hnil (by simpa using hn), List.map_nil,
          stableMerge_nil_right, stableMerge_nil_right]
        rfl
      | cons y ys =>
        obtain rfl : q = some y := hys.1
        rw [listListMergeIntoArray, List.map_cons, List.map_cons]
        rw [List.length_cons, List.length_cons] at hn
        cases hcheck : check (h.car y) (h.car x) with
        | false =>
          rw [if_pos rfl, ih hxs.2 hys (by rw [List.length_cons]; omega),
            stableMerge_cons_left _ _ hcheck]
          rfl
        | true =>
          rw [if_neg Bool.false_ne_true.symm, ih hxs hys.2 (by rw [List.length_cons]; omega),
            stableMerge_cons_right _ _ hcheck]
          rfl

theorem listRestIntoArray_eq {p : Option ℕ} {xs : List ℕ} {n : ℕ} (hxs : SList h.cdr p xs)
    (hn : xs.length = n) :
    listRestIntoArray h n mem output p = .ok (writeArray mem output (xs.map h.car)) := by
  induction xs generalizing mem output p n with
  | nil =>
    subst hn
    rfl
  | cons x xs ih =>
    subst hn
    obtain rfl : p = some x := hxs.1
    rw [List.length_cons, listRestIntoArray, ih hxs.2 rfl]
    rfl

theorem listArrayMergeIntoArray_eq (check : Obj → Obj → Bool) {array arrayLen lo hi : ℕ}
    (reverseOrder : Bool)
    (hsteady : Steady (fun (mem : Memory Obj) i => mem (array + i)) arrayLen lo hi)
    {p : Option ℕ} {xs : List ℕ} {n i : ℕ} (hxs : SList h.cdr p xs) (hlo : lo ≤ output)
    (hhi : output + n ≤ hi) (hile : i ≤ arrayLen) (hn : xs.length + arrayLen = n + i) :
    listArrayMergeIntoArray check h array arrayLen reverseOrder n mem output p i =
      .ok (writeArray mem output (mergeInOrder check reverseOrder (xs.map h.car)
        ((readArray mem array arrayLen).drop i))) := by
  induction n generalizing mem output p xs i with
  | zero =>
    obtain rfl : xs = [] := List.length_eq_zero_iff.mp (by omega)
    rw [listArrayMergeIntoArray, List.map_nil, mergeInOrder_nil_left,
      List.drop_eq_nil_of_le (by rw [length_readArray]; omega)]
    rfl
  | succ n ih =>
    cases xs with
    | nil =>
      obtain rfl : p = none := hxs
      rw [List.length_nil] at hn
      rw [listArrayMergeIntoArray, if_neg (not_not.mpr (by omega)), List.map_nil,
        mergeInOrder_nil_left, arrayMergeRest_eq hsteady hlo hhi (by omega)]
      rfl
    | cons x xs =>
      obtain rfl : p = some x := hxs.1
      rw [listArrayMergeIntoArray]
      by_cases hend : i ≥ arrayLen
      · rw [if_pos hend, listRestIntoArray_eq hxs (by omega),
          List.drop_eq_nil_of_le (by rw [length_readArray]; omega), mergeInOrder_nil_right]
      · rw [List.length_cons] at hn
        have hdrop : (readArray mem array arrayLen).drop i =
            mem (array + i) :: (readArray mem array arrayLen).drop (i + 1) := by
          show (contents (fun mem i => mem (array + i)) mem arrayLen).drop i = _
          exact drop_contents (by omega)
        have hsame : ∀ v, readArray (Function.update mem output v) array arrayLen =
            readArray mem array arrayLen := fun v => hsteady.contents hlo (by omega)
        rw [if_neg hend, hdrop, List.map_cons]
        cases htakes : takesList check reverseOrder (h.car x) (mem (array + i)) with
        | true =>
          rw [if_pos rfl, mergeInOrder_list _ _ htakes,
            ih hxs.2 (by omega) (by omega) hile (by omega), hsame, hdrop]
          rfl
        | false =>
          rw [if_neg Bool.false_ne_true, mergeInOrder_array _ _ htakes,
            ih hxs (by omega) (by omega) (by omega) (by rw [List.length_cons]; omega), hsame]
          rfl

end

end XEmacs.Sequences
