import XEmacs.Sequence.MergeArrays

/-! Sorting and merging are stable, whatever the representations. Only merging into a list in
place has conditions: two lists must not share a cons, and the tortoise of a list that is merged
with an array must not come into its way. -/

namespace XEmacs.Sequences

open Lib

variable {Obj : Type} {L : Objects Obj} {R : Readers L}

/-! ### What a sequence holds -/

def Seq.type : Seq → SeqType
  | .list _ => .list
  | .vector _ _ => .vector
  | .string _ => .string
  | .bitVector _ => .bitVector

variable (L) in
def Holds (m : Machine Obj) (s : Seq) (xs : List Obj) : Prop :=
  match s with
  | .list first => ∃ cells, SList m.conses.cdr first cells ∧ cells.map m.conses.car = xs ∧
      ∀ x ∈ cells, x < m.conses.next
  | .vector p n => readArray m.mem p n = xs ∧ p + n ≤ m.top
  | .string characters => characters.map L.makeChar = xs
  | .bitVector bits => bits.map L.makeBit = xs

variable (L) in
def CanHold (type : SeqType) (x : Obj) : Prop :=
  match type with
  | .list | .vector => True
  | .string => ∃ c, L.makeChar c = x
  | .bitVector => ∃ b, L.makeBit b = x

structure Extends (m m' : Machine Obj) : Prop where
  conses : m'.conses = m.conses
  mem : ∀ i < m.top, m'.mem i = m.mem i
  top : m.top ≤ m'.top

namespace Extends

variable {m m' m'' : Machine Obj}

theorem refl : Extends m m :=
  ⟨rfl, fun _ _ => rfl, le_rfl⟩

theorem trans (h : Extends m m') (h' : Extends m' m'') : Extends m m'' :=
  ⟨h'.conses.trans h.conses,
    fun i hi => (h'.mem i (lt_of_lt_of_le hi h.top)).trans (h.mem i hi), h.top.trans h'.top⟩

theorem alloca (xs : List Obj) : Extends m (m.alloca xs).1 :=
  ⟨rfl, fun _ hi => writeArray_of_lt hi, Nat.le_add_right _ _⟩

theorem holds (h : Extends m m') {s : Seq} {xs : List Obj} (hs : Holds L m s xs) :
    Holds L m' s xs := by
  cases s with
  | list first =>
    obtain ⟨cells, hlist, hcar, hbelow⟩ := hs
    rw [← h.conses] at hlist hcar hbelow
    exact ⟨cells, hlist, hcar, hbelow⟩
  | vector p n =>
    refine ⟨(readArray_congr fun i hi => ?_).trans hs.1, hs.2.trans h.top⟩
    have hle := hs.2
    exact h.mem _ (by omega)
  | string characters => exact hs
  | bitVector bits => exact hs

end Extends

theorem Holds.machineLength_eq {m : Machine Obj} {s : Seq} {xs : List Obj} (hs : Holds L m s xs) {fuel : ℕ}
    (hfuel : xs.length ≤ fuel) : m.length fuel s = .ok xs.length := by
  cases s with
  | list first =>
    obtain ⟨cells, hlist, rfl, -⟩ := hs
    rw [List.length_map] at hfuel ⊢
    exact length_eq hlist hfuel
  | vector p n =>
    rw [← hs.1, length_readArray]
    rfl
  | string characters =>
    rw [← show _ = xs from hs, List.length_map]
    rfl
  | bitVector bits =>
    rw [← show _ = xs from hs, List.length_map]
    rfl

theorem elements_list_eq {m : Machine Obj} {p : Option ℕ} {cells : List ℕ}
    (hlist : SList m.conses.cdr p cells) {fuel : ℕ} (hfuel : cells.length ≤ fuel) :
    m.elements L fuel (.list p) = .ok (cells.map m.conses.car) := by
  induction cells generalizing p fuel with
  | nil =>
    obtain rfl : p = none := hlist
    cases fuel <;> rfl
  | cons x cells ih =>
    obtain rfl : p = some x := hlist.1
    cases fuel with
    | zero => exact absurd hfuel (Nat.not_succ_le_zero _)
    | succ fuel =>
      rw [Machine.elements, ih hlist.2 (Nat.le_of_succ_le_succ hfuel)]
      rfl

theorem Holds.elements_eq {m : Machine Obj} {s : Seq} {xs : List Obj} (hs : Holds L m s xs)
    {fuel : ℕ} (hfuel : xs.length ≤ fuel) : m.elements L fuel s = .ok xs := by
  cases s with
  | list first =>
    obtain ⟨cells, hlist, rfl, -⟩ := hs
    rw [List.length_map] at hfuel
    exact elements_list_eq hlist hfuel
  | vector p n =>
    rw [← hs.1]
    cases fuel <;> rfl
  | string characters =>
    rw [← show _ = xs from hs]
    cases fuel <;> rfl
  | bitVector bits =>
    rw [← show _ = xs from hs]
    cases fuel <;> rfl

/-- The words of an array from `p` on, which are apart from those from `lo` to `hi`. -/
structure Stored (m : Machine Obj) (lo hi p : ℕ) (xs : List Obj) : Prop where
  read : readArray m.mem p xs.length = xs
  below : p + xs.length ≤ m.top
  apart : p + xs.length ≤ lo ∨ hi ≤ p

namespace Stored

variable {m m' : Machine Obj} {lo hi p : ℕ} {xs : List Obj}

theorem grow (h : Stored m lo hi p xs) (hm : Extends m m') : Stored m' lo hi p xs := by
  have hbelow := h.below
  exact ⟨(readArray_congr fun i hi => hm.mem _ (by omega)).trans h.read, hbelow.trans hm.top, h.apart⟩

theorem steady (h : Stored m lo hi p xs) :
    Steady (fun (mem : Memory Obj) i => mem (p + i)) xs.length lo hi := by
  intro mem d v hlo hhi i hi
  have hapart := h.apart
  exact Function.update_of_ne (by omega) _ _

theorem alloca (m : Machine Obj) (xs : List Obj) (hhi : hi ≤ m.top) :
    Stored (m.alloca xs).1 lo hi m.top xs :=
  ⟨readArray_writeArray rfl, le_rfl, Or.inr hhi⟩

end Stored

theorem Holds.storage_eq {m₀ m : Machine Obj} {s : Seq} {xs : List Obj} (hs : Holds L m₀ s xs)
    (hm : Extends m₀ m) {hi : ℕ} (hhi : hi ≤ m.top) :
    ∃ m' p n, m.storage L s = (m', p, n) ∧ Extends m m' ∧
      (s.type ≠ .list → n = xs.length ∧ Stored m' m₀.top hi p xs) := by
  cases s with
  | list first => exact ⟨m, 0, 0, rfl, Extends.refl, fun harray => absurd rfl harray⟩
  | vector p n =>
    refine ⟨m, p, n, rfl, Extends.refl, fun _ => ?_⟩
    obtain rfl : xs.length = n := by rw [← hs.1, length_readArray]
    exact ⟨rfl, (hm.holds hs).1, (hm.holds hs).2, Or.inl hs.2⟩
  | string characters =>
    obtain rfl : characters.map L.makeChar = xs := hs
    exact ⟨_, _, _, rfl, Extends.alloca _, fun _ => ⟨(List.length_map _).symm, Stored.alloca m _ hhi⟩⟩
  | bitVector bits =>
    obtain rfl : bits.map L.makeBit = xs := hs
    exact ⟨_, _, _, rfl, Extends.alloca _, fun _ => ⟨(List.length_map _).symm, Stored.alloca m _ hhi⟩⟩

theorem exists_mapM_eq {α β : Type} {f : α → Option β} {g : β → α} (hfg : ∀ b, f (g b) = some b)
    {xs : List α} (h : ∀ x ∈ xs, ∃ b, g b = x) : ∃ ys, xs.mapM f = some ys ∧ ys.map g = xs := by
  induction xs with
  | nil => exact ⟨[], rfl, rfl⟩
  | cons x xs ih =>
    obtain ⟨b, rfl⟩ := h x List.mem_cons_self
    obtain ⟨ys, hys, hmap⟩ := ih fun y hy => h y (List.mem_cons_of_mem _ hy)
    refine ⟨b :: ys, ?_, by rw [List.map_cons, hmap]⟩
    rw [List.mapM_cons, hfg, hys]
    rfl

theorem make_eq (m : Machine Obj) (type : SeqType) {elements : List Obj}
    (h : ∀ x ∈ elements, CanHold L type x) :
    ∃ m' s, m.make R type elements = .ok (m', s) ∧ s.type = type ∧ Holds L m' s elements := by
  cases type with
  | list =>
    obtain ⟨cells, hlist, hcar, -, hbelow, -⟩ := list_eq m.conses elements
    exact ⟨_, _, rfl, rfl, cells, hlist, hcar, hbelow⟩
  | vector => exact ⟨_, _, rfl, rfl, readArray_writeArray rfl, le_rfl⟩
  | string =>
    obtain ⟨characters, hmapM, hmap⟩ := exists_mapM_eq R.charOf_makeChar h
    refine ⟨m, .string characters, ?_, rfl, hmap⟩
    rw [Machine.make, hmapM]
  | bitVector =>
    obtain ⟨bits, hmapM, hmap⟩ := exists_mapM_eq R.bitOf_makeBit h
    refine ⟨m, .bitVector bits, ?_, rfl, hmap⟩
    rw [Machine.make, hmapM]

theorem type_ne_list {s : Seq} (h : ∀ first, s = .list first → False) : s.type ≠ .list := by
  cases s with
  | list first => exact absurd rfl (h first)
  | vector p n => exact SeqType.noConfusion
  | string characters => exact SeqType.noConfusion
  | bitVector bits => exact SeqType.noConfusion

theorem mergeIntoArray_eq (check : Obj → Obj → Bool) {m : Machine Obj} {a b : Seq} {xs ys : List Obj}
    (ha : Holds L m a xs) (hb : Holds L m b ys) {output p q : ℕ}
    (hp : a.type ≠ .list → Stored m output (output + (xs.length + ys.length)) p xs)
    (hq : b.type ≠ .list → Stored m output (output + (xs.length + ys.length)) q ys) :
    mergeIntoArray check m output p xs.length q ys.length a b =
      .ok (writeArray m.mem output (stableMerge check xs ys)) := by
  rw [mergeIntoArray.eq_def]
  split
  case h_1 one two =>
    obtain ⟨cells, hlist, rfl, -⟩ := ha
    obtain ⟨cells', hlist', rfl, -⟩ := hb
    exact listListMergeIntoArray_eq check hlist hlist' (by rw [List.length_map, List.length_map])
  case h_2 one hb' =>
    have hq := hq (type_ne_list hb')
    obtain ⟨cells, hlist, rfl, -⟩ := ha
    rw [listArrayMergeIntoArray_eq check false hq.steady hlist le_rfl le_rfl (Nat.zero_le _)
      (by rw [List.length_map]; rfl), List.drop_zero, hq.read]
    rfl
  case h_3 two ha' =>
    have hp := hp (type_ne_list ha')
    obtain ⟨cells, hlist, rfl, -⟩ := hb
    rw [listArrayMergeIntoArray_eq check true hp.steady hlist le_rfl le_rfl (Nat.zero_le _)
      (by rw [List.length_map]; omega), List.drop_zero, hp.read]
    rfl
  case h_4 hne hne' _ =>
    have hp := hp (type_ne_list hne)
    have hq := hq (type_ne_list hne')
    rw [arrayMerge_eq check m.mem output p xs.length q ys.length (Or.inr hp.apart) (Or.inr hq.apart),
      hp.read, hq.read]

theorem mergeByArray_eq (check : Obj → Obj → Bool) {m : Machine Obj} {a b : Seq} {xs ys : List Obj}
    (ha : Holds L m a xs) (hb : Holds L m b ys) (type : SeqType) (nil : Obj)
    (hcan : ∀ z ∈ xs ++ ys, CanHold L type z) {fuel : ℕ} (hfuel : xs.length ≤ fuel)
    (hfuel' : ys.length ≤ fuel) :
    ∃ m' s, mergeByArray R check fuel m type nil a b = .ok (m', s) ∧ s.type = type ∧
      Holds L m' s (stableMerge check xs ys) := by
  have hsize : (stableMerge check xs ys).length = xs.length + ys.length := by
    rw [stableMerge, List.length_merge]
  have halloca := Extends.alloca (m := m) (List.replicate (xs.length + ys.length) nil)
  obtain ⟨m₁, hm₁⟩ : ∃ m₁, m.alloca (List.replicate (xs.length + ys.length) nil) = (m₁, m.top) :=
    ⟨_, rfl⟩
  have htop : m.top + (xs.length + ys.length) = m₁.top := by
    rw [show m₁ = _ from (congrArg Prod.fst hm₁).symm]
    exact congrArg (m.top + ·) List.length_replicate.symm
  rw [hm₁] at halloca
  -- the output, and then the arrays of the sequences that are not lists
  obtain ⟨m₂, p, n, hone, hm₂, hp⟩ := ha.storage_eq halloca htop.le
  obtain ⟨m₃, q, k, htwo, hm₃, hq⟩ := hb.storage_eq (halloca.trans hm₂) (htop.le.trans hm₂.top)
  have hm := (halloca.trans hm₂).trans hm₃
  have hwords := mergeIntoArray_eq check (hm.holds ha) (hm.holds hb)
    (fun harray => (hp harray).2.grow hm₃) fun harray => (hq harray).2
  obtain ⟨m', s, hmake, htype, hs⟩ := make_eq (R := R)
    { m₃ with mem := writeArray m₃.mem m.top (stableMerge check xs ys) } type
    fun z hz => hcan z (List.mem_append.mpr (mem_stableMerge.mp hz))
  refine ⟨m', s, ?_, htype, hs⟩
  rw [mergeByArray, ha.machineLength_eq hfuel, hb.machineLength_eq hfuel']
  simp only [bind, Except.bind, hm₁, hone, htwo, hwords]
  rw [readArray_writeArray hsize]
  exact hmake

/-! ### Into a list -/

/-- The merge does not end in an error or lose elements: two lists have no cons in common, and a
list merged with an array passes the test for a circular list. -/
def MergeSafe (check : Obj → Obj → Bool) (m : Machine Obj) (xs ys : List Obj) (type : SeqType)
    (sequenceOne sequenceTwo : Seq) : Prop :=
  match type, sequenceOne, sequenceTwo with
  | .list, .list p, .list q =>
    ∀ cells cells', SList m.conses.cdr p cells → SList m.conses.cdr q cells' →
      ∀ x ∈ cells, x ∉ cells'
  | .list, .list _, _ => Passes xs.length (sides (takesList check false) xs ys)
  | .list, _, .list _ => Passes ys.length (sides (takesList check true) ys xs)
  | _, _, _ => True

variable (L) in
/-- The machine and sequence that a function gives hold the merged elements. -/
def GivesMerged (check : Obj → Obj → Bool) (set : Set Obj) (type : SeqType) (xs ys : List Obj)
    (result : Except MergeError (Machine Obj × Seq)) : Prop :=
  ∃ m' s zs, result = .ok (m', s) ∧ s.type = type ∧ Holds L m' s zs ∧ Merges check set xs ys zs

section

variable {check : Obj → Obj → Bool} {set : Set Obj} {m : Machine Obj} {a b : Seq} {p q : Option ℕ}
  {xs ys : List Obj}

theorem append_eq (hs : Holds L m a xs) {fuel : ℕ} (hfuel : xs.length ≤ fuel) :
    ∃ m' s', m.append L fuel a = .ok (m', s') ∧ s'.type = .list ∧ Holds L m' s' xs := by
  obtain ⟨cells, hlist, hcar, -, hbelow, -⟩ := list_eq m.conses xs
  refine ⟨{ m with conses := (m.conses.list xs).1 }, .list (m.conses.list xs).2, ?_, rfl, cells,
    hlist, hcar, hbelow⟩
  rw [Machine.append, hs.elements_eq hfuel]
  rfl

theorem listArray_iff (reverseOrder : Bool) {cells : List ℕ} (hlist : SList m.conses.cdr p cells)
    (hbelow : ∀ x ∈ cells, x < m.conses.next) (array : List Obj)
    (hmerges : Merges check set xs ys
      (mergeInOrder check reverseOrder (cells.map m.conses.car) array)) {m' : Machine Obj}
    (hm : m'.conses = m.conses) :
    (∃ fuel, GivesMerged L check set .list xs ys (do
      let (h, value) ← listArrayMergeIntoList check fuel m'.conses p array reverseOrder
      return ({ m' with conses := h }, .list value))) ↔
    Passes cells.length (sides (takesList check reverseOrder) (cells.map m.conses.car) array) := by
  have hresult := fun fuel =>
    listArrayMergeIntoList_eq check fuel hlist hbelow array reverseOrder
  rw [hm]
  constructor
  · rintro ⟨fuel, m'', s, zs, hrun, -⟩
    obtain ⟨r, hr, -⟩ := exists_of_bind_eq_ok hrun
    rcases hresult fuel with ⟨_, _, _, -, hpasses, -⟩ | ⟨e, he, -⟩ | ⟨he, -⟩
    · exact hpasses
    · exact absurd (he.symm.trans hr) (by simp)
    · exact absurd (he.symm.trans hr) (by simp)
  · intro hpasses
    refine ⟨cells.length + array.length + 1, ?_⟩
    rcases hresult (cells.length + array.length + 1) with
      ⟨h, r, zs, hrun, -, hzs, hcar, hnext⟩ | ⟨_, -, -, hfails⟩ | ⟨-, hle⟩
    · refine ⟨{ m' with conses := h }, .list r, _, ?_, rfl, ⟨zs, hzs, hcar, hnext⟩, hmerges⟩
      rw [hrun]
      rfl
    · exact absurd hpasses hfails
    · exact absurd hle (Nat.not_succ_le_self _)

theorem listList_iff (ha : Holds L m (.list p) xs) (hb : Holds L m (.list q) ys)
    (hmerges : Merges check set xs ys (stableMerge check xs ys)) :
    (∃ fuel, GivesMerged L check set .list xs ys (do
      let (h, value) ← listMerge check fuel m.conses p q
      return ({ m with conses := h }, .list value))) ↔
    MergeSafe check m xs ys .list (.list p) (.list q) := by
  obtain ⟨cells, hlist, rfl, hbelow⟩ := ha
  obtain ⟨cells', hlist', rfl, hbelow'⟩ := hb
  constructor
  · rintro ⟨fuel, m', s, zs, hrun, -, hs, hzs⟩ l l' hl hl' x hx hx'
    rw [hl.unique hlist] at hx
    rw [hl'.unique hlist'] at hx'
    obtain ⟨⟨h, r⟩, hr, hrest⟩ := exists_of_bind_eq_ok hrun
    obtain ⟨rfl, rfl⟩ := Prod.mk.inj (Except.ok.inj hrest)
    obtain ⟨zcells, hz, rfl, -⟩ := hs
    have hless := listMerge_shared check hlist hlist' hx hx' hr hz
    have hlength := hzs.perm.length_eq
    simp only [List.length_append, List.length_map] at hlength
    omega
  · intro hsafe
    obtain ⟨h, r, hrun, hr, hframe⟩ := listMerge_eq check hlist hlist'
      (hsafe cells cells' hlist hlist') (Nat.lt_succ_self (cells.length + cells'.length))
    refine ⟨_, { m with conses := h }, .list r, _, by rw [hrun]; rfl, rfl,
      ⟨_, hr, rfl, fun x hx => ?_⟩, ?_⟩
    · show x < h.next
      rw [hframe.next]
      exact (mem_stableMerge.mp hx).elim (hbelow x) (hbelow' x)
    · show Merges check set _ _ (List.map h.car _)
      rw [hframe.car, map_stableMerge]
      exact hmerges

theorem mergeSafe_list_array (hb : b.type ≠ .list) :
    MergeSafe check m xs ys .list (.list p) b =
      Passes xs.length (sides (takesList check false) xs ys) := by
  cases b with
  | list first => exact absurd rfl hb
  | vector _ _ | string _ | bitVector _ => rfl

theorem mergeSafe_array_list (ha : a.type ≠ .list) :
    MergeSafe check m xs ys .list a (.list q) =
      Passes ys.length (sides (takesList check true) ys xs) := by
  cases a with
  | list first => exact absurd rfl ha
  | vector _ _ | string _ | bitVector _ => rfl

theorem passes_nil (flags : List Obj) (takes : Obj → Obj → Bool) : Passes 0 (sides takes [] flags) := by
  refine Or.inr fun n _ hle => ?_
  rw [sides_nil_left, List.length_nil] at hle
  omega

theorem givesMerged_append (ha : Holds L m a xs)
    {zs ws : List Obj} (hmerges : Merges check set zs ws xs) :
    ∃ fuel, GivesMerged L check set .list zs ws (m.append L fuel a) :=
  have ⟨m', s', hrun, htype, hs⟩ := append_eq ha le_rfl
  ⟨xs.length, m', s', xs, hrun, htype, hs, hmerges⟩

theorem mergeIntoList_of_array (hb : b.type ≠ .list) (fuel one : ℕ) :
    mergeIntoList L check fuel m (.list (some one)) b = (do
      let (m, p, n) := m.storage L b
      let (h, value) ← listArrayMergeIntoList check fuel m.conses (some one) (readArray m.mem p n) false
      return ({ m with conses := h }, .list value)) := by
  cases b with
  | list first => exact absurd rfl hb
  | vector _ _ | string _ | bitVector _ => rfl

theorem mergeIntoList_array_of (ha : a.type ≠ .list) (fuel two : ℕ) :
    mergeIntoList L check fuel m a (.list (some two)) = (do
      let (m, p, n) := m.storage L a
      let (h, value) ← listArrayMergeIntoList check fuel m.conses (some two) (readArray m.mem p n) true
      return ({ m with conses := h }, .list value)) := by
  cases a with
  | list first => exact absurd rfl ha
  | vector _ _ | string _ | bitVector _ => rfl

theorem mergeIntoList_list_array (ha : Holds L m (.list p) xs) (hb : Holds L m b ys)
    (hmerges : Merges check set xs ys (stableMerge check xs ys)) (harray : b.type ≠ .list) :
    (∃ fuel, GivesMerged L check set .list xs ys (mergeIntoList L check fuel m (.list p) b)) ↔
      MergeSafe check m xs ys .list (.list p) b := by
  rw [mergeSafe_list_array harray]
  obtain ⟨cells, hlist, rfl, hbelow⟩ := ha
  cases p with
  | none =>
    obtain rfl : cells = [] := hlist.unique rfl
    refine iff_of_true ?_ (passes_nil _ _)
    have happend : ∀ fuel, mergeIntoList L check fuel m (.list none) b = m.append L fuel b := by
      intro fuel
      cases b with
      | list first => exact absurd rfl harray
      | vector _ _ | string _ | bitVector _ => rfl
    simp only [happend]
    rw [List.map_nil, stableMerge_nil_left] at hmerges
    exact givesMerged_append hb hmerges
  | some one =>
    obtain ⟨m', q, n, hstorage, hm', hstored⟩ := hb.storage_eq Extends.refl le_rfl
    obtain ⟨rfl, hys⟩ := hstored harray
    have hrun : ∀ fuel, mergeIntoList L check fuel m (.list (some one)) b = (do
        let (h, value) ← listArrayMergeIntoList check fuel m'.conses (some one) ys false
        return ({ m' with conses := h }, .list value)) := by
      intro fuel
      rw [mergeIntoList_of_array harray, hstorage]
      simp only [hys.read]
    simp only [hrun, List.length_map]
    exact listArray_iff false hlist hbelow ys hmerges hm'.conses

theorem mergeIntoList_array_list (ha : Holds L m a xs) (hb : Holds L m (.list q) ys)
    (hmerges : Merges check set xs ys (stableMerge check xs ys)) (harray : a.type ≠ .list) :
    (∃ fuel, GivesMerged L check set .list xs ys (mergeIntoList L check fuel m a (.list q))) ↔
      MergeSafe check m xs ys .list a (.list q) := by
  rw [mergeSafe_array_list harray]
  obtain ⟨cells, hlist, rfl, hbelow⟩ := hb
  cases q with
  | none =>
    obtain rfl : cells = [] := hlist.unique rfl
    refine iff_of_true ?_ (passes_nil _ _)
    have happend : ∀ fuel, mergeIntoList L check fuel m a (.list none) = m.append L fuel a := by
      intro fuel
      cases a <;> rfl
    simp only [happend]
    rw [List.map_nil, stableMerge_nil_right] at hmerges
    exact givesMerged_append ha hmerges
  | some two =>
    obtain ⟨m', p, n, hstorage, hm', hstored⟩ := ha.storage_eq Extends.refl le_rfl
    obtain ⟨rfl, hxs⟩ := hstored harray
    have hrun : ∀ fuel, mergeIntoList L check fuel m a (.list (some two)) = (do
        let (h, value) ← listArrayMergeIntoList check fuel m'.conses (some two) xs true
        return ({ m' with conses := h }, .list value)) := by
      intro fuel
      rw [mergeIntoList_array_of harray, hstorage]
      simp only [hxs.read]
    simp only [hrun, List.length_map]
    exact listArray_iff true hlist hbelow xs hmerges hm'.conses

theorem mergeIntoList_list_list (ha : Holds L m (.list p) xs) (hb : Holds L m (.list q) ys)
    (hmerges : Merges check set xs ys (stableMerge check xs ys)) :
    (∃ fuel, GivesMerged L check set .list xs ys
      (mergeIntoList L check fuel m (.list p) (.list q))) ↔
      MergeSafe check m xs ys .list (.list p) (.list q) := by
  cases q with
  | none =>
    obtain ⟨cells, hlist, rfl, -⟩ := hb
    obtain rfl : cells = [] := hlist.unique rfl
    rw [List.map_nil, stableMerge_nil_right] at hmerges
    refine iff_of_true (givesMerged_append ha hmerges) fun l l' _ hl' x _ hx' => ?_
    obtain rfl : l' = [] := hl'.unique rfl
    exact absurd hx' List.not_mem_nil
  | some two =>
    cases p with
    | none =>
      obtain ⟨cells, hlist, rfl, -⟩ := ha
      obtain rfl : cells = [] := hlist.unique rfl
      rw [List.map_nil, stableMerge_nil_left] at hmerges
      refine iff_of_true (givesMerged_append hb hmerges) fun l l' hl _ x hx _ => ?_
      obtain rfl : l = [] := hl.unique rfl
      exact absurd hx List.not_mem_nil
    | some one => exact listList_iff ha hb hmerges

theorem givesMerged_mergeByArray (ha : Holds L m a xs) (hb : Holds L m b ys)
    (hmerges : Merges check set xs ys (stableMerge check xs ys)) (type : SeqType) (nil : Obj)
    (hcan : ∀ z ∈ xs ++ ys, CanHold L type z) :
    ∃ fuel, GivesMerged L check set type xs ys (mergeByArray R check fuel m type nil a b) :=
  have ⟨m', s, hrun, htype, hs⟩ := mergeByArray_eq (R := R) check ha hb type nil hcan
    (Nat.le_add_right xs.length ys.length) (Nat.le_add_left ys.length xs.length)
  ⟨xs.length + ys.length, m', s, _, hrun, htype, hs, hmerges⟩

theorem merge_iff (ha : Holds L m a xs) (hb : Holds L m b ys)
    (hmerges : Merges check set xs ys (stableMerge check xs ys)) (type : SeqType) (nil : Obj)
    (hcan : ∀ z ∈ xs ++ ys, CanHold L type z) :
    (∃ fuel, GivesMerged L check set type xs ys (merge R check fuel nil m type a b)) ↔
      MergeSafe check m xs ys type a b := by
  have harrays := givesMerged_mergeByArray (R := R) ha hb hmerges type nil hcan
  cases type with
  | vector | string | bitVector => exact iff_of_true harrays trivial
  | list =>
    cases a with
    | list p =>
      cases b with
      | list q => exact mergeIntoList_list_list ha hb hmerges
      | vector _ _ | string _ | bitVector _ =>
        exact mergeIntoList_list_array ha hb hmerges SeqType.noConfusion
    | vector _ _ | string _ | bitVector _ =>
      cases b with
      | list q => exact mergeIntoList_array_list ha hb hmerges SeqType.noConfusion
      | vector _ _ | string _ | bitVector _ => exact iff_of_true harrays trivial

end

variable (L) in
/-- The machine and sequence that `sort*` gives hold the sorted elements. -/
def GivesSorted (check : Obj → Obj → Bool) (set : Set Obj) (type : SeqType) (xs : List Obj)
    (result : Except MergeError (Machine Obj × Seq)) : Prop :=
  ∃ m' s zs, result = .ok (m', s) ∧ s.type = type ∧ Holds L m' s zs ∧ Sorts check set xs zs

theorem givesSorted_make {check : Obj → Obj → Bool} {set : Set Obj}
    (horder : StrictWeakOrderOn check set) (m : Machine Obj) (type : SeqType) {xs : List Obj}
    (hset : ∀ x ∈ xs, x ∈ set) (hcan : ∀ x ∈ xs, CanHold L type x) :
    GivesSorted L check set type xs (do
      let mem ← arraySort check (m.alloca xs).1.mem m.top xs.length
      { (m.alloca xs).1 with mem }.make R type (readArray mem m.top xs.length)) := by
  have hread : readArray (m.alloca xs).1.mem m.top xs.length = xs := readArray_writeArray rfl
  obtain ⟨mem, hrun, hsorts, -⟩ := arraySort_eq horder (hread.symm ▸ hset)
  rw [hread] at hsorts
  obtain ⟨m', s, hmake, htype, hs⟩ := make_eq (R := R) { (m.alloca xs).1 with mem } type
    fun x hx => hcan x (hsorts.perm.mem_iff.mp hx)
  refine ⟨m', s, _, ?_, htype, hs, hsorts⟩
  rw [hrun]
  exact hmake

theorem sortX_sorts {check : Obj → Obj → Bool} {set : Set Obj} (horder : StrictWeakOrderOn check set)
    {m : Machine Obj} {s : Seq} {xs : List Obj} (hs : Holds L m s xs) (hset : ∀ x ∈ xs, x ∈ set) :
    ∃ fuel, GivesSorted L check set s.type xs (sortX R check fuel m s) := by
  cases s with
  | list first =>
    obtain ⟨cells, hlist, rfl, hbelow⟩ := hs
    obtain ⟨h, r, zs, hrun, hr, hperm, hsorts, hframe⟩ := listSort_eq horder hlist
      (fun x hx => hset _ (List.mem_map_of_mem hx)) (Nat.lt_succ_self _) (Nat.lt_succ_self _)
    refine ⟨cells.length + 1, { m with conses := h }, .list r, zs.map m.conses.car, ?_, rfl,
      ⟨zs, hr, ?_, fun x hx => ?_⟩, hsorts⟩
    · rw [sortX, hrun]
      rfl
    · rw [← hframe.car]
    · show x < h.next
      rw [hframe.next]
      exact hbelow x (hperm.mem_iff.mp hx)
  | vector p n =>
    obtain ⟨rfl, htop⟩ := hs
    obtain ⟨mem, hrun, hsorts, -⟩ := arraySort_eq horder hset
    refine ⟨0, { m with mem }, .vector p n, _, ?_, rfl, ⟨rfl, htop⟩, hsorts⟩
    rw [sortX, hrun]
    rfl
  | string characters =>
    obtain rfl : characters.map L.makeChar = xs := hs
    have hsorted := givesSorted_make (R := R) horder m .string hset fun x hx =>
      (List.mem_map.mp hx).imp fun _ h => h.2
    rw [List.length_map] at hsorted
    exact ⟨0, hsorted⟩
  | bitVector bits =>
    obtain rfl : bits.map L.makeBit = xs := hs
    have hsorted := givesSorted_make (R := R) horder m .bitVector hset fun x hx =>
      (List.mem_map.mp hx).imp fun _ h => h.2
    rw [List.length_map] at hsorted
    exact ⟨0, hsorted⟩

/-- `sort*` is a stable sort of every sequence, and `merge` of two ordered sequences is their
stable merge if and only if it is a safe one. -/
theorem sortX_merge_stable {check : Obj → Obj → Bool} {set : Set Obj}
    (horder : StrictWeakOrderOn check set) :
    (∀ m s xs, Holds L m s xs → (∀ x ∈ xs, x ∈ set) →
      ∃ fuel, GivesSorted L check set s.type xs (sortX R check fuel m s)) ∧
    ∀ m a b xs ys type nil, Holds L m a xs → Holds L m b ys → (∀ x ∈ xs, x ∈ set) →
      (∀ y ∈ ys, y ∈ set) → Ordered check xs → Ordered check ys →
      (∀ z ∈ xs ++ ys, CanHold L type z) →
      ((∃ fuel, GivesMerged L check set type xs ys (merge R check fuel nil m type a b)) ↔
        MergeSafe check m xs ys type a b) := by
  constructor
  · intro m s xs hs hset
    exact sortX_sorts horder hs hset
  · intro m a b xs ys type nil ha hb hxs hys ox oy hcan
    exact merge_iff ha hb (merges_stableMerge horder hxs hys ox oy) type nil hcan

def fixnums : Objects ℕ where
  makeChar c := c
  makeBit b := b.toNat
  mostPositiveFixnum := 0x3FFFFFFF

def bitOfFixnum (x : ℕ) : Option Bool :=
  match x with
  | 0 => some false
  | 1 => some true
  | _ => none

theorem bitOfFixnum_toNat (b : Bool) : bitOfFixnum b.toNat = some b := by
  cases b <;> rfl

def fixnumReaders : Readers fixnums where
  charOf := some
  bitOf := bitOfFixnum
  charOf_makeChar _ := rfl
  bitOf_makeBit := bitOfFixnum_toNat

/-- `<` -/
def lss (x y : ℕ) : Bool := decide (x < y)

theorem lss_strictWeakOrder : StrictWeakOrderOn lss Set.univ where
  asymm x _ y _ h := by
    simp only [lss, decide_eq_true_eq, decide_eq_false_iff_not] at h ⊢
    omega
  negTrans x _ y _ z _ h h' := by
    simp only [lss, decide_eq_false_iff_not] at h h' ⊢
    omega

/-- The cons of the list (1), and 1024 zeros before a two. -/
def zerosAndTwo : Machine ℕ where
  conses := { car := fun _ => 1, cdr := fun _ => none, next := 1 }
  mem i := if i < 1024 then 0 else 2
  top := 1025

theorem holds_one : Holds fixnums zerosAndTwo (.list (some 0)) [1] :=
  ⟨[0], ⟨rfl, rfl⟩, rfl, fun x hx => by rw [List.mem_singleton.mp hx]; exact Nat.zero_lt_one⟩

theorem readArray_zeros {n : ℕ} (hn : n ≤ 1024) : readArray zerosAndTwo.mem 0 n = List.replicate n 0 := by
  apply List.eq_replicate_iff.mpr ⟨length_readArray, fun x hx => ?_⟩
  obtain ⟨i, hi, rfl⟩ := List.mem_map.mp hx
  have hi := List.mem_range.mp hi
  exact if_pos (by omega)

theorem holds_zerosAndTwo :
    Holds fixnums zerosAndTwo (.vector 0 1025) (List.replicate 1024 0 ++ [2]) := by
  refine ⟨?_, le_rfl⟩
  have hparts : readArray zerosAndTwo.mem 0 (1024 + 1) = _ := readArray_add 1024
  rw [hparts, readArray_zeros le_rfl]
  rfl

theorem sides_zeros (n : ℕ) :
    sides (takesList lss false) [1] (List.replicate n 0 ++ [2]) = List.replicate n false ++ [true] := by
  induction n with
  | zero => rw [List.replicate_zero, List.nil_append, sides_cons_list _ _ rfl, sides_nil_left]; rfl
  | succ n ih =>
    rw [List.replicate_succ, List.cons_append, sides_cons_array _ _ rfl, ih]
    rfl

theorem ordered_zerosAndTwo : Ordered lss (List.replicate 1024 0 ++ [2]) := by
  apply List.pairwise_append.mpr
  refine ⟨List.pairwise_replicate.mpr (Or.inr rfl), List.pairwise_singleton _ _, fun x hx y hy => ?_⟩
  rw [List.eq_of_mem_replicate hx, List.mem_singleton.mp hy]
  rfl

theorem not_mergeSafe_zerosAndTwo :
    ¬ MergeSafe lss zerosAndTwo [1] (List.replicate 1024 0 ++ [2]) .list (.list (some 0))
      (.vector 0 1025) := by
  rw [mergeSafe_list_array SeqType.noConfusion, sides_zeros]
  rintro (hmem | hahead)
  · rw [List.take_left' List.length_replicate] at hmem
    exact absurd (List.eq_of_mem_replicate hmem) (by decide)
  · have hlength : (List.replicate 1024 false ++ [true]).length = 1025 := by
      rw [List.length_append, List.length_replicate]
      rfl
    have hless := (hahead 1025 (by decide) hlength.ge).1
    rw [← hlength, List.take_length, hlength, List.count_append, List.count_replicate] at hless
    exact absurd hless (by decide)

/-- Merging a list with a vector that is as ordered as the list. -/
theorem merge_circular :
    Holds fixnums zerosAndTwo (.list (some 0)) [1] ∧
      Holds fixnums zerosAndTwo (.vector 0 1025) (List.replicate 1024 0 ++ [2]) ∧
      Ordered lss [1] ∧ Ordered lss (List.replicate 1024 0 ++ [2]) ∧
      ¬ ∃ fuel, GivesMerged fixnums lss Set.univ .list [1] (List.replicate 1024 0 ++ [2])
        (merge fixnumReaders lss fuel 0 zerosAndTwo .list (.list (some 0)) (.vector 0 1025)) := by
  refine ⟨holds_one, holds_zerosAndTwo, List.pairwise_singleton _ _, ordered_zerosAndTwo, ?_⟩
  have hmerges := merges_stableMerge lss_strictWeakOrder (fun x _ => Set.mem_univ x)
    (fun y _ => Set.mem_univ y) (List.pairwise_singleton _ 1) ordered_zerosAndTwo
  exact fun hgives => not_mergeSafe_zerosAndTwo
    ((merge_iff holds_one holds_zerosAndTwo hmerges .list 0 fun _ _ => trivial).mp hgives)

theorem sortX_merge_stable_zeros :
    (∃ fuel, GivesSorted fixnums lss Set.univ .list [1]
      (sortX fixnumReaders lss fuel zerosAndTwo (.list (some 0)))) ∧
    ((∃ fuel, GivesMerged fixnums lss Set.univ .list [1] (List.replicate 2 0)
      (merge fixnumReaders lss fuel 0 zerosAndTwo .list (.list (some 0)) (.vector 0 2))) ↔
      MergeSafe lss zerosAndTwo [1] (List.replicate 2 0) .list (.list (some 0)) (.vector 0 2)) := by
  have hstable := sortX_merge_stable (R := fixnumReaders) lss_strictWeakOrder
  have hzeros : Holds fixnums zerosAndTwo (.vector 0 2) (List.replicate 2 0) :=
    ⟨readArray_zeros (by decide), by decide⟩
  exact ⟨hstable.1 _ _ _ holds_one fun x _ => Set.mem_univ x,
    hstable.2 _ _ _ _ _ .list 0 holds_one hzeros (fun x _ => Set.mem_univ x)
      (fun y _ => Set.mem_univ y) (List.pairwise_singleton _ 1)
      (List.pairwise_replicate.mpr (Or.inr rfl)) fun _ _ => trivial⟩

end XEmacs.Sequences
