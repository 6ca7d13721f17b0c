import XEmacs.Keymap.InverseTable

/-! What holds of the keymaps between two changes: the inverse table is one of the table, the cache has
the submaps, and a submap for modifiers is in one keymap, which is older. What a change leaves as it is in other
keymaps is stated for the table, the inverse table and the submaps. -/

namespace XEmacs.Keymaps

open Lib

variable {env : Lisp} {s s' s'' : State} {own own' own'' : ℕ → ℕ × Value} {id k : ℕ} {value : Value}
  {keysym : TableKey} {T : TableKey → Option Value}

structure KeymapOk (env : Lisp) (s : State) (own : ℕ → ℕ × Value) (id : ℕ) : Prop where
  inverse : InverseOk s own id fun tk => (s.keymaps id).table.lookup tk
  bound : ∀ tk, (s.keymaps id).table.lookup tk ≠ some .nil
  cache : ∀ maps, (s.keymaps id).subMapsCache = some maps → maps.Perm (env.submapEntries (s.keymaps id).table)

/-- The slots for modifiers hold keymaps, each in one keymap. -/
structure SlotsOk (s : State) : Prop where
  slot : ∀ id m, s.gethash id (.modifiers m) ≠ .nil →
    ∃ sub, s.gethash id (.modifiers m) = .keymap sub ∧ id < sub ∧ sub < s.nextKeymap
  parent : ∀ id id' m m' sub, s.gethash id (.modifiers m) = .keymap sub →
    s.gethash id' (.modifiers m') = .keymap sub → id = id'

structure Inv (env : Lisp) (s : State) (own : ℕ → ℕ × Value) : Prop where
  keymap : ∀ id, KeymapOk env s own id
  slots : SlotsOk s
  fresh : ∀ id, s.nextKeymap ≤ id → s.keymaps id = .empty

/-- A keymap shows the same table, the same keys of each definition and the same submaps. -/
structure SameKeymap (env : Lisp) (s s' : State) (id : ℕ) : Prop where
  table : (s'.keymaps id).table = (s.keymaps id).table
  listed : ∀ value, s'.listed id value = s.listed id value
  submaps : (env.keymapSubmaps s' id).2 = (env.keymapSubmaps s id).2

namespace SameKeymap

theorem refl (env : Lisp) (s : State) (id : ℕ) : SameKeymap env s s id := ⟨rfl, fun _ => rfl, rfl⟩

theorem trans (h : SameKeymap env s s' id) (h' : SameKeymap env s' s'' id) : SameKeymap env s s'' id where
  table := h'.table.trans h.table
  listed value := (h'.listed value).trans (h.listed value)
  submaps := h'.submaps.trans h.submaps

end SameKeymap

def sortedSubmaps (env : Lisp) (table : HashTable TableKey Value) : List (TableKey × Value) :=
  (env.submapEntries table).reverse.mergeSort fun a b => !env.mapKeymapSortPredicate b.1 a.1

theorem sortedSubmaps_perm (env : Lisp) (table : HashTable TableKey Value) :
    (sortedSubmaps env table).Perm (env.submapEntries table) :=
  (List.mergeSort_perm _ _).trans (List.reverse_perm _)

theorem keymapSubmaps_snd (env : Lisp) (s : State) (id : ℕ) :
    (env.keymapSubmaps s id).2 = (s.keymaps id).subMapsCache.getD (sortedSubmaps env (s.keymaps id).table) := by
  rw [Lisp.keymapSubmaps]
  cases (s.keymaps id).subMapsCache <;> rfl

theorem KeymapOk.submaps_perm (h : KeymapOk env s own id) :
    (env.keymapSubmaps s id).2.Perm (env.submapEntries (s.keymaps id).table) := by
  rw [keymapSubmaps_snd]
  cases hcache : (s.keymaps id).subMapsCache with
  | none => exact sortedSubmaps_perm _ _
  | some maps => exact h.cache maps hcache

theorem submapEntries_nodup (env : Lisp) (table : HashTable TableKey Value) : (env.submapEntries table).Nodup := by
  have hnodup : (table.entries.filter fun e => (env.getKeymap e.2).isSome).Nodup := table.nodupKeys.nodup.filter _
  refine hnodup.map fun a b heq => ?_
  exact Sigma.ext (congrArg Prod.fst heq) (heq_of_eq (congrArg Prod.snd heq))

theorem mem_submapEntries {table : HashTable TableKey Value} {tk : TableKey} :
    (tk, value) ∈ env.submapEntries table ↔ table.lookup tk = some value ∧ (env.getKeymap value).isSome = true := by
  have hlookup := @AList.mem_lookup_iff _ _ _ tk value table
  rw [Option.mem_def] at hlookup
  rw [Lisp.submapEntries, List.mem_map, hlookup]
  constructor
  · rintro ⟨e, he, heq⟩
    obtain ⟨hmem, hsub⟩ := List.mem_filter.mp he
    obtain ⟨rfl, rfl⟩ := Prod.mk.inj heq
    exact ⟨hmem, hsub⟩
  · exact fun ⟨hmem, hsub⟩ => ⟨⟨tk, value⟩, List.mem_filter.mpr ⟨hmem, hsub⟩, rfl⟩

theorem gethash_eq (s : State) (id : ℕ) (tk : TableKey) :
    s.gethash id tk = ((s.keymaps id).table.lookup tk).getD .nil := rfl

theorem lookup_eq_some_iff (hvalue : value ≠ .nil) {tk : TableKey} :
    (s.keymaps id).table.lookup tk = some value ↔ s.gethash id tk = value := by
  rw [gethash_eq]
  cases (s.keymaps id).table.lookup tk with
  | none => exact iff_of_false (Option.some_ne_none value).symm hvalue.symm
  | some v => exact Option.some_inj

theorem KeymapOk.lookup_eq_none_iff (h : KeymapOk env s own id) {tk : TableKey} :
    (s.keymaps id).table.lookup tk = none ↔ s.gethash id tk = .nil := by
  have hbound := h.bound tk
  rw [gethash_eq]
  cases hlookup : (s.keymaps id).table.lookup tk with
  | none => exact iff_of_true rfl rfl
  | some v =>
    rw [hlookup] at hbound
    exact iff_of_false (Option.some_ne_none v) fun heq => hbound (congrArg some heq)

theorem readKeys_congr (hcar : s'.car = s.car) (hcdr : s'.cdr = s.cdr) (fuel : ℕ) (keys : Object) :
    s'.readKeys fuel keys = s.readKeys fuel keys := by
  induction fuel generalizing keys with
  | zero => cases keys <;> rfl
  | succ fuel ih =>
    cases keys with
    | atom a => rfl
    | cons x => rw [State.readKeys, State.readKeys, ih, hcar, hcdr]

theorem listed_congr (hcar : s'.car = s.car) (hcdr : s'.cdr = s.cdr) (hnext : s'.nextCons = s.nextCons)
    (h : (s'.keymaps id).inverseTable.lookup value = (s.keymaps id).inverseTable.lookup value) :
    s'.listed id value = s.listed id value := by
  rw [State.listed, State.listed, h, hnext]
  cases (s.keymaps id).inverseTable.lookup value with
  | none => rfl
  | some keys =>
    have hread := readKeys_congr hcar hcdr s.nextCons keys
    cases keys with
    | atom a =>
      cases a with
      | none => rfl
      | some tk => exact hread
    | cons x => exact hread

theorem KeymapOk.congr (h : KeymapOk env s own id) (hcar : s'.car = s.car) (hcdr : s'.cdr = s.cdr)
    (hnext : s'.nextCons = s.nextCons)
    (htable : ∀ tk, (s'.keymaps id).table.lookup tk = (s.keymaps id).table.lookup tk)
    (hinverse : ∀ v, (s'.keymaps id).inverseTable.lookup v = (s.keymaps id).inverseTable.lookup v)
    (hcache : ∀ maps, (s'.keymaps id).subMapsCache = some maps →
      maps.Perm (env.submapEntries (s'.keymaps id).table)) : KeymapOk env s' own id := by
  refine ⟨⟨fun {value keys} hkeys => ?_, fun {value} hkeys tk => ?_⟩, fun tk => ?_, hcache⟩
  · rw [hinverse] at hkeys
    obtain ⟨ns, last, hlist, hexact⟩ := h.inverse.found hkeys
    refine ⟨ns, last, ⟨?_, hlist.nodup, fun n hn => ?_⟩, ?_⟩
    · rw [hcdr]
      exact hlist.leads
    · rw [hnext]
      exact hlist.owned n hn
    · rw [items, hcar, funext htable]
      exact hexact
  · rw [hinverse] at hkeys
    rw [htable]
    exact h.inverse.absent hkeys tk
  · rw [htable]
    exact h.bound tk

@[simp] theorem modify_self (s : State) (id : ℕ) (f : Keymap → Keymap) :
    (s.modify id f).keymaps id = f (s.keymaps id) :=
  Function.update_self _ _ _

theorem modify_of_ne (s : State) {id k : ℕ} (hne : id ≠ k) (f : Keymap → Keymap) :
    (s.modify k f).keymaps id = s.keymaps id :=
  Function.update_of_ne hne _ _

/-- The conses of other keymaps stay as they are, and so do the other keymaps. -/
structure Edits (s s' : State) (own own' : ℕ → ℕ × Value) (k : ℕ) : Prop where
  nextCons_le : s.nextCons ≤ s'.nextCons
  conses : ∀ n < s.nextCons, (own n).1 ≠ k → s'.car n = s.car n ∧ s'.cdr n = s.cdr n ∧ own' n = own n
  nextKeymap_eq : s'.nextKeymap = s.nextKeymap
  others : ∀ id, id ≠ k → s'.keymaps id = s.keymaps id
  cache_eq : (s'.keymaps k).subMapsCache = (s.keymaps k).subMapsCache

theorem Touches.edits (h : Touches s s' own own' (k, value)) : Edits s s' own own' k where
  nextCons_le := h.nextCons_le
  conses n hn hne := h.conses n hn fun heq => hne (congrArg Prod.fst heq)
  nextKeymap_eq := h.nextKeymap_eq
  others := h.others
  cache_eq := h.cache_eq

namespace Edits

theorem refl (s : State) (own : ℕ → ℕ × Value) (k : ℕ) : Edits s s own own k :=
  ⟨le_refl _, fun _ _ _ => ⟨rfl, rfl, rfl⟩, rfl, fun _ _ => rfl, rfl⟩

theorem trans (h : Edits s s' own own' k) (h' : Edits s' s'' own' own'' k) : Edits s s'' own own'' k where
  nextCons_le := h.nextCons_le.trans h'.nextCons_le
  conses n hn hne := by
    obtain ⟨hcar, hcdr, hown⟩ := h.conses n hn hne
    obtain ⟨hcar', hcdr', hown'⟩ := h'.conses n (hn.trans_le h.nextCons_le) (by rwa [hown])
    exact ⟨hcar'.trans hcar, hcdr'.trans hcdr, hown'.trans hown⟩
  nextKeymap_eq := h'.nextKeymap_eq.trans h.nextKeymap_eq
  others id hne := (h'.others id hne).trans (h.others id hne)
  cache_eq := h'.cache_eq.trans h.cache_eq

theorem modify (s : State) (own : ℕ → ℕ × Value) (k : ℕ) (table : Keymap → HashTable TableKey Value) :
    Edits s (s.modify k fun m => { m with table := table m }) own own k where
  nextCons_le := le_refl _
  conses _ _ _ := ⟨rfl, rfl, rfl⟩
  nextKeymap_eq := rfl
  others _ hne := Function.update_of_ne hne _ _
  cache_eq := by rw [modify_self]

theorem keyList (h : Edits s s' own own' k) (hne : id ≠ k) {keys : Object} {ns : List ℕ} {last : TableKey}
    (hlist : KeyList s own (id, value) keys ns last) :
    KeyList s' own' (id, value) keys ns last ∧ items s' ns last = items s ns last := by
  have hsame (n : ℕ) (hn : n ∈ ns) := by
    have howned := hlist.owned n hn
    refine h.conses n howned.2 ?_
    rw [howned.1]
    exact hne
  exact ⟨hlist.congr h.nextCons_le fun n hn => (hsame n hn).2, items_congr fun n hn => (hsame n hn).1⟩

theorem inverseOk (h : Edits s s' own own' k) (hne : id ≠ k) (hok : InverseOk s own id T) :
    InverseOk s' own' id T where
  found {value keys} hkeys := by
    rw [h.others id hne] at hkeys
    obtain ⟨ns, last, hlist, hexact⟩ := hok.found hkeys
    obtain ⟨hlist', hitems⟩ := h.keyList hne hlist
    exact ⟨ns, last, hlist', hitems ▸ hexact⟩
  absent hkeys := by
    rw [h.others id hne] at hkeys
    exact hok.absent hkeys

theorem keymapOk (h : Edits s s' own own' k) (hne : id ≠ k) (hok : KeymapOk env s own id) :
    KeymapOk env s' own' id := by
  refine ⟨?_, ?_, ?_⟩
  · rw [h.others id hne]
    exact h.inverseOk hne hok.inverse
  · rw [h.others id hne]
    exact hok.bound
  · rw [h.others id hne]
    exact hok.cache

theorem sameKeymap (h : Edits s s' own own' k) (hne : id ≠ k) (hok : KeymapOk env s own id) :
    SameKeymap env s s' id := by
  refine ⟨congrArg Keymap.table (h.others id hne), fun value => ?_, ?_⟩
  · cases hkeys : (s.keymaps id).inverseTable.lookup value with
    | none => rw [State.listed, State.listed, h.others id hne, hkeys]
    | some keys =>
      obtain ⟨ns, last, hlist, -⟩ := hok.inverse.found hkeys
      obtain ⟨hlist', hitems⟩ := h.keyList hne hlist
      rw [hlist.listed hkeys, ← hitems]
      refine hlist'.listed ?_
      rw [h.others id hne]
      exact hkeys
  · rw [keymapSubmaps_snd, keymapSubmaps_snd, h.others id hne]

end Edits

structure Caches (env : Lisp) (s s' : State) : Prop where
  rest_eq : s' = { s with keymaps := s'.keymaps }
  keymap : ∀ id, s'.keymaps id = s.keymaps id ∨ (s.keymaps id).subMapsCache = none ∧
    s'.keymaps id = { s.keymaps id with subMapsCache := some (sortedSubmaps env (s.keymaps id).table) }

namespace Caches

theorem refl (env : Lisp) (s : State) : Caches env s s := ⟨rfl, fun _ => Or.inl rfl⟩

theorem trans (h : Caches env s s') (h' : Caches env s' s'') : Caches env s s'' where
  rest_eq := by
    rw [h'.rest_eq, h.rest_eq]
  keymap id := by
    rcases h.keymap id with heq | ⟨hnone, heq⟩
    · rw [← heq]
      exact h'.keymap id
    · rcases h'.keymap id with heq' | ⟨hnone', -⟩
      · exact Or.inr ⟨hnone, heq'.trans heq⟩
      · rw [heq] at hnone'
        exact absurd hnone' (Option.some_ne_none _)

theorem table_eq (h : Caches env s s') (id : ℕ) : (s'.keymaps id).table = (s.keymaps id).table := by
  rcases h.keymap id with heq | ⟨-, heq⟩ <;> rw [heq]

theorem inverseTable_eq (h : Caches env s s') (id : ℕ) :
    (s'.keymaps id).inverseTable = (s.keymaps id).inverseTable := by
  rcases h.keymap id with heq | ⟨-, heq⟩ <;> rw [heq]

theorem keymapOk (h : Caches env s s') (hok : KeymapOk env s own id) : KeymapOk env s' own id := by
  refine hok.congr (by rw [h.rest_eq]) (by rw [h.rest_eq]) (by rw [h.rest_eq]) (fun tk => ?_) (fun v => ?_)
    fun maps hmaps => ?_
  · rw [h.table_eq]
  · rw [h.inverseTable_eq]
  · rw [h.table_eq]
    rcases h.keymap id with heq | ⟨-, heq⟩
    · rw [heq] at hmaps
      exact hok.cache maps hmaps
    · rw [heq] at hmaps
      exact Option.some.inj hmaps ▸ sortedSubmaps_perm _ _

theorem sameKeymap (h : Caches env s s') (id : ℕ) : SameKeymap env s s' id := by
  refine ⟨h.table_eq id, fun value => ?_, ?_⟩
  · refine listed_congr (by rw [h.rest_eq]) (by rw [h.rest_eq]) (by rw [h.rest_eq]) ?_
    rw [h.inverseTable_eq]
  · rw [keymapSubmaps_snd, keymapSubmaps_snd, h.table_eq]
    rcases h.keymap id with heq | ⟨hnone, heq⟩
    · rw [heq]
    · rw [heq, hnone]
      rfl

theorem gethash_eq (h : Caches env s s') (id : ℕ) (tk : TableKey) : s'.gethash id tk = s.gethash id tk := by
  rw [State.gethash, State.gethash, h.table_eq]

end Caches

end XEmacs.Keymaps
