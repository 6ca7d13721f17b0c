import Mathlib.Data.List.Nodup
import XEmacs.Keymap.Keymap

/-! The inverse table of a keymap. Each cons belongs to one list, of one keymap and one definition, so
that a list may be edited in place. A new key is put at the end of the list of its definition, and a key
is taken out anywhere but at the end of a list of several. -/

namespace XEmacs.Keymaps

open Lib

variable {s s' s'' : State} {own own' own'' : ℕ → ℕ × Value} {id : ℕ} {value : Value} {keys : Object} {ns : List ℕ}
  {keysym last : TableKey} {T : TableKey → Option Value} {o : ℕ × Value}

structure KeyList (s : State) (own : ℕ → ℕ × Value) (o : ℕ × Value) (keys : Object) (ns : List ℕ)
    (last : TableKey) : Prop where
  leads : Leads s.cdr keys ns (.atom (some last))
  nodup : ns.Nodup
  owned : ∀ n ∈ ns, own n = o ∧ n < s.nextCons

def items (s : State) (ns : List ℕ) (last : TableKey) : List (Option TableKey) := ns.map s.car ++ [some last]

/-- A list has each key of a definition once, and nothing else. -/
structure Exact (items : List (Option TableKey)) (T : TableKey → Option Value) (value : Value) : Prop where
  nodup : items.Nodup
  mem_iff : ∀ a, a ∈ items ↔ ∃ tk, a = some tk ∧ T tk = some value

/-- The inverse table of a keymap is one of the table `T`. -/
structure InverseOk (s : State) (own : ℕ → ℕ × Value) (id : ℕ) (T : TableKey → Option Value) : Prop where
  found : ∀ {value keys}, (s.keymaps id).inverseTable.lookup value = some keys →
    ∃ ns last, KeyList s own (id, value) keys ns last ∧ Exact (items s ns last) T value
  absent : ∀ {value}, (s.keymaps id).inverseTable.lookup value = none → ∀ tk, T tk ≠ some value

/-- Of the conses only those of one owner change, and of the keymaps only the entry of the
owner in its inverse table. -/
structure Touches (s s' : State) (own own' : ℕ → ℕ × Value) (o : ℕ × Value) : Prop where
  nextCons_le : s.nextCons ≤ s'.nextCons
  conses : ∀ n < s.nextCons, own n ≠ o → s'.car n = s.car n ∧ s'.cdr n = s.cdr n ∧ own' n = own n
  nextKeymap_eq : s'.nextKeymap = s.nextKeymap
  others : ∀ id', id' ≠ o.1 → s'.keymaps id' = s.keymaps id'
  table_eq : (s'.keymaps o.1).table = (s.keymaps o.1).table
  cache_eq : (s'.keymaps o.1).subMapsCache = (s.keymaps o.1).subMapsCache
  lookup_eq : ∀ v, v ≠ o.2 → (s'.keymaps o.1).inverseTable.lookup v = (s.keymaps o.1).inverseTable.lookup v

theorem KeyList.congr (h : KeyList s own o keys ns last) (hle : s.nextCons ≤ s'.nextCons)
    (hsame : ∀ n ∈ ns, s'.cdr n = s.cdr n ∧ own' n = own n) : KeyList s' own' o keys ns last where
  leads := h.leads.congr fun n hn => (hsame n hn).1
  nodup := h.nodup
  owned n hn := ⟨(hsame n hn).2.trans (h.owned n hn).1, (h.owned n hn).2.trans_le hle⟩

theorem items_congr (hsame : ∀ n ∈ ns, s'.car n = s.car n) : items s' ns last = items s ns last := by
  rw [items, items, List.map_congr_left hsame]

theorem KeyList.touches (h : KeyList s own o keys ns last) {o' : ℕ × Value} (ht : Touches s s' own own' o')
    (hne : o ≠ o') : KeyList s' own' o keys ns last ∧ items s' ns last = items s ns last := by
  have hsame (n : ℕ) (hn : n ∈ ns) := ht.conses n (h.owned n hn).2 ((h.owned n hn).1 ▸ hne)
  exact ⟨h.congr ht.nextCons_le fun n hn => (hsame n hn).2, items_congr fun n hn => (hsame n hn).1⟩

theorem readKeys_eq (h : Leads s.cdr keys ns (.atom (some last))) {fuel : ℕ} (hfuel : ns.length ≤ fuel) :
    s.readKeys fuel keys = items s ns last := by
  induction ns generalizing keys fuel with
  | nil =>
    obtain rfl : keys = .atom (some last) := h
    cases fuel <;> rfl
  | cons n ns ih =>
    obtain ⟨rfl, h⟩ := h
    obtain ⟨fuel, rfl⟩ := Nat.exists_eq_add_one_of_ne_zero (Nat.ne_of_gt (Nat.lt_of_lt_of_le (Nat.succ_pos _) hfuel))
    rw [State.readKeys, ih h (Nat.le_of_succ_le_succ hfuel)]
    rfl

theorem KeyList.length_le (h : KeyList s own o keys ns last) : ns.length ≤ s.nextCons :=
  length_le_of_nodup h.nodup fun n hn => (h.owned n hn).2

theorem KeyList.listed (h : KeyList s own (id, value) keys ns last)
    (hkeys : (s.keymaps id).inverseTable.lookup value = some keys) : s.listed id value = items s ns last := by
  have hread := readKeys_eq h.leads h.length_le
  rw [State.listed, hkeys]
  cases keys with
  | cons x => exact hread
  | atom a =>
    cases a with
    | none =>
      have hleads := h.leads
      cases ns with
      | nil => exact absurd (Ref.atom.inj hleads) (Option.some_ne_none last).symm
      | cons n ns => exact absurd hleads.1 (atom_ne_cons none n)
    | some tk => exact hread

theorem InverseOk.exact_listed (h : InverseOk s own id T) (value : Value) : Exact (s.listed id value) T value := by
  cases hkeys : (s.keymaps id).inverseTable.lookup value with
  | none =>
    have hlisted : s.listed id value = [] := by rw [State.listed, hkeys]
    rw [hlisted]
    exact ⟨List.nodup_nil, fun a => iff_of_false List.not_mem_nil fun ⟨tk, _, htk⟩ => h.absent hkeys tk htk⟩
  | some keys =>
    obtain ⟨ns, last, hlist, hexact⟩ := h.found hkeys
    rw [hlist.listed hkeys]
    exact hexact

theorem InverseOk.update (h : InverseOk s own id T) (ht : Touches s s' own own' (id, value))
    {T' : TableKey → Option Value} (hT : ∀ v, v ≠ value → ∀ tk, T' tk = some v ↔ T tk = some v)
    (hfound : ∀ keys, (s'.keymaps id).inverseTable.lookup value = some keys →
      ∃ ns last, KeyList s' own' (id, value) keys ns last ∧ Exact (items s' ns last) T' value)
    (habsent : (s'.keymaps id).inverseTable.lookup value = none → ∀ tk, T' tk ≠ some value) :
    InverseOk s' own' id T' where
  found {v keys} hkeys := by
    by_cases hv : v = value
    · subst hv
      exact hfound keys hkeys
    · rw [ht.lookup_eq v hv] at hkeys
      obtain ⟨ns, last, hlist, hexact⟩ := h.found hkeys
      obtain ⟨hlist', hitems⟩ := hlist.touches ht fun heq => hv (congrArg Prod.snd heq)
      refine ⟨ns, last, hlist', ?_⟩
      rw [hitems]
      refine ⟨hexact.nodup, fun a => (hexact.mem_iff a).trans (exists_congr fun tk => ?_)⟩
      rw [hT v hv tk]
  absent {v} hkeys := by
    by_cases hv : v = value
    · subst hv
      exact habsent hkeys
    · rw [ht.lookup_eq v hv] at hkeys
      exact fun tk htk => h.absent hkeys tk ((hT v hv tk).mp htk)

section Entry

variable (s : State) (id : ℕ) (value : Value) (keys : Object)

theorem putInverse_keymaps : (s.putInverse id value keys).keymaps id =
    { s.keymaps id with inverseTable := (s.keymaps id).inverseTable.insert value keys } :=
  Function.update_self _ _ _

theorem remInverse_keymaps : (s.remInverse id value).keymaps id =
    { s.keymaps id with inverseTable := (s.keymaps id).inverseTable.erase value } :=
  Function.update_self _ _ _

@[simp] theorem lookup_putInverse :
    ((s.putInverse id value keys).keymaps id).inverseTable.lookup value = some keys := by
  rw [putInverse_keymaps]
  exact AList.lookup_insert _

@[simp] theorem lookup_remInverse : ((s.remInverse id value).keymaps id).inverseTable.lookup value = none := by
  rw [remInverse_keymaps]
  exact AList.lookup_erase _ _

end Entry

theorem Touches.putInverse (ht : Touches s s' own own' (id, value)) (keys : Object) :
    Touches s (s'.putInverse id value keys) own own' (id, value) where
  nextCons_le := ht.nextCons_le
  conses := ht.conses
  nextKeymap_eq := ht.nextKeymap_eq
  others id' hne := (Function.update_of_ne hne _ _).trans (ht.others id' hne)
  table_eq := by
    rw [putInverse_keymaps]
    exact ht.table_eq
  cache_eq := by
    rw [putInverse_keymaps]
    exact ht.cache_eq
  lookup_eq v hv := by
    rw [putInverse_keymaps]
    exact (AList.lookup_insert_ne hv).trans (ht.lookup_eq v hv)

theorem Touches.remInverse (ht : Touches s s' own own' (id, value)) :
    Touches s (s'.remInverse id value) own own' (id, value) where
  nextCons_le := ht.nextCons_le
  conses := ht.conses
  nextKeymap_eq := ht.nextKeymap_eq
  others id' hne := (Function.update_of_ne hne _ _).trans (ht.others id' hne)
  table_eq := by
    rw [remInverse_keymaps]
    exact ht.table_eq
  cache_eq := by
    rw [remInverse_keymaps]
    exact ht.cache_eq
  lookup_eq v hv := by
    rw [remInverse_keymaps]
    exact (AList.lookup_erase_ne hv).trans (ht.lookup_eq v hv)

theorem Touches.refl (s : State) (own : ℕ → ℕ × Value) (o : ℕ × Value) : Touches s s own own o :=
  ⟨le_refl _, fun _ _ _ => ⟨rfl, rfl, rfl⟩, rfl, fun _ _ => rfl, rfl, rfl, fun _ _ => rfl⟩

theorem touches_cons (s : State) (own : ℕ → ℕ × Value) (o : ℕ × Value) (car : Option TableKey) (cdr : Object) :
    Touches s (s.cons car cdr) own (Function.update own s.nextCons o) o where
  nextCons_le := Nat.le_succ _
  conses n hn _ := by
    have hne := Nat.ne_of_lt hn
    exact ⟨Function.update_of_ne hne _ _, Function.update_of_ne hne _ _, Function.update_of_ne hne _ _⟩
  nextKeymap_eq := rfl
  others _ _ := rfl
  table_eq := rfl
  cache_eq := rfl
  lookup_eq _ _ := rfl

theorem Touches.setCdr (ht : Touches s s' own own' o) (x : ℕ) (hx : x < s.nextCons → own x = o) (cdr : Object) :
    Touches s (s'.setCdr x cdr) own own' o where
  nextCons_le := ht.nextCons_le
  conses n hn hown := by
    have hne : n ≠ x := by
      rintro rfl
      exact hown (hx hn)
    obtain ⟨hcar, hcdr, hown⟩ := ht.conses n hn hown
    exact ⟨hcar, (Function.update_of_ne hne _ _).trans hcdr, hown⟩
  nextKeymap_eq := ht.nextKeymap_eq
  others := ht.others
  table_eq := ht.table_eq
  cache_eq := ht.cache_eq
  lookup_eq := ht.lookup_eq

/-! ### Storing a key -/

theorem Exact.store {items : List (Option TableKey)} (h : Exact items T value) (hnew : T keysym = none) :
    Exact (items ++ [some keysym]) (Function.update T keysym (some value)) value where
  nodup := by
    refine h.nodup.append (List.nodup_singleton _) fun a ha hmem => ?_
    obtain ⟨tk, rfl, htk⟩ := (h.mem_iff a).mp ha
    obtain rfl := Option.some.inj (List.mem_singleton.mp hmem)
    exact absurd (hnew.symm.trans htk) (Option.some_ne_none value).symm
  mem_iff a := by
    rw [List.mem_append, h.mem_iff, List.mem_singleton]
    constructor
    · rintro (⟨tk, rfl, htk⟩ | rfl)
      · have hne : tk ≠ keysym := by
          rintro rfl
          exact absurd (hnew.symm.trans htk) (Option.some_ne_none value).symm
        exact ⟨tk, rfl, (Function.update_of_ne hne _ _).trans htk⟩
      · exact ⟨keysym, rfl, Function.update_self _ _ _⟩
    · rintro ⟨tk, rfl, htk⟩
      by_cases hne : tk = keysym
      · exact Or.inr (congrArg some hne)
      · exact Or.inl ⟨tk, rfl, (Function.update_of_ne hne _ _).symm.trans htk⟩

theorem update_of_ne_value {new : Option Value} (hold : ∀ v, v ≠ value → T keysym ≠ some v)
    (hnew : ∀ v, v ≠ value → new ≠ some v) :
    ∀ v, v ≠ value → ∀ tk, Function.update T keysym new tk = some v ↔ T tk = some v := by
  intro v hv tk
  by_cases hne : tk = keysym
  · subst hne
    rw [Function.update_self]
    exact iff_of_false (hnew v hv) (hold v hv)
  · rw [Function.update_of_ne hne]

theorem lastCons_eq {x : ℕ} {a : Option TableKey} (h : Leads s.cdr (.cons x) ns (.atom a)) {fuel : ℕ}
    (hfuel : ns.length ≤ fuel) : ∃ ms y, ns = ms ++ [y] ∧ s.lastCons fuel x = some (y, a) := by
  induction ns generalizing x fuel with
  | nil => exact absurd h.symm (atom_ne_cons a x)
  | cons n ns ih =>
    obtain ⟨hx, h⟩ := h
    obtain rfl := Ref.cons.inj hx
    obtain ⟨fuel, rfl⟩ := Nat.exists_eq_add_one_of_ne_zero (Nat.ne_of_gt (Nat.lt_of_lt_of_le (Nat.succ_pos _) hfuel))
    rw [State.lastCons]
    cases hcdr : s.cdr x with
    | atom b =>
      rw [hcdr] at h
      cases ns with
      | nil =>
        obtain rfl := Ref.atom.inj h
        exact ⟨[], x, rfl, rfl⟩
      | cons m ns => exact absurd h.1 (atom_ne_cons b m)
    | cons y =>
      rw [hcdr] at h
      obtain ⟨ms, z, rfl, hlast⟩ := ih h (Nat.le_of_succ_le_succ hfuel)
      exact ⟨x :: ms, z, rfl, hlast⟩

theorem KeyList.snoc (h : KeyList s own o keys ns last) (s' : State) (keys' : Object) (hle : s.nextCons < s'.nextCons)
    (hcar : ∀ n ∈ ns, s'.car n = s.car n) (hown : ∀ n ∈ ns, own' n = own n)
    (hleads : Leads s'.cdr keys' ns (.cons s.nextCons)) (hnewCar : s'.car s.nextCons = some last)
    (hnewCdr : s'.cdr s.nextCons = .atom (some keysym)) (hnewOwn : own' s.nextCons = o) :
    KeyList s' own' o keys' (ns ++ [s.nextCons]) keysym ∧
      items s' (ns ++ [s.nextCons]) keysym = items s ns last ++ [some keysym] := by
  refine ⟨⟨Leads.concat_iff.mpr ⟨hleads, hnewCdr⟩, ?_, fun n hn => ?_⟩, ?_⟩
  · refine h.nodup.append (List.nodup_singleton _) fun n hn hmem => ?_
    exact absurd (List.mem_singleton.mp hmem) (Nat.ne_of_lt (h.owned n hn).2)
  · rcases List.mem_append.mp hn with hn | hn
    · exact ⟨(hown n hn).trans (h.owned n hn).1, (h.owned n hn).2.trans hle⟩
    · rw [List.mem_singleton.mp hn]
      exact ⟨hnewOwn, hle⟩
  · rw [items, items, List.map_append, List.map_congr_left hcar, List.map_singleton, hnewCar]

theorem InverseOk.store (h : InverseOk s own id T) (value : Value) (hnew : T keysym = none) :
    ∃ s' own', s.storeInverse keysym id value = (s', .done) ∧ Touches s s' own own' (id, value) ∧
      InverseOk s' own' id (Function.update T keysym (some value)) := by
  have hT := @update_of_ne_value value keysym T (some value) (fun v _ hv => absurd (hnew.symm.trans hv)
    (Option.some_ne_none v).symm) fun v hv heq => hv (Option.some.inj heq).symm
  rw [State.storeInverse]
  cases hkeys : (s.keymaps id).inverseTable.lookup value with
  | none =>
    have ht := (Touches.refl s own (id, value)).putInverse (.atom (some keysym))
    refine ⟨_, own, rfl, ht, h.update ht hT (fun keys hlookup => ?_) fun hlookup => ?_⟩
    · obtain rfl := Option.some.inj ((lookup_putInverse _ _ _ _).symm.trans hlookup)
      refine ⟨[], keysym, ⟨rfl, List.nodup_nil, fun n hn => absurd hn List.not_mem_nil⟩, ?_⟩
      have hempty : Exact [] T value :=
        ⟨List.nodup_nil, fun a => iff_of_false List.not_mem_nil fun ⟨tk, _, htk⟩ => h.absent hkeys tk htk⟩
      exact hempty.store hnew
    · exact absurd ((lookup_putInverse _ _ _ _).symm.trans hlookup) (Option.some_ne_none _)
  | some keys =>
    obtain ⟨ns, last, hlist, hexact⟩ := h.found hkeys
    have hfresh : ∀ n ∈ ns, n ≠ s.nextCons := fun n hn => Nat.ne_of_lt (hlist.owned n hn).2
    have ht := touches_cons s own (id, value) (some last) (.atom (some keysym))
    have hcar : ∀ n ∈ ns, (s.cons (some last) (.atom (some keysym))).car n = s.car n := fun n hn =>
      Function.update_of_ne (hfresh n hn) _ _
    have hown : ∀ n ∈ ns, Function.update own s.nextCons (id, value) n = own n := fun n hn =>
      Function.update_of_ne (hfresh n hn) _ _
    cases keys with
    | atom a =>
      cases ns with
      | cons n ns => exact absurd hlist.leads.1 (atom_ne_cons a n)
      | nil =>
        obtain rfl := Ref.atom.inj hlist.leads
        have ht' := ht.putInverse (.cons s.nextCons)
        refine ⟨_, _, rfl, ht', h.update ht' hT (fun keys hlookup => ?_) fun hlookup => ?_⟩
        · obtain rfl := Option.some.inj ((lookup_putInverse _ _ _ _).symm.trans hlookup)
          obtain ⟨hlist', hitems⟩ := hlist.snoc
            ((s.cons (some last) (.atom (some keysym))).putInverse id value (.cons s.nextCons)) (.cons s.nextCons)
            (Nat.lt_succ_self _) hcar hown rfl (Function.update_self _ _ _)
            (Function.update_self _ _ _) (Function.update_self _ _ _)
          exact ⟨_, _, hlist', hitems ▸ hexact.store hnew⟩
        · exact absurd ((lookup_putInverse _ _ _ _).symm.trans hlookup) (Option.some_ne_none _)
    | cons x =>
      obtain ⟨ms, y, rfl, hlast⟩ := lastCons_eq hlist.leads hlist.length_le
      have hy : y ∈ ms ++ [y] := List.mem_append_right _ (List.mem_singleton_self y)
      have ht' := ht.setCdr y (fun _ => (hlist.owned y hy).1) (.cons s.nextCons)
      simp only [hlast]
      refine ⟨_, _, rfl, ht', h.update ht' hT (fun keys hlookup => ?_) fun hlookup => ?_⟩
      · obtain rfl := Option.some.inj (hkeys.symm.trans hlookup)
        have hms : ∀ n ∈ ms, n ≠ y := fun n hn heq =>
          (List.nodup_append.mp hlist.nodup).2.2 n hn y (List.mem_singleton_self y) heq
        have hleads : Leads ((s.cons (some last) (.atom (some keysym))).setCdr y (.cons s.nextCons)).cdr (.cons x)
            (ms ++ [y]) (.cons s.nextCons) := by
          refine Leads.concat_iff.mpr ⟨(Leads.concat_iff.mp hlist.leads).1.congr fun n hn => ?_, Function.update_self _ _ _⟩
          exact (Function.update_of_ne (hms n hn) _ _).trans
            (Function.update_of_ne (hfresh n (List.mem_append_left _ hn)) _ _)
        obtain ⟨hlist', hitems⟩ := hlist.snoc
          ((s.cons (some last) (.atom (some keysym))).setCdr y (.cons s.nextCons)) (.cons x)
          (Nat.lt_succ_self _) hcar hown hleads (Function.update_self _ _ _)
          ((Function.update_of_ne (hfresh y hy).symm _ _).trans (Function.update_self _ _ _)) (Function.update_self _ _ _)
        exact ⟨_, _, hlist', hitems ▸ hexact.store hnew⟩
      · exact absurd (hkeys.symm.trans hlookup) (Option.some_ne_none _)

/-! ### Deleting a key -/

theorem Exact.delete {l l' : List (Option TableKey)} (h : Exact (l ++ some keysym :: l') T value) :
    Exact (l ++ l') (Function.update T keysym none) value := by
  have hperm : (l ++ some keysym :: l').Perm (some keysym :: (l ++ l')) := List.perm_middle
  have hnodup := List.nodup_cons.mp (hperm.nodup_iff.mp h.nodup)
  have hmem (a : Option TableKey) : a = some keysym ∨ a ∈ l ++ l' ↔ ∃ tk, a = some tk ∧ T tk = some value :=
    (List.mem_cons.symm.trans hperm.mem_iff.symm).trans (h.mem_iff a)
  refine ⟨hnodup.2, fun a => ⟨fun ha => ?_, ?_⟩⟩
  · obtain ⟨tk, rfl, htk⟩ := (hmem a).mp (Or.inr ha)
    have hne : tk ≠ keysym := by
      rintro rfl
      exact hnodup.1 ha
    exact ⟨tk, rfl, (Function.update_of_ne hne _ _).trans htk⟩
  · rintro ⟨tk, rfl, htk⟩
    have hne : tk ≠ keysym := by
      rintro rfl
      exact absurd ((Function.update_self _ _ _).symm.trans htk) (Option.some_ne_none value).symm
    have hold := (Function.update_of_ne hne _ _).symm.trans htk
    exact ((hmem (some tk)).mpr ⟨tk, rfl, hold⟩).resolve_left fun heq => hne (Option.some.inj heq)

theorem deleteLoop_eq {pre post : List ℕ} {x fuel : ℕ} {tail newKeys : Object} {a : Option TableKey}
    (h : Leads s.cdr tail (pre ++ x :: post) (.atom a)) (hpre : ∀ n ∈ pre, s.car n ≠ some keysym)
    (hx : s.car x = some keysym) (hfuel : pre.length < fuel) (prev : Option ℕ) :
    s.deleteLoop keysym newKeys fuel prev tail = .ok (s.storePrev newKeys (pre.getLast?.or prev) (s.cdr x)) := by
  induction pre generalizing tail fuel prev with
  | nil =>
    obtain ⟨rfl, -⟩ := h
    obtain ⟨fuel, rfl⟩ := Nat.exists_eq_add_one_of_ne_zero (Nat.ne_of_gt hfuel)
    rw [State.deleteLoop, if_neg (atom_ne_cons _ x).symm]
    exact if_pos hx
  | cons y pre ih =>
    obtain ⟨rfl, h⟩ := h
    obtain ⟨fuel, rfl⟩ := Nat.exists_eq_add_one_of_ne_zero (Nat.ne_of_gt (Nat.lt_of_le_of_lt (Nat.zero_le _) hfuel))
    have hrest := ih h (fun n hn => hpre n (List.mem_cons_of_mem y hn)) (Nat.lt_of_succ_lt_succ hfuel) (some y)
    rw [State.deleteLoop, if_neg (atom_ne_cons _ y).symm]
    simp only [if_neg (hpre y List.mem_cons_self)]
    rw [hrest, List.getLast?_cons]
    cases pre.getLast? <;> rfl

theorem exists_split (hitems : (items s ns last).Nodup) (hmem : some keysym ∈ items s ns last) (hlast : last ≠ keysym) :
    ∃ pre x post, ns = pre ++ x :: post ∧ s.car x = some keysym ∧ ∀ n ∈ pre, s.car n ≠ some keysym := by
  rcases List.mem_append.mp hmem with hmem | hmem
  · obtain ⟨x, hx, hcar⟩ := List.mem_map.mp hmem
    obtain ⟨pre, post, rfl⟩ := List.append_of_mem hx
    refine ⟨pre, x, post, rfl, hcar, fun n hn heq => ?_⟩
    have hnodup := (List.nodup_append.mp hitems).1
    rw [List.map_append, List.map_cons] at hnodup
    exact (List.nodup_append.mp hnodup).2.2 _ (List.mem_map_of_mem hn) _ List.mem_cons_self (heq.trans hcar.symm)
  · exact absurd (Option.some.inj (List.mem_singleton.mp hmem)).symm hlast

theorem KeyList.without {pre post : List ℕ} {x : ℕ} (h : KeyList s own o keys (pre ++ x :: post) last) (s' : State)
    (keys' : Object) (hnext : s'.nextCons = s.nextCons) (hcar : s'.car = s.car)
    (hpre : Leads s'.cdr keys' pre (s.cdr x)) (hpost : ∀ n ∈ post, s'.cdr n = s.cdr n) :
    KeyList s' own o keys' (pre ++ post) last ∧ items s' (pre ++ post) last = pre.map s.car ++ (post.map s.car ++ [some last]) := by
  obtain ⟨_, _, hrest⟩ := Leads.append_iff.mp h.leads
  have hsub : (pre ++ post).Sublist (pre ++ x :: post) := (List.Sublist.refl pre).append (List.sublist_cons_self x post)
  refine ⟨⟨Leads.append_iff.mpr ⟨_, hpre, hrest.2.congr hpost⟩, h.nodup.sublist hsub, fun n hn => ?_⟩, ?_⟩
  · rw [hnext]
    exact h.owned n (hsub.subset hn)
  · rw [items, hcar, List.map_append, List.append_assoc]

theorem InverseOk.delete (h : InverseOk s own id T) (hold : T keysym = some value)
    (hkept : (s.listed id value).length = 1 ∨ (s.listed id value).getLast? ≠ some (some keysym)) :
    ∃ s', s.deleteInverse keysym id value = (s', .done) ∧ Touches s s' own own (id, value) ∧
      InverseOk s' own id (Function.update T keysym none) := by
  have hT := @update_of_ne_value value keysym T none (fun v hv heq => hv (Option.some.inj (hold.symm.trans heq)).symm)
    fun v _ => (Option.some_ne_none v).symm
  cases hkeys : (s.keymaps id).inverseTable.lookup value with
  | none => exact absurd hold (h.absent hkeys keysym)
  | some keys =>
    obtain ⟨ns, last, hlist, hexact⟩ := h.found hkeys
    have hmem := (hexact.mem_iff (some keysym)).mpr ⟨keysym, rfl, hold⟩
    rw [hlist.listed hkeys, items, List.getLast?_append_of_ne_nil _ (List.cons_ne_nil _ _), List.length_append,
      List.length_map] at hkept
    rw [State.deleteInverse, hkeys]
    by_cases hns : ns = []
    · subst hns
      obtain rfl := Option.some.inj (List.mem_singleton.mp hmem)
      obtain rfl : keys = .atom (some keysym) := hlist.leads
      have hloop : s.deleteLoop keysym (.atom (some keysym)) (s.nextCons + 1) none (.atom (some keysym)) =
          .ok (s, .atom none) := if_pos rfl
      have ht := (Touches.refl s own (id, value)).remInverse
      simp only [hloop]
      refine ⟨_, if_pos trivial, ht, h.update ht hT (fun keys hlookup => ?_) fun _ tk htk => ?_⟩
      · exact absurd ((lookup_remInverse s id value).symm.trans hlookup) (Option.some_ne_none keys).symm
      · have hnil : Exact [] (Function.update T keysym none) value := @Exact.delete value keysym T [] [] hexact
        exact List.not_mem_nil ((hnil.mem_iff (some tk)).mpr ⟨tk, rfl, htk⟩)
    · have hlast : last ≠ keysym := by
        rintro rfl
        rcases hkept with hone | hne
        · exact hns (List.eq_nil_of_length_eq_zero (Nat.succ.inj hone))
        · exact hne rfl
      obtain ⟨pre, x, post, rfl, hx, hpre⟩ := exists_split hexact.nodup hmem hlast
      have hlen : pre.length < s.nextCons + 1 := by
        have hle := hlist.length_le
        rw [List.length_append] at hle
        exact Nat.lt_succ_of_le ((Nat.le_add_right _ _).trans hle)
      have hexact' : Exact (pre.map s.car ++ (post.map s.car ++ [some last])) (Function.update T keysym none) value := by
        refine Exact.delete (?_ : Exact (_ ++ some keysym :: _) T value)
        rw [← hx]
        rwa [items, List.map_append, List.map_cons, List.append_assoc] at hexact
      obtain ⟨_, hleads, rfl, hrest⟩ := Leads.append_iff.mp hlist.leads
      have hpost : x ∉ post := (List.nodup_cons.mp (List.nodup_append.mp hlist.nodup).2.1).1
      simp only [deleteLoop_eq hlist.leads hpre hx hlen none, Option.or_none]
      rcases List.eq_nil_or_concat pre with rfl | ⟨pre, y, rfl⟩
      · -- the first cons
        obtain rfl : keys = .cons x := hleads
        have hcdr : s.cdr x ≠ .atom none := by
          intro heq
          rw [heq] at hrest
          cases post with
          | nil => exact absurd (Ref.atom.inj hrest) (Option.some_ne_none last).symm
          | cons n post => exact atom_ne_cons none n hrest.1
        have hne : Ref.cons x ≠ s.cdr x := by
          intro heq
          cases post with
          | nil => exact atom_ne_cons _ x (hrest.symm.trans heq.symm)
          | cons n post => exact hpost (Ref.cons.inj (heq.trans hrest.1) ▸ List.mem_cons_self)
        have ht := (Touches.refl s own (id, value)).putInverse (s.cdr x)
        refine ⟨_, (if_neg hcdr).trans (if_pos hne), ht, h.update ht hT (fun keys hlookup => ?_) fun hlookup => ?_⟩
        · obtain rfl := Option.some.inj ((lookup_putInverse _ _ _ _).symm.trans hlookup)
          obtain ⟨hlist', hitems⟩ := hlist.without (s.putInverse id value (s.cdr x)) (s.cdr x) rfl rfl rfl fun _ _ => rfl
          exact ⟨_, _, hlist', hitems ▸ hexact'⟩
        · exact absurd ((lookup_putInverse _ _ _ _).symm.trans hlookup) (Option.some_ne_none _)
      · -- a cons after another
        rw [List.concat_eq_append] at *
        have hmemy : y ∈ pre ++ [y] := List.mem_append_right _ (List.mem_singleton_self y)
        have hown : own y = (id, value) := (hlist.owned y (List.mem_append_left _ hmemy)).1
        have ht := (Touches.refl s own (id, value)).setCdr y (fun _ => hown) (s.cdr x)
        have hkeysne : keys ≠ .atom none := by
          rintro rfl
          cases pre with
          | nil => exact atom_ne_cons none y hleads.1
          | cons n pre => exact atom_ne_cons none n hleads.1
        rw [List.getLast?_concat]
        refine ⟨_, (if_neg hkeysne).trans (if_neg (not_not_intro rfl)), ht, h.update ht hT (fun keys' hlookup => ?_)
          fun hlookup => ?_⟩
        · obtain rfl := Option.some.inj (hkeys.symm.trans hlookup)
          have hnodup := List.nodup_append.mp hlist.nodup
          have hpre' : Leads (s.setCdr y (s.cdr x)).cdr keys (pre ++ [y]) (s.cdr x) := by
            refine Leads.concat_iff.mpr ⟨(Leads.concat_iff.mp hleads).1.congr fun n hn => ?_, Function.update_self _ _ _⟩
            exact Function.update_of_ne ((List.nodup_append.mp hnodup.1).2.2 n hn y (List.mem_singleton_self y)) _ _
          have hpost' : ∀ n ∈ post, (s.setCdr y (s.cdr x)).cdr n = s.cdr n := fun n hn =>
            Function.update_of_ne (hnodup.2.2 y hmemy n (List.mem_cons_of_mem x hn)).symm _ _
          obtain ⟨hlist', hitems⟩ := hlist.without (s.setCdr y (s.cdr x)) keys rfl rfl hpre' hpost'
          exact ⟨_, _, hlist', hitems ▸ hexact'⟩
        · exact absurd (hkeys.symm.trans hlookup) (Option.some_ne_none _)

end XEmacs.Keymaps
