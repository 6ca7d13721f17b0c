import XEmacs.Keymap.KeymapStore

/-! Copying a keymap that has no submaps. The copy takes the conses of the inverse table, and the keymap that
is copied gets new ones, with the same keys. -/

namespace XEmacs.Keymaps

open Lib

variable {env : Lisp} {s s' s'' t : State} {own own' own'' : ℕ → ℕ × Value} {id k fuel : ℕ} {value : Value}
  {keys : Object} {ns : List ℕ} {last : TableKey}

/-- New conses are made, and all else is as it was. -/
structure Grows (s s' : State) : Prop where
  nextCons_le : s.nextCons ≤ s'.nextCons
  car_eq : ∀ n < s.nextCons, s'.car n = s.car n
  cdr_eq : ∀ n < s.nextCons, s'.cdr n = s.cdr n
  keymaps_eq : s'.keymaps = s.keymaps
  nextKeymap_eq : s'.nextKeymap = s.nextKeymap

theorem Grows.trans (h : Grows s s') (h' : Grows s' s'') : Grows s s'' where
  nextCons_le := h.nextCons_le.trans h'.nextCons_le
  car_eq n hn := (h'.car_eq n (hn.trans_le h.nextCons_le)).trans (h.car_eq n hn)
  cdr_eq n hn := (h'.cdr_eq n (hn.trans_le h.nextCons_le)).trans (h.cdr_eq n hn)
  keymaps_eq := h'.keymaps_eq.trans h.keymaps_eq
  nextKeymap_eq := h'.nextKeymap_eq.trans h.nextKeymap_eq

theorem grows_cons (s : State) (car : Option TableKey) (cdr : Object) : Grows s (s.cons car cdr) where
  nextCons_le := Nat.le_succ _
  car_eq _ hn := Function.update_of_ne (Nat.ne_of_lt hn) _ _
  cdr_eq _ hn := Function.update_of_ne (Nat.ne_of_lt hn) _ _
  keymaps_eq := rfl
  nextKeymap_eq := rfl

theorem Grows.setCdr (h : Grows s s') {x : ℕ} (hx : s.nextCons ≤ x) (cdr : Object) : Grows s (s'.setCdr x cdr) where
  nextCons_le := h.nextCons_le
  car_eq := h.car_eq
  cdr_eq n hn := (Function.update_of_ne (Nat.ne_of_lt (hn.trans_le hx)) _ _).trans (h.cdr_eq n hn)
  keymaps_eq := h.keymaps_eq
  nextKeymap_eq := h.nextKeymap_eq

theorem copyList_spec {x : ℕ} {a : Option TableKey} (h : Leads s.cdr (.cons x) ns (.atom a))
    (hlt : ∀ n ∈ ns, n < s.nextCons) (hfuel : ns.length ≤ fuel) :
    ∃ t, Lisp.copyList fuel s x = (t, .done) ∧ Grows s t ∧ t.nextCons = s.nextCons + ns.length ∧
      Leads t.cdr (.cons s.nextCons) (List.range' s.nextCons ns.length) (.atom a) ∧
      (List.range' s.nextCons ns.length).map t.car = ns.map s.car := by
  induction ns generalizing s x fuel with
  | nil => exact absurd h.symm (atom_ne_cons a x)
  | cons n ns ih =>
    obtain ⟨hx, h⟩ := h
    obtain rfl := Ref.cons.inj hx
    obtain ⟨fuel, rfl⟩ := Nat.exists_eq_add_one_of_ne_zero (Nat.ne_of_gt (Nat.lt_of_lt_of_le (Nat.succ_pos _) hfuel))
    have hgrows := grows_cons s (s.car x) (s.cdr x)
    rw [Lisp.copyList]
    cases hcdr : s.cdr x with
    | atom b =>
      rw [hcdr] at h
      cases ns with
      | cons m ns => exact absurd h.1 (atom_ne_cons b m)
      | nil =>
        obtain rfl := Ref.atom.inj h
        rw [hcdr] at hgrows
        exact ⟨_, rfl, hgrows, rfl, ⟨rfl, Function.update_self _ _ _⟩,
          congrArg (fun c => [c]) (Function.update_self _ _ _)⟩
    | cons y =>
      rw [hcdr] at h hgrows
      have hrest : ∀ n ∈ ns, n < s.nextCons := fun n hn => hlt n (List.mem_cons_of_mem x hn)
      obtain ⟨t, hcopy, htail, hnext, hleads, hitems⟩ := @ih (s.cons (s.car x) (.cons y)) fuel y
        (h.congr fun n hn => hgrows.cdr_eq n (hrest n hn)) (fun n hn => Nat.lt_succ_of_lt (hrest n hn))
        (Nat.le_of_succ_le_succ hfuel)
      have hnew : s.nextCons < (s.cons (s.car x) (.cons y)).nextCons := Nat.lt_succ_self _
      have hcar : t.car s.nextCons = s.car x := (htail.car_eq _ hnew).trans (Function.update_self _ _ _)
      simp only [hcopy, Result.andThen, if_pos]
      refine ⟨_, rfl, (hgrows.trans htail).setCdr (le_refl _) _, ?_, ⟨rfl, ?_⟩, ?_⟩
      · exact hnext.trans (Nat.add_right_comm s.nextCons 1 ns.length)
      · have hself : (t.setCdr s.nextCons (.cons (s.nextCons + 1))).cdr s.nextCons = .cons (s.nextCons + 1) :=
          Function.update_self _ _ _
        have htail : Leads (t.setCdr s.nextCons (.cons (s.nextCons + 1))).cdr (.cons (s.nextCons + 1))
            (List.range' (s.nextCons + 1) ns.length) (.atom a) :=
          hleads.congr fun n hn => Function.update_of_ne (Nat.ne_of_gt (List.mem_range'_1.mp hn).1) _ _
        exact Eq.mpr (congrArg (fun r => Leads _ r _ _) hself) htail
      · rw [List.length_cons, List.range'_succ, List.map_cons, List.map_cons]
        refine congrArg₂ List.cons hcar (hitems.trans (List.map_congr_left fun n hn => ?_))
        exact hgrows.car_eq n (hrest n hn)

/-! ### The lists of an inverse table -/

structure BareList (s : State) (keys : Object) (ns : List ℕ) (last : TableKey) : Prop where
  leads : Leads s.cdr keys ns (.atom (some last))
  nodup : ns.Nodup
  lt : ∀ n ∈ ns, n < s.nextCons

theorem KeyList.bare {o : ℕ × Value} (h : KeyList s own o keys ns last) : BareList s keys ns last :=
  ⟨h.leads, h.nodup, fun n hn => (h.owned n hn).2⟩

theorem BareList.mono (h : BareList s keys ns last) (hle : s.nextCons ≤ s'.nextCons)
    (hcdr : ∀ n < s.nextCons, s'.cdr n = s.cdr n) : BareList s' keys ns last :=
  ⟨h.leads.congr fun n hn => hcdr n (h.lt n hn), h.nodup, fun n hn => (h.lt n hn).trans_le hle⟩

structure Puts (s s' : State) (own own' : ℕ → ℕ × Value) (id : ℕ) : Prop where
  nextCons_le : s.nextCons ≤ s'.nextCons
  conses : ∀ n < s.nextCons, s'.car n = s.car n ∧ s'.cdr n = s.cdr n ∧ own' n = own n
  nextKeymap_eq : s'.nextKeymap = s.nextKeymap
  others : ∀ j, j ≠ id → s'.keymaps j = s.keymaps j
  table_eq : (s'.keymaps id).table = (s.keymaps id).table
  cache_eq : (s'.keymaps id).subMapsCache = (s.keymaps id).subMapsCache

namespace Puts

theorem refl (s : State) (own : ℕ → ℕ × Value) (id : ℕ) : Puts s s own own id :=
  ⟨le_refl _, fun _ _ => ⟨rfl, rfl, rfl⟩, rfl, fun _ _ => rfl, rfl, rfl⟩

theorem trans (h : Puts s s' own own' id) (h' : Puts s' s'' own' own'' id) : Puts s s'' own own'' id where
  nextCons_le := h.nextCons_le.trans h'.nextCons_le
  conses n hn := by
    obtain ⟨hcar, hcdr, hown⟩ := h.conses n hn
    obtain ⟨hcar', hcdr', hown'⟩ := h'.conses n (hn.trans_le h.nextCons_le)
    exact ⟨hcar'.trans hcar, hcdr'.trans hcdr, hown'.trans hown⟩
  nextKeymap_eq := h'.nextKeymap_eq.trans h.nextKeymap_eq
  others j hj := (h'.others j hj).trans (h.others j hj)
  table_eq := h'.table_eq.trans h.table_eq
  cache_eq := h'.cache_eq.trans h.cache_eq

theorem keyList (h : Puts s s' own own' id) {o : ℕ × Value} (hlist : KeyList s own o keys ns last) :
    KeyList s' own' o keys ns last ∧ items s' ns last = items s ns last :=
  ⟨hlist.congr h.nextCons_le fun n hn => (h.conses n (hlist.owned n hn).2).2,
    items_congr fun n hn => (h.conses n (hlist.owned n hn).2).1⟩

theorem bareList (h : Puts s s' own own' id) (hlist : BareList s keys ns last) :
    BareList s' keys ns last ∧ items s' ns last = items s ns last :=
  ⟨hlist.mono h.nextCons_le fun n hn => (h.conses n hn).2.1, items_congr fun n hn => (h.conses n (hlist.lt n hn)).1⟩

end Puts

structure Copied (s s' : State) (own own' : ℕ → ℕ × Value) (id : ℕ) (value : Value) (ns : List ℕ) (last : TableKey) :
    Prop where
  puts : Puts s s' own own' id
  found : ∃ keys' ns', (s'.keymaps id).inverseTable.lookup value = some keys' ∧
    KeyList s' own' (id, value) keys' ns' last ∧ items s' ns' last = items s ns last
  others : ∀ v, v ≠ value → (s'.keymaps id).inverseTable.lookup v = (s.keymaps id).inverseTable.lookup v

theorem puts_putInverse (s : State) (own : ℕ → ℕ × Value) (id : ℕ) (value : Value) (keys : Object) :
    Puts s (s.putInverse id value keys) own own id :=
  ⟨le_refl _, fun _ _ => ⟨rfl, rfl, rfl⟩, rfl, fun _ hj => modify_of_ne s hj _, by rw [putInverse_keymaps],
    by rw [putInverse_keymaps]⟩

theorem putInverse_of_ne (s : State) (id : ℕ) (keys : Object) {v : Value} (hv : v ≠ value) :
    ((s.putInverse id value keys).keymaps id).inverseTable.lookup v = (s.keymaps id).inverseTable.lookup v := by
  rw [putInverse_keymaps]
  exact AList.lookup_insert_ne hv

theorem copied_atom (own : ℕ → ℕ × Value) (id : ℕ) {a : Option TableKey} (h : BareList s (.atom a) ns last) :
    Copied s (s.putInverse id value (.atom a)) own own id value ns last := by
  refine ⟨puts_putInverse s own id value _, ?_, fun v hv => putInverse_of_ne s id _ hv⟩
  cases ns with
  | cons n ns => exact absurd h.leads.1 (atom_ne_cons a n)
  | nil =>
    obtain rfl := Ref.atom.inj h.leads
    exact ⟨_, [], lookup_putInverse _ _ _ _, ⟨rfl, List.nodup_nil, fun n hn => absurd hn List.not_mem_nil⟩, rfl⟩

def ownFrom (own : ℕ → ℕ × Value) (m : ℕ) (o : ℕ × Value) (n : ℕ) : ℕ × Value := if m ≤ n then o else own n

theorem copied_cons (value : Value) (own : ℕ → ℕ × Value) (id : ℕ) {x : ℕ} (h : BareList s (.cons x) ns last) :
    ∃ t, Lisp.copyList s.nextCons s x = (t, .done) ∧
      Copied s (t.putInverse id value (.cons s.nextCons)) own (ownFrom own s.nextCons (id, value)) id value ns last := by
  obtain ⟨t, hcopy, hgrows, hnext, hleads, hitems⟩ := copyList_spec h.leads h.lt (length_le_of_nodup h.nodup h.lt)
  have hputs := puts_putInverse t (ownFrom own s.nextCons (id, value)) id value (.cons s.nextCons)
  refine ⟨t, hcopy, ⟨⟨hgrows.nextCons_le, fun n hn => ⟨hgrows.car_eq n hn, hgrows.cdr_eq n hn, ?_⟩,
    hgrows.nextKeymap_eq, fun j hj => ?_, ?_, ?_⟩, ⟨_, List.range' s.nextCons ns.length, lookup_putInverse _ _ _ _,
    ⟨hleads, List.nodup_range', fun n hn => ?_⟩, ?_⟩, fun v hv => ?_⟩⟩
  · exact if_neg (Nat.not_le_of_lt hn)
  · rw [hputs.others j hj, hgrows.keymaps_eq]
  · rw [hputs.table_eq, hgrows.keymaps_eq]
  · rw [hputs.cache_eq, hgrows.keymaps_eq]
  · obtain ⟨hle, hlt⟩ := List.mem_range'_1.mp hn
    exact ⟨if_pos hle, hnext ▸ hlt⟩
  · exact congrArg (· ++ [some last]) hitems
  · rw [putInverse_of_ne t id _ hv, hgrows.keymaps_eq]

theorem copyInverse_spec (entries : List (Sigma fun _ : Value => Object)) (hnodup : entries.NodupKeys)
    (hlists : ∀ e ∈ entries, ∃ ns last, BareList s e.2 ns last) :
    ∃ t own', Lisp.copyInverse id entries s = (t, .done) ∧ Puts s t own own' id ∧
      (∀ v, v ∉ entries.keys → (t.keymaps id).inverseTable.lookup v = (s.keymaps id).inverseTable.lookup v) ∧
      ∀ e ∈ entries, ∀ ns last, BareList s e.2 ns last → ∃ keys' ns',
        (t.keymaps id).inverseTable.lookup e.1 = some keys' ∧ KeyList t own' (id, e.1) keys' ns' last ∧
          items t ns' last = items s ns last := by
  induction entries generalizing s own with
  | nil => exact ⟨s, own, rfl, Puts.refl s own id, fun _ _ => rfl, fun e he => absurd he List.not_mem_nil⟩
  | cons e entries ih =>
    obtain ⟨value, keys⟩ := e
    obtain ⟨hnot, hnodup⟩ := List.nodupKeys_cons.mp hnodup
    obtain ⟨ns, last, hlist⟩ := hlists _ List.mem_cons_self
    -- the first entry
    obtain ⟨s', own', hfirst, hcopied⟩ : ∃ s' own', Lisp.copyInverse id (⟨value, keys⟩ :: entries) s =
        Lisp.copyInverse id entries s' ∧ Copied s s' own own' id value ns last := by
      cases keys with
      | atom a => exact ⟨_, own, rfl, copied_atom own id hlist⟩
      | cons x =>
        obtain ⟨t, hcopy, hcopied⟩ := copied_cons value own id hlist
        refine ⟨_, _, ?_, hcopied⟩
        rw [Lisp.copyInverse, hcopy]
        rfl
    obtain ⟨t, own'', hrest, hputs, hkept, hfound⟩ := @ih s' own' hnodup fun e he => by
      obtain ⟨ns, last, hlist⟩ := hlists e (List.mem_cons_of_mem _ he)
      exact ⟨ns, last, (hcopied.puts.bareList hlist).1⟩
    refine ⟨t, own'', hfirst.trans hrest, hcopied.puts.trans hputs, fun v hv => ?_, fun e he ns' last' hlist' => ?_⟩
    · rw [List.keys_cons, List.mem_cons, not_or] at hv
      exact (hkept v hv.2).trans (hcopied.others v hv.1)
    · rcases List.mem_cons.mp he with rfl | he
      · obtain ⟨rfl, hlast⟩ := hlist.leads.unique hlist'.leads
        obtain rfl := Option.some.inj hlast
        obtain ⟨keys', ns'', hlookup, hkeys, hitems⟩ := hcopied.found
        obtain ⟨hkeys', hitems'⟩ := hputs.keyList hkeys
        exact ⟨keys', ns'', (hkept value hnot).trans hlookup, hkeys', hitems'.trans hitems⟩
      · obtain ⟨hbare, hsame⟩ := hcopied.puts.bareList hlist'
        obtain ⟨keys', ns'', hlookup, hkeys, hitems⟩ := hfound e he ns' last' hbare
        exact ⟨keys', ns'', hlookup, hkeys, hitems.trans hsame⟩

/-! ### A keymap -/

def copyStart (s : State) (id : ℕ) : State :=
  { s with
    keymaps := Function.update s.keymaps s.nextKeymap ⟨(s.keymaps id).table, (s.keymaps id).inverseTable, some []⟩
    nextKeymap := s.nextKeymap + 1 }

def moveOwn (own : ℕ → ℕ × Value) (id copy : ℕ) (n : ℕ) : ℕ × Value :=
  if (own n).1 = id then (copy, (own n).2) else own n

theorem KeyList.moveOwn (h : KeyList s own (id, value) keys ns last) (copy : ℕ) :
    KeyList (copyStart s id) (moveOwn own id copy) (copy, value) keys ns last := by
  refine ⟨h.leads, h.nodup, fun n hn => ⟨?_, (h.owned n hn).2⟩⟩
  rw [XEmacs.Keymaps.moveOwn, (h.owned n hn).1, if_pos rfl]

theorem KeyList.moveOwn_of_ne (h : KeyList s own (k, value) keys ns last) (hk : k ≠ id) (copy : ℕ) :
    KeyList (copyStart s id) (XEmacs.Keymaps.moveOwn own id copy) (k, value) keys ns last := by
  refine ⟨h.leads, h.nodup, fun n hn => ⟨?_, (h.owned n hn).2⟩⟩
  rw [XEmacs.Keymaps.moveOwn, (h.owned n hn).1, if_neg hk]

/-- A keymap has the table of another one, and lists the same keys. -/
structure Relists (s t : State) (own own' : ℕ → ℕ × Value) (id k : ℕ) : Prop where
  table_eq : (t.keymaps k).table = (s.keymaps id).table
  absent : ∀ v, (s.keymaps id).inverseTable.lookup v = none → (t.keymaps k).inverseTable.lookup v = none
  found : ∀ {v keys ns last}, (s.keymaps id).inverseTable.lookup v = some keys → KeyList s own (id, v) keys ns last →
    ∃ keys' ns', (t.keymaps k).inverseTable.lookup v = some keys' ∧ KeyList t own' (k, v) keys' ns' last ∧
      items t ns' last = items s ns last

namespace Relists

variable {T : TableKey → Option Value}

theorem inverseOk (h : Relists s t own own' id k) (hok : InverseOk s own id T) : InverseOk t own' k T where
  found {v keys} hkeys := by
    cases hold : (s.keymaps id).inverseTable.lookup v with
    | none => exact absurd ((h.absent v hold).symm.trans hkeys) (Option.some_ne_none keys).symm
    | some keys' =>
      obtain ⟨ns, last, hlist, hexact⟩ := hok.found hold
      obtain ⟨keys'', ns', hlookup, hlist', hitems⟩ := h.found hold hlist
      obtain rfl := Option.some.inj (hlookup.symm.trans hkeys)
      exact ⟨ns', last, hlist', hitems ▸ hexact⟩
  absent {v} hkeys := by
    cases hold : (s.keymaps id).inverseTable.lookup v with
    | none => exact hok.absent hold
    | some keys' =>
      obtain ⟨ns, last, hlist, -⟩ := hok.found hold
      obtain ⟨keys'', -, hlookup, -⟩ := h.found hold hlist
      exact absurd (hkeys.symm.trans hlookup) (Option.some_ne_none keys'').symm

theorem listed (h : Relists s t own own' id k) (hok : InverseOk s own id T) (value : Value) :
    t.listed k value = s.listed id value := by
  cases hold : (s.keymaps id).inverseTable.lookup value with
  | none => rw [State.listed, State.listed, hold, h.absent value hold]
  | some keys =>
    obtain ⟨ns, last, hlist, -⟩ := hok.found hold
    obtain ⟨keys', ns', hlookup, hlist', hitems⟩ := h.found hold hlist
    rw [hlist.listed hold, hlist'.listed hlookup, hitems]

theorem keymapOk (h : Relists s t own own' id k) (hok : KeymapOk env s own id)
    (hcache : ∀ maps, (t.keymaps k).subMapsCache = some maps → maps.Perm (env.submapEntries (t.keymaps k).table)) :
    KeymapOk env t own' k := by
  refine ⟨?_, ?_, hcache⟩
  · rw [h.table_eq]
    exact h.inverseOk hok.inverse
  · rw [h.table_eq]
    exact hok.bound

end Relists

structure TablesCopied (env : Lisp) (s : State) (id : ℕ) (t : State) (own' : ℕ → ℕ × Value) : Prop where
  keymap : ∀ j, KeymapOk env t own' j
  nextKeymap_eq : t.nextKeymap = s.nextKeymap + 1
  table_eq : ∀ j, (t.keymaps j).table = if j = s.nextKeymap then (s.keymaps id).table else (s.keymaps j).table
  fresh : ∀ j, s.nextKeymap < j → t.keymaps j = s.keymaps j
  same : ∀ j < s.nextKeymap, SameKeymap env s t j

theorem Inv.copyKeymapInternal (h : Inv env s own) (hid : id < s.nextKeymap)
    (hnone : env.submapEntries (s.keymaps id).table = []) :
    ∃ t own', Lisp.copyKeymapInternal s id = (t, .done) ∧ TablesCopied env s id t own' := by
  have hidne : id ≠ s.nextKeymap := Nat.ne_of_lt hid
  have hstart (j : ℕ) (hj : j ≠ s.nextKeymap) : (copyStart s id).keymaps j = s.keymaps j := Function.update_of_ne hj _ _
  have hentry {v : Value} {keys : Object} : ⟨v, keys⟩ ∈ (s.keymaps id).inverseTable.entries ↔
      (s.keymaps id).inverseTable.lookup v = some keys := AList.mem_lookup_iff.symm
  obtain ⟨t, own', hdone, hputs, hkept, hfound⟩ := @copyInverse_spec (copyStart s id) (moveOwn own id s.nextKeymap) id
    (s.keymaps id).inverseTable.entries (s.keymaps id).inverseTable.nodupKeys fun e he => by
      obtain ⟨ns, last, hlist, -⟩ := (h.keymap id).inverse.found (hentry.mp he)
      exact ⟨ns, last, (hlist.moveOwn s.nextKeymap).bare⟩
  have hcopy : t.keymaps s.nextKeymap = ⟨(s.keymaps id).table, (s.keymaps id).inverseTable, some []⟩ :=
    (hputs.others _ hidne.symm).trans (Function.update_self _ _ _)
  have hothers (j : ℕ) (hj : j ≠ id) (hj' : j ≠ s.nextKeymap) : t.keymaps j = s.keymaps j :=
    (hputs.others j hj).trans (hstart j hj')
  have htable : (t.keymaps id).table = (s.keymaps id).table := by rw [hputs.table_eq, hstart id hidne]
  have hcache : (t.keymaps id).subMapsCache = (s.keymaps id).subMapsCache := by rw [hputs.cache_eq, hstart id hidne]
  -- the keymap has new lists, and the copy has its old ones
  have hself : Relists s t own own' id id := by
    refine ⟨htable, fun v hv => ?_, fun hkeys hlist => ?_⟩
    · rw [hkept v (AList.lookup_eq_none.mp hv), hstart id hidne, hv]
    · exact hfound _ (hentry.mpr hkeys) _ _ (hlist.moveOwn s.nextKeymap).bare
  have hnew : Relists s t own own' id s.nextKeymap := by
    refine ⟨by rw [hcopy], fun v hv => by rwa [hcopy], fun hkeys hlist => ?_⟩
    obtain ⟨hlist', hitems⟩ := hputs.keyList (hlist.moveOwn s.nextKeymap)
    exact ⟨_, _, by rwa [hcopy], hlist', hitems⟩
  have hother (j : ℕ) (hj : j ≠ id) (hj' : j ≠ s.nextKeymap) : Relists s t own own' j j := by
    have hsame := hothers j hj hj'
    refine ⟨by rw [hsame], fun v hv => by rwa [hsame], fun hkeys hlist => ?_⟩
    obtain ⟨hlist', hitems⟩ := hputs.keyList (hlist.moveOwn_of_ne hj s.nextKeymap)
    exact ⟨_, _, by rwa [hsame], hlist', hitems⟩
  refine ⟨t, own', hdone, fun j => ?_, hputs.nextKeymap_eq, fun j => ?_, fun j hj => ?_, fun j hj => ?_⟩
  · by_cases hj : j = id
    · subst hj
      refine hself.keymapOk (h.keymap j) fun maps hmaps => ?_
      rw [hcache] at hmaps
      rw [htable]
      exact (h.keymap j).cache maps hmaps
    · by_cases hj' : j = s.nextKeymap
      · subst hj'
        refine hnew.keymapOk (h.keymap id) fun maps hmaps => ?_
        rw [hcopy] at hmaps ⊢
        rw [← Option.some.inj hmaps, hnone]
      · refine (hother j hj hj').keymapOk (h.keymap j) ?_
        rw [hothers j hj hj']
        exact (h.keymap j).cache
  · split_ifs with hj'
    · rw [hj', hcopy]
    · by_cases hj : j = id
      · rw [hj, htable]
      · rw [hothers j hj hj']
  · exact hothers j (Nat.ne_of_gt (hid.trans hj)) (Nat.ne_of_gt hj)
  · have hj' := Nat.ne_of_lt hj
    by_cases hji : j = id
    · subst hji
      refine ⟨htable, hself.listed (h.keymap j).inverse, ?_⟩
      rw [keymapSubmaps_snd, keymapSubmaps_snd, hcache, htable]
    · refine ⟨by rw [hothers j hji hj'], (hother j hji hj').listed (h.keymap j).inverse, ?_⟩
      rw [keymapSubmaps_snd, keymapSubmaps_snd, hothers j hji hj']

theorem Inv.gethash_modifiers (h : Inv env s own) (hnone : env.submapEntries (s.keymaps id).table = [])
    (m : Modifiers) : s.gethash id (.modifiers m) = .nil := by
  by_contra hne
  obtain ⟨sub, hsub, -⟩ := h.slots.slot id m hne
  have hlookup := (lookup_eq_some_iff (Value.noConfusion : Value.keymap sub ≠ .nil)).mpr hsub
  have hmem : (TableKey.modifiers m, Value.keymap sub) ∈ env.submapEntries (s.keymaps id).table :=
    mem_submapEntries.mpr ⟨hlookup, rfl⟩
  rw [hnone] at hmem
  exact List.not_mem_nil hmem

theorem Inv.copyKeymap (h : Inv env s own) (fuel : ℕ) (hid : id < s.nextKeymap)
    (hnone : env.submapEntries (s.keymaps id).table = []) :
    let r := env.copyKeymap fuel s id
    r.2.Sound ∧ (∃ own', Inv env r.1 own') ∧ Advance env (fun _ => False) s r.1 ∧
      (r.2 ≠ .unfinished → s.nextKeymap < r.1.nextKeymap ∧
        ∀ j m, r.1.gethash j (.modifiers m) = s.gethash j (.modifiers m)) := by
  cases fuel with
  | zero => exact ⟨Outcome.sound_unfinished, ⟨own, h⟩, Advance.refl env _ s, fun hne => absurd rfl hne⟩
  | succ fuel =>
    obtain ⟨t, own', hdone, hcopied⟩ := h.copyKeymapInternal hid hnone
    have hloop : env.copyKeymap (fuel + 1) s id = (t, .done) := by
      have hentries : ∀ e ∈ (t.keymaps s.nextKeymap).table.entries, env.getKeymap e.2 = none := by
        intro e he
        rw [hcopied.table_eq, if_pos rfl] at he
        have hnot := List.filter_eq_nil_iff.mp (List.map_eq_nil_iff.mp hnone) e he
        exact Option.not_isSome_iff_eq_none.mp hnot
      rw [Lisp.copyKeymap, hdone]
      simp only [Result.andThen, if_pos]
      generalize (t.keymaps s.nextKeymap).table.entries = entries at hentries
      induction entries with
      | nil => rfl
      | cons e entries ih =>
        rw [List.foldl_cons, hentries e List.mem_cons_self]
        exact ih fun e he => hentries e (List.mem_cons_of_mem _ he)
    have hslots (j : ℕ) (m : Modifiers) : t.gethash j (.modifiers m) = s.gethash j (.modifiers m) := by
      have hempty := h.fresh s.nextKeymap (le_refl _)
      have hnil := h.gethash_modifiers hnone m
      rw [gethash_eq, hcopied.table_eq]
      split_ifs with hj
      · refine hnil.trans ?_
        rw [hj, gethash_eq, hempty]
        rfl
      · rfl
    rw [hloop]
    refine ⟨Outcome.sound_done, ⟨own', hcopied.keymap, ⟨fun j m hne => ?_, fun j j' m m' sub hj hj' => ?_⟩,
      fun j hj => ?_⟩, ⟨?_, fun j m sub hsub => Or.inl ((hslots j m).symm.trans hsub), fun j hj _ => hcopied.same j hj⟩,
      fun _ => ⟨?_, hslots⟩⟩
    · rw [hslots] at hne ⊢
      rw [hcopied.nextKeymap_eq]
      obtain ⟨sub, hsub, hlt, hmade⟩ := h.slots.slot j m hne
      exact ⟨sub, hsub, hlt, Nat.lt_succ_of_lt hmade⟩
    · rw [hslots] at hj hj'
      exact h.slots.parent j j' m m' sub hj hj'
    · rw [hcopied.nextKeymap_eq] at hj
      rw [hcopied.fresh j hj]
      exact h.fresh j (Nat.le_of_succ_le hj)
    · rw [hcopied.nextKeymap_eq]
      exact Nat.le_succ _
    · rw [hcopied.nextKeymap_eq]
      exact Nat.lt_succ_self _

end XEmacs.Keymaps
