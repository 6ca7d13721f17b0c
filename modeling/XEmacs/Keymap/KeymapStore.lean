import XEmacs.Keymap.KeymapInvariant

/-! Storing in keymaps. A store keeps the invariant where it does not take out the last one of several
keys, and it changes the keymap itself and its submaps for modifiers only. -/

namespace XEmacs.Keymaps

open Lib

variable {env : Lisp} {s s' s'' t : State} {o : Option ℕ} {own own' : ℕ → ℕ × Value} {id k fuel : ℕ} {value definition : Value}
  {keysym : TableKey} {T : TableKey → Option Value}

/-- No assertion fails, and no car is taken of what is no cons. -/
def Outcome.Sound (o : Outcome) : Prop := o ≠ .walksOff ∧ o ≠ .assertion

theorem Outcome.sound_done : Outcome.done.Sound := ⟨by decide, by decide⟩

theorem Outcome.sound_cyclic : Outcome.cyclic.Sound := ⟨by decide, by decide⟩

theorem Outcome.sound_unfinished : Outcome.unfinished.Sound := ⟨by decide, by decide⟩

/-- A new definition does not take out the last one of several keys of the old one. -/
def Lisp.Rebinds (env : Lisp) (fuel : ℕ) (s : State) (id : ℕ) (keysym : TableKey) (definition : Value) : Prop :=
  let old := s.gethash id keysym
  old = definition ∨ old = .nil ∨ (env.checkKeymapDefinitionLoop fuel s definition id).2 ≠ .done ∨
    (s.listed id old).length = 1 ∨ (s.listed id old).getLast? ≠ some (some keysym)

instance (env : Lisp) (fuel : ℕ) (s : State) (id : ℕ) (keysym : TableKey) (definition : Value) :
    Decidable (env.Rebinds fuel s id keysym definition) :=
  inferInstanceAs (Decidable (_ ∨ _ ∨ _ ∨ _ ∨ _))

theorem keymapSubmaps_of_some {maps : List (TableKey × Value)} (h : (s.keymaps id).subMapsCache = some maps) :
    env.keymapSubmaps s id = (s, maps) := by
  rw [Lisp.keymapSubmaps, h]

theorem keymapSubmaps_of_none (h : (s.keymaps id).subMapsCache = none) : env.keymapSubmaps s id =
    (s.modify id fun m => { m with subMapsCache := some (sortedSubmaps env (s.keymaps id).table) },
      sortedSubmaps env (s.keymaps id).table) := by
  rw [Lisp.keymapSubmaps, h]
  rfl

theorem caches_keymapSubmaps (env : Lisp) (s : State) (id : ℕ) : Caches env s (env.keymapSubmaps s id).1 := by
  cases hcache : (s.keymaps id).subMapsCache with
  | some maps =>
    rw [keymapSubmaps_of_some hcache]
    exact Caches.refl env s
  | none =>
    rw [keymapSubmaps_of_none hcache]
    refine ⟨rfl, fun j => ?_⟩
    by_cases hj : j = id
    · subst hj
      exact Or.inr ⟨hcache, by rw [modify_self]⟩
    · exact Or.inl (by rw [modify_of_ne s hj])

theorem keymapSubmaps_of_ne (env : Lisp) (s : State) {j : ℕ} (hj : j ≠ id) :
    (env.keymapSubmaps s id).1.keymaps j = s.keymaps j := by
  cases hcache : (s.keymaps id).subMapsCache with
  | some maps => rw [keymapSubmaps_of_some hcache]
  | none =>
    rw [keymapSubmaps_of_none hcache, modify_of_ne s hj]

structure Checked (env : Lisp) (s : State) (k : ℕ) (r : Result) : Prop where
  sound : r.2.Sound
  caches : Caches env s r.1
  keymap_eq : r.1.keymaps k = s.keymaps k

theorem checked (env : Lisp) (fuel : ℕ) (s : State) (definition : Value) (k : ℕ) :
    Checked env s k (env.checkKeymapDefinitionLoop fuel s definition k) := by
  induction fuel generalizing s definition with
  | zero => exact ⟨Outcome.sound_unfinished, Caches.refl env s, rfl⟩
  | succ fuel ih =>
    rw [Lisp.checkKeymapDefinitionLoop]
    cases env.getKeymap definition with
    | none => exact ⟨Outcome.sound_done, Caches.refl env s, rfl⟩
    | some id =>
      by_cases hid : id = k
      · simp only [if_pos hid]
        exact ⟨Outcome.sound_cyclic, Caches.refl env s, rfl⟩
      · simp only [if_neg hid]
        have hstart : Checked env s k ((env.keymapSubmaps s id).1, .done) :=
          ⟨Outcome.sound_done, caches_keymapSubmaps env s id, keymapSubmaps_of_ne env s (Ne.symm hid)⟩
        generalize ((env.keymapSubmaps s id).1, Outcome.done) = r at hstart
        generalize (env.keymapSubmaps s id).2 = maps
        -- the submaps, one after the other
        induction maps generalizing r with
        | nil => exact hstart
        | cons e maps ih' =>
          refine ih' _ ?_
          simp only [Result.andThen]
          split_ifs
          · have hnext := ih r.1 e.2
            exact ⟨hnext.sound, hstart.caches.trans hnext.caches, hnext.keymap_eq.trans hstart.keymap_eq⟩
          · exact hstart

theorem lookup_insert_eq (t : HashTable TableKey Value) (keysym : TableKey) (v : Value) :
    (fun tk => (t.insert keysym v).lookup tk) = Function.update (fun tk => t.lookup tk) keysym (some v) := by
  funext tk
  by_cases htk : tk = keysym
  · subst htk
    rw [Function.update_self]
    exact AList.lookup_insert t
  · rw [Function.update_of_ne htk]
    exact AList.lookup_insert_ne htk

theorem lookup_erase_eq (t : HashTable TableKey Value) (keysym : TableKey) :
    (fun tk => (t.erase keysym).lookup tk) = Function.update (fun tk => t.lookup tk) keysym none := by
  funext tk
  by_cases htk : tk = keysym
  · subst htk
    rw [Function.update_self]
    exact AList.lookup_erase tk t
  · rw [Function.update_of_ne htk]
    exact AList.lookup_erase_ne htk

theorem InverseOk.modify (h : InverseOk s own k T) (table : Keymap → HashTable TableKey Value) :
    InverseOk (s.modify k fun m => { m with table := table m }) own k T where
  found {value keys} hkeys := by
    rw [modify_self] at hkeys
    obtain ⟨ns, last, hlist, hexact⟩ := h.found hkeys
    exact ⟨ns, last, ⟨hlist.leads, hlist.nodup, hlist.owned⟩, hexact⟩
  absent hkeys := by
    rw [modify_self] at hkeys
    exact h.absent hkeys

/-! ### One entry -/

/-- What `keymap_store_internal` leaves: its entry is stored where it is done. -/
structure Stored (env : Lisp) (s : State) (k : ℕ) (keysym : TableKey) (definition : Value) (r : Result)
    (own' : ℕ → ℕ × Value) : Prop where
  sound : r.2.Sound
  keymap : ∀ j, KeymapOk env r.1 own' j
  nextKeymap_eq : r.1.nextKeymap = s.nextKeymap
  same : ∀ j, j ≠ k → SameKeymap env s r.1 j
  empty : ∀ j, j ≠ k → s.keymaps j = .empty → r.1.keymaps j = .empty
  gethash : ∀ j tk, r.1.gethash j tk = if r.2 = .done ∧ j = k ∧ tk = keysym then definition else s.gethash j tk

theorem Edits.stored (h : Edits s s' own own' k) (hok : ∀ j, KeymapOk env s own j)
    (hcache : (s.keymaps k).subMapsCache = none)
    (hinverse : InverseOk s' own' k fun tk => (s'.keymaps k).table.lookup tk)
    (hgethash : ∀ tk, s'.gethash k tk = if tk = keysym then definition else s.gethash k tk)
    (hbound : ∀ tk, (s'.keymaps k).table.lookup tk ≠ some .nil) :
    Stored env s k keysym definition (s', .done) own' where
  sound := Outcome.sound_done
  keymap j := by
    by_cases hj : j = k
    · subst hj
      refine ⟨hinverse, hbound, fun maps hmaps => ?_⟩
      rw [h.cache_eq, hcache] at hmaps
      exact absurd hmaps.symm (Option.some_ne_none maps)
    · exact h.keymapOk hj (hok j)
  nextKeymap_eq := h.nextKeymap_eq
  same j hj := h.sameKeymap hj (hok j)
  empty j hj hempty := (h.others j hj).trans hempty
  gethash j tk := by
    by_cases hj : j = k
    · subst hj
      rw [hgethash tk]
      simp only [true_and]
    · rw [if_neg fun hand => hj hand.2.1, State.gethash, h.others j hj, State.gethash]

theorem stored_entry (definition : Value) (hok : ∀ j, KeymapOk env s own j) (hcache : (s.keymaps k).subMapsCache = none)
    (hedits : Edits s s' own own' k) (htable : (s'.keymaps k).table = (s.keymaps k).table)
    (hinverse : InverseOk s' own' k (Function.update (fun tk => (s.keymaps k).table.lookup tk) keysym none)) :
    ∃ own'', Stored env s k keysym definition
      (if definition = .nil then (s'.modify k fun m => { m with table := m.table.erase keysym }, .done)
        else (s'.modify k fun m => { m with table := m.table.insert keysym definition }).storeInverse keysym k
          definition) own'' := by
  by_cases hdef : definition = .nil
  · subst hdef
    rw [if_pos rfl]
    have hlookup := lookup_erase_eq (s.keymaps k).table keysym
    have htables : ((s'.modify k fun m => { m with table := m.table.erase keysym }).keymaps k).table =
        (s.keymaps k).table.erase keysym := by rw [modify_self, htable]
    refine ⟨own', (hedits.trans (Edits.modify s' own' k fun m => m.table.erase keysym)).stored hok hcache ?_ ?_ ?_⟩
    · rw [htables, hlookup]
      exact hinverse.modify fun m => m.table.erase keysym
    · intro tk
      rw [State.gethash, htables, congrFun hlookup tk, Function.update_apply]
      split_ifs <;> rfl
    · intro tk
      rw [htables, congrFun hlookup tk, Function.update_apply]
      split_ifs
      · exact (Option.some_ne_none _).symm
      · exact (hok k).bound tk
  · rw [if_neg hdef]
    have hlookup := lookup_insert_eq (s.keymaps k).table keysym definition
    have hmodify := Edits.modify s' own' k fun m => m.table.insert keysym definition
    have hinverse' := hinverse.modify fun m => m.table.insert keysym definition
    obtain ⟨t, own'', hstore, htouches, hok'⟩ := hinverse'.store definition (Function.update_self _ _ _)
    rw [hstore]
    have htables : (t.keymaps k).table = (s.keymaps k).table.insert keysym definition := by
      rw [htouches.table_eq, modify_self, htable]
    refine ⟨own'', ((hedits.trans hmodify).trans htouches.edits).stored hok hcache ?_ ?_ ?_⟩
    · rw [htables, hlookup]
      rwa [Function.update_idem] at hok'
    · intro tk
      rw [State.gethash, htables, congrFun hlookup tk, Function.update_apply]
      split_ifs <;> rfl
    · intro tk
      rw [htables, congrFun hlookup tk, Function.update_apply]
      split_ifs
      · exact fun heq => hdef (Option.some.inj heq)
      · exact (hok k).bound tk

theorem keymapStoreInternal_stored (hok : ∀ j, KeymapOk env s own j) (hcache : (s.keymaps k).subMapsCache = none)
    (hkept : env.Rebinds fuel s k keysym definition) :
    ∃ own', Stored env s k keysym definition (env.keymapStoreInternal fuel s keysym k definition) own' := by
  rw [Lisp.keymapStoreInternal]
  by_cases hsame : s.gethash k keysym = definition
  · simp only [if_pos hsame]
    refine ⟨own, Outcome.sound_done, hok, rfl, fun j _ => SameKeymap.refl env s j, fun j _ h => h, fun j tk => ?_⟩
    split_ifs with hand
    · obtain ⟨-, rfl, rfl⟩ := hand
      exact hsame
    · rfl
  · simp only [if_neg hsame]
    have hcheck := checked env fuel s definition k
    generalize hr : env.checkKeymapDefinitionLoop fuel s definition k = r at hcheck
    have hok' : ∀ j, KeymapOk env r.1 own j := fun j => hcheck.caches.keymapOk (hok j)
    have hnext : r.1.nextKeymap = s.nextKeymap := by rw [hcheck.caches.rest_eq]
    have hempty (j : ℕ) (h : s.keymaps j = .empty) : r.1.keymaps j = .empty := by
      rcases hcheck.caches.keymap j with heq | ⟨hnone, -⟩
      · rw [heq, h]
      · rw [h] at hnone
        exact absurd hnone (Option.some_ne_none _)
    simp only [Result.andThen]
    by_cases hdone : r.2 = .done
    · rw [if_pos hdone]
      have hcache' : (r.1.keymaps k).subMapsCache = none := by rw [hcheck.keymap_eq, hcache]
      -- the old definition leaves the inverse table
      obtain ⟨t, hdelete, hedits, htable, hinverse⟩ : ∃ t,
          (if s.gethash k keysym = .nil then (r.1, .done) else r.1.deleteInverse keysym k (s.gethash k keysym) : Result) =
            (t, .done) ∧ Edits r.1 t own own k ∧ (t.keymaps k).table = (r.1.keymaps k).table ∧
          InverseOk t own k (Function.update (fun tk => (r.1.keymaps k).table.lookup tk) keysym none) := by
        by_cases hold : s.gethash k keysym = .nil
        · rw [if_pos hold]
          refine ⟨r.1, rfl, Edits.refl _ _ _, rfl, ?_⟩
          rw [Function.update_eq_self_iff.mpr]
          · exact (hok' k).inverse
          · exact (((hok' k).lookup_eq_none_iff).mpr ((hcheck.caches.gethash_eq k keysym).trans hold)).symm
        · rw [if_neg hold]
          have hlookup := (lookup_eq_some_iff hold).mpr (hcheck.caches.gethash_eq k keysym)
          have hlisted := (hcheck.caches.sameKeymap k).listed (s.gethash k keysym)
          obtain ⟨t, hdelete, htouches, hinverse⟩ := (hok' k).inverse.delete hlookup <| by
            rw [hlisted]
            rcases hkept with h | h | h | h
            · exact absurd h hsame
            · exact absurd h hold
            · rw [hr] at h
              exact absurd hdone h
            · exact h
          exact ⟨t, hdelete, htouches.edits, htouches.table_eq, hinverse⟩
      rw [hdelete, if_pos rfl]
      obtain ⟨own', hstored⟩ := stored_entry definition hok' hcache' hedits htable hinverse
      refine ⟨own', hstored.sound, hstored.keymap, hstored.nextKeymap_eq.trans hnext, fun j hj => ?_, fun j hj h => ?_, ?_⟩
      · exact (hcheck.caches.sameKeymap j).trans (hstored.same j hj)
      · exact hstored.empty j hj (hempty j h)
      · intro j tk
        rw [hstored.gethash, hcheck.caches.gethash_eq]
    · rw [if_neg hdone]
      refine ⟨own, hcheck.sound, hok', hnext, fun j _ => hcheck.caches.sameKeymap j, fun j _ => hempty j, fun j tk => ?_⟩
      rw [if_neg fun hand => hdone hand.1, hcheck.caches.gethash_eq]

/-! ### The submaps for modifiers -/

def State.slot (s : State) (id : ℕ) (m : Modifiers) : Option ℕ :=
  match s.gethash id (.modifiers m) with
  | .keymap sub => some sub
  | _ => none

/-- A keymap, or one of its submaps for modifiers. -/
inductive Within (s : State) (id : ℕ) : ℕ → Prop
  | self : Within s id id
  | submap {j sub : ℕ} {m : Modifiers} : Within s id j → s.gethash j (.modifiers m) = .keymap sub → Within s id sub

/-- From one state to another: the slots for modifiers get new keymaps only, and of the keymaps that there are
only some change. -/
structure Advance (env : Lisp) (touched : ℕ → Prop) (s s' : State) : Prop where
  next_le : s.nextKeymap ≤ s'.nextKeymap
  slot : ∀ j m sub, s'.gethash j (.modifiers m) = .keymap sub →
    s.gethash j (.modifiers m) = .keymap sub ∨ s.nextKeymap ≤ sub
  same : ∀ j < s.nextKeymap, ¬ touched j → SameKeymap env s s' j

namespace Advance

variable {touched touched' : ℕ → Prop}

theorem refl (env : Lisp) (touched : ℕ → Prop) (s : State) : Advance env touched s s :=
  ⟨le_refl _, fun _ _ _ h => Or.inl h, fun j _ _ => SameKeymap.refl env s j⟩

theorem trans (h : Advance env touched s s') (h' : Advance env touched' s' s'')
    (hsub : ∀ j < s.nextKeymap, touched' j → touched j) : Advance env touched s s'' where
  next_le := h.next_le.trans h'.next_le
  slot j m sub hslot := by
    rcases h'.slot j m sub hslot with hold | hnew
    · exact h.slot j m sub hold
    · exact Or.inr (h.next_le.trans hnew)
  same j hj hnot := (h.same j hj hnot).trans (h'.same j (hj.trans_le h.next_le) fun ht => hnot (hsub j hj ht))

end Advance

/-- Nothing is known any more of the submaps of a keymap. -/
abbrev State.invalidate (s : State) (k : ℕ) : State := s.modify k fun m => { m with subMapsCache := none }

theorem gethash_invalidate (s : State) (k j : ℕ) (tk : TableKey) : (s.invalidate k).gethash j tk = s.gethash j tk := by
  rw [gethash_eq, gethash_eq]
  by_cases hj : j = k
  · rw [hj, modify_self]
  · rw [modify_of_ne s hj]

theorem KeymapOk.invalidate (h : KeymapOk env s own id) (k : ℕ) : KeymapOk env (s.invalidate k) own id := by
  by_cases hid : id = k
  · subst hid
    refine h.congr rfl rfl rfl (fun tk => ?_) (fun v => ?_) fun maps hmaps => ?_
    · rw [modify_self]
    · rw [modify_self]
    · rw [modify_self] at hmaps
      exact absurd hmaps.symm (Option.some_ne_none maps)
  · have hkeymap : (s.invalidate k).keymaps id = s.keymaps id := modify_of_ne s hid _
    refine h.congr rfl rfl rfl (fun tk => ?_) (fun v => ?_) ?_
    · rw [hkeymap]
    · rw [hkeymap]
    · rw [hkeymap]
      exact h.cache

theorem sameKeymap_of_eq (hcar : s'.car = s.car) (hcdr : s'.cdr = s.cdr) (hnext : s'.nextCons = s.nextCons)
    (h : s'.keymaps id = s.keymaps id) : SameKeymap env s s' id := by
  refine ⟨congrArg Keymap.table h, fun value => listed_congr hcar hcdr hnext ?_, ?_⟩
  · rw [h]
  · rw [keymapSubmaps_snd, keymapSubmaps_snd, h]

theorem sameKeymap_invalidate (s : State) {j : ℕ} (hj : j ≠ k) : SameKeymap env s (s.invalidate k) j :=
  sameKeymap_of_eq rfl rfl rfl (modify_of_ne s hj _)

theorem Inv.storeKeysym (h : Inv env s own) (hk : k < s.nextKeymap) {key : Keysym}
    (hkept : env.Rebinds fuel (s.invalidate k) k (.keysym key) definition) :
    let r := env.keymapStoreInternal fuel (s.invalidate k) (.keysym key) k definition
    r.2.Sound ∧ (∃ own', Inv env r.1 own') ∧ Advance env (· = k) s r.1 := by
  have hcache : ((s.invalidate k).keymaps k).subMapsCache = none := by rw [modify_self]
  obtain ⟨own', hstored⟩ := keymapStoreInternal_stored (fun j => (h.keymap j).invalidate k) hcache hkept
  generalize env.keymapStoreInternal fuel (s.invalidate k) (.keysym key) k definition = r at hstored
  have hslots (j : ℕ) (m : Modifiers) : r.1.gethash j (.modifiers m) = s.gethash j (.modifiers m) := by
    rw [hstored.gethash, if_neg fun hand => TableKey.noConfusion hand.2.2, gethash_invalidate]
  have hnext : r.1.nextKeymap = s.nextKeymap := hstored.nextKeymap_eq
  refine ⟨hstored.sound, ⟨own', hstored.keymap, ⟨fun j m => ?_, fun j j' m m' sub => ?_⟩, fun j hj => ?_⟩,
    hnext.ge, fun j m sub hsub => Or.inl ((hslots j m).symm.trans hsub), fun j _ hj => ?_⟩
  · rw [hslots, hnext]
    exact h.slots.slot j m
  · rw [hslots, hslots]
    exact h.slots.parent j j' m m' sub
  · rw [hnext] at hj
    have hjk : j ≠ k := Nat.ne_of_gt (hk.trans_le hj)
    exact hstored.empty j hjk ((modify_of_ne s hjk _).trans (h.fresh j hj))
  · exact (sameKeymap_invalidate s hj).trans (hstored.same j hj)

theorem makeKeymap_keymaps (h : Inv env s own) : s.makeKeymap = { s with nextKeymap := s.nextKeymap + 1 } := by
  rw [State.makeKeymap, Function.update_eq_self_iff.mpr (h.fresh _ (le_refl _)).symm]

theorem Inv.makeKeymap (h : Inv env s own) : Inv env s.makeKeymap own ∧ Advance env (fun _ => False) s s.makeKeymap := by
  rw [makeKeymap_keymaps h]
  refine ⟨⟨fun j => ?_, ⟨fun j m hm => ?_, h.slots.parent⟩, fun j hj => h.fresh j (Nat.le_of_succ_le hj)⟩,
    ⟨Nat.le_succ _, fun _ _ _ hm => Or.inl hm, fun j _ _ => sameKeymap_of_eq rfl rfl rfl rfl⟩⟩
  · exact (h.keymap j).congr rfl rfl rfl (fun _ => rfl) (fun _ => rfl) (h.keymap j).cache
  · obtain ⟨sub, hsub, hlt, hmade⟩ := h.slots.slot j m hm
    exact ⟨sub, hsub, hlt, Nat.lt_succ_of_lt hmade⟩

/-- The keymap that is found: one that there is, in the state before, or a new one without bindings. -/
structure Located (env : Lisp) (s : State) (target : Option ℕ) (touched : ℕ → Prop) (r : Result × ℕ) : Prop where
  sound : r.1.2.Sound
  inv : ∃ own, Inv env r.1.1 own
  advance : Advance env touched s r.1.1
  found : r.1.2 = .done → r.2 < r.1.1.nextKeymap ∧ ((target = some r.2 ∧ r.1.1 = s) ∨
    (target = none ∧ s.nextKeymap ≤ r.2 ∧ r.1.1.keymaps r.2 = .empty))

theorem Inv.createBuckySubmap (h : Inv env s own) (fuel : ℕ) (hk : k < s.nextKeymap) {m : Modifiers}
    (hnil : s.gethash k (.modifiers m) = .nil) :
    Located env s (s.slot k m) (· = k)
      (env.keymapStoreInternal fuel (s.makeKeymap.invalidate k) (.modifiers m) k (.keymap s.nextKeymap), s.nextKeymap) := by
  obtain ⟨hmade, hadvance⟩ := h.makeKeymap
  have hgethash (j : ℕ) (tk : TableKey) : (s.makeKeymap.invalidate k).gethash j tk = s.gethash j tk := by
    rw [gethash_invalidate, makeKeymap_keymaps h]
    rfl
  have hcache : ((s.makeKeymap.invalidate k).keymaps k).subMapsCache = none := by rw [modify_self]
  have hrebinds : env.Rebinds fuel (s.makeKeymap.invalidate k) k (.modifiers m) (.keymap s.nextKeymap) :=
    Or.inr (Or.inl ((hgethash k _).trans hnil))
  obtain ⟨own', hstored⟩ := keymapStoreInternal_stored (fun j => (hmade.keymap j).invalidate k) hcache hrebinds
  generalize env.keymapStoreInternal fuel (s.makeKeymap.invalidate k) (.modifiers m) k (.keymap s.nextKeymap) = r
    at hstored
  have hnext : r.1.nextKeymap = s.nextKeymap + 1 := hstored.nextKeymap_eq
  have hslots (j : ℕ) (m' : Modifiers) : (r.1.gethash j (.modifiers m') = .keymap s.nextKeymap ∧ j = k) ∨
      r.1.gethash j (.modifiers m') = s.gethash j (.modifiers m') := by
    rw [hstored.gethash, hgethash]
    split_ifs with hand
    · exact Or.inl ⟨rfl, hand.2.1⟩
    · exact Or.inr rfl
  have hold (j : ℕ) (m' : Modifiers) (sub : ℕ) (hsub : s.gethash j (.modifiers m') = .keymap sub) :
      j < sub ∧ sub < s.nextKeymap := by
    obtain ⟨sub', hsub', hlt⟩ := h.slots.slot j m' (by rw [hsub]; exact Value.noConfusion)
    obtain rfl := Value.keymap.inj (hsub.symm.trans hsub')
    exact hlt
  have hslot : s.slot k m = none := by rw [State.slot, hnil]
  have hempty (j : ℕ) (hj : s.nextKeymap ≤ j) : r.1.keymaps j = .empty := by
    have hjk : j ≠ k := Nat.ne_of_gt (hk.trans_le hj)
    refine hstored.empty j hjk ((modify_of_ne _ hjk _).trans ?_)
    rw [makeKeymap_keymaps h]
    exact h.fresh j hj
  refine ⟨hstored.sound, ⟨own', hstored.keymap, ⟨fun j m' hne => ?_, fun j j' m' m'' sub hj hj' => ?_⟩, fun j hj => ?_⟩,
    ⟨?_, fun j m' sub hsub => ?_, fun j hj hjk => ?_⟩, fun _ => ⟨?_, Or.inr ⟨hslot, le_refl _, hempty _ (le_refl _)⟩⟩⟩
  · rw [hnext]
    rcases hslots j m' with ⟨hnew, rfl⟩ | hsame
    · exact ⟨_, hnew, hk, Nat.lt_succ_self _⟩
    · rw [hsame] at hne ⊢
      obtain ⟨sub, hsub, hlt, hmade⟩ := h.slots.slot j m' hne
      exact ⟨sub, hsub, hlt, Nat.lt_succ_of_lt hmade⟩
  · rcases hslots j m' with ⟨hnew, rfl⟩ | hsame
    · obtain rfl := Value.keymap.inj (hnew.symm.trans hj)
      rcases hslots j' m'' with ⟨-, rfl⟩ | hsame'
      · rfl
      · exact absurd (hold j' m'' _ (hsame'.symm.trans hj')).2 (Nat.lt_irrefl _)
    · have hj := hsame.symm.trans hj
      rcases hslots j' m'' with ⟨hnew', -⟩ | hsame'
      · obtain rfl := Value.keymap.inj (hnew'.symm.trans hj')
        exact absurd (hold j m' _ hj).2 (Nat.lt_irrefl _)
      · exact h.slots.parent j j' m' m'' sub hj (hsame'.symm.trans hj')
  · rw [hnext] at hj
    exact hempty j (Nat.le_of_succ_le hj)
  · rw [hnext]
    exact Nat.le_succ _
  · rcases hslots j m' with ⟨hnew, -⟩ | hsame
    · exact Or.inr (Value.keymap.inj (hnew.symm.trans hsub)).le
    · exact Or.inl (hsame.symm.trans hsub)
  · exact ((hadvance.same j hj not_false).trans (sameKeymap_invalidate _ hjk)).trans (hstored.same j hjk)
  · rw [hnext]
    exact Nat.lt_succ_self _

theorem Inv.buckySubmap (h : Inv env s own) (fuel : ℕ) (hk : k < s.nextKeymap) (m : Modifiers) :
    Located env s (s.slot k m) (· = k) (env.buckySubmap fuel s k m) := by
  rw [Lisp.buckySubmap]
  by_cases hnil : s.gethash k (.modifiers m) = .nil
  · have hcreated := h.createBuckySubmap fuel hk hnil
    rw [hnil]
    exact hcreated
  · obtain ⟨sub, hsub, -, hmade⟩ := h.slots.slot k m hnil
    have hslot : s.slot k m = some sub := by rw [State.slot, hsub]
    rw [hslot, hsub]
    exact ⟨Outcome.sound_done, ⟨own, h⟩, Advance.refl env _ s, fun _ => ⟨hmade, Or.inl ⟨rfl, rfl⟩⟩⟩

/-- The keymap in which `keymap_store` stores a key, where there is one. -/
def State.target (s : State) (id : ℕ) (key : KeyData) : Option ℕ :=
  (if key.modifiers.modMeta then s.slot id .onlyMeta else some id).bind fun k =>
    if key.modifiers.sansMeta ≠ .none then s.slot k key.modifiers.sansMeta else some k

/-- A key does not lose its definition as the last one of several keys of that definition. -/
def Lisp.Stores (env : Lisp) (fuel : ℕ) (s : State) (id : ℕ) (key : KeyData) (value : Value) : Prop :=
  ∀ k, s.target id key = some k → env.Rebinds fuel (s.invalidate k) k (.keysym key.keysym.fold) value

instance (env : Lisp) (fuel : ℕ) (s : State) (id : ℕ) (key : KeyData) (value : Value) :
    Decidable (env.Stores fuel s id key value) :=
  inferInstanceAs (Decidable (∀ k ∈ s.target id key, env.Rebinds fuel (s.invalidate k) k (.keysym key.keysym.fold) value))

theorem Inv.located (h : Inv env s own) (fuel : ℕ) (hk : k < s.nextKeymap) (b : Prop) [Decidable b] (m : Modifiers) :
    Located env s (if b then s.slot k m else some k) (· = k)
      (if b then env.buckySubmap fuel s k m else ((s, .done), k)) := by
  by_cases hb : b
  · rw [if_pos hb, if_pos hb]
    exact h.buckySubmap fuel hk m
  · rw [if_neg hb, if_neg hb]
    exact ⟨Outcome.sound_done, ⟨own, h⟩, Advance.refl env _ s, fun _ => ⟨hk, Or.inl ⟨rfl, rfl⟩⟩⟩

theorem Within.slot {j sub : ℕ} {m : Modifiers} (hj : Within s id j) (h : s.slot j m = some sub) : Within s id sub := by
  rw [State.slot] at h
  cases hslot : s.gethash j (.modifiers m) with
  | keymap sub' =>
    rw [hslot] at h
    obtain rfl := Option.some.inj h
    exact hj.submap hslot
  | _ =>
    rw [hslot] at h
    exact absurd h.symm (Option.some_ne_none sub)

theorem slot_of_empty (h : s.keymaps id = .empty) (m : Modifiers) : s.slot id m = none := by
  rw [State.slot, gethash_eq, h]
  rfl

/-- The keymap that is found in two steps, in the submap for meta and then in the one for the other modifiers. -/
structure Reached (env : Lisp) (s : State) (id : ℕ) (target : Option ℕ) (t : State) (k : ℕ) : Prop where
  inv : ∃ own, Inv env t own
  advance : Advance env (Within s id) s t
  made : k < t.nextKeymap
  found : (target = some k ∧ t = s ∧ Within s id k) ∨ (target = none ∧ s.nextKeymap ≤ k ∧ t.keymaps k = .empty)

theorem Reached.within (h : Reached env s id o t k) (hk : k < s.nextKeymap) : Within s id k := by
  rcases h.found with ⟨-, -, hwithin⟩ | ⟨-, hle, -⟩
  · exact hwithin
  · exact absurd hk (Nat.not_lt.mpr hle)

theorem Reached.step (h : Reached env s id o t k) {b : Prop} [Decidable b] {m : Modifiers} {r : Result × ℕ}
    (hr : Located env t (if b then t.slot k m else some k) (· = k) r) :
    Advance env (Within s id) s r.1.1 ∧
      (r.1.2 = .done → Reached env s id (o.bind fun k => if b then s.slot k m else some k) r.1.1 r.2) := by
  have hadvance : Advance env (Within s id) s r.1.1 := h.advance.trans hr.advance fun j hj hjk => by
    subst hjk
    exact h.within hj
  refine ⟨hadvance, fun hdone => ?_⟩
  obtain ⟨hmade, hfound⟩ := hr.found hdone
  refine ⟨hr.inv, hadvance, hmade, ?_⟩
  rcases h.found with ⟨rfl, rfl, hwithin⟩ | ⟨rfl, hle, hempty⟩
  · rw [Option.bind_some]
    rcases hfound with ⟨htarget, hsame⟩ | hnew
    · refine Or.inl ⟨htarget, hsame, ?_⟩
      by_cases hb : b
      · rw [if_pos hb] at htarget
        exact hwithin.slot htarget
      · rw [if_neg hb] at htarget
        exact Option.some.inj htarget ▸ hwithin
    · exact Or.inr hnew
  · refine Or.inr ⟨rfl, ?_⟩
    rcases hfound with ⟨htarget, hsame⟩ | ⟨-, hle', hempty'⟩
    · by_cases hb : b
      · rw [if_pos hb, slot_of_empty hempty] at htarget
        exact absurd htarget.symm (Option.some_ne_none _)
      · rw [if_neg hb] at htarget
        obtain rfl := Option.some.inj htarget
        rw [hsame]
        exact ⟨hle, hempty⟩
    · exact ⟨h.advance.next_le.trans hle', hempty'⟩

theorem Inv.keymapStore (h : Inv env s own) (hid : id < s.nextKeymap) {key : KeyData}
    (hstores : env.Stores fuel s id key value) :
    let r := env.keymapStore fuel s id key value
    r.2.Sound ∧ (∃ own', Inv env r.1 own') ∧ Advance env (Within s id) s r.1 := by
  have hstart : Reached env s id (some id) s id :=
    ⟨⟨own, h⟩, Advance.refl env _ s, hid, Or.inl ⟨rfl, rfl, Within.self⟩⟩
  have hmeta := h.located fuel hid (key.modifiers.modMeta = true) .onlyMeta
  rw [Lisp.keymapStore]
  simp only
  generalize (if key.modifiers.modMeta = true then env.buckySubmap fuel s id .onlyMeta else ((s, .done), id)) = r at hmeta
  obtain ⟨hadvance, hreached⟩ := hstart.step hmeta
  simp only [Result.andThen]
  by_cases hdone : r.1.2 = .done
  · rw [if_pos hdone]
    have hreached := hreached hdone
    obtain ⟨own', hinv⟩ := hreached.inv
    have hmods := hinv.located fuel hreached.made (key.modifiers.sansMeta ≠ .none) key.modifiers.sansMeta
    generalize (if key.modifiers.sansMeta ≠ .none then env.buckySubmap fuel r.1.1 r.2 key.modifiers.sansMeta
      else ((r.1.1, .done), r.2)) = q at hmods
    obtain ⟨hadvance', hreached'⟩ := hreached.step hmods
    by_cases hdone' : q.1.2 = .done
    · rw [if_pos hdone']
      have hreached' := hreached' hdone'
      obtain ⟨own'', hinv'⟩ := hreached'.inv
      have hrebinds : env.Rebinds fuel (q.1.1.invalidate q.2) q.2 (.keysym key.keysym.fold) value := by
        rcases hreached'.found with ⟨htarget, hsame, -⟩ | ⟨-, -, hempty⟩
        · rw [hsame]
          exact hstores q.2 htarget
        · refine Or.inr (Or.inl ?_)
          rw [gethash_invalidate, gethash_eq, hempty]
          rfl
      obtain ⟨hsound, hinv'', hlast⟩ := hinv'.storeKeysym hreached'.made hrebinds
      refine ⟨hsound, hinv'', hadvance'.trans hlast fun j hj hjq => ?_⟩
      subst hjq
      exact hreached'.within hj
    · rw [if_neg hdone']
      exact ⟨hmods.sound, hmods.inv, hadvance'⟩
  · rw [if_neg hdone]
    exact ⟨hmeta.sound, hmeta.inv, hadvance⟩

/-- Without keymaps for symbols. -/
def plainLisp : Lisp := ⟨fun _ => none, fun _ => none⟩

end XEmacs.Keymaps
