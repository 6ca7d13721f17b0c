import XEmacs.Keymap.KeymapCopy
import XEmacs.Lib.Transition

/-! Runs of changes of any number of keymaps. Where no store takes out the last one of several keys and only
keymaps without submaps are copied, the inverse tables and the submaps stay right, and a keymap and its copy
stay independent. -/

namespace XEmacs.Keymaps

open Lib

variable {env : Lisp} {fuel : ℕ} {s s' t : State} {own : ℕ → ℕ × Value} {id k : ℕ} {value : Value}

/-- A change of the keymaps. A hash table may be gone through in another order after any change of it. -/
inductive Event
  | makeSparseKeymap
  | keymapStore (id : ℕ) (key : KeyData) (value : Value)
  | copyKeymap (id : ℕ)
  | keymapSubmaps (id : ℕ)
  | reorder (id : ℕ) (table : HashTable TableKey Value) (inverseTable : HashTable Value Object)

/-- The state after a function that has returned or signalled an error. -/
def Result.state? (r : Result) : Option State :=
  if r.2 = .done ∨ r.2 = .cyclic then some r.1 else none

def State.reorder (s : State) (id : ℕ) (table : HashTable TableKey Value) (inverseTable : HashTable Value Object) : State :=
  s.modify id fun k => { k with table := table, inverseTable := inverseTable }

def step (env : Lisp) (fuel : ℕ) (s : State) : Event → Option State
  | .makeSparseKeymap => some s.makeKeymap
  | .keymapStore id key value => if id < s.nextKeymap then (env.keymapStore fuel s id key value).state? else none
  | .copyKeymap id => if id < s.nextKeymap then (env.copyKeymap fuel s id).state? else none
  | .keymapSubmaps id => some (env.keymapSubmaps s id).1
  | .reorder id table inverseTable =>
    if table.entries.Perm (s.keymaps id).table.entries ∧ inverseTable.entries.Perm (s.keymaps id).inverseTable.entries then
      some (s.reorder id table inverseTable)
    else none

/-- A key that gets another definition is not the last one of several of its old one, and a keymap
that is copied has no submaps. -/
def Allowed (env : Lisp) (fuel : ℕ) (s : State) : Event → Prop
  | .keymapStore id key value => env.Stores fuel s id key value
  | .copyKeymap id => env.submapEntries (s.keymaps id).table = []
  | _ => True

instance (env : Lisp) (fuel : ℕ) (s : State) : DecidablePred (Allowed env fuel s)
  | .keymapStore id key value => inferInstanceAs (Decidable (env.Stores fuel s id key value))
  | .copyKeymap id => inferInstanceAs (Decidable (env.submapEntries (s.keymaps id).table = []))
  | .makeSparseKeymap => .isTrue trivial
  | .keymapSubmaps _ => .isTrue trivial
  | .reorder _ _ _ => .isTrue trivial

/-- The inverse tables list the keys of each definition, and the submaps are the entries that are keymaps. -/
structure Faithful (env : Lisp) (s : State) : Prop where
  listed_nodup : ∀ id value, (s.listed id value).Nodup
  mem_listed : ∀ id value, value ≠ .nil → ∀ a, a ∈ s.listed id value ↔ ∃ tk, a = some tk ∧ s.gethash id tk = value
  submaps_nodup : ∀ id, (env.keymapSubmaps s id).2.Nodup
  mem_submaps : ∀ id tk value, (tk, value) ∈ (env.keymapSubmaps s id).2 ↔
    s.gethash id tk = value ∧ (env.getKeymap value).isSome = true

/-- Storing in one keymap, or in its submaps for modifiers, changes nothing of the other one. -/
structure Independent (env : Lisp) (fuel : ℕ) (s : State) (id copy : ℕ) : Prop where
  original : ∀ j j' key value s', Within s copy j → Within s id j' → Allowed env fuel s (.keymapStore j key value) →
    step env fuel s (.keymapStore j key value) = some s' → SameKeymap env s s' j'
  copy : ∀ j j' key value s', Within s id j → Within s copy j' → Allowed env fuel s (.keymapStore j key value) →
    step env fuel s (.keymapStore j key value) = some s' → SameKeymap env s s' j'

theorem inv_init (env : Lisp) : Inv env .init fun _ => (0, .nil) where
  keymap _ :=
    { inverse := ⟨fun hkeys => absurd hkeys.symm (Option.some_ne_none _), fun _ _ htk =>
        absurd htk.symm (Option.some_ne_none _)⟩
      bound := fun _ htk => absurd htk.symm (Option.some_ne_none _)
      cache := fun _ hmaps => Option.some.inj hmaps ▸ List.Perm.refl _ }
  slots := ⟨fun _ _ hne => absurd rfl hne, fun _ _ _ _ _ hslot => Value.noConfusion hslot⟩
  fresh _ _ := rfl

theorem Inv.keymapSubmaps (h : Inv env s own) (id : ℕ) : Inv env (env.keymapSubmaps s id).1 own := by
  have hcaches := caches_keymapSubmaps env s id
  generalize (env.keymapSubmaps s id).1 = t at hcaches
  have hnext : t.nextKeymap = s.nextKeymap := by rw [hcaches.rest_eq]
  refine ⟨fun j => hcaches.keymapOk (h.keymap j), ⟨fun j m hne => ?_, fun j j' m m' sub hj hj' => ?_⟩, fun j hj => ?_⟩
  · rw [hcaches.gethash_eq] at hne ⊢
    rw [hnext]
    exact h.slots.slot j m hne
  · rw [hcaches.gethash_eq] at hj hj'
    exact h.slots.parent j j' m m' sub hj hj'
  · rw [hnext] at hj
    have hempty := h.fresh j hj
    rcases hcaches.keymap j with heq | ⟨hnone, -⟩
    · rw [heq, hempty]
    · rw [hempty] at hnone
      exact absurd hnone (Option.some_ne_none _)

section Reorder

variable {table : HashTable TableKey Value} {inverseTable : HashTable Value Object}

theorem lookup_perm {β γ : Type} [DecidableEq β] {a b : HashTable β γ} (h : a.entries.Perm b.entries) (x : β) :
    a.lookup x = b.lookup x :=
  AList.perm_lookup h

theorem gethash_reorder (htable : table.entries.Perm (s.keymaps id).table.entries) (j : ℕ) (tk : TableKey) :
    (s.reorder id table inverseTable).gethash j tk = s.gethash j tk := by
  rw [gethash_eq, gethash_eq, State.reorder]
  by_cases hj : j = id
  · rw [hj, modify_self, lookup_perm htable]
  · rw [modify_of_ne s hj]

theorem Inv.reorder (h : Inv env s own) (htable : table.entries.Perm (s.keymaps id).table.entries)
    (hinverse : inverseTable.entries.Perm (s.keymaps id).inverseTable.entries) :
    Inv env (s.reorder id table inverseTable) own := by
  have hself : (s.reorder id table inverseTable).keymaps id = ⟨table, inverseTable, (s.keymaps id).subMapsCache⟩ :=
    Function.update_self _ _ _
  have hother (j : ℕ) (hj : j ≠ id) : (s.reorder id table inverseTable).keymaps j = s.keymaps j := modify_of_ne s hj _
  refine ⟨fun j => ?_, ⟨fun j m hne => ?_, fun j j' m m' sub hj hj' => ?_⟩, fun j hj => ?_⟩
  · by_cases hj : j = id
    · subst hj
      refine (h.keymap j).congr rfl rfl rfl (fun tk => ?_) (fun v => ?_) fun maps hmaps => ?_
      · rw [hself, lookup_perm htable]
      · rw [hself, lookup_perm hinverse]
      · rw [hself] at hmaps ⊢
        exact ((h.keymap j).cache maps hmaps).trans ((htable.symm.filter _).map _)
    · refine (h.keymap j).congr rfl rfl rfl (fun tk => ?_) (fun v => ?_) ?_
      · rw [hother j hj]
      · rw [hother j hj]
      · rw [hother j hj]
        exact (h.keymap j).cache
  · rw [gethash_reorder htable] at hne ⊢
    exact h.slots.slot j m hne
  · rw [gethash_reorder htable] at hj hj'
    exact h.slots.parent j j' m m' sub hj hj'
  · by_cases hjid : j = id
    · subst hjid
      have hempty := h.fresh j hj
      rw [hempty] at htable hinverse
      obtain rfl : table = ∅ := AList.ext htable.eq_nil
      obtain rfl : inverseTable = ∅ := AList.ext hinverse.eq_nil
      rw [hself, hempty]
      rfl
    · rw [hother j hjid]
      exact h.fresh j hj

end Reorder

theorem state?_eq_some {r : Result} (h : r.state? = some s) : r.1 = s ∧ (r.2 = .done ∨ r.2 = .cyclic) := by
  rw [Result.state?] at h
  split_ifs at h with hreturned
  exact ⟨Option.some.inj h, hreturned⟩

theorem gethash_caches (env : Lisp) (s : State) (id j : ℕ) (tk : TableKey) :
    (env.keymapSubmaps s id).1.gethash j tk = s.gethash j tk :=
  (caches_keymapSubmaps env s id).gethash_eq j tk

theorem Inv.next (h : Inv env s own) {e : Event} (hallowed : Allowed env fuel s e) (hs : step env fuel s e = some s') :
    (∃ own', Inv env s' own') ∧ s.nextKeymap ≤ s'.nextKeymap ∧ ∀ j m sub, s'.gethash j (.modifiers m) = .keymap sub →
      s.gethash j (.modifiers m) = .keymap sub ∨ s.nextKeymap ≤ sub := by
  cases e with
  | makeSparseKeymap =>
    obtain rfl := Option.some.inj hs
    obtain ⟨hinv, hadvance⟩ := h.makeKeymap
    exact ⟨⟨own, hinv⟩, hadvance.next_le, hadvance.slot⟩
  | keymapStore id key value =>
    rw [step] at hs
    split_ifs at hs with hid
    obtain ⟨rfl, -⟩ := state?_eq_some hs
    obtain ⟨-, hinv, hadvance⟩ := h.keymapStore hid hallowed
    exact ⟨hinv, hadvance.next_le, hadvance.slot⟩
  | copyKeymap id =>
    rw [step] at hs
    split_ifs at hs with hid
    obtain ⟨rfl, -⟩ := state?_eq_some hs
    obtain ⟨-, hinv, hadvance, -⟩ := h.copyKeymap fuel hid hallowed
    exact ⟨hinv, hadvance.next_le, hadvance.slot⟩
  | keymapSubmaps id =>
    obtain rfl := Option.some.inj hs
    have hnext : (env.keymapSubmaps s id).1.nextKeymap = s.nextKeymap := by rw [(caches_keymapSubmaps env s id).rest_eq]
    exact ⟨⟨own, h.keymapSubmaps id⟩, hnext.ge, fun j m sub hsub => Or.inl ((gethash_caches env s id j _).symm.trans hsub)⟩
  | reorder id table inverseTable =>
    rw [step] at hs
    split_ifs at hs with hperm
    obtain rfl := Option.some.inj hs
    exact ⟨⟨own, h.reorder hperm.1 hperm.2⟩, le_refl _, fun j m sub hsub =>
      Or.inl ((gethash_reorder hperm.1 j _).symm.trans hsub)⟩

theorem Inv.run {es : List Event} (h : Inv env s own) (hrun : Run (step env fuel) (Allowed env fuel) s es t) :
    ∃ own', Inv env t own' :=
  hrun.invariant (I := fun t => ∃ own', Inv env t own') ⟨own, h⟩ fun _ _ _ ⟨_, hinv⟩ hallowed hs => (hinv.next hallowed hs).1

theorem Inv.faithful (h : Inv env s own) : Faithful env s where
  listed_nodup id value := ((h.keymap id).inverse.exact_listed value).nodup
  mem_listed id value hvalue a := by
    rw [((h.keymap id).inverse.exact_listed value).mem_iff]
    exact exists_congr fun tk => and_congr_right fun _ => lookup_eq_some_iff hvalue
  submaps_nodup id := (h.keymap id).submaps_perm.nodup_iff.mpr (submapEntries_nodup env _)
  mem_submaps id tk value := by
    rw [(h.keymap id).submaps_perm.mem_iff, mem_submapEntries]
    refine and_congr_left fun hsub => lookup_eq_some_iff ?_
    rintro rfl
    exact Bool.false_ne_true hsub

theorem Within.le (h : Inv env s own) {j : ℕ} (hj : Within s id j) : id ≤ j := by
  induction hj with
  | self => exact le_refl _
  | submap hj hslot ih =>
    obtain ⟨sub', hsub', hlt, -⟩ := h.slots.slot _ _ (by rw [hslot]; exact Value.noConfusion)
    obtain rfl := Value.keymap.inj (hslot.symm.trans hsub')
    exact ih.trans hlt.le

theorem Within.made (h : Inv env s own) (hid : id < s.nextKeymap) {j : ℕ} (hj : Within s id j) : j < s.nextKeymap := by
  cases hj with
  | self => exact hid
  | submap hj hslot =>
    obtain ⟨sub', hsub', -, hmade⟩ := h.slots.slot _ _ (by rw [hslot]; exact Value.noConfusion)
    exact Value.keymap.inj (hslot.symm.trans hsub') ▸ hmade

theorem Within.trans {j i : ℕ} (hj : Within s id j) (hi : Within s j i) : Within s id i := by
  induction hi with
  | self => exact hj
  | submap _ hslot ih => exact ih.submap hslot

theorem Within.linear (h : Inv env s own) {j : ℕ} (hj : Within s id j) (hj' : Within s k j) :
    Within s id k ∨ Within s k id := by
  induction hj with
  | self => exact Or.inr hj'
  | submap hj hslot ih =>
    cases hj' with
    | self => exact Or.inl (hj.submap hslot)
    | submap hj' hslot' =>
      obtain rfl := h.slots.parent _ _ _ _ _ hslot hslot'
      exact ih hj'

/-- A copy is newer, and it is no submap for modifiers. -/
structure Apart (s : State) (id copy : ℕ) : Prop where
  lt : id < copy
  made : copy < s.nextKeymap
  root : ∀ j m, s.gethash j (.modifiers m) ≠ .keymap copy

theorem Apart.disjoint {copy : ℕ} (ha : Apart s id copy) (h : Inv env s own) {j : ℕ} (hj : Within s id j) :
    ¬ Within s copy j := by
  intro hj'
  rcases hj.linear h hj' with hsub | hsub
  · cases hsub with
    | self => exact Nat.lt_irrefl _ ha.lt
    | submap _ hslot => exact ha.root _ _ hslot
  · exact Nat.not_lt.mpr (hsub.le h) ha.lt

theorem Apart.run {copy : ℕ} {es : List Event} (ha : Apart s id copy) (h : Inv env s own)
    (hrun : Run (step env fuel) (Allowed env fuel) s es t) : Apart t id copy := by
  have hstep : ∀ s e s', (∃ own', Inv env s own') ∧ Apart s id copy → Allowed env fuel s e →
      step env fuel s e = some s' → (∃ own', Inv env s' own') ∧ Apart s' id copy := by
    rintro s e s' ⟨⟨own', hinv⟩, ha⟩ hallowed hs
    obtain ⟨hinv', hle, hslots⟩ := hinv.next hallowed hs
    refine ⟨hinv', ha.lt, ha.made.trans_le hle, fun j m hslot => ?_⟩
    rcases hslots j m copy hslot with hold | hnew
    · exact ha.root j m hold
    · exact Nat.not_lt.mpr hnew ha.made
  exact (hrun.invariant (I := fun t => (∃ own', Inv env t own') ∧ Apart t id copy) ⟨⟨own, h⟩, ha⟩ hstep).2

theorem Inv.frame (h : Inv env s own) {j j' : ℕ} {key : KeyData}
    (hallowed : Allowed env fuel s (.keymapStore j key value))
    (hs : step env fuel s (.keymapStore j key value) = some s') (hmade : j' < s.nextKeymap) (hnot : ¬ Within s j j') :
    SameKeymap env s s' j' := by
  rw [step] at hs
  split_ifs at hs with hj
  obtain ⟨rfl, -⟩ := state?_eq_some hs
  exact (h.keymapStore hj hallowed).2.2.same j' hmade hnot

theorem Apart.independent {copy : ℕ} (ha : Apart s id copy) (h : Inv env s own) : Independent env fuel s id copy where
  original _ _ _ _ _ hj hj' hallowed hs :=
    h.frame hallowed hs (hj'.made h (ha.lt.trans ha.made)) fun hsub => ha.disjoint h hj' (hj.trans hsub)
  copy _ _ _ _ _ hj hj' hallowed hs :=
    h.frame hallowed hs (hj'.made h ha.made) fun hsub => ha.disjoint h (hj.trans hsub) hj'

theorem Inv.apart (h : Inv env s own) (hallowed : Allowed env fuel s (.copyKeymap id))
    (hs : step env fuel s (.copyKeymap id) = some s') : Apart s' id s.nextKeymap := by
  rw [step] at hs
  split_ifs at hs with hid
  obtain ⟨rfl, hreturned⟩ := state?_eq_some hs
  obtain ⟨-, -, -, hcopied⟩ := h.copyKeymap fuel hid hallowed
  obtain ⟨hmade, hslots⟩ := hcopied fun heq => by
    rw [heq] at hreturned
    rcases hreturned with heq | heq <;> cases heq
  refine ⟨hid, hmade, fun j m hslot => ?_⟩
  rw [hslots] at hslot
  obtain ⟨sub', hsub', -, hlt⟩ := h.slots.slot j m (by rw [hslot]; exact Value.noConfusion)
  exact Nat.lt_irrefl _ (Value.keymap.inj (hslot.symm.trans hsub') ▸ hlt)

/-- In every state reached by allowed changes, the inverse tables and submaps are right, no allowed
store fails, and a keymap and its copy are independent. -/
theorem keymaps_faithful {es : List Event} (hrun : Run (step env fuel) (Allowed env fuel) .init es s) :
    Faithful env s ∧
      (∀ id keysym, s.gethash id keysym ≠ .nil →
        (s.listed id (s.gethash id keysym)).length = 1 ∨
          (s.listed id (s.gethash id keysym)).getLast? ≠ some (some keysym) →
        (s.deleteInverse keysym id (s.gethash id keysym)).2 = .done) ∧
      (∀ id key value, id < s.nextKeymap → Allowed env fuel s (.keymapStore id key value) →
        (env.keymapStore fuel s id key value).2.Sound) ∧
      ∀ id s₁ es' s₂, Allowed env fuel s (.copyKeymap id) → step env fuel s (.copyKeymap id) = some s₁ →
        Run (step env fuel) (Allowed env fuel) s₁ es' s₂ → Independent env fuel s₂ id s.nextKeymap := by
  obtain ⟨own, hinv⟩ := (inv_init env).run hrun
  refine ⟨hinv.faithful, fun id keysym hbound hkept => ?_, fun id key value hid hallowed => ?_,
    fun id s₁ es' s₂ hallowed hs hrun' => ?_⟩
  · obtain ⟨t, hdelete, -⟩ := (hinv.keymap id).inverse.delete ((lookup_eq_some_iff hbound).mpr rfl) hkept
    rw [hdelete]
  · exact (hinv.keymapStore hid hallowed).1
  · obtain ⟨⟨own', hinv'⟩, -⟩ := hinv.next hallowed hs
    obtain ⟨own'', hinv''⟩ := hinv'.run hrun'
    exact ((hinv.apart hallowed hs).run hinv' hrun').independent hinv''

def bindChar (code : ℕ) (modifiers : Modifiers) (value : Value) : Event := .keymapStore 0 ⟨.char code, modifiers⟩ value

def rebindFirst : List Event :=
  [.makeSparseKeymap, bindChar 97 .none (.object 0), bindChar 98 .none (.object 0), bindChar 97 .none (.object 1),
    .copyKeymap 0]

theorem keymaps_faithful_rebindFirst :
    ∃ s, Faithful plainLisp s ∧ s.listed 0 (.object 0) = [some (.keysym (.char 98))] := by
  have hexec : (execOk (step plainLisp 1) (Allowed plainLisp 1) .init rebindFirst).any
      (fun s => decide (s.listed 0 (.object 0) = [some (.keysym (.char 98))])) = true := by decide +kernel
  obtain ⟨s, hrun, hlisted⟩ := exists_run_of_execOk hexec
  exact ⟨s, (keymaps_faithful hrun).1, hlisted⟩

/-- Two characters get one definition, and the last one of them loses it. -/
def unbindLast : List Event :=
  [.makeSparseKeymap, bindChar 97 .none (.object 0), bindChar 98 .none (.object 0), bindChar 98 .none .nil]

def copyMeta : List Event := [.makeSparseKeymap, bindChar 97 .onlyMeta (.object 0), .copyKeymap 0]

/-- Taking out the last of two keys lists nil in its place, and a copied keymap does not know its submaps. -/
theorem keymaps_not_faithful :
    (∃ s, Run (step plainLisp 2) anyStep .init unbindLast s ∧ ¬ Faithful plainLisp s) ∧
      ∃ s, Run (step plainLisp 2) anyStep .init copyMeta s ∧ ¬ Faithful plainLisp s := by
  refine ⟨?_, ?_⟩
  · have hexec : (exec (step plainLisp 2) .init unbindLast).any
        (fun s => decide (none ∈ s.listed 0 (.object 0))) = true := by decide +kernel
    obtain ⟨s, hrun, hlisted⟩ := exists_run_of_exec hexec
    refine ⟨s, hrun, fun hfaithful => ?_⟩
    obtain ⟨tk, htk, -⟩ := (hfaithful.mem_listed 0 (.object 0) Value.noConfusion none).mp hlisted
    exact Option.some_ne_none tk htk.symm
  · have hexec : (exec (step plainLisp 2) .init copyMeta).any (fun s => decide ((plainLisp.keymapSubmaps s 2).2 = [] ∧
        s.gethash 2 (.modifiers .onlyMeta) = .keymap 3)) = true := by decide +kernel
    obtain ⟨s, hrun, hsubmaps, hslot⟩ := exists_run_of_exec hexec
    refine ⟨s, hrun, fun hfaithful => ?_⟩
    have hmem := (hfaithful.mem_submaps 2 (.modifiers .onlyMeta) (.keymap 3)).mpr ⟨hslot, rfl⟩
    rw [hsubmaps] at hmem
    exact List.not_mem_nil hmem

end XEmacs.Keymaps
