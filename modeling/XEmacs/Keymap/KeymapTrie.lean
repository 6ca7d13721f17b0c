import XEmacs.Keymap.KeyPaths

/-! The tables of keymaps as a trie, and looking up a sequence of keys as following its word. -/

namespace XEmacs.Keymaps

open Lib

variable {env : Lisp} {mpc : MetaPrefixChar} {s t : State} {root i n c : ℕ} {addr : ℕ → Option (List TableKey)}
  {a p q : List TableKey} {key next : KeyData} {keys keys' : List KeyData} {v x : Value} {m : Modifiers}

def Lisp.entry (env : Lisp) (v : Value) : Entry Value :=
  if v.getKeyelt = .nil then .empty
  else
    match env.getKeymap v.getKeyelt with
    | some c => .node c
    | none => .leaf v.getKeyelt

theorem entry_empty (h : v.getKeyelt = .nil) : env.entry v = .empty := if_pos h

theorem entry_keymap (env : Lisp) (c : ℕ) : env.entry (.keymap c) = .node c := rfl

theorem entry_eq_empty (h : env.entry v = .empty) : v.getKeyelt = .nil := by
  by_contra hne
  rw [Lisp.entry, if_neg hne] at h
  cases hmap : env.getKeymap v.getKeyelt <;> rw [hmap] at h <;> cases h

theorem entry_eq_node (h : env.entry v = .node c) : v.getKeyelt ≠ .nil ∧ env.getKeymap v.getKeyelt = some c := by
  rw [Lisp.entry] at h
  split_ifs at h with hnil
  cases hmap : env.getKeymap v.getKeyelt with
  | none => rw [hmap] at h; cases h
  | some c' =>
    rw [hmap] at h
    exact ⟨hnil, congrArg some (Entry.node.inj h)⟩

theorem entry_eq_leaf (h : env.entry v = .leaf x) :
    v.getKeyelt = x ∧ v.getKeyelt ≠ .nil ∧ env.getKeymap v.getKeyelt = none := by
  rw [Lisp.entry] at h
  split_ifs at h with hnil
  cases hmap : env.getKeymap v.getKeyelt with
  | some c => rw [hmap] at h; cases h
  | none =>
    rw [hmap] at h
    exact ⟨Entry.leaf.inj h, hnil, rfl⟩

def Lisp.trie (env : Lisp) (s : State) : Trie TableKey Value := fun i tk => env.entry (s.gethash i tk)

/-- The keymaps below a root, each at its word: their slots for modifiers are unbound or have keymaps, and
nothing but a keymap stands for one. -/
structure Rooted (env : Lisp) (s : State) (root : ℕ) (addr : ℕ → Option (List TableKey)) : Prop where
  root : addr root = some []
  addressed : (env.trie s).Addressed addr
  made : ∀ i a, addr i = some a → i < s.nextKeymap
  slot : ∀ i a m, addr i = some a → s.gethash i (.modifiers m) = .nil ∨ ∃ c, s.gethash i (.modifiers m) = .keymap c
  node : ∀ i a tk c, addr i = some a → env.trie s i tk = .node c → s.gethash i tk = .keymap c

theorem keymapLookupDirectly_eq (s : State) (id : ℕ) (key : KeyData) : s.keymapLookupDirectly id key =
    match s.target id key with
    | none => .nil
    | some k => s.gethash k (.keysym key.keysym.fold) := by
  rw [State.keymapLookupDirectly, State.target]
  cases (if key.modifiers.modMeta = true then s.slot id .onlyMeta else some id) with
  | none => rfl
  | some k =>
    cases hk : (if key.modifiers.sansMeta ≠ .none then s.slot k key.modifiers.sansMeta else some k) <;>
      simp only [Option.bind_some, hk]

namespace Rooted

theorem slot_eq_some (h : Rooted env s root addr) (hi : addr i = some a) (hslot : s.slot i m = some c) :
    env.trie s i (.modifiers m) = .node c := by
  rw [State.slot] at hslot
  rcases h.slot i a m hi with hnil | ⟨c', hc⟩
  · rw [hnil] at hslot
    cases hslot
  · rw [hc] at hslot
    obtain rfl := Option.some.inj hslot
    rw [Lisp.trie, hc, entry_keymap]

theorem slot_eq_none (h : Rooted env s root addr) (hi : addr i = some a) (hslot : s.slot i m = none) :
    s.gethash i (.modifiers m) = .nil := by
  rw [State.slot] at hslot
  rcases h.slot i a m hi with hnil | ⟨c', hc⟩
  · exact hnil
  · rw [hc] at hslot
    cases hslot

theorem find_slot (h : Rooted env s root addr) (hi : addr i = some a) (b : Prop) [Decidable b] (m : Modifiers)
    (q : List TableKey) : (env.trie s).find i ((if b then [.modifiers m] else []) ++ q) =
      match if b then s.slot i m else some i with
      | none => .unbound
      | some k => (env.trie s).find k q := by
  by_cases hb : b
  · rw [if_pos hb, if_pos hb, List.singleton_append, Trie.find_cons]
    cases hslot : s.slot i m with
    | none =>
      rw [Lisp.trie, h.slot_eq_none hi hslot]
      rfl
    | some k =>
      rw [h.slot_eq_some hi hslot]
      rfl
  · rw [if_neg hb, if_neg hb, List.nil_append]

theorem addr_slot (h : Rooted env s root addr) (hi : addr i = some a) {b : Prop} [Decidable b] {k : ℕ}
    (hk : (if b then s.slot i m else some i) = some k) : ∃ a', addr k = some a' := by
  by_cases hb : b
  · rw [if_pos hb] at hk
    exact ⟨_, h.addressed i a _ k hi (h.slot_eq_some hi hk)⟩
  · rw [if_neg hb] at hk
    exact ⟨a, Option.some.inj hk ▸ hi⟩

theorem addr_target (h : Rooted env s root addr) (hi : addr i = some a) {k : ℕ} (hk : s.target i key = some k) :
    ∃ a', addr k = some a' := by
  rw [State.target] at hk
  obtain ⟨j, hj, hk⟩ := Option.bind_eq_some_iff.mp hk
  obtain ⟨b, hb⟩ := h.addr_slot hi hj
  exact h.addr_slot hb hk

theorem find_path (h : Rooted env s root addr) (hi : addr i = some a) (key : KeyData) (q : List TableKey) :
    (env.trie s).find i (key.path ++ q) = (env.entry (s.keymapLookupDirectly i key)).follow (env.trie s).find q := by
  rw [keymapLookupDirectly_eq, KeyData.path, Modifiers.path, List.append_assoc, List.append_assoc, h.find_slot hi, State.target]
  cases hmeta : (if key.modifiers.modMeta = true then s.slot i .onlyMeta else some i) with
  | none => rfl
  | some j =>
    obtain ⟨b, hb⟩ := h.addr_slot hi hmeta
    simp only [Option.bind_some]
    rw [h.find_slot hb]
    cases (if key.modifiers.sansMeta ≠ .none then s.slot j key.modifiers.sansMeta else some j) with
    | none => rfl
    | some k => exact Trie.find_cons _ _ _ _

theorem keymapLookup1_node (h : Rooted env s root addr) (hi : addr i = some a)
    (hentry : env.entry (s.keymapLookupDirectly i key) = .node c) : s.keymapLookup1 i key = .keymap c := by
  rw [State.keymapLookup1]
  rw [keymapLookupDirectly_eq] at hentry ⊢
  cases htarget : s.target i key with
  | none =>
    rw [htarget] at hentry
    cases hentry
  | some k =>
    rw [htarget] at hentry
    obtain ⟨a', ha'⟩ := h.addr_target hi htarget
    simp only [h.node k a' _ c ha' hentry]
    rfl

theorem addr_lookup (h : Rooted env s root addr) (hi : addr i = some a)
    (hentry : env.entry (s.keymapLookupDirectly i key) = .node c) : addr c = some (a ++ key.path) := by
  refine h.addressed.find hi ?_
  rw [← List.append_nil key.path, h.find_path hi, hentry]
  rfl

end Rooted

theorem rawLookupKey_cons (hkey : mpc.metaPrefixCharP key = false) (hne : keys ≠ []) (so_far : ℕ) :
    env.rawLookupKey mpc s i (key :: keys) so_far =
      if s.keymapLookup1 i key = .nil then .value .nil
      else
        match env.getKeymap (s.keymapLookup1 i key) with
        | none => .number (so_far + 1)
        | some k => env.rawLookupKey mpc s k keys (so_far + 1) := by
  obtain ⟨next, keys, rfl⟩ := List.exists_cons_of_ne_nil hne
  rw [Lisp.rawLookupKey, hkey]
  rfl

theorem rawLookupKey_singleton (hkey : mpc.metaPrefixCharP key = false) (so_far : ℕ) :
    env.rawLookupKey mpc s i [key] so_far = .value (s.keymapLookup1 i key) := by
  rw [Lisp.rawLookupKey, hkey]
  rfl

def Found.value : Found Value → Option Value
  | .unbound => some .nil
  | .node c => some (.keymap c)
  | .leaf x => some x
  | .tooLong => none

namespace Rooted

theorem value_entry (h : Rooted env s root addr) (hi : addr i = some a) (key : KeyData) :
    Found.value ((env.entry (s.keymapLookupDirectly i key)).follow (env.trie s).find []) =
      some (s.keymapLookup1 i key) := by
  cases hentry : env.entry (s.keymapLookupDirectly i key) with
  | empty => exact congrArg some (entry_eq_empty hentry).symm
  | node c => exact congrArg some (h.keymapLookup1_node hi hentry).symm
  | leaf x => exact congrArg some (entry_eq_leaf hentry).1.symm

theorem rawLookupKey_eq (h : Rooted env s root addr) (hi : addr i = some a)
    (hkeys : ∀ key ∈ keys, mpc.metaPrefixCharP key = false) (hne : keys ≠ []) (so_far : ℕ)
    (hvalue : Found.value ((env.trie s).find i (path keys)) = some v) :
    env.rawLookupKey mpc s i keys so_far = .value v := by
  induction keys generalizing i a so_far with
  | nil => exact absurd rfl hne
  | cons key keys ih =>
    have hkey := hkeys key List.mem_cons_self
    rw [path_cons, h.find_path hi] at hvalue
    by_cases hnil : keys = []
    · subst hnil
      rw [rawLookupKey_singleton hkey]
      exact congrArg Lookup.value (Option.some.inj ((h.value_entry hi key).symm.trans hvalue))
    · rw [rawLookupKey_cons hkey hnil]
      cases hentry : env.entry (s.keymapLookupDirectly i key) with
      | empty =>
        rw [hentry] at hvalue
        rw [State.keymapLookup1, if_pos (entry_eq_empty hentry)]
        exact congrArg Lookup.value (Option.some.inj hvalue)
      | leaf x =>
        rw [hentry] at hvalue
        obtain ⟨next, keys, rfl⟩ := List.exists_cons_of_ne_nil hnil
        obtain ⟨tk, tks, htk⟩ := List.exists_cons_of_ne_nil (path_ne_nil next keys)
        rw [htk] at hvalue
        cases hvalue
      | node c =>
        rw [hentry] at hvalue
        obtain ⟨hnot, hmap⟩ := entry_eq_node hentry
        rw [State.keymapLookup1, if_neg hnot, hmap]
        exact ih (h.addr_lookup hi hentry) (fun key hk => hkeys key (List.mem_cons_of_mem _ hk)) hnil _ hvalue

theorem rawLookupKey_number (h : Rooted env s root addr) (hi : addr i = some a)
    (hkeys : ∀ key ∈ keys, mpc.metaPrefixCharP key = false) {keys' : List KeyData} (hne : keys' ≠ []) (so_far : ℕ)
    (hleaf : (env.trie s).find i (path keys) = .leaf x) :
    env.rawLookupKey mpc s i (keys ++ keys') so_far = .number (so_far + keys.length) := by
  induction keys generalizing i a so_far with
  | nil => cases hleaf
  | cons key keys ih =>
    have hkey := hkeys key List.mem_cons_self
    rw [path_cons, h.find_path hi] at hleaf
    rw [List.cons_append, rawLookupKey_cons hkey (List.append_ne_nil_of_right_ne_nil keys hne)]
    cases hentry : env.entry (s.keymapLookupDirectly i key) with
    | empty =>
      rw [hentry] at hleaf
      cases hleaf
    | leaf y =>
      rw [hentry] at hleaf
      obtain ⟨-, hnot, hmap⟩ := entry_eq_leaf hentry
      rw [State.keymapLookup1, if_neg hnot, hmap]
      cases keys with
      | nil => rfl
      | cons next keys =>
        obtain ⟨tk, tks, htk⟩ := List.exists_cons_of_ne_nil (path_ne_nil next keys)
        rw [htk] at hleaf
        cases hleaf
    | node c =>
      rw [hentry] at hleaf
      obtain ⟨hnot, hmap⟩ := entry_eq_node hentry
      rw [State.keymapLookup1, if_neg hnot, hmap]
      simp only
      rw [ih (h.addr_lookup hi hentry) (fun key hk => hkeys key (List.mem_cons_of_mem _ hk)) _ hleaf, List.length_cons,
        Nat.add_assoc, Nat.add_comm 1]

end Rooted

end XEmacs.Keymaps
