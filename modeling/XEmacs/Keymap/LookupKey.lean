import XEmacs.Keymap.DefineKey

/-! Looking up sequences of keys after calls of `define-key`. The last call whose keys compare with the sequence
decides: it gives the sequence its binding, or makes it too long, or makes it a prefix. -/

namespace XEmacs.Keymaps

open Lib

variable {env : Lisp} {mpc : MetaPrefixChar} {s t : State} {root i n c fuel : ℕ} {addr : ℕ → Option (List TableKey)}
  {keys keys' : List KeyData} {definition v : Value} {calls done : List (List KeyData × Value)}
  {F F' : List TableKey → Found Value}

/-- What looking up a sequence gives: a binding, a keymap, or a number where it is too long. -/
inductive Answer
  | value (v : Value)
  | keymap
  | number (n : ℕ)

/-- What calls of `define-key` say about a sequence of keys, with the last call first. -/
def answer : List (List KeyData × Value) → List KeyData → Answer
  | [], _ => .value .nil
  | (keys, definition) :: calls, v =>
    if keys = [] then answer calls v
    else if keys.map KeyData.fold = v.map KeyData.fold then .value definition.getKeyelt
    else if keys.map KeyData.fold <+: v.map KeyData.fold then
      if definition.getKeyelt = .nil then .value .nil else .number keys.length
    else if v.map KeyData.fold <+: keys.map KeyData.fold then .keymap
    else answer calls v

def Answer.Returned (r : Lookup) : Answer → Prop
  | value v => r = .value v
  | keymap => ∃ c, r = .value (.keymap c)
  | number n => r = .number n

def Answer.Holds (F : List TableKey → Found Value) (keys : List KeyData) : Answer → Prop
  | value v => Found.value (F (path keys)) = some v
  | keymap => ∃ c, F (path keys) = .node c
  | number n => n < keys.length ∧ ∃ x, F (path (keys.take n)) = .leaf x

/-- A call with keys other than the meta prefix character and a definition that is no keymap. -/
structure Definable (env : Lisp) (mpc : MetaPrefixChar) (call : List KeyData × Value) : Prop where
  keys : ∀ key ∈ call.1, mpc.metaPrefixCharP key = false
  definition : env.getKeymap call.2.getKeyelt = none

theorem Definable.entry_ne_node (h : Definable env mpc (keys, definition)) (c : ℕ) : env.entry definition ≠ .node c := by
  intro hnode
  exact absurd ((entry_eq_node hnode).2.symm.trans h.definition) (Option.some_ne_none c)

def Used (calls : List (List KeyData × Value)) (F : List TableKey → Found Value) : Prop :=
  ∀ q, ((∃ c, F q = .node c) ∨ ∃ x, F q = .leaf x) → q = [] ∨ ∃ call ∈ calls, q <+: path call.1

theorem value_follow (h : ∀ c, env.entry definition ≠ .node c) :
    Found.value ((env.entry definition).follow (fun c _ => .node c) ([] : List TableKey)) = some definition.getKeyelt := by
  cases hentry : env.entry definition with
  | empty => exact congrArg some (entry_eq_empty hentry).symm
  | node c => exact absurd hentry (h c)
  | leaf x => exact congrArg some (entry_eq_leaf hentry).1.symm

theorem holds_answer_cons (hinserted : Inserted F F' (path keys) (env.entry definition))
    (hentry : ∀ c, env.entry definition ≠ .node c) (hne : keys ≠ []) (hholds : (answer calls keys').Holds F keys') :
    (answer ((keys, definition) :: calls) keys').Holds F' keys' := by
  rw [answer, if_neg hne]
  have hafter := hinserted.after
  split_ifs with heq hbefore hnil hafter'
  · -- the same keys
    have hvalue := hafter []
    rw [List.append_nil, path_eq_of_fold heq] at hvalue
    exact (congrArg Found.value hvalue).trans (value_follow hentry)
  · -- more keys than are defined, without a binding
    obtain ⟨q, hq⟩ := path_prefix_iff.mpr hbefore
    have hvalue := hafter q
    rw [entry_empty hnil, hq] at hvalue
    exact congrArg Found.value hvalue
  · -- more keys than are defined, with a binding
    have hlt : keys.length < keys'.length := by
      have hle := hbefore.length_le
      rw [List.length_map, List.length_map] at hle
      refine Nat.lt_of_le_of_ne hle fun hlen => heq (hbefore.eq_of_length ?_)
      rw [List.length_map, List.length_map, hlen]
    have htake : (keys'.take keys.length).map KeyData.fold = keys.map KeyData.fold := by
      rw [List.map_take, ← List.length_map KeyData.fold]
      exact (List.prefix_iff_eq_take.mp hbefore).symm
    have hvalue := hafter []
    rw [List.append_nil, ← path_eq_of_fold htake] at hvalue
    refine ⟨hlt, ?_⟩
    cases hleaf : env.entry definition with
    | empty => exact absurd (entry_eq_empty hleaf) hnil
    | node c => exact absurd hleaf (hentry c)
    | leaf x =>
      rw [hleaf] at hvalue
      exact ⟨x, hvalue⟩
  · -- fewer keys than are defined
    obtain ⟨c, hc, -⟩ := hinserted.before _ (path_prefix_iff.mpr hafter') fun hpath => heq (path_eq_iff.mp hpath).symm
    exact ⟨c, hc⟩
  · -- other keys
    have hsame : F' (path keys') = F (path keys') :=
      hinserted.other _ (fun hp => hafter' (path_prefix_iff.mp hp)) fun hp => hbefore (path_prefix_iff.mp hp)
    cases hanswer : answer calls keys' with
    | value v =>
      rw [hanswer] at hholds
      exact (congrArg Found.value hsame).trans hholds
    | keymap =>
      rw [hanswer] at hholds
      obtain ⟨c, hc⟩ := hholds
      exact ⟨c, hsame.trans hc⟩
    | number n =>
      rw [hanswer] at hholds
      obtain ⟨hlt, x, hx⟩ := hholds
      have htake : (keys'.take n).map KeyData.fold <+: keys'.map KeyData.fold := by
        rw [List.map_take]
        exact List.take_prefix _ _
      refine ⟨hlt, x, (hinserted.other _ (fun hp => ?_) fun hp => ?_).trans hx⟩
      · -- a binding does not become a prefix
        by_cases hpath : path (keys'.take n) = path keys
        · exact hbefore ((path_eq_iff.mp hpath) ▸ htake)
        · obtain ⟨c, -, hold⟩ := hinserted.before _ hp hpath
          rcases hold with hold | hold <;> cases hold.symm.trans hx
      · exact hbefore ((path_prefix_iff.mp hp).trans htake)

theorem used_cons (hinserted : Inserted F F' (path keys) (env.entry definition))
    (hentry : ∀ c, env.entry definition ≠ .node c) (hused : Used calls F) : Used ((keys, definition) :: calls) F' := by
  intro q hq
  by_cases hbefore : q <+: path keys
  · exact Or.inr ⟨_, List.mem_cons_self, hbefore⟩
  by_cases hafter : path keys <+: q
  · obtain ⟨r, rfl⟩ := hafter
    have hfollow := hinserted.after r
    cases r with
    | nil => exact absurd (List.append_nil _ ▸ List.prefix_refl (path keys)) hbefore
    | cons tk r =>
      cases hleaf : env.entry definition with
      | node c => exact absurd hleaf (hentry c)
      | empty =>
        rw [hleaf] at hfollow
        rcases hq with ⟨c, hc⟩ | ⟨x, hx⟩
        · cases hfollow.symm.trans hc
        · cases hfollow.symm.trans hx
      | leaf y =>
        rw [hleaf] at hfollow
        rcases hq with ⟨c, hc⟩ | ⟨x, hx⟩
        · cases hfollow.symm.trans hc
        · cases hfollow.symm.trans hx
  · rw [hinserted.other q hbefore hafter] at hq
    rcases hused q hq with hnil | ⟨call, hcall, hpre⟩
    · exact Or.inl hnil
    · exact Or.inr ⟨call, List.mem_cons_of_mem _ hcall, hpre⟩

structure Defined (env : Lisp) (s : State) (root : ℕ) (calls : List (List KeyData × Value)) : Prop where
  rooted : ∃ addr, Rooted env s root addr
  holds : ∀ keys, keys ≠ [] → (answer calls keys).Holds ((env.trie s).find root) keys
  used : Used calls ((env.trie s).find root)

theorem defined_makeKeymap (env : Lisp) (s : State) : Defined env s.makeKeymap s.nextKeymap [] := by
  have hnil (tk : TableKey) : s.makeKeymap.gethash s.nextKeymap tk = .nil := by
    rw [gethash_makeKeymap, if_pos rfl]
  have hempty (tk : TableKey) : env.trie s.makeKeymap s.nextKeymap tk = .empty := congrArg env.entry (hnil tk)
  have hfind (q : List TableKey) (hq : q ≠ []) : (env.trie s.makeKeymap).find s.nextKeymap q = .unbound := by
    obtain ⟨tk, q, rfl⟩ := List.exists_cons_of_ne_nil hq
    rw [Trie.find_cons, hempty]
    rfl
  refine ⟨⟨fun i => if i = s.nextKeymap then some [] else none, ⟨if_pos rfl, fun i a tk c hi hnode => ?_,
    fun i a hi => ?_, fun i a m hi => ?_, fun i a tk c hi hnode => ?_⟩⟩, fun keys hne => ?_, fun q hq => ?_⟩
  · split_ifs at hi with hroot
    rw [hroot, hempty] at hnode
    cases hnode
  · split_ifs at hi with hroot
    rw [hroot]
    exact Nat.lt_succ_self _
  · split_ifs at hi with hroot
    rw [hroot]
    exact Or.inl (hnil _)
  · split_ifs at hi with hroot
    rw [hroot, hempty] at hnode
    cases hnode
  · obtain ⟨key, keys, rfl⟩ := List.exists_cons_of_ne_nil hne
    exact congrArg Found.value (hfind _ (path_ne_nil key keys))
  · by_cases hnil' : q = []
    · exact Or.inl hnil'
    · rw [hfind q hnil'] at hq
      rcases hq with ⟨c, hc⟩ | ⟨x, hx⟩
      · cases hc
      · cases hx

theorem Defined.defineKey (h : Defined env s root calls) (hcall : Definable env mpc (keys, definition))
    (hok : env.defineKey mpc fuel s root keys definition = .ok t) : Defined env t root ((keys, definition) :: calls) := by
  obtain ⟨addr, hrooted⟩ := h.rooted
  by_cases hne : keys = []
  · subst hne
    obtain rfl := Except.ok.inj hok
    refine ⟨h.rooted, fun keys' hne' => ?_, fun q hq => ?_⟩
    · rw [answer, if_pos rfl]
      exact h.holds keys' hne'
    · rcases h.used q hq with hnil | ⟨call, hmem, hpre⟩
      · exact Or.inl hnil
      · exact Or.inr ⟨call, List.mem_cons_of_mem _ hmem, hpre⟩
  · obtain ⟨addr', hrooted', hinserted⟩ := hrooted.defineKey (p := []) rfl hne hcall.entry_ne_node hok
    exact ⟨⟨addr', hrooted'⟩, fun keys' hne' =>
      holds_answer_cons hinserted hcall.entry_ne_node hne (h.holds keys' hne'),
      used_cons hinserted hcall.entry_ne_node h.used⟩

theorem Defined.defineKeys (h : Defined env s root done) (hcalls : ∀ call ∈ calls, Definable env mpc call)
    (hok : env.defineKeys mpc fuel root s calls = .ok t) : Defined env t root (calls.reverse ++ done) := by
  induction calls generalizing s done with
  | nil => exact Except.ok.inj hok ▸ h
  | cons call calls ih =>
    obtain ⟨keys, definition⟩ := call
    rw [Lisp.defineKeys] at hok
    cases hdefine : env.defineKey mpc fuel s root keys definition with
    | error e =>
      rw [hdefine] at hok
      cases hok
    | ok u =>
      rw [hdefine] at hok
      have hnext := h.defineKey (hcalls _ List.mem_cons_self) hdefine
      rw [List.reverse_cons, List.append_assoc]
      exact ih hnext (fun call hmem => hcalls call (List.mem_cons_of_mem _ hmem)) hok

/-! ### Lookups -/

theorem Defined.returned (h : Defined env s root calls) (hkeys : ∀ key ∈ keys, mpc.metaPrefixCharP key = false)
    (hne : keys ≠ []) : (answer calls keys).Returned (env.lookupKeys mpc s root keys) := by
  obtain ⟨addr, hrooted⟩ := h.rooted
  have hholds := h.holds keys hne
  rw [Lisp.lookupKeys, if_neg hne]
  cases hanswer : answer calls keys with
  | value v =>
    rw [hanswer] at hholds
    exact hrooted.rawLookupKey_eq hrooted.root hkeys hne 0 hholds
  | keymap =>
    rw [hanswer] at hholds
    obtain ⟨c, hc⟩ := hholds
    exact ⟨c, hrooted.rawLookupKey_eq hrooted.root hkeys hne 0 (congrArg Found.value hc)⟩
  | number n =>
    rw [hanswer] at hholds
    obtain ⟨hlt, x, hx⟩ := hholds
    have hrest : keys.drop n ≠ [] := fun hnil => Nat.not_le_of_lt hlt (List.drop_eq_nil_iff.mp hnil)
    have hnumber := hrooted.rawLookupKey_number hrooted.root (fun key hmem => hkeys key (List.mem_of_mem_take hmem)) hrest 0 hx
    rw [List.take_append_drop, Nat.zero_add, List.length_take, Nat.min_eq_left hlt.le] at hnumber
    exact hnumber

/-- A key of a sequence, which may be written with the meta prefix character in place of meta. -/
structure Written where
  key : KeyData
  metaPrefixChar : Option KeyData

def KeyData.sansMeta (key : KeyData) : KeyData := { key with modifiers := key.modifiers.sansMeta }

def Written.spell (w : Written) : List KeyData :=
  match w.metaPrefixChar with
  | none => [w.key]
  | some e => [e, w.key.sansMeta]

/-- A key is no meta prefix character, and it has meta where it is written with one, which no call has. -/
structure Written.Ok (mpc : MetaPrefixChar) (calls : List (List KeyData × Value)) (w : Written) : Prop where
  key : mpc.metaPrefixCharP w.key = false
  prefixed : ∀ e, w.metaPrefixChar = some e → w.key.modifiers.modMeta = true ∧ mpc.metaPrefixCharP e = true ∧
    ∀ call ∈ calls, ∀ key ∈ call.1, key.fold ≠ e.fold

theorem metified_sansMeta {key : KeyData} (h : key.modifiers.modMeta = true) : key.sansMeta.metified = key := by
  obtain ⟨keysym, control, modMeta, super, hyper, alt, shift⟩ := key
  obtain rfl : modMeta = true := h
  rfl

theorem Defined.unbound (h : Defined env s root calls) {e : KeyData}
    (he : ∀ call ∈ calls, ∀ key ∈ call.1, key.fold ≠ e.fold) (hfind : Finds env s root (path keys) i) :
    s.keymapLookup1 i e = .nil := by
  obtain ⟨addr, hrooted⟩ := h.rooted
  have hword := hrooted.find_key hfind e
  rw [← path_singleton e, ← path_append] at hword
  have hnot : ¬ ((∃ c, (env.trie s).find root (path (keys ++ [e])) = .node c) ∨
      ∃ x, (env.trie s).find root (path (keys ++ [e])) = .leaf x) := by
    intro hfound
    rcases h.used _ hfound with hnil | ⟨call, hcall, hpre⟩
    · rw [path_append, path_singleton] at hnil
      exact path_ne_nil e [] ((path_singleton e).trans (List.append_eq_nil_iff.mp hnil).2)
    · have hmem := (path_prefix_iff.mp hpre).subset (List.mem_map_of_mem (List.mem_append_right keys (List.mem_singleton_self e)))
      obtain ⟨key, hkey, hfold⟩ := List.mem_map.mp hmem
      exact he call hcall key hkey hfold
  cases hentry : env.entry (s.keymapLookupDirectly i e) with
  | empty => exact entry_eq_empty hentry
  | node c =>
    rw [hentry] at hword
    exact absurd (Or.inl ⟨c, hword⟩) hnot
  | leaf x =>
    rw [hentry] at hword
    exact absurd (Or.inr ⟨x, hword⟩) hnot

theorem rawLookupKey_prefixed {e key : KeyData} {rest : List KeyData} (he : mpc.metaPrefixCharP e = true)
    (hnil : s.keymapLookup1 i e = .nil) (hmeta : key.modifiers.modMeta = true) (so_far : ℕ) :
    env.rawLookupKey mpc s i (e :: key.sansMeta :: rest) so_far =
      if rest = [] then .value (s.keymapLookup1 i key)
      else
        match env.getKeymap (s.keymapLookup1 i key) with
        | none => .value .nil
        | some k => env.rawLookupKey mpc s k rest (so_far + 2) := by
  rw [Lisp.rawLookupKey, he, hnil, metified_sansMeta hmeta]
  rfl

theorem spell_ne_nil {ws : List Written} (h : ws ≠ []) : ws.flatMap Written.spell ≠ [] := by
  obtain ⟨⟨key, metaPrefixChar⟩, ws, rfl⟩ := List.exists_cons_of_ne_nil h
  rw [List.flatMap_cons]
  refine List.append_ne_nil_of_left_ne_nil ?_ _
  cases metaPrefixChar with
  | none => exact List.cons_ne_nil _ _
  | some e => exact List.cons_ne_nil _ _

section Written

variable {w : Written} {ws ws' : List Written} {rest : List KeyData}

theorem Defined.rawLookupKey_last (h : Defined env s root calls) (hw : w.Ok mpc calls)
    (hfind : Finds env s root (path keys) i) (so_far : ℕ) :
    env.rawLookupKey mpc s i w.spell so_far = .value (s.keymapLookup1 i w.key) := by
  obtain ⟨key, metaPrefixChar⟩ := w
  cases metaPrefixChar with
  | none => exact rawLookupKey_singleton hw.key so_far
  | some e =>
    obtain ⟨hmeta, he, hunused⟩ := hw.prefixed e rfl
    rw [Written.spell, rawLookupKey_prefixed he (h.unbound hunused hfind) hmeta, if_pos rfl]

theorem Defined.rawLookupKey_node (h : Defined env s root calls) (hw : w.Ok mpc calls)
    (hfind : Finds env s root (path keys) i) (hne : rest ≠ []) (so_far : ℕ)
    (hentry : env.entry (s.keymapLookupDirectly i w.key) = .node c) :
    env.rawLookupKey mpc s i (w.spell ++ rest) so_far = env.rawLookupKey mpc s c rest (so_far + w.spell.length) := by
  obtain ⟨key, metaPrefixChar⟩ := w
  obtain ⟨hnot, hmap⟩ := entry_eq_node hentry
  cases metaPrefixChar with
  | none =>
    rw [Written.spell, List.singleton_append, rawLookupKey_cons hw.key hne, State.keymapLookup1, if_neg hnot, hmap]
    rfl
  | some e =>
    obtain ⟨hmeta, he, hunused⟩ := hw.prefixed e rfl
    rw [Written.spell, List.cons_append, List.singleton_append,
      rawLookupKey_prefixed he (h.unbound hunused hfind) hmeta, if_neg hne, State.keymapLookup1, hmap]
    rfl

theorem Defined.rawLookupKey_empty (h : Defined env s root calls) (hw : w.Ok mpc calls)
    (hfind : Finds env s root (path keys) i) (hne : rest ≠ []) (so_far : ℕ)
    (hentry : env.entry (s.keymapLookupDirectly i w.key) = .empty) :
    env.rawLookupKey mpc s i (w.spell ++ rest) so_far = .value .nil := by
  obtain ⟨key, metaPrefixChar⟩ := w
  have hnil : s.keymapLookup1 i key = .nil := entry_eq_empty hentry
  cases metaPrefixChar with
  | none => rw [Written.spell, List.singleton_append, rawLookupKey_cons hw.key hne, if_pos hnil]
  | some e =>
    obtain ⟨hmeta, he, hunused⟩ := hw.prefixed e rfl
    rw [Written.spell, List.cons_append, List.singleton_append,
      rawLookupKey_prefixed he (h.unbound hunused hfind) hmeta, if_neg hne, hnil]
    rfl

theorem finds_snoc (hrooted : Rooted env s root addr) (hfind : Finds env s root (path keys) i) {key : KeyData}
    (hentry : env.entry (s.keymapLookupDirectly i key) = .node c) : Finds env s root (path (keys ++ [key])) c := by
  rw [Finds, path_append, path_singleton, hrooted.find_key hfind, hentry]
  rfl

theorem Defined.rawLookupKey_spelled (h : Defined env s root calls) (keys : List KeyData) (hws : ∀ w ∈ ws, w.Ok mpc calls) (hne : ws ≠ [])
    (hfind : Finds env s root (path keys) i) (so_far : ℕ)
    (hvalue : Found.value ((env.trie s).find i (path (ws.map Written.key))) = some v) :
    env.rawLookupKey mpc s i (ws.flatMap Written.spell) so_far = .value v := by
  obtain ⟨addr, hrooted⟩ := h.rooted
  induction ws generalizing keys i so_far with
  | nil => exact absurd rfl hne
  | cons w ws ih =>
    have hw := hws w List.mem_cons_self
    have hi := hrooted.addr_of_finds hfind
    rw [List.map_cons, path_cons, hrooted.find_path hi] at hvalue
    rw [List.flatMap_cons]
    by_cases hnil : ws = []
    · subst hnil
      rw [List.flatMap_nil, List.append_nil, h.rawLookupKey_last hw hfind]
      exact congrArg Lookup.value (Option.some.inj ((hrooted.value_entry hi w.key).symm.trans hvalue))
    · have hrest := spell_ne_nil hnil
      cases hentry : env.entry (s.keymapLookupDirectly i w.key) with
      | empty =>
        rw [hentry] at hvalue
        rw [h.rawLookupKey_empty hw hfind hrest so_far hentry]
        exact congrArg Lookup.value (Option.some.inj hvalue)
      | node c =>
        rw [hentry] at hvalue
        rw [h.rawLookupKey_node hw hfind hrest so_far hentry]
        exact ih _ (fun w hmem => hws w (List.mem_cons_of_mem _ hmem)) hnil (finds_snoc hrooted hfind hentry) _ hvalue
      | leaf x =>
        rw [hentry] at hvalue
        obtain ⟨w', ws, rfl⟩ := List.exists_cons_of_ne_nil hnil
        obtain ⟨tk, tks, htk⟩ := List.exists_cons_of_ne_nil (path_ne_nil w'.key (ws.map Written.key))
        rw [List.map_cons, htk] at hvalue
        cases hvalue

theorem Defined.rawLookupKey_spelled_number (h : Defined env s root calls) (keys : List KeyData) (hws : ∀ w ∈ ws, w.Ok mpc calls)
    (hlast : ∀ w, ws.getLast? = some w → w.metaPrefixChar = none) (hne : ws' ≠ [])
    (hfind : Finds env s root (path keys) i) (so_far : ℕ) {x : Value}
    (hleaf : (env.trie s).find i (path (ws.map Written.key)) = .leaf x) :
    env.rawLookupKey mpc s i (ws.flatMap Written.spell ++ ws'.flatMap Written.spell) so_far =
      .number (so_far + (ws.flatMap Written.spell).length) := by
  obtain ⟨addr, hrooted⟩ := h.rooted
  induction ws generalizing keys i so_far with
  | nil => cases hleaf
  | cons w ws ih =>
    have hw := hws w List.mem_cons_self
    have hi := hrooted.addr_of_finds hfind
    have hrest : ws.flatMap Written.spell ++ ws'.flatMap Written.spell ≠ [] :=
      List.append_ne_nil_of_right_ne_nil _ (spell_ne_nil hne)
    rw [List.map_cons, path_cons, hrooted.find_path hi] at hleaf
    rw [List.flatMap_cons, List.append_assoc]
    cases hentry : env.entry (s.keymapLookupDirectly i w.key) with
    | empty =>
      rw [hentry] at hleaf
      cases hleaf
    | node c =>
      rw [hentry] at hleaf
      have hlast' : ∀ w', ws.getLast? = some w' → w'.metaPrefixChar = none := fun w' hw' =>
        hlast w' (by rw [List.getLast?_cons, hw']; rfl)
      rw [h.rawLookupKey_node hw hfind hrest so_far hentry, ih _ (fun w hmem => hws w (List.mem_cons_of_mem _ hmem)) hlast'
        (finds_snoc hrooted hfind hentry) _ hleaf, List.length_append, Nat.add_assoc]
    | leaf y =>
      rw [hentry] at hleaf
      obtain ⟨-, hnot, hmap⟩ := entry_eq_leaf hentry
      cases ws with
      | cons w' ws =>
        obtain ⟨tk, tks, htk⟩ := List.exists_cons_of_ne_nil (path_ne_nil w'.key (ws.map Written.key))
        rw [List.map_cons, htk] at hleaf
        cases hleaf
      | nil =>
        have hplain : w.spell = [w.key] := by rw [Written.spell, hlast w rfl]
        rw [hplain, List.singleton_append, rawLookupKey_cons hw.key hrest, State.keymapLookup1, if_neg hnot, hmap]
        rfl

end Written

/-! ### The main result -/

/-- A lookup returns what the last definition that compares with the keys says, also where the meta
prefix character is written in place of meta. -/
theorem lookupKeys_defineKeys (hcalls : ∀ call ∈ calls, Definable env mpc call)
    (hok : env.defineKeys mpc fuel s.nextKeymap s.makeKeymap calls = .ok t) :
    (∀ keys, keys ≠ [] → (∀ key ∈ keys, mpc.metaPrefixCharP key = false) →
      (answer calls.reverse keys).Returned (env.lookupKeys mpc t s.nextKeymap keys)) ∧
    ∀ ws : List Written, (∀ w ∈ ws, w.Ok mpc calls) →
      (∀ v, env.lookupKeys mpc t s.nextKeymap (ws.map Written.key) = .value v →
        env.lookupKeys mpc t s.nextKeymap (ws.flatMap Written.spell) = .value v) ∧
      ∀ n, env.lookupKeys mpc t s.nextKeymap (ws.map Written.key) = .number n →
        (∀ w, (ws.take n).getLast? = some w → w.metaPrefixChar = none) →
        env.lookupKeys mpc t s.nextKeymap (ws.flatMap Written.spell) =
          .number ((ws.take n).flatMap Written.spell).length := by
  have hdefined := (defined_makeKeymap env s).defineKeys hcalls hok
  rw [List.append_nil] at hdefined
  refine ⟨fun keys hne hkeys => hdefined.returned hkeys hne, fun ws hws => ?_⟩
  by_cases hne : ws = []
  · subst hne
    refine ⟨fun v hv => hv, fun n hn => ?_⟩
    cases hn
  have hne' : ws.map Written.key ≠ [] := fun hnil => hne (List.map_eq_nil_iff.mp hnil)
  have hws' : ∀ w ∈ ws, w.Ok mpc calls.reverse := fun w hmem =>
    ⟨(hws w hmem).key, fun e he => by
      obtain ⟨hmeta, hstart, hunused⟩ := (hws w hmem).prefixed e he
      exact ⟨hmeta, hstart, fun call hcall => hunused call (List.mem_reverse.mp hcall)⟩⟩
  have hreturned := hdefined.returned (fun key hkey => by
    obtain ⟨w, hmem, rfl⟩ := List.mem_map.mp hkey
    exact (hws w hmem).key) hne'
  have hholds := hdefined.holds (ws.map Written.key) hne'
  refine ⟨fun v hv => ?_, fun n hn hlast => ?_⟩
  · have hvalue : Found.value ((env.trie t).find s.nextKeymap (path (ws.map Written.key))) = some v := by
      cases hanswer : answer calls.reverse (ws.map Written.key) with
      | value x =>
        rw [hanswer] at hreturned hholds
        exact Lookup.value.inj (hreturned.symm.trans hv) ▸ hholds
      | keymap =>
        rw [hanswer] at hreturned hholds
        obtain ⟨c, hc⟩ := hholds
        obtain ⟨addr, hrooted⟩ := hdefined.rooted
        have hlookup := hrooted.rawLookupKey_eq hrooted.root (fun key hkey => by
          obtain ⟨w, hmem, rfl⟩ := List.mem_map.mp hkey
          exact (hws w hmem).key) hne' 0 (congrArg Found.value hc)
        rw [Lisp.lookupKeys, if_neg hne'] at hv
        rw [hc]
        exact congrArg some (Lookup.value.inj (hlookup.symm.trans hv))
      | number m =>
        rw [hanswer] at hreturned
        cases hreturned.symm.trans hv
    rw [Lisp.lookupKeys, if_neg (spell_ne_nil hne)]
    exact hdefined.rawLookupKey_spelled [] hws' hne rfl 0 hvalue
  · cases hanswer : answer calls.reverse (ws.map Written.key) with
    | value x =>
      rw [hanswer] at hreturned
      cases hreturned.symm.trans hn
    | keymap =>
      rw [hanswer] at hreturned
      obtain ⟨c, hc⟩ := hreturned
      cases hc.symm.trans hn
    | number m =>
      rw [hanswer] at hreturned hholds
      obtain rfl := Lookup.number.inj (hreturned.symm.trans hn)
      obtain ⟨hlt, x, hx⟩ := hholds
      rw [List.length_map] at hlt
      rw [← List.map_take] at hx
      have hrest : ws.drop m ≠ [] := fun hnil => Nat.not_le_of_lt hlt (List.drop_eq_nil_iff.mp hnil)
      have hnumber := hdefined.rawLookupKey_spelled_number [] (fun w hmem => hws' w (List.mem_of_mem_take hmem)) hlast
        hrest rfl 0 hx
      rw [← List.flatMap_append, List.take_append_drop, Nat.zero_add] at hnumber
      rw [Lisp.lookupKeys, if_neg (spell_ne_nil hne)]
      exact hnumber

/-- The key `escape` as the meta prefix character. -/
def escapeKey : KeyData := ⟨.symbol "escape", .none⟩

def escapePrefix : MetaPrefixChar := ⟨some escapeKey, fun key => key = escapeKey⟩

def charKey (code : ℕ) (modifiers : Modifiers) : KeyData := ⟨.char code, modifiers⟩

def sampleCalls : List (List KeyData × Value) :=
  [([charKey 97 .none, charKey 98 .none], .object 0), ([charKey 97 .onlyMeta, charKey 98 .none], .object 1)]

theorem lookupKeys_defineKeys_sampleCalls : ∃ t,
    plainLisp.defineKeys escapePrefix 1 0 State.init.makeKeymap sampleCalls = .ok t ∧
      plainLisp.lookupKeys escapePrefix t 0 [charKey 97 .none, charKey 98 .none] = .value (.object 0) ∧
      plainLisp.lookupKeys escapePrefix t 0 [escapeKey, charKey 97 .none, charKey 98 .none] = .value (.object 1) := by
  have hsome : (plainLisp.defineKeys escapePrefix 1 0 State.init.makeKeymap sampleCalls).toOption.isSome = true := by
    decide +kernel
  cases hok : plainLisp.defineKeys escapePrefix 1 0 State.init.makeKeymap sampleCalls with
  | error e =>
    rw [hok] at hsome
    cases hsome
  | ok t =>
    have hcalls : ∀ call ∈ sampleCalls, Definable plainLisp escapePrefix call := by
      intro call hcall
      rcases List.mem_cons.mp hcall with rfl | hcall
      · exact ⟨by decide, rfl⟩
      · rw [List.mem_singleton.mp hcall]
        exact ⟨by decide, rfl⟩
    obtain ⟨hreturned, hspelled⟩ := lookupKeys_defineKeys (s := .init) hcalls hok
    have hmeta := hreturned [charKey 97 .onlyMeta, charKey 98 .none] (List.cons_ne_nil _ _) (by decide)
    refine ⟨t, rfl, hreturned [charKey 97 .none, charKey 98 .none] (List.cons_ne_nil _ _) (by decide), ?_⟩
    refine (hspelled [⟨charKey 97 .onlyMeta, some escapeKey⟩, ⟨charKey 98 .none, none⟩] fun w hw => ?_).1 _ hmeta
    rcases List.mem_cons.mp hw with rfl | hw
    · refine ⟨by decide, fun e he => ?_⟩
      obtain rfl := Option.some.inj he
      exact ⟨rfl, by decide, by decide⟩
    · rw [List.mem_singleton.mp hw]
      exact ⟨by decide, fun e he => by cases he⟩

def lastDefinition (calls : List (List KeyData × Value)) (keys : List KeyData) : Option Value :=
  (calls.reverse.find? fun call => call.1.map KeyData.fold = keys.map KeyData.fold).map Prod.snd

/-- The last definition of a sequence is read back, where no start of it is bound to what is no keymap. -/
def ReadsBack (env : Lisp) (mpc : MetaPrefixChar) (t : State) (root : ℕ) (calls : List (List KeyData × Value))
    (keys : List KeyData) : Prop :=
  ∀ definition, lastDefinition calls keys = some definition →
    (∀ n < keys.length, ∀ v, env.lookupKeys mpc t root (keys.take n) = .value v → v = .nil ∨ (env.getKeymap v).isSome = true) →
    env.lookupKeys mpc t root keys = .value definition

/-- A sequence gets a definition, and its first key loses its own. -/
def unboundPrefix : List (List KeyData × Value) :=
  [([charKey 97 .none, charKey 98 .none], .object 0), ([charKey 97 .none], .nil)]

/-- A sequence loses its definition with its prefix. -/
theorem lookupKeys_not_readsBack : ∃ t, (∀ call ∈ unboundPrefix, Definable plainLisp escapePrefix call) ∧
    plainLisp.defineKeys escapePrefix 1 0 State.init.makeKeymap unboundPrefix = .ok t ∧
      ¬ ReadsBack plainLisp escapePrefix t 0 unboundPrefix [charKey 97 .none, charKey 98 .none] := by
  have hexec : (plainLisp.defineKeys escapePrefix 1 0 State.init.makeKeymap unboundPrefix).toOption.any (fun t =>
      decide (plainLisp.lookupKeys escapePrefix t 0 [charKey 97 .none] = .value .nil ∧
        plainLisp.lookupKeys escapePrefix t 0 [charKey 97 .none, charKey 98 .none] = .value .nil)) = true := by
    decide +kernel
  cases hok : plainLisp.defineKeys escapePrefix 1 0 State.init.makeKeymap unboundPrefix with
  | error e =>
    rw [hok] at hexec
    cases hexec
  | ok t =>
    rw [hok] at hexec
    obtain ⟨hstart, hlookup⟩ := of_decide_eq_true hexec
    refine ⟨t, fun call hcall => ?_, rfl, fun hreads => ?_⟩
    · rcases List.mem_cons.mp hcall with rfl | hcall
      · exact ⟨by decide, rfl⟩
      · rw [List.mem_singleton.mp hcall]
        exact ⟨by decide, rfl⟩
    · have hback := hreads (.object 0) (by decide) fun n hn v hv => ?_
      · cases hlookup.symm.trans hback
      · match n, hn with
        | 0, _ => exact Or.inl (Lookup.value.inj hv).symm
        | 1, _ => exact Or.inl (Lookup.value.inj (hstart.symm.trans hv)).symm

end XEmacs.Keymaps
