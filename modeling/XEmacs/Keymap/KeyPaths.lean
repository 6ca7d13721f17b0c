import XEmacs.Lib.HeapTrie
import XEmacs.Keymap.KeymapLookup

/-! Keymaps as a trie. A key is a word of up to three letters, two combinations of modifiers and a keysym, and the
words of sequences of keys start each other just where the sequences do. Looking a sequence up is following its
word in the tables of the keymaps. -/

namespace XEmacs.Keymaps

open Lib

variable {env : Lisp} {mpc : MetaPrefixChar} {s t : State} {root id n c : ℕ} {addr : ℕ → Option (List TableKey)}
  {a p q : List TableKey} {key key' : KeyData} {keys keys' : List KeyData} {value : Value}

/-- The modifiers of a key in the order in which their submaps are gone through. -/
def Modifiers.path (m : Modifiers) : List TableKey :=
  (if m.modMeta then [.modifiers .onlyMeta] else []) ++ if m.sansMeta ≠ .none then [.modifiers m.sansMeta] else []

def KeyData.path (key : KeyData) : List TableKey := key.modifiers.path ++ [.keysym key.keysym.fold]

def KeyData.fold (key : KeyData) : KeyData := { key with keysym := key.keysym.fold }

def path (keys : List KeyData) : List TableKey := keys.flatMap KeyData.path

theorem path_cons (key : KeyData) (keys : List KeyData) : path (key :: keys) = key.path ++ path keys := rfl

theorem path_append (keys keys' : List KeyData) : path (keys ++ keys') = path keys ++ path keys' := List.flatMap_append

theorem path_singleton (key : KeyData) : path [key] = key.path := List.append_nil _

theorem Modifiers.ext_of_path {m m' : Modifiers} (h : m.path = m'.path) : m = m' := by
  have hsans : ∀ m : Modifiers, m.sansMeta ≠ .onlyMeta := fun m heq => by
    exact Bool.false_ne_true (congrArg Modifiers.modMeta heq)
  have hboth : m.modMeta = m'.modMeta ∧ m.sansMeta = m'.sansMeta := by
    rw [path, path] at h
    cases hm : m.modMeta <;> cases hm' : m'.modMeta <;> by_cases hs : m.sansMeta = .none <;>
      by_cases hs' : m'.sansMeta = .none <;> simp_all
    exact hsans m' rfl
  obtain ⟨control, modMeta, super, hyper, alt, shift⟩ := m
  obtain ⟨control', modMeta', super', hyper', alt', shift'⟩ := m'
  simp only [sansMeta, mk.injEq] at hboth
  obtain ⟨rfl, rfl, -, rfl, rfl, rfl, rfl⟩ := hboth
  rfl

theorem Modifiers.mem_path {m : Modifiers} {tk : TableKey} (h : tk ∈ m.path) : ∃ m', tk = .modifiers m' := by
  rw [path] at h
  rcases List.mem_append.mp h with h | h <;> split_ifs at h
  · exact ⟨_, List.mem_singleton.mp h⟩
  · cases h
  · exact ⟨_, List.mem_singleton.mp h⟩
  · cases h

theorem modifiers_append_inj {l l' : List TableKey} (hl : ∀ tk ∈ l, ∃ m, tk = .modifiers m)
    (hl' : ∀ tk ∈ l', ∃ m, tk = .modifiers m) {k k' : Keysym} (h : l ++ .keysym k :: p = l' ++ .keysym k' :: q) :
    l = l' ∧ k = k' ∧ p = q := by
  induction l generalizing l' with
  | nil =>
    cases l' with
    | nil =>
      obtain ⟨hk, hp⟩ := List.cons.inj h
      exact ⟨rfl, TableKey.keysym.inj hk, hp⟩
    | cons tk l' =>
      obtain ⟨m, rfl⟩ := hl' tk List.mem_cons_self
      exact TableKey.noConfusion (List.cons.inj h).1
  | cons tk l ih =>
    obtain ⟨m, rfl⟩ := hl tk List.mem_cons_self
    cases l' with
    | nil => exact TableKey.noConfusion (List.cons.inj h).1
    | cons tk' l' =>
      obtain ⟨htk, htail⟩ := List.cons.inj h
      obtain ⟨rfl, hk, hp⟩ := ih (fun tk htk => hl tk (List.mem_cons_of_mem _ htk))
        (fun tk htk => hl' tk (List.mem_cons_of_mem _ htk)) htail
      exact ⟨by rw [htk], hk, hp⟩

theorem KeyData.path_append_inj (h : key.path ++ p = key'.path ++ q) : key.fold = key'.fold ∧ p = q := by
  rw [path, path, List.append_assoc, List.append_assoc, List.singleton_append, List.singleton_append] at h
  obtain ⟨hmods, hk, hp⟩ := modifiers_append_inj (fun _ => Modifiers.mem_path) (fun _ => Modifiers.mem_path) h
  refine ⟨?_, hp⟩
  rw [KeyData.fold, KeyData.fold, Modifiers.ext_of_path hmods, hk]

theorem KeyData.path_eq_of_fold (h : key.fold = key'.fold) : key.path = key'.path := by
  obtain ⟨hk, hm⟩ := KeyData.mk.inj h
  rw [path, path, hk, hm]

theorem path_eq_of_fold (h : keys.map KeyData.fold = keys'.map KeyData.fold) : path keys = path keys' := by
  induction keys generalizing keys' with
  | nil =>
    obtain rfl := List.map_eq_nil_iff.mp h.symm
    rfl
  | cons key keys ih =>
    obtain ⟨key', keys', rfl, hkey, hkeys⟩ := List.map_eq_cons_iff.mp h.symm
    rw [path_cons, path_cons, ih hkeys.symm, KeyData.path_eq_of_fold hkey]

theorem path_ne_nil (key : KeyData) (keys : List KeyData) : path (key :: keys) ≠ [] := by
  rw [path_cons, KeyData.path]
  exact List.append_ne_nil_of_left_ne_nil (List.append_ne_nil_of_right_ne_nil _ (List.cons_ne_nil _ _)) _

theorem path_prefix_iff : path keys <+: path keys' ↔ keys.map KeyData.fold <+: keys'.map KeyData.fold := by
  induction keys generalizing keys' with
  | nil => exact iff_of_true List.nil_prefix List.nil_prefix
  | cons key keys ih =>
    cases keys' with
    | nil =>
      refine iff_of_false (fun h => path_ne_nil key keys (List.prefix_nil.mp h)) fun h => ?_
      exact List.cons_ne_nil _ _ (List.prefix_nil.mp h)
    | cons key' keys' =>
      rw [List.map_cons, List.map_cons, List.cons_prefix_cons, ← ih, path_cons, path_cons]
      constructor
      · rintro ⟨r, hr⟩
        rw [List.append_assoc] at hr
        obtain ⟨hkey, hrest⟩ := KeyData.path_append_inj hr
        exact ⟨hkey, r, hrest⟩
      · rintro ⟨hkey, r, hr⟩
        refine ⟨r, ?_⟩
        rw [List.append_assoc, hr, KeyData.path_eq_of_fold hkey]

theorem path_eq_iff : path keys = path keys' ↔ keys.map KeyData.fold = keys'.map KeyData.fold := by
  refine ⟨fun h => ?_, path_eq_of_fold⟩
  have hpre : keys.map KeyData.fold <+: keys'.map KeyData.fold := path_prefix_iff.mp (h ▸ List.prefix_refl (path keys))
  have hpre' : keys'.map KeyData.fold <+: keys.map KeyData.fold := path_prefix_iff.mp (h ▸ List.prefix_refl (path keys))
  exact hpre.eq_of_length_le hpre'.length_le

end XEmacs.Keymaps
