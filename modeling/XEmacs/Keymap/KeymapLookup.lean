import XEmacs.Keymap.KeymapStore

/-! Defining and looking up sequences of keys (keymap.c). A sequence is a vector whose keys are given as
`define_key_parser` returns them; the vectors of `remap` and a command are for `remap_command`, which is
left out, and so are parents and default bindings. -/

namespace XEmacs.Keymaps

/-- `Vmeta_prefix_char`: the key that it stands for, unless it is nil or no character, and the keys that
`meta_prefix_char_p` takes for it. -/
structure MetaPrefixChar where
  key : Option KeyData
  metaPrefixCharP : KeyData → Bool

def Value.getKeyelt : Value → Value
  | item _ value => value.getKeyelt
  | value => value

def KeyData.metified (key : KeyData) : KeyData := { key with modifiers := { key.modifiers with modMeta := true } }

namespace State

def keymapLookupDirectly (s : State) (id : ℕ) (key : KeyData) : Value :=
  let keysym := key.keysym.fold
  match if key.modifiers.modMeta then s.slot id .onlyMeta else some id with
  | none => .nil
  | some k =>
    let modifiers := key.modifiers.sansMeta
    match if modifiers ≠ .none then s.slot k modifiers else some k with
    | none => .nil
    | some k => s.gethash k (.keysym keysym)

def keymapLookup1 (s : State) (id : ℕ) (key : KeyData) : Value := (s.keymapLookupDirectly id key).getKeyelt

end State

/-- The value of `lookup-key`: a binding, or a number where the keys are too many. -/
inductive Lookup
  | value (cmd : Value)
  | number (keysSoFar : ℕ)
  deriving DecidableEq

/-- How `define-key` fails: at the binding of the meta prefix character, at a key that is no prefix, or
in a store. -/
inductive DefineError
  | metaPrefixBound (mpcBinding : Value)
  | invalidPrefix (key : KeyData)
  | store (o : Outcome)

def Result.stored (r : Result) : Except DefineError State :=
  if r.2 = .done then .ok r.1 else .error (.store r.2)

namespace Lisp

variable (env : Lisp) (mpc : MetaPrefixChar)

def rawLookupKey (s : State) : ℕ → List KeyData → ℕ → Lookup
  | _, [], _ => .value .nil
  | id, [key], _ =>
    let cmd := s.keymapLookup1 id key
    if !mpc.metaPrefixCharP key then .value cmd
    -- the map of the meta keys stands for an unbound meta prefix character
    else if cmd = .nil then .value (s.gethash id (.modifiers .onlyMeta))
    else .value cmd
  | id, key :: next :: keys, keysSoFar =>
    let cmd := s.keymapLookup1 id key
    if !mpc.metaPrefixCharP key then
      if cmd = .nil then .value .nil
      else
        match env.getKeymap cmd with
        | none => .number (keysSoFar + 1)
        | some k => rawLookupKey s k (next :: keys) (keysSoFar + 1)
    else
      match env.getKeymap cmd with
      | some k => rawLookupKey s k (next :: keys) (keysSoFar + 1)
      | none =>
        if next.modifiers.modMeta then .value .nil
        else
          let cmd := s.keymapLookup1 id next.metified
          if keys = [] then .value cmd
          else
            match env.getKeymap cmd with
            | none => .value .nil
            | some k => rawLookupKey s k keys (keysSoFar + 2)

def lookupKeys (s : State) (id : ℕ) (keys : List KeyData) : Lookup :=
  if keys = [] then .value .nil else env.rawLookupKey mpc s id keys 0

/-- `ensure_meta_prefix_char_keymapp`, with the binding of the meta prefix character that is no keymap. -/
def ensureMetaPrefixCharKeymapp (s : State) (id : ℕ) : Option Value :=
  match mpc.key with
  | none => none
  | some metaKey =>
    let mpcBinding := s.keymapLookup1 id metaKey
    if mpcBinding = .nil ∨ (env.getKeymap mpcBinding).isSome then none else some mpcBinding

def definePrefix (fuel : ℕ) (s : State) (id : ℕ) (key : KeyData) : Except DefineError (State × Value) :=
  let cmd := s.keymapLookup1 id key
  if cmd = .nil then
    (env.keymapStore fuel s.makeKeymap id key (.keymap s.nextKeymap)).stored.map (·, .keymap s.nextKeymap)
  else .ok (s, cmd)

/-- `Fdefine_key` for a vector of keys. -/
def defineKey (fuel : ℕ) : State → ℕ → List KeyData → Value → Except DefineError State
  | s, _, [], _ => .ok s
  | s, id, key :: keys, definition =>
    match if key.modifiers.modMeta then env.ensureMetaPrefixCharKeymapp mpc s id else none with
    | some mpcBinding => .error (.metaPrefixBound mpcBinding)
    | none =>
      if keys = [] then (env.keymapStore fuel s id key definition).stored
      else
        match env.definePrefix fuel s id key with
        | .error e => .error e
        | .ok (s, cmd) =>
          match env.getKeymap cmd with
          | none => .error (.invalidPrefix key)
          | some k => defineKey fuel s k keys definition

/-- Calls of `define-key` on one keymap. -/
def defineKeys (fuel : ℕ) (id : ℕ) : State → List (List KeyData × Value) → Except DefineError State
  | s, [] => .ok s
  | s, (keys, definition) :: calls =>
    match env.defineKey mpc fuel s id keys definition with
    | .error e => .error e
    | .ok s => defineKeys fuel id s calls

end Lisp

end XEmacs.Keymaps
