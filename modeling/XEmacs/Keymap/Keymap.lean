import Mathlib.Data.List.AList
import XEmacs.Lib.DottedList

/-! Keymaps (keymap.c): their two hash tables, the cache of their submaps, the low-level store,
and copying. A keymap is named by a number, and a hash table is an association list, whose order is
the order in which the table is mapped over. The conses of the inverse tables are in a heap. Left out
are parents, default bindings, prompts and names, and the buttons among the modifiers, which
the functions here take off a key first. -/

namespace XEmacs.Keymaps

open Lib

/-- The modifiers of a key, `XEMACS_MOD_CONTROL` and so on. -/
structure Modifiers where
  control : Bool
  modMeta : Bool
  super : Bool
  hyper : Bool
  alt : Bool
  shift : Bool
  deriving DecidableEq

namespace Modifiers

def none : Modifiers := ⟨false, false, false, false, false, false⟩

/-- `XEMACS_MOD_META` alone. -/
def onlyMeta : Modifiers := { none with modMeta := true }

def sansMeta (m : Modifiers) : Modifiers := { m with modMeta := false }

def bits (m : Modifiers) : ℕ :=
  m.control.toNat + 2 * m.modMeta.toNat + 4 * m.super.toNat + 8 * m.hyper.toNat + 16 * m.alt.toNat +
    32 * m.shift.toNat

end Modifiers

/-- A keysym; nil, which `canonicalize-keysym` warns about, is none. -/
inductive Keysym
  | symbol (name : String)
  | char (code : ℕ)
  deriving DecidableEq

def Keysym.fold : Keysym → Keysym
  | symbol name =>
    match name.toList with
    | [c] => char c.toNat
    | _ => symbol name
  | char code => char code

/-- `Lisp_Key_Data`. -/
structure KeyData where
  keysym : Keysym
  modifiers : Modifiers
  deriving DecidableEq

/-- A key of the hash table: a keysym, or a combination of modifiers by
`MAKE_MODIFIER_HASH_KEY`. -/
inductive TableKey
  | keysym (k : Keysym)
  | modifiers (m : Modifiers)
  deriving DecidableEq

/-- What a key may be bound to. An item is a cons that `get_keyelt` takes for another object: a menu
string with its definition, or an indirect definition through a keymap that is not changed. -/
inductive Value
  | nil
  | keymap (id : ℕ)
  | symbol (name : String)
  | object (id : ℕ)
  | item (id : ℕ) (value : Value)
  deriving DecidableEq

/-- What symbols stand for: the keymap that `indirect_function` finds, and the property
`character-of-keysym`. -/
structure Lisp where
  function : String → Option ℕ
  characterOfKeysym : String → Option ℕ

/-- `get_keymap` without an error, none for `Qnil`. -/
def Lisp.getKeymap (env : Lisp) : Value → Option ℕ
  | .keymap id => some id
  | .symbol name => env.function name
  | _ => none

/-- An object in an inverse table: a keysym, a cons, or nil, which is the atom none. -/
abbrev Object : Type := Ref (Option TableKey)

abbrev HashTable (κ β : Type) : Type := AList fun _ : κ => β

/-- A keymap; `subMapsCache` is none where it is `Qt`. -/
structure Keymap where
  table : HashTable TableKey Value
  inverseTable : HashTable Value Object
  subMapsCache : Option (List (TableKey × Value))

/-- The keymaps and the conses made so far. -/
structure State where
  keymaps : ℕ → Keymap
  nextKeymap : ℕ
  car : ℕ → Option TableKey
  cdr : ℕ → Object
  nextCons : ℕ

/-- How a function returns: it is done, it signals that a definition is cyclic, it takes the car of what
is no cons, it fails an assertion, or it does not end. -/
inductive Outcome
  | done
  | cyclic
  | walksOff
  | assertion
  | unfinished
  deriving DecidableEq

abbrev Result : Type := State × Outcome

def Result.andThen (r : Result) (f : State → Result) : Result :=
  if r.2 = .done then f r.1 else r

def Keymap.empty : Keymap := ⟨∅, ∅, some []⟩

def State.init : State := ⟨fun _ => .empty, 0, fun _ => none, fun _ => .atom none, 0⟩

namespace State

def modify (s : State) (id : ℕ) (f : Keymap → Keymap) : State :=
  { s with keymaps := Function.update s.keymaps id (f (s.keymaps id)) }

/-- `Fmake_sparse_keymap`; the new keymap is `nextKeymap`. -/
def makeKeymap (s : State) : State :=
  { s with keymaps := Function.update s.keymaps s.nextKeymap .empty, nextKeymap := s.nextKeymap + 1 }

/-- `Fcons`; the new cons is `nextCons`. -/
def cons (s : State) (car : Option TableKey) (cdr : Object) : State :=
  { s with
    car := Function.update s.car s.nextCons car
    cdr := Function.update s.cdr s.nextCons cdr
    nextCons := s.nextCons + 1 }

def setCdr (s : State) (x : ℕ) (cdr : Object) : State := { s with cdr := Function.update s.cdr x cdr }

/-- `Fgethash` in the table, with the default nil. -/
def gethash (s : State) (id : ℕ) (keysym : TableKey) : Value := ((s.keymaps id).table.lookup keysym).getD .nil

/-- `Fputhash` in the inverse table. -/
def putInverse (s : State) (id : ℕ) (value : Value) (keys : Object) : State :=
  s.modify id fun k => { k with inverseTable := k.inverseTable.insert value keys }

/-- `Fremhash` in the inverse table. -/
def remInverse (s : State) (id : ℕ) (value : Value) : State :=
  s.modify id fun k => { k with inverseTable := k.inverseTable.erase value }

/-- The last cons of a dotted list, with the atom after it; the first argument bounds the walk. -/
def lastCons (s : State) : ℕ → ℕ → Option (ℕ × Option TableKey)
  | 0, _ => none
  | fuel + 1, x =>
    match s.cdr x with
    | .cons y => lastCons s fuel y
    | .atom a => some (x, a)

/-- `keymap_store_inverse_internal`. -/
def storeInverse (s : State) (keysym : TableKey) (id : ℕ) (value : Value) : Result :=
  match (s.keymaps id).inverseTable.lookup value with
  | none => (s.putInverse id value (.atom (some keysym)), .done)
  | some (.atom keys) =>
    ((s.cons keys (.atom (some keysym))).putInverse id value (.cons s.nextCons), .done)
  | some (.cons x) =>
    match s.lastCons s.nextCons x with
    | none => (s, .unfinished)
    | some (y, a) => ((s.cons a (.atom (some keysym))).setCdr y (.cons s.nextCons), .done)

/-- Store through `prev`, which is the address of `new_keys` or of the cdr of a cons. -/
def storePrev (s : State) (newKeys : Object) (prev : Option ℕ) (value : Object) : State × Object :=
  match prev with
  | none => (s, value)
  | some x => (s.setCdr x value, newKeys)

/-- The loop of `keymap_delete_inverse_internal`: the conses and `new_keys` at its end. -/
def deleteLoop (s : State) (keysym : TableKey) (newKeys : Object) :
    ℕ → Option ℕ → Object → Except Outcome (State × Object)
  | 0, _, _ => .error .unfinished
  | fuel + 1, prev, tail =>
    if tail = .atom (some keysym) then .ok (s.storePrev newKeys prev (.atom none))
    else
      match tail with
      | .atom _ => .error .walksOff
      | .cons x =>
        if s.car x = some keysym then .ok (s.storePrev newKeys prev (s.cdr x))
        else deleteLoop s keysym newKeys fuel (some x) (s.cdr x)

/-- `keymap_delete_inverse_internal`. -/
def deleteInverse (s : State) (keysym : TableKey) (id : ℕ) (value : Value) : Result :=
  match (s.keymaps id).inverseTable.lookup value with
  | none => (s, .assertion)
  | some keys =>
    match s.deleteLoop keysym keys (s.nextCons + 1) none keys with
    | .error e => (s, e)
    | .ok (s, newKeys) =>
      if newKeys = .atom none then (s.remInverse id value, .done)
      else if keys ≠ newKeys then (s.putInverse id value newKeys, .done)
      else (s, .done)

/-- The atoms of a dotted list, in the order in which `where_is_recursive_mapper` goes through
them. -/
def readKeys (s : State) : ℕ → Object → List (Option TableKey)
  | _, .atom a => [a]
  | 0, .cons _ => []
  | fuel + 1, .cons x => s.car x :: readKeys s fuel (s.cdr x)

/-- What an inverse table lists under a definition, as `where_is_recursive_mapper` reads it. -/
def listed (s : State) (id : ℕ) (value : Value) : List (Option TableKey) :=
  match (s.keymaps id).inverseTable.lookup value with
  | none => []
  | some (.atom none) => []
  | some keys => s.readKeys s.nextCons keys

end State

namespace Lisp

variable (env : Lisp)

/-- What `map_keymap_sort_predicate` compares: bits, a character, which may be the property of a
symbol, or a name. -/
inductive SortCode
  | bits (n : ℕ)
  | char (code : ℕ) (ofSymbol : Bool)
  | name (s : String)

def sortCode : TableKey → SortCode
  | .modifiers m => .bits m.bits
  | .keysym (.char code) => .char code false
  | .keysym (.symbol name) =>
    match env.characterOfKeysym name with
    | some code => .char code true
    | none => .name name

def mapKeymapSortPredicate (obj1 obj2 : TableKey) : Bool :=
  if obj1 = obj2 then false
  else
    match env.sortCode obj1, env.sortCode obj2 with
    | .char o1 sym1, .char o2 sym2 => if o1 = o2 ∧ sym1 ≠ sym2 then sym2 else o1 < o2
    | .bits bit1, .bits bit2 => bit1 < bit2
    | .name s1, .name s2 => s1 < s2
    | _, .name _ => true
    | _, _ => false

/-- The entries that `keymap_submaps_mapper` collects; `Fkeymapp` is `get_keymap`. -/
def submapEntries (table : HashTable TableKey Value) : List (TableKey × Value) :=
  (table.entries.filter fun e => (env.getKeymap e.2).isSome).map fun e => (e.1, e.2)

/-- `keymap_submaps`, with the conses put in front one after the other and then sorted. -/
def keymapSubmaps (s : State) (id : ℕ) : State × List (TableKey × Value) :=
  match (s.keymaps id).subMapsCache with
  | some maps => (s, maps)
  | none =>
    let maps := (env.submapEntries (s.keymaps id).table).reverse.mergeSort
      fun a b => !env.mapKeymapSortPredicate b.1 a.1
    (s.modify id fun k => { k with subMapsCache := some maps }, maps)

def checkKeymapDefinitionLoop : ℕ → State → Value → ℕ → Result
  | 0, s, _, _ => (s, .unfinished)
  | fuel + 1, s, definition, toKeymap =>
    match env.getKeymap definition with
    | none => (s, .done)
    | some id =>
      if id = toKeymap then (s, .cyclic)
      else
        let r := env.keymapSubmaps s id
        r.2.foldl (fun r e => Result.andThen r fun s => checkKeymapDefinitionLoop fuel s e.2 toKeymap)
          (r.1, .done)

def keymapStoreInternal (fuel : ℕ) (s : State) (keysym : TableKey) (id : ℕ) (definition : Value) : Result :=
  let prevDef := s.gethash id keysym
  if prevDef = definition then (s, .done)
  else
    (env.checkKeymapDefinitionLoop fuel s definition id).andThen fun s =>
      (if prevDef = .nil then (s, .done) else s.deleteInverse keysym id prevDef : Result).andThen fun s =>
        if definition = .nil then
          (s.modify id fun k => { k with table := k.table.erase keysym }, .done)
        else
          (s.modify id fun k => { k with table := k.table.insert keysym definition }).storeInverse keysym id definition

/-- The submap for a combination of modifiers, made by `create_bucky_submap` where there is none. A slot
for modifiers holds nothing but a keymap. -/
def buckySubmap (fuel : ℕ) (s : State) (id : ℕ) (m : Modifiers) : Result × ℕ :=
  match s.gethash id (.modifiers m) with
  | .nil =>
    let s' := s.makeKeymap.modify id fun k => { k with subMapsCache := none }
    (env.keymapStoreInternal fuel s' (.modifiers m) id (.keymap s.nextKeymap), s.nextKeymap)
  | .keymap submap => ((s, .done), submap)
  | _ => ((s, .assertion), id)

def keymapStore (fuel : ℕ) (s : State) (id : ℕ) (key : KeyData) (value : Value) : Result :=
  let keysym := key.keysym.fold
  let r := if key.modifiers.modMeta then env.buckySubmap fuel s id .onlyMeta else ((s, .done), id)
  r.1.andThen fun s =>
    let m := key.modifiers.sansMeta
    let r := if m ≠ .none then env.buckySubmap fuel s r.2 m else ((s, .done), r.2)
    r.1.andThen fun s =>
      env.keymapStoreInternal fuel (s.modify r.2 fun k => { k with subMapsCache := none }) (.keysym keysym) r.2 value

/-- `Fcopy_list`; the first cons of the copy is `nextCons`. -/
def copyList : ℕ → State → ℕ → Result
  | 0, s, _ => (s, .unfinished)
  | fuel + 1, s, x =>
    let copy := s.nextCons
    let s' := s.cons (s.car x) (s.cdr x)
    match s.cdr x with
    | .atom _ => (s', .done)
    | .cons y => (copyList fuel s' y).andThen fun t => (t.setCdr copy (.cons s'.nextCons), .done)

/-- `copy_keymap_inverse_mapper` on the entries of an inverse table. -/
def copyInverse (id : ℕ) : List (Sigma fun _ : Value => Object) → State → Result
  | [], s => (s, .done)
  | ⟨value, .atom a⟩ :: entries, s => copyInverse id entries (s.putInverse id value (.atom a))
  | ⟨value, .cons x⟩ :: entries, s =>
    (copyList s.nextCons s x).andThen fun t => copyInverse id entries (t.putInverse id value (.cons s.nextCons))

/-- `copy_keymap_internal`; the copy is `nextKeymap`, and the keymap that is copied gets the copied
lists. -/
def copyKeymapInternal (s : State) (id : ℕ) : Result :=
  let k := s.keymaps id
  let s' : State :=
    { s with
      keymaps := Function.update s.keymaps s.nextKeymap ⟨k.table, k.inverseTable, some []⟩
      nextKeymap := s.nextKeymap + 1 }
  copyInverse id k.inverseTable.entries s'

/-- `copy_keymap`; the copy is `nextKeymap`. -/
def copyKeymap : ℕ → State → ℕ → Result
  | 0, s, _ => (s, .unfinished)
  | fuel + 1, s, id =>
    let self := s.nextKeymap
    (copyKeymapInternal s id).andThen fun s =>
      (s.keymaps self).table.entries.foldl
        (fun r e => Result.andThen r fun s =>
          match env.getKeymap e.2 with
          | none => (s, .done)
          | some submap =>
            (copyKeymap fuel s submap).andThen fun t =>
              env.keymapStoreInternal fuel t e.1 self (.keymap s.nextKeymap))
        (s, .done)

end Lisp

end XEmacs.Keymaps
