import XEmacs.Lib.Marking
import XEmacs.Table.HashTable
import Mathlib.Data.Fintype.Basic

/-! Weak hash tables and the garbage collector. Objects are in a memory of `n` places, and a place
that was swept is not used again. No weak lists, ephemerons or finalizers take part in marking but the
list of weak tables itself, whose conses are marked where their tables are. The hash functions of
tests do not change while an object is a key. -/

namespace XEmacs.Table

open Lib.Marking HashTable

/-- A Lisp object: a fixnum or a character, or a pointer. -/
inductive LispWord (n : ℕ)
  | immediate (k : ℤ)
  | pointer (a : Fin n)
  deriving DecidableEq

/-- What is at a place. -/
inductive Content (n : ℕ)
  | unused
  | cons (car cdr : LispWord n)
  | other (refs : List (LispWord n))
  | hashTable (ht : HashTable (LispWord n) (LispWord n))
  | swept

/-- The memory, and the elements of `Vall_weak_hash_tables`. -/
structure Memory (n : ℕ) where
  heap : Fin n → Content n
  allWeakHashTables : List (Fin n)

variable {n : ℕ}

def LispWord.address : LispWord n → List (Fin n)
  | immediate _ => []
  | pointer a => [a]

/-- The objects that are marked with an object; the entries of a weak table are not. -/
def Content.refs : Content n → List (Fin n)
  | cons car cdr => car.address ++ cdr.address
  | other refs => refs.flatMap LispWord.address
  | hashTable ht =>
    if ht.weakness = .nonWeak then
      (ht.hentries.filterMap id).flatMap fun e => e.key.address ++ e.value.address
    else []
  | _ => []

/-- An object that is not a hash table, or a place for one. -/
def Content.writable : Content n → Bool
  | .unused => true
  | .cons .. => true
  | .other _ => true
  | _ => false

def Content.isUnused : Content n → Bool
  | .unused => true
  | _ => false

def Content.table : Content n → Option (HashTable (LispWord n) (LispWord n))
  | .hashTable ht => some ht
  | _ => none

def markedP (marks : Finset (Fin n)) : LispWord n → Bool
  | .immediate _ => true
  | .pointer a => a ∈ marks

/-- `MARK_OBJ`: what it pushes. -/
def markObj (marks : Finset (Fin n)) (obj : LispWord n) : List (Fin n) :=
  if markedP marks obj then [] else obj.address

/-- `!CONSP (obj) || marked_p (XCAR (obj))`. -/
def carMarkedP (heap : Fin n → Content n) (marks : Finset (Fin n)) : LispWord n → Bool
  | .immediate _ => true
  | .pointer a =>
    match heap a with
    | .cons car _ => markedP marks car
    | _ => true

/-- What `finish_marking_weak_hash_tables` pushes for an entry. -/
def finishMarkingEntry (heap : Fin n → Content n) (marks : Finset (Fin n)) (weakness : HashTableWeakness)
    (e : Htentry (LispWord n) (LispWord n)) : List (Fin n) :=
  match weakness with
  | .keyWeak => if markedP marks e.key then markObj marks e.value else []
  | .valueWeak => if markedP marks e.value then markObj marks e.key else []
  | .keyValueWeak =>
    if markedP marks e.value then markObj marks e.key
    else if markedP marks e.key then markObj marks e.value
    else []
  | .keyCarWeak => if carMarkedP heap marks e.key then markObj marks e.key ++ markObj marks e.value else []
  | .keyCarValueWeak =>
    if carMarkedP heap marks e.key then markObj marks e.key ++ markObj marks e.value
    else if markedP marks e.value then markObj marks e.key
    else []
  | .valueCarWeak => if carMarkedP heap marks e.value then markObj marks e.key ++ markObj marks e.value else []
  | _ => []

namespace Memory

/-- `finish_marking_weak_hash_tables`: what it pushes. -/
def finishMarkingWeakHashTables (S : Memory n) (marks : Finset (Fin n)) : List (Fin n) :=
  S.allWeakHashTables.flatMap fun a =>
    if a ∈ marks then
      match S.heap a with
      | .hashTable ht => (ht.hentries.filterMap id).flatMap (finishMarkingEntry S.heap marks ht.weakness)
      | _ => []
    else []

/-- The mark phase, with `gc_finish_mark`. -/
def markPhase (S : Memory n) (roots : List (Fin n)) : Option (Finset (Fin n)) :=
  (mark (fun a => (S.heap a).refs) roots ∅).bind fun marks =>
    markLoop (fun a => (S.heap a).refs) S.finishMarkingWeakHashTables (n + 1) marks

/-- The part of `prune_weak_hash_tables` after `again`. -/
def pruneSlot (M : KeyMethods (LispWord n)) (marks : Finset (Fin n)) :
    ℕ → HashTable (LispWord n) (LispWord n) → ℕ → Option (HashTable (LispWord n) (LispWord n))
  | 0, _, _ => none
  | fuel + 1, ht, e =>
    match ht.hentries[e]?.join with
    | none => some ht
    | some entry =>
      if !markedP marks entry.key || !markedP marks entry.value then
        (ht.remhash1 M e).bind fun ht => pruneSlot M marks fuel ht e
      else some ht

/-- The loop of `prune_weak_hash_tables` over the slots of a table. -/
def pruneSlots (M : KeyMethods (LispWord n)) (marks : Finset (Fin n)) :
    List ℕ → HashTable (LispWord n) (LispWord n) → Option (HashTable (LispWord n) (LispWord n))
  | [], ht => some ht
  | e :: slots, ht => (pruneSlot M marks (ht.size + 1) ht e).bind (pruneSlots M marks slots)

/-- `prune_weak_hash_tables`. -/
def pruneTables (M : KeyMethods (LispWord n)) (marks : Finset (Fin n)) :
    List (Fin n) → (Fin n → Content n) → Option (Fin n → Content n)
  | [], heap => some heap
  | a :: tables, heap =>
    match heap a with
    | .hashTable ht =>
      (pruneSlots M marks (List.range ht.size) ht).bind fun ht =>
        pruneTables M marks tables (Function.update heap a (.hashTable ht))
    | _ => pruneTables M marks tables heap

def sweep (marks : Finset (Fin n)) (heap : Fin n → Content n) (a : Fin n) : Content n :=
  if a ∈ marks then heap a
  else
    match heap a with
    | .unused => .unused
    | _ => .swept

/-- A collection, with the marks; `prune_weak_lists` takes the tables that are garbage off the list. -/
def collect (M : KeyMethods (LispWord n)) (S : Memory n) (roots : List (Fin n)) :
    Option (Memory n × Finset (Fin n)) :=
  (S.markPhase roots).bind fun marks =>
    let tables := S.allWeakHashTables.filter (· ∈ marks)
    (pruneTables M marks tables S.heap).map fun heap => (⟨sweep marks heap, tables⟩, marks)

/-- An action: `write` makes or changes an object that is not a hash table. -/
inductive Action (n : ℕ)
  | write (a : Fin n) (refs : List (LispWord n))
  | writeCons (a : Fin n) (car cdr : LispWord n)
  | makeHashTable (a : Fin n) (test : HashTableTest (LispWord n)) (size rehashSize rehashThreshold : KeywordArg)
      (weakness : HashTableWeakness)
  | copyHashTable (a table : Fin n)
  | puthash (table : Fin n) (key value : LispWord n)
  | remhash (table : Fin n) (key : LispWord n)
  | collect (roots : List (Fin n))

/-- The memory with a table, which `make_general_lisp_hash_table` enters in the list if it is weak. -/
def addTable (S : Memory n) (a : Fin n) (ht : HashTable (LispWord n) (LispWord n)) : Memory n :=
  { heap := Function.update S.heap a (.hashTable ht)
    allWeakHashTables := if ht.weakness ≠ .nonWeak then a :: S.allWeakHashTables else S.allWeakHashTables }

/-- The memory with a copy at `a` of the table at `table`; `copy-hash-table` enters `table` in the list. -/
def addCopy (S : Memory n) (a table : Fin n) (ht : HashTable (LispWord n) (LispWord n)) : Memory n :=
  { heap := Function.update S.heap a (.hashTable ht.copy)
    allWeakHashTables := if ht.weakness ≠ .nonWeak then table :: S.allWeakHashTables else S.allWeakHashTables }

def step (M : KeyMethods (LispWord n)) (S : Memory n) : Action n → Option (Memory n)
  | .write a refs =>
    if (S.heap a).writable then some { S with heap := Function.update S.heap a (.other refs) } else none
  | .writeCons a car cdr =>
    if (S.heap a).writable then some { S with heap := Function.update S.heap a (.cons car cdr) } else none
  | .makeHashTable a test size rehashSize rehashThreshold weakness =>
    if (S.heap a).isUnused then
      match HashTable.makeHashTable test size rehashSize rehashThreshold weakness with
      | .ok ht => some (S.addTable a ht)
      | .error _ => some S
    else none
  | .copyHashTable a table =>
    if (S.heap a).isUnused then (S.heap table).table.map (S.addCopy a table) else none
  | .puthash table key value =>
    (S.heap table).table.bind fun ht =>
      (ht.puthash M key value).map fun ht => { S with heap := Function.update S.heap table (.hashTable ht) }
  | .remhash table key =>
    (S.heap table).table.bind fun ht =>
      (ht.remhash M key).map fun result => { S with heap := Function.update S.heap table (.hashTable result.1) }
  | .collect roots => (S.collect M roots).map (·.1)

end Memory

end XEmacs.Table
