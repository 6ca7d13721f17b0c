import XEmacs.Lib.Probing
import XEmacs.Lib.Transition
import Mathlib.Data.Rat.Floor
import Mathlib.Data.Nat.Bitwise

/-! Hash tables of elhash.c. `EQ` is equality of keys; what else tables ask of their keys is in
`KeyMethods`. The sentinel entry, which is never occupied, is the position past the list of
entries. Doubles are exact rationals, and a conversion to `Elemcount` is the floor. A function
gives `none` where a loop of the source does not end. -/

namespace XEmacs.Table

/-- What hash tables ask of their keys. The laws are about objects that `internal_equal` compares
with `EQ` and `internal_hash` hashes with `LISP_HASH`. -/
structure KeyMethods (K : Type*) where
  lispHash : K → UInt64
  internalEqual : K → K → Bool
  internalEqualp : K → K → Bool
  /-- `internal_hash` at depth 0 -/
  internalHash : K → Bool → UInt64
  fixnump : K → Bool
  charp : K → Bool
  symbolp : K → Bool
  nonFixnumNumberp : K → Bool
  equal_immediate : ∀ k k', fixnump k ∨ charp k ∨ symbolp k → (internalEqual k' k = true ↔ k' = k)
  hash_immediate : ∀ k, fixnump k ∨ charp k ∨ symbolp k → internalHash k false = lispHash k
  equalp_symbol : ∀ k k', symbolp k → (internalEqualp k' k = true ↔ k' = k)
  hashp_symbol : ∀ k, symbolp k → internalHash k true = lispHash k
  equal_number : ∀ k k', internalEqual k' k = true → nonFixnumNumberp k' = nonFixnumNumberp k

/-- `Hash_Table_Test`: the tests of elhash.c, and those of `define-hash-table-test`. -/
inductive HashTableTest (K : Type*)
  | eq
  | eql
  | equal
  | equalp
  | general (equalFunction : K → K → Bool) (hashFunction : K → UInt64)

inductive HashTableWeakness
  | nonWeak
  | keyWeak
  | valueWeak
  | keyValueWeak
  | keyCarWeak
  | valueCarWeak
  | keyCarValueWeak
  | weak
  deriving DecidableEq

structure Htentry (K V : Type*) where
  key : K
  value : V
  deriving DecidableEq

/-- `Lisp_Hash_Table`. -/
structure HashTable (K V : Type*) where
  size : ℕ
  count : ℕ
  rehashCount : ℕ
  rehashSize : ℚ
  rehashThreshold : ℚ
  goldenRatio : ℕ
  hentries : List (Option (Htentry K V))
  test : HashTableTest K
  weakness : HashTableWeakness

variable {K V E : Type*}

namespace HashTableTest

/-- The `hash_function` of a test; for `eq` it is `LISP_HASH`, as in `HASHCODE`. -/
def hashFunction (M : KeyMethods K) : HashTableTest K → K → UInt64
  | eq, obj => M.lispHash obj
  | eql, obj => if M.nonFixnumNumberp obj then M.internalHash obj false else M.lispHash obj
  | equal, obj => M.internalHash obj false
  | equalp, obj => M.internalHash obj true
  | general _ hashFunction, obj => hashFunction obj

variable [DecidableEq K]

/-- The `equal_function` of a test. -/
def equalFunction (M : KeyMethods K) : HashTableTest K → K → K → Bool
  | eq, obj₁, obj₂ => obj₁ = obj₂
  | eql, obj₁, obj₂ => obj₁ = obj₂ ∨ (M.nonFixnumNumberp obj₁ ∧ M.internalEqual obj₁ obj₂)
  | equal, obj₁, obj₂ => M.internalEqual obj₁ obj₂
  | equalp, obj₁, obj₂ => M.internalEqualp obj₁ obj₂
  | general equalFunction _, obj₁, obj₂ => equalFunction obj₁ obj₂

/-- `choose_hash_table_test_for_lookup`. -/
def chooseForLookup (M : KeyMethods K) : HashTableTest K → K → HashTableTest K
  | eq, _ => eq
  | eql, key => if M.nonFixnumNumberp key then equal else eq
  | equal, key => if M.fixnump key ∨ M.charp key ∨ M.symbolp key then eq else equal
  | equalp, key => if M.symbolp key then eq else equalp
  | general f g, _ => general f g

/-- What a loop of `find_htentry_1` breaks at. -/
def lookupMatch (M : KeyMethods K) (test : HashTableTest K) (key : K) (e : Htentry K V) : Bool :=
  match test with
  | eq => e.key = key
  | test => e.key = key ∨ test.equalFunction M e.key key

end HashTableTest

/-- The test of `LINEAR_PROBING_LOOP` sets a probe at the sentinel to the first entry. -/
def wrapProbe (size probe : ℕ) : ℕ := if probe = size then 0 else probe

/-- `LINEAR_PROBING_LOOP` with a body that breaks at the entries that `brk` holds of: where
`probe` ends. -/
def linearProbingLoop (entries : List (Option E)) (brk : E → Bool) : ℕ → ℕ → Option ℕ
  | 0, _ => none
  | fuel + 1, probe =>
    let probe := wrapProbe entries.length probe
    match entries[probe]?.join with
    | none => some probe
    | some e => if brk e then some probe else linearProbingLoop entries brk fuel (probe + 1)

/-- `LINEAR_PROBING_LOOP` from `probe`; more rounds than slots and the sentinel are never needed. -/
def probeFrom (entries : List (Option E)) (brk : E → Bool) (probe : ℕ) : Option ℕ :=
  linearProbingLoop entries brk (entries.length + 1) probe

/-- The table of `hash_table_size`. -/
def primes : List ℕ :=
  [19, 29, 41, 59, 79, 107, 149, 197, 263, 347, 457, 599, 787, 1031,
    1361, 1777, 2333, 3037, 3967, 5167, 6719, 8737, 11369, 14783,
    19219, 24989, 32491, 42257, 54941, 71429, 92861, 120721, 156941,
    204047, 265271, 344857, 448321, 582821, 757693, 985003, 1280519,
    1664681, 2164111, 2813353, 3657361, 4754591, 6180989, 8035301,
    10445899, 13579681, 17653589, 22949669, 29834603, 38784989,
    50420551, 65546729, 85210757, 110774011, 144006217, 187208107,
    243370577, 316381771, 411296309, 534685237, 695090819, 903618083,
    1174703521, 1527114613, 1985248999]

/-- The loop of `hash_table_size`. -/
def sizeLoop (requestedSize : ℕ) : ℕ → ℕ → ℕ → ℕ
  | 0, _, high => high
  | fuel + 1, low, high =>
    if high - low > 1 then
      let mid := (low + high) / 2
      if primes.getD mid 0 < requestedSize then sizeLoop requestedSize fuel mid high
      else sizeLoop requestedSize fuel low mid
    else high

def hashTableSize (requestedSize : ℕ) : ℕ :=
  primes.getD (sizeLoop requestedSize primes.length 0 (primes.length - 1)) 0

namespace HashTable

/-- `compute_hash_table_derived_values`, the golden ratio. -/
def computeGoldenRatio (size : ℕ) : ℕ :=
  if size &&& (size - 1) = 0 then 1 else ⌊(size : ℚ) * (6180339887 / 10000000000 / 8)⌋₊

/-- `compute_hash_table_derived_values`. -/
def computeDerivedValues (ht : HashTable K V) : HashTable K V :=
  { ht with goldenRatio := computeGoldenRatio ht.size
            rehashCount := ⌊(ht.size : ℚ) * ht.rehashThreshold⌋₊ }

/-- `HASH_TABLE_DEFAULT_REHASH_THRESHOLD`. -/
def defaultRehashThreshold (size : ℕ) : HashTableTest K → ℚ
  | .eq => if size > 4096 then 7 / 10 else 6 / 10
  | _ => 6 / 10

/-- `make_general_lisp_hash_table`; a weak table is also entered in `Vall_weak_hash_tables`. -/
def makeGeneralLispHashTable (test : HashTableTest K) (size : ℕ) (rehashSize rehashThreshold : ℚ)
    (weakness : HashTableWeakness) : HashTable K V :=
  let rehashSize := if rehashSize > 1 then rehashSize else 13 / 10
  let rehashThreshold := if rehashThreshold > 0 then rehashThreshold else defaultRehashThreshold size test
  let size := if size < 10 then 10 else size
  let size := hashTableSize ⌊(size : ℚ) / rehashThreshold + 1⌋₊
  computeDerivedValues
    { size, count := 0, rehashCount := 0, rehashSize, rehashThreshold, goldenRatio := 0,
      hentries := .replicate size none, test, weakness }

/-- A keyword argument, as far as the validators look at it. -/
inductive KeywordArg
  | nil
  | fixnum (n : ℤ)
  | bignum (n : ℤ)
  | float (x : ℚ)
  | other

inductive ValidateError
  | wrongTypeArgument (predicate : String)
  | argsOutOfRange
  | invalidArgument (message : String)
  deriving DecidableEq

/-- `hash_table_size_validate`: the error it signals. -/
def sizeValidate : KeywordArg → Option ValidateError
  | .fixnum n => if n ≥ 0 then none else some (.wrongTypeArgument "natnump")
  | .bignum n => if n ≥ 0 then some .argsOutOfRange else some (.wrongTypeArgument "natnump")
  | _ => some (.wrongTypeArgument "natnump")

/-- `hash_table_rehash_size_validate`. -/
def rehashSizeValidate : KeywordArg → Option ValidateError
  | .float x =>
    if x ≤ 1 then some (.invalidArgument "Hash table rehash size must be greater than 1.0")
    else none
  | _ => some (.wrongTypeArgument "floatp")

/-- `hash_table_rehash_threshold_validate`. -/
def rehashThresholdValidate : KeywordArg → Option ValidateError
  | .float x =>
    if x ≤ 0 ∨ x ≥ 1 then
      some (.invalidArgument "Hash table rehash threshold must be between 0.0 and 1.0")
    else none
  | _ => some (.wrongTypeArgument "floatp")

def validateVar (validate : KeywordArg → Option ValidateError) : KeywordArg → Option ValidateError
  | .nil => none
  | arg => validate arg

/-- `decode_hash_table_size`. -/
def decodeSize : KeywordArg → ℕ
  | .fixnum n => n.toNat
  | _ => 16

/-- `decode_hash_table_rehash_size`, `decode_hash_table_rehash_threshold`. -/
def decodeFloat : KeywordArg → ℚ
  | .float x => x
  | _ => -1

/-- `make-hash-table`, with the test and the weakness decoded. -/
def makeHashTable (test : HashTableTest K) (size rehashSize rehashThreshold : KeywordArg)
    (weakness : HashTableWeakness) : Except ValidateError (HashTable K V) :=
  match validateVar sizeValidate size <|> validateVar rehashSizeValidate rehashSize <|>
    validateVar rehashThresholdValidate rehashThreshold with
  | some err => .error err
  | none =>
    .ok (makeGeneralLispHashTable test (decodeSize size) (decodeFloat rehashSize)
      (decodeFloat rehashThreshold) weakness)

/-- `HASHCODE` of a test with the size and the golden ratio of a table. -/
def home (M : KeyMethods K) (test : HashTableTest K) (ht : HashTable K V) (key : K) : ℕ :=
  (test.hashFunction M key * UInt64.ofNat ht.goldenRatio).toNat % ht.size

/-- The loop of `resize_hash_table`: the old entries are put in the new ones. -/
def reinsert (home : K → ℕ) (newEntries : List (Option (Htentry K V))) :
    List (Option (Htentry K V)) → Option (List (Option (Htentry K V)))
  | [] => some newEntries
  | none :: rest => reinsert home newEntries rest
  | some e :: rest =>
    (probeFrom newEntries (fun _ => false) (home e.key)).bind fun probe =>
      reinsert home (newEntries.set probe (some e)) rest

/-- `resize_hash_table`. -/
def resize (M : KeyMethods K) (ht : HashTable K V) (newSize : ℕ) : Option (HashTable K V) :=
  let ht' := computeDerivedValues { ht with size := newSize }
  (reinsert (ht'.home M ht.test) (.replicate newSize none) ht.hentries).map fun entries =>
    { ht' with hentries := entries }

/-- The size that `enlarge_hash_table` asks for. -/
def enlargedSize (ht : HashTable K V) : ℕ := hashTableSize ⌊(ht.size : ℚ) * ht.rehashSize⌋₊

/-- `enlarge_hash_table`. -/
def enlarge (M : KeyMethods K) (ht : HashTable K V) : Option (HashTable K V) :=
  ht.resize M ht.enlargedSize

variable [DecidableEq K]

/-- `find_htentry_1`: the slot of the entry of `key`, or the clear slot where it would be put. -/
def findHtentry (M : KeyMethods K) (ht : HashTable K V) (key : K) : Option ℕ :=
  let test := ht.test.chooseForLookup M key
  probeFrom ht.hentries (test.lookupMatch M key) (ht.home M test key)

def gethash (M : KeyMethods K) (ht : HashTable K V) (key : K) (default_ : V) : Option V :=
  (ht.findHtentry M key).map fun e =>
    match ht.hentries[e]?.join with
    | none => default_
    | some e => e.value

def puthash (M : KeyMethods K) (ht : HashTable K V) (key : K) (value : V) : Option (HashTable K V) :=
  (ht.findHtentry M key).bind fun probe =>
    match ht.hentries[probe]?.join with
    | some e => some { ht with hentries := ht.hentries.set probe (some { e with value }) }
    | none =>
      let ht := { ht with hentries := ht.hentries.set probe (some ⟨key, value⟩), count := ht.count + 1 }
      if ht.count ≥ ht.rehashCount then ht.enlarge M else some ht

/-- The loop of `remhash_1`, which enters the rest of a cluster again. -/
def rehomeLoop (home : K → ℕ) :
    ℕ → List (Option (Htentry K V)) → ℕ → Option (List (Option (Htentry K V)))
  | 0, _, _ => none
  | fuel + 1, entries, probe =>
    let probe := wrapProbe entries.length probe
    match entries[probe]?.join with
    | none => some entries
    | some e =>
      (probeFrom entries (fun e' => e'.key = e.key) (home e.key)).bind fun probe₂ =>
        match entries[probe₂]?.join with
        -- the entry at `probe` doesn't need to move
        | some _ => rehomeLoop home fuel entries (probe + 1)
        | none => rehomeLoop home fuel ((entries.set probe₂ (some e)).set probe none) (probe + 1)

/-- `remhash_1`: remove the entry at `probe`. -/
def remhash1 (M : KeyMethods K) (ht : HashTable K V) (probe : ℕ) : Option (HashTable K V) :=
  (rehomeLoop (ht.home M ht.test) ((ht.size + 1) ^ 3) (ht.hentries.set probe none) (probe + 1)).map
    fun entries => { ht with hentries := entries, count := ht.count - 1 }

/-- `remhash`; whether an entry was removed comes with the table. -/
def remhash (M : KeyMethods K) (ht : HashTable K V) (key : K) : Option (HashTable K V × Bool) :=
  (ht.findHtentry M key).bind fun e =>
    match ht.hentries[e]?.join with
    | none => some (ht, false)
    | some _ => (ht.remhash1 M e).map (·, true)

omit [DecidableEq K] in
def clrhash (ht : HashTable K V) : HashTable K V :=
  { ht with hentries := .replicate ht.size none, count := 0 }

/-- `copy-hash-table`; the copy has entries of its own. -/
def copy (ht : HashTable K V) : HashTable K V := ht

inductive Call (K V : Type*)
  | puthash (key : K) (value : V)
  | remhash (key : K)
  | clrhash
  deriving DecidableEq

def step (ht : HashTable K V) : KeyMethods K × Call K V → Option (HashTable K V)
  | (M, .puthash key value) => ht.puthash M key value
  | (M, .remhash key) => (ht.remhash M key).map (·.1)
  | (_, .clrhash) => some ht.clrhash

end HashTable

end XEmacs.Table
