import XEmacs.Table.HashTable
import XEmacs.Lisp.Hash

/-! Packages of elhash.c: hash tables from the names of symbols to the symbols. A symbol is known by
its place in the list of all symbols; names are strings. `levels` is how many calls of
`internal_equal` below the first are allowed. Functions give `none` where a loop does not end, and
an error with its message. -/

namespace XEmacs.Table

open Text Lisp

variable {rep : UInt8 → ℕ}

structure LispString (rep : UInt8 → ℕ) where
  address : UInt64
  data : List (Ichar rep)
  deriving DecidableEq

def LispString.obj (s : LispString rep) : LispObject rep := .string s.address s.data

def stringMethods (C : Charset rep) (D : Doubles) (levels : ℕ) : KeyMethods (LispString rep) where
  lispHash s := s.obj.lispHash
  internalEqual s s' := LispObject.internalEqual C (levels + 1) s.obj s'.obj = some true
  internalEqualp s s' := LispObject.internalEqualp C (levels + 1) s.obj s'.obj = some true
  internalHash s equalp := LispObject.internalHash C D equalp 6 s.obj
  fixnump _ := false
  charp _ := false
  symbolp _ := false
  nonFixnumNumberp _ := false
  equal_immediate := by simp
  hash_immediate := by simp
  equalp_symbol := by simp
  hashp_symbol := by simp
  equal_number := by simp

/-- `Lisp_Symbol`; its value is void, or a symbol. -/
structure LispSymbol (rep : UInt8 → ℕ) where
  name : LispString rep
  value : Option ℕ
  packageCount : ℕ
  firstPackageId : ℕ

def makeSymbol (name : LispString rep) : LispSymbol rep := ⟨name, none, 0, 0⟩

/-- What `unintern` does to the symbol. -/
def LispSymbol.leavePackage (sym : LispSymbol rep) : LispSymbol rep :=
  if sym.packageCount > 0 then
    { sym with
      firstPackageId := if sym.packageCount = 1 then 0 else sym.firstPackageId
      packageCount := sym.packageCount - 1 }
  else sym

@[simp] theorem LispSymbol.leavePackage_name (sym : LispSymbol rep) : sym.leavePackage.name = sym.name := by
  unfold leavePackage
  split_ifs <;> rfl

/-- A package, with all symbols there are, and whether it is the one of `obarray`. -/
structure Package (rep : UInt8 → ℕ) where
  table : HashTable (LispString rep) ℕ
  symbols : List (LispSymbol rep)
  isObarray : Bool

/-- A symbol, or a bucket number. -/
inductive Lookup
  | symbol (s : ℕ)
  | bucket (probe : ℕ)
  deriving DecidableEq

/-- The first slot that `oblookup` looks at; the product is one of signed integers for `equal`. -/
def oblookupHome (C : Charset rep) (ht : HashTable (LispString rep) ℕ) (ptr : List (Ichar rep)) : ℕ :=
  match ht.test with
  | .equalp => (LispObject.itextEqualpHash C ptr * UInt64.ofNat ht.goldenRatio).toNat % ht.size
  | _ =>
    ((((LispObject.hashString (itextBytes ptr)).toNat * ht.goldenRatio : ℤ).bmod (2 ^ 64)).tmod ht.size).toNat

/-- What `oblookup` gives where its loop ends at `probe`. -/
def lookupAt (ht : HashTable (LispString rep) ℕ) (probe : ℕ) : Lookup :=
  match ht.hentries[probe]?.join with
  | some e => .symbol e.value
  | none => .bucket probe

def oblookup (C : Charset rep) (ht : HashTable (LispString rep) ℕ) (ptr : List (Ichar rep)) :
    Option (Except String Lookup) :=
  match ht.test with
  | .equal =>
    (probeFrom ht.hentries (fun e => itextBytes e.key.data = itextBytes ptr) (oblookupHome C ht ptr)).map fun probe =>
      .ok (lookupAt ht probe)
  | .equalp =>
    (probeFrom ht.hentries (fun e => LispObject.qxetextcasecmp C e.key.data ptr = 0)
      (oblookupHome C ht ptr)).map fun probe => .ok (lookupAt ht probe)
  | _ => some (.error "Not a Lisp package")

namespace Package

variable (C : Charset rep) (D : Doubles) (levels : ℕ)

/-- The symbol that `intern_istring` makes; a keyword of `obarray` is its own value. -/
def newSymbol (P : Package rep) (key : LispString rep) : LispSymbol rep :=
  { makeSymbol key with
    packageCount := 1
    firstPackageId := if P.isObarray then 1 else 2
    value := if (itextBytes key.data).headD 0 = 0x3a ∧ P.isObarray then some P.symbols.length else none }

/-- `intern_istring`; where `reloc` is nil, a string is made at `address`. -/
def internIstring (P : Package rep) (str : List (Ichar rep)) (reloc : Option (LispString rep))
    (address : UInt64) : Option (Except String (Package rep × ℕ)) :=
  (oblookup C P.table str).bind fun
    | .error message => some (.error message)
    | .ok (.symbol s) => some (.ok (P, s))
    | .ok (.bucket probe) =>
      let key := reloc.getD ⟨address, str⟩
      let s := P.symbols.length
      let ht : HashTable (LispString rep) ℕ := { P.table with
        hentries := P.table.hentries.set probe (some ⟨key, s⟩), count := P.table.count + 1 }
      -- enlarge and rehash only after we're done with the htentry
      (if ht.count ≥ ht.rehashCount then ht.enlarge (stringMethods C D levels) else some ht).map fun ht =>
        .ok ({ P with table := ht, symbols := P.symbols ++ [P.newSymbol key] }, s)

def intern (P : Package rep) (string : LispString rep) : Option (Except String (Package rep × ℕ)) :=
  P.internIstring C D levels string.data (some string) 0

/-- The NAME of `intern-soft` and `unintern`. -/
inductive Name (rep : UInt8 → ℕ)
  | string (s : LispString rep)
  | symbol (s : ℕ)

def nameString (P : Package rep) : Name rep → Option (LispString rep)
  | .string s => some s
  | .symbol s => P.symbols[s]?.map (·.name)

/-- Whether a symbol that was found is the one that was asked for. -/
def Name.admits : Name rep → ℕ → Bool
  | .string _, _ => true
  | .symbol s, lookup => s = lookup

/-- `intern-soft`, with no symbol for DEFAULT. -/
def internSoft (P : Package rep) (name : Name rep) : Option (Except String (Option ℕ)) :=
  (P.nameString name).bind fun string =>
    (oblookup C P.table string.data).map fun
      | .error message => .error message
      | .ok (.bucket _) => .ok none
      | .ok (.symbol lookup) => .ok (if name.admits lookup then some lookup else none)

def unintern (P : Package rep) (name : Name rep) : Option (Except String (Package rep × Bool)) :=
  (P.nameString name).bind fun string =>
    (oblookup C P.table string.data).bind fun
      | .error message => some (.error message)
      | .ok (.bucket _) => some (.ok (P, false))
      | .ok (.symbol lookup) =>
        if name.admits lookup then
          (P.table.remhash (stringMethods C D levels) string).map fun result =>
            .ok ({ P with table := result.1, symbols := P.symbols.modify lookup LispSymbol.leavePackage }, true)
        else some (.ok (P, false))

inductive Call (rep : UInt8 → ℕ)
  | makeSymbol (name : LispString rep)
  | intern (string : LispString rep)
  /-- `intern_istring` of text, with a new string for its name -/
  | internText (str : List (Ichar rep)) (address : UInt64)
  | internSoft (name : Name rep)
  | unintern (name : Name rep)

/-- A call that returned, with the text of the name and the result. -/
inductive Event (rep : UInt8 → ℕ)
  | interned (text : List (Ichar rep)) (s : ℕ)
  | sought (text : List (Ichar rep)) (name : Name rep) (result : Option ℕ)
  | uninterned (text : List (Ichar rep)) (name : Name rep) (result : Bool)

/-- A package and the calls on it that have returned. -/
structure History (rep : UInt8 → ℕ) where
  package : Package rep
  events : List (Event rep)

/-- A call, where it returns and signals no error. -/
def History.step (H : History rep) : Call rep → Option (History rep)
  | .makeSymbol name =>
    some { H with package := { H.package with symbols := H.package.symbols ++ [makeSymbol name] } }
  | .intern string =>
    (H.package.intern C D levels string).bind fun
      | .ok (P, s) => some ⟨P, H.events ++ [.interned string.data s]⟩
      | .error _ => none
  | .internText str address =>
    (H.package.internIstring C D levels str none address).bind fun
      | .ok (P, s) => some ⟨P, H.events ++ [.interned str s]⟩
      | .error _ => none
  | .internSoft name =>
    (H.package.nameString name).bind fun string =>
      (H.package.internSoft C name).bind fun
        | .ok result => some { H with events := H.events ++ [.sought string.data name result] }
        | .error _ => none
  | .unintern name =>
    (H.package.nameString name).bind fun string =>
      (H.package.unintern C D levels name).bind fun
        | .ok (P, result) => some ⟨P, H.events ++ [.uninterned string.data name result]⟩
        | .error _ => none

end Package

end XEmacs.Table
