import Mathlib.Data.List.Basic
import Mathlib.Data.Int.Notation

/-! `try-completion` (minibuf.c) on lists, vectors and hash tables. A text is the list of its characters. Calls of
Lisp, of the predicate and of the regexps, change nothing. -/

namespace XEmacs.Completion

/-- What is told apart of a Lisp object. -/
inductive LispObject where
  | string (text : List ℕ)
  | symbol (name : List ℕ)
  | cons (car cdr : LispObject)
  | other (address : ℕ)
  deriving DecidableEq

/-- A function that may be called, and what `function-max-args` says of it if that is a fixnum. -/
structure Predicate where
  maxArgs : Option ℕ
  call1 : LispObject → Bool
  call2 : LispObject → LispObject → Bool

/-- `completion-ignore-case`, `CANONCASE`, and the regexps of `completion-regexp-list` by what they match. -/
structure Settings where
  ignoreCase : Bool
  canoncase : ℕ → ℕ
  regexps : List (List ℕ → Bool)

structure Obarray where
  buckets : List (List (List ℕ))
  equalHash : List ℕ → ℕ
  bucket_eq : ∀ i (h : i < buckets.length), ∀ name ∈ buckets[i], equalHash name % buckets.length = i
  nodup : ∀ bucket ∈ buckets, bucket.Nodup

namespace Obarray

variable (obarray : Obarray)

/-- The first symbol from a bucket on, past those that hold 0. -/
def firstFrom (bucket : ℕ) : Option (List ℕ) := (obarray.buckets.drop bucket).findSome? List.head?

/-- `symbol-next-table`. -/
def symbolNext (last : List ℕ) : Option (List ℕ) :=
  ((obarray.buckets.getD (obarray.equalHash last % obarray.buckets.length) []).dropWhile (· ≠ last)).tail.head?

/-- `xemacs-next-iteration-in-vector`, none is 0. -/
def xemacsNextIterationInVector : Option (List ℕ) → Option (List ℕ)
  | none => obarray.firstFrom 0
  | some last =>
    match obarray.symbolNext last with
    | some next => some next
    | none => obarray.firstFrom (obarray.equalHash last % obarray.buckets.length + 1)

/-- The loop of `map_completion_trad_obarray`; it ends before its fuel. -/
def mapCompletionTradObarray {τ : Type*} (function : LispObject → LispObject → τ → τ) :
    ℕ → Option (List ℕ) → τ → τ
  | fuel + 1, some symbol, x =>
    mapCompletionTradObarray function fuel (obarray.xemacsNextIterationInVector (some symbol))
      (function (.string symbol) (.symbol symbol) x)
  | _, _, x => x

end Obarray

inductive Collection where
  | list (elements : List LispObject)
  | vector (obarray : Obarray)
  /-- The keys and values, in the order they are mapped. -/
  | hashTable (entries : List (LispObject × LispObject))

/-- The car of an element that is a cons. -/
def eltstring : LispObject → LispObject
  | .cons car _ => car
  | elt => elt

/-- `map_completion`, for a function that never stops it. -/
def mapCompletion {τ : Type*} (function : LispObject → LispObject → τ → τ) (x : τ) : Collection → τ
  | .list elements => elements.foldl (fun x elt => function (eltstring elt) elt x) x
  | .vector obarray => obarray.mapCompletionTradObarray function (obarray.buckets.flatten.length + 1)
      (obarray.xemacsNextIterationInVector none) x
  | .hashTable entries => entries.foldl (fun x entry => function entry.1 entry.2 x) x

def Collection.hashTablep : Collection → Bool
  | hashTable _ => true
  | _ => false

/-- The loop of `scmp_1`: how many of the characters are left. -/
def scmpLoop (key : ℕ → ℕ) : List ℕ → List ℕ → ℕ → ℕ
  | c1 :: s1, c2 :: s2, l + 1 => if key c1 = key c2 then scmpLoop key s1 s2 l else l + 1
  | _, _, l => l

def scmp1 (canoncase : ℕ → ℕ) (s1 s2 : List ℕ) (len : ℕ) (ignoreCase : Bool) : ℤ :=
  let l := if ignoreCase then scmpLoop canoncase s1 s2 len else scmpLoop id s1 s2 len
  if l = 0 then -1 else len - l

/-- `struct try_completion_closure`. -/
structure TryCompletionClosure where
  string : List ℕ
  slength : ℕ
  predicate : Option Predicate
  bestmatch : Option (List ℕ)
  blength : ℕ
  bestmatchsize : ℕ
  hashTablep : Bool
  matchcount : ℕ

inductive Result where
  | nil
  | t
  | string (text : List ℕ)
  deriving DecidableEq

section

variable (S : Settings)

def scmp (s1 s2 : List ℕ) (len : ℕ) : ℤ := scmp1 S.canoncase s1 s2 len S.ignoreCase

def regexpIgnoreCompletionP (text : List ℕ) : Bool := S.regexps.any fun re => !re text

/-- `ignore_completion_p`; `commandp` is called as any predicate of one argument. -/
def ignoreCompletionP (completionString : List ℕ) (pred : Option Predicate) (completion : LispObject)
    (hashTablep : Bool) : Bool :=
  if regexpIgnoreCompletionP S completionString then true
  else
    match pred with
    | none => false
    | some pred =>
      if hashTablep ∧ 1 < pred.maxArgs.getD 0 then !pred.call2 (.string completionString) completion
      else !pred.call1 completion

def nameOf : LispObject → Option (List ℕ)
  | .string text => some text
  | .symbol name => some name
  | _ => none

def matchSize (bestmatch elt : List ℕ) (compare : ℕ) : ℕ :=
  if scmp S bestmatch elt compare < 0 then compare else (scmp S bestmatch elt compare).toNat

/-- What `try_completion_mapper` does with a candidate after the first. -/
def compareMatch (bestmatch elt : List ℕ) (tcc : TryCompletionClosure) : TryCompletionClosure :=
  let matchsize := matchSize S bestmatch elt (min tcc.bestmatchsize elt.length)
  let tcc :=
    if S.ignoreCase ∧ (matchsize = elt.length ∧ matchsize < tcc.blength ∨
        (matchsize = elt.length ↔ matchsize = tcc.blength) ∧
          0 > scmp1 S.canoncase elt tcc.string tcc.slength false ∧
          0 ≤ scmp1 S.canoncase bestmatch tcc.string tcc.slength false) then
      { tcc with bestmatch := some elt, blength := elt.length }
    else tcc
  { tcc with bestmatchsize := matchsize }

/-- What `try_completion_mapper` does with a candidate. -/
def updateMatch (elt : List ℕ) (tcc : TryCompletionClosure) : TryCompletionClosure :=
  let tcc := { tcc with matchcount := tcc.matchcount + 1 }
  match tcc.bestmatch with
  | none => { tcc with bestmatch := some elt, blength := elt.length, bestmatchsize := elt.length }
  | some bestmatch => compareMatch S bestmatch elt tcc

def tryCompletionMapper (eltstring value : LispObject) (tcc : TryCompletionClosure) : TryCompletionClosure :=
  match nameOf eltstring with
  | none => tcc
  | some elt =>
    if tcc.slength ≤ elt.length ∧ 0 > scmp S elt tcc.string tcc.slength then
      if ignoreCompletionP S elt tcc.predicate value tcc.hashTablep then tcc else updateMatch S elt tcc
    else tcc

/-- What `try-completion` returns after the mapping. -/
def completion (tcc : TryCompletionClosure) : Result :=
  match tcc.bestmatch with
  | none => .nil
  | some bestmatch =>
    if S.ignoreCase ∧ tcc.bestmatchsize = tcc.slength ∧ tcc.blength > tcc.bestmatchsize then .string tcc.string
    else if tcc.matchcount = 1 ∧ tcc.bestmatchsize = tcc.slength ∧
        0 > scmp1 S.canoncase bestmatch tcc.string tcc.bestmatchsize false then .t
    else .string (bestmatch.take tcc.bestmatchsize)

def ftryCompletion (string : List ℕ) (collection : Collection) (predicate : Option Predicate) : Result :=
  completion S (mapCompletion (tryCompletionMapper S)
    { string := string, slength := string.length, predicate := predicate, bestmatch := none, blength := 0,
      bestmatchsize := 0, hashTablep := collection.hashTablep, matchcount := 0 } collection)

end

end XEmacs.Completion
