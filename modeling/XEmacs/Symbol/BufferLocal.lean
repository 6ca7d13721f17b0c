import Mathlib.Logic.Function.Basic
import Mathlib.Data.List.Basic
import XEmacs.Lib.Transition

/-! Buffer-local variables, as in `symbols.c`, for plain variables that are bound. A variable
that has been made local somewhere has a record with its default value, and each buffer has an
alist of its own values. The value in one buffer at a time, `current_buffer`, is also kept in
the record, and an assignment is made there only: the default value or the element of the alist
is brought up to date when the record is set up for another buffer. An element of an alist is
a cons that the record may point to, so conses are numbered. -/

namespace XEmacs.Symbols

open Lib

/-- The two types of record: with `someBufferLocal`, an assignment in a buffer without a local
value is to the default value. -/
inductive MagicType
  | bufferLocal
  | someBufferLocal
  deriving DecidableEq

/-- `struct symbol_value_buffer_local`. -/
structure BufferLocal (Buf V : Type) where
  type : MagicType
  defaultValue : V
  currentValue : V
  currentBuffer : Option Buf
  currentAlistElement : Option ℕ
  deriving DecidableEq

inductive SymbolValue (Buf V : Type)
  | plain (v : V)
  | bufferLocal (bfwd : BufferLocal Buf V)
  deriving DecidableEq

/-- The `local_var_alist` of each buffer, and the conses. -/
structure Alists (Sym Buf V : Type) where
  localVarAlist : Buf → List ℕ
  car : ℕ → Sym
  cdr : ℕ → V
  next : ℕ

variable {Sym Buf V : Type} [DecidableEq Sym] [DecidableEq Buf]

namespace Alists

/-- `assq_no_quit`. -/
def assq (a : Alists Sym Buf V) (sym : Sym) (buf : Buf) : Option ℕ :=
  (a.localVarAlist buf).find? fun el => a.car el = sym

/-- `Fsetcdr`. -/
def setcdr (a : Alists Sym Buf V) (el : ℕ) (v : V) : Alists Sym Buf V :=
  { a with cdr := Function.update a.cdr el v }

def push (a : Alists Sym Buf V) (sym : Sym) (v : V) (buf : Buf) : Alists Sym Buf V where
  localVarAlist := Function.update a.localVarAlist buf (a.next :: a.localVarAlist buf)
  car := Function.update a.car a.next sym
  cdr := Function.update a.cdr a.next v
  next := a.next + 1

/-- `delq_no_quit`. -/
def delq (a : Alists Sym Buf V) (el : ℕ) (buf : Buf) : Alists Sym Buf V :=
  { a with localVarAlist := Function.update a.localVarAlist buf ((a.localVarAlist buf).filter (· ≠ el)) }

end Alists

def bufferLocalAlistElement (buffer : Buf) (sym : Sym) (bfwd : BufferLocal Buf V) (a : Alists Sym Buf V) :
    Option ℕ :=
  if bfwd.currentBuffer = some buffer then bfwd.currentAlistElement else a.assq sym buffer

def writeOutBufferLocalCache (bfwd : BufferLocal Buf V) (a : Alists Sym Buf V) :
    BufferLocal Buf V × Alists Sym Buf V :=
  match bfwd.currentBuffer with
  | none => (bfwd, a)
  | some _ =>
    match bfwd.currentAlistElement with
    | none => ({ bfwd with defaultValue := bfwd.currentValue }, a)
    | some el => (bfwd, a.setcdr el bfwd.currentValue)

def setUpBufferLocalCache (sym : Sym) (bfwd : BufferLocal Buf V) (buf : Buf) (newAlistEl : Option ℕ) (setItP : Bool)
    (a : Alists Sym Buf V) : BufferLocal Buf V × Alists Sym Buf V :=
  if bfwd.currentBuffer = some buf then (bfwd, a)
  else
    let p := writeOutBufferLocalCache bfwd a
    let el := if newAlistEl = none ∧ setItP then bufferLocalAlistElement buf sym p.1 p.2 else newAlistEl
    let newVal := match el with
      | none => p.1.defaultValue
      | some el => p.2.cdr el
    ({ p.1 with currentAlistElement := el, currentBuffer := some buf, currentValue := newVal }, p.2)

/-- All variables and all buffers. -/
structure Globals (Sym Buf V : Type) where
  value : Sym → SymbolValue Buf V
  alists : Alists Sym Buf V
  currentBuffer : Buf

namespace Globals

def store (s : Globals Sym Buf V) (sym : Sym) (p : BufferLocal Buf V × Alists Sym Buf V) : Globals Sym Buf V :=
  { s with value := Function.update s.value sym (.bufferLocal p.1), alists := p.2 }

/-- `find_symbol_value_1`. The callers that do not swap the value in have no element. -/
def findSymbolValue1 (sym : Sym) (buf : Buf) (swapItIn : Bool) (symcons : Option ℕ) (setItP : Bool)
    (s : Globals Sym Buf V) : Globals Sym Buf V × V :=
  match s.value sym with
  | .plain v => (s, v)
  | .bufferLocal bfwd =>
    if swapItIn then
      let p := setUpBufferLocalCache sym bfwd buf symcons setItP s.alists
      (s.store sym p, p.1.currentValue)
    else if bfwd.currentBuffer = some buf then (s, bfwd.currentValue)
    else
      match s.alists.assq sym buf with
      | none => (s, bfwd.defaultValue)
      | some el => (s, s.alists.cdr el)

def findSymbolValue (sym : Sym) (s : Globals Sym Buf V) : Globals Sym Buf V × V :=
  s.findSymbolValue1 sym s.currentBuffer true none true

def symbolValueInBuffer (sym : Sym) (buf : Buf) (s : Globals Sym Buf V) : V :=
  (s.findSymbolValue1 sym buf false none true).2

/-- `Fset`. -/
def set (sym : Sym) (newval : V) (s : Globals Sym Buf V) : Globals Sym Buf V :=
  match s.value sym with
  | .plain _ => { s with value := Function.update s.value sym (.plain newval) }
  | .bufferLocal bfwd =>
    if bfwd.currentBuffer = some s.currentBuffer ∧
        (bfwd.type = .someBufferLocal ∨ bfwd.currentAlistElement ≠ none) then
      s.store sym ({ bfwd with currentValue := newval }, s.alists)
    else
      let p := writeOutBufferLocalCache bfwd s.alists
      match bufferLocalAlistElement s.currentBuffer sym p.1 p.2 with
      | none =>
        if p.1.type ≠ .someBufferLocal then
          s.store sym ({ p.1 with
            currentAlistElement := some p.2.next, currentBuffer := some s.currentBuffer, currentValue := newval },
            p.2.push sym p.1.currentValue s.currentBuffer)
        else
          s.store sym ({ p.1 with
            currentAlistElement := none, currentBuffer := some s.currentBuffer, currentValue := newval }, p.2)
      | some aelt =>
        s.store sym ({ p.1 with
          currentAlistElement := some aelt, currentBuffer := some s.currentBuffer, currentValue := newval }, p.2)

def defaultValue (sym : Sym) (s : Globals Sym Buf V) : V :=
  match s.value sym with
  | .plain v => v
  | .bufferLocal bfwd =>
    match bfwd.currentAlistElement with
    | none => bfwd.currentValue
    | some _ => bfwd.defaultValue

/-- `Fset_default`. -/
def setDefault (sym : Sym) (value : V) (s : Globals Sym Buf V) : Globals Sym Buf V :=
  match s.value sym with
  | .plain _ => s.set sym value
  | .bufferLocal bfwd =>
    match bfwd.currentAlistElement with
    | none => s.store sym ({ bfwd with defaultValue := value, currentValue := value }, s.alists)
    | some _ => s.store sym ({ bfwd with defaultValue := value }, s.alists)

/-- `Fmake_variable_buffer_local`. -/
def makeVariableBufferLocal (sym : Sym) (s : Globals Sym Buf V) : Globals Sym Buf V :=
  match s.value sym with
  | .plain v => s.store sym (⟨.bufferLocal, v, v, none, none⟩, s.alists)
  | .bufferLocal bfwd =>
    match bfwd.type with
    | .bufferLocal => s
    | .someBufferLocal => s.store sym ({ bfwd with type := .bufferLocal }, s.alists)

/-- The part of `Fmake_local_variable` after `already_local_to_some_other_buffer`. -/
def giveLocalValue (sym : Sym) (bfwd : BufferLocal Buf V) (s : Globals Sym Buf V) : Globals Sym Buf V :=
  s.store sym
    (if bfwd.currentBuffer = some s.currentBuffer then { bfwd with currentBuffer := none } else bfwd,
      s.alists.push sym bfwd.defaultValue s.currentBuffer)

/-- `Fmake_local_variable`. -/
def makeLocalVariable (sym : Sym) (s : Globals Sym Buf V) : Globals Sym Buf V :=
  match s.value sym with
  | .plain v => s.giveLocalValue sym ⟨.someBufferLocal, v, v, none, none⟩
  | .bufferLocal bfwd =>
    match bfwd.type with
    | .bufferLocal =>
      let p := s.findSymbolValue sym
      p.1.set sym p.2
    | .someBufferLocal =>
      match bufferLocalAlistElement s.currentBuffer sym bfwd s.alists with
      | none => s.giveLocalValue sym bfwd
      | some _ => s

/-- `Fkill_local_variable`. -/
def killLocalVariable (sym : Sym) (s : Globals Sym Buf V) : Globals Sym Buf V :=
  match s.value sym with
  | .plain _ => s
  | .bufferLocal bfwd =>
    let a := match bufferLocalAlistElement s.currentBuffer sym bfwd s.alists with
      | none => s.alists
      | some el => s.alists.delq el s.currentBuffer
    let bfwd := if bfwd.currentBuffer = some s.currentBuffer then { bfwd with currentBuffer := none } else bfwd
    s.store sym (setUpBufferLocalCache sym bfwd s.currentBuffer none true a)

/-- The loop of `kill_buffer_local_variables` in the current buffer, where no variable is
`permanent-local`; it asserts that a variable in the alist has a record. -/
def killBufferLocalVariables : List ℕ → Globals Sym Buf V → Option (Globals Sym Buf V)
  | [], s => some s
  | el :: alist, s =>
    match s.value (s.alists.car el) with
    | .plain _ => none
    | .bufferLocal bfwd =>
      let a := { s.alists with
        localVarAlist := Function.update s.alists.localVarAlist s.currentBuffer alist }
      let bfwd := if bfwd.currentBuffer = some s.currentBuffer then { bfwd with currentBuffer := none } else bfwd
      killBufferLocalVariables alist
        (s.store (s.alists.car el) (setUpBufferLocalCache (s.alists.car el) bfwd s.currentBuffer none false a))

/-- `Fkill_all_local_variables`. -/
def killAllLocalVariables (s : Globals Sym Buf V) : Option (Globals Sym Buf V) :=
  killBufferLocalVariables (s.alists.localVarAlist s.currentBuffer) s

/-- One of the two loops of `set_buffer_internal`, with `find_symbol_value_quickly`. -/
def reference (findItP : Bool) : List ℕ → Globals Sym Buf V → Globals Sym Buf V
  | [], s => s
  | el :: tail, s =>
    match s.value (s.alists.car el) with
    | .plain _ => reference findItP tail s
    | .bufferLocal _ => reference findItP tail (s.findSymbolValue1 (s.alists.car el) s.currentBuffer true
        (if findItP then some el else none) findItP).1

def setBufferInternal (b : Buf) (s : Globals Sym Buf V) : Globals Sym Buf V :=
  if s.currentBuffer = b then s
  else
    let oldBuf := s.currentBuffer
    let s := { s with currentBuffer := b }
    let s := s.reference true (s.alists.localVarAlist b)
    s.reference false (s.alists.localVarAlist oldBuf)

end Globals

inductive Call (Sym Buf V : Type)
  | set (sym : Sym) (newval : V)
  | setDefault (sym : Sym) (value : V)
  | makeVariableBufferLocal (sym : Sym)
  | makeLocalVariable (sym : Sym)
  | killLocalVariable (sym : Sym)
  | killAllLocalVariables
  | setBuffer (buffer : Buf)
  | symbolValue (sym : Sym)
  | symbolValueInBuffer (sym : Sym) (buffer : Buf)
  | defaultValue (sym : Sym)

/-- One call, and the value that it returns; those that return their argument have none. -/
def Globals.call (s : Globals Sym Buf V) : Call Sym Buf V → Option (Globals Sym Buf V × Option V)
  | .set sym newval => some (s.set sym newval, some newval)
  | .setDefault sym value => some (s.setDefault sym value, some value)
  | .makeVariableBufferLocal sym => some (s.makeVariableBufferLocal sym, none)
  | .makeLocalVariable sym => some (s.makeLocalVariable sym, none)
  | .killLocalVariable sym => some (s.killLocalVariable sym, none)
  | .killAllLocalVariables => s.killAllLocalVariables.map (·, none)
  | .setBuffer buffer => some (s.setBufferInternal buffer, none)
  | .symbolValue sym => some ((s.findSymbolValue sym).1, some (s.findSymbolValue sym).2)
  | .symbolValueInBuffer sym buffer => some (s, some (s.symbolValueInBuffer sym buffer))
  | .defaultValue sym => some (s, some (s.defaultValue sym))

def Globals.step (x : Globals Sym Buf V × List (Option V)) (op : Call Sym Buf V) :
    Option (Globals Sym Buf V × List (Option V)) :=
  (x.1.call op).map fun r => (r.1, x.2 ++ [r.2])

/-- The variables as a program thinks of them: a default value, the buffers' own values, and
whether an assignment makes the variable local. -/
structure Variables (Sym Buf V : Type) where
  default : Sym → V
  locals : Sym → Buf → Option V
  auto : Sym → Bool
  current : Buf

namespace Variables

def value (m : Variables Sym Buf V) (sym : Sym) (buf : Buf) : V :=
  (m.locals sym buf).getD (m.default sym)

/-- One variable is changed. -/
def put (m : Variables Sym Buf V) (sym : Sym) (dflt : V) (locals : Buf → Option V) (auto : Bool) :
    Variables Sym Buf V :=
  { m with
    default := Function.update m.default sym dflt
    locals := Function.update m.locals sym locals
    auto := Function.update m.auto sym auto }

/-- The value in the current buffer is set or removed. -/
def setLocal (m : Variables Sym Buf V) (sym : Sym) (v : Option V) : Variables Sym Buf V :=
  m.put sym (m.default sym) (Function.update (m.locals sym) m.current v) (m.auto sym)

def assignDefault (m : Variables Sym Buf V) (sym : Sym) (v : V) : Variables Sym Buf V :=
  m.put sym v (m.locals sym) (m.auto sym)

def call (m : Variables Sym Buf V) : Call Sym Buf V → Variables Sym Buf V × Option V
  | .set sym newval =>
    (if m.auto sym = true ∨ m.locals sym m.current ≠ none then m.setLocal sym (some newval)
      else m.assignDefault sym newval, some newval)
  | .setDefault sym value => (m.assignDefault sym value, some value)
  | .makeVariableBufferLocal sym => (m.put sym (m.default sym) (m.locals sym) true, none)
  | .makeLocalVariable sym => (m.setLocal sym (some (m.value sym m.current)), none)
  | .killLocalVariable sym => (m.setLocal sym none, none)
  | .killAllLocalVariables =>
    ({ m with locals := fun sym => Function.update (m.locals sym) m.current none }, none)
  | .setBuffer buffer => ({ m with current := buffer }, none)
  | .symbolValue sym => (m, some (m.value sym m.current))
  | .symbolValueInBuffer sym buffer => (m, some (m.value sym buffer))
  | .defaultValue sym => (m, some (m.default sym))

def step (x : Variables Sym Buf V × List (Option V)) (op : Call Sym Buf V) :
    Option (Variables Sym Buf V × List (Option V)) :=
  some ((x.1.call op).1, x.2 ++ [(x.1.call op).2])

end Variables

end XEmacs.Symbols
