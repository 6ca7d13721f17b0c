import Mathlib.Logic.Function.Basic
import XEmacs.Lib.DottedList

/-! Property lists, as in fns.c, in a heap of conses that may be linked in any way. The loops go
over a list with a tortoise and a hare, which are pointers to where an object is held: in the
variable or the field of the list or in the cdr of a cons. -/

namespace XEmacs.Plists

open Lib

variable {α : Type} [DecidableEq α]

/-- A Lisp object: nil, another object that is no cons, or a cons. -/
abbrev Obj (α : Type) : Type := Ref (Option α)

/-- `Qnil`. -/
def nil : Obj α := .atom none

/-- The conses; those from `next` on are free. -/
structure Heap (α : Type) where
  car : ℕ → Obj α
  cdr : ℕ → Obj α
  next : ℕ

namespace Heap

/-- `Fcons`. -/
def cons (h : Heap α) (car cdr : Obj α) : Heap α × Obj α :=
  (⟨Function.update h.car h.next car, Function.update h.cdr h.next cdr, h.next + 1⟩, .cons h.next)

/-- `XCAR`; none of what is no cons. -/
def xcar (h : Heap α) : Obj α → Option (Obj α)
  | .cons x => some (h.car x)
  | .atom _ => none

/-- `XCDR`; none of what is no cons. -/
def xcdr (h : Heap α) : Obj α → Option (Obj α)
  | .cons x => some (h.cdr x)
  | .atom _ => none

def Allocated (h : Heap α) (o : Obj α) : Prop := ∀ x, o = .cons x → x < h.next

def Closed (h : Heap α) : Prop := ∀ x < h.next, h.Allocated (h.cdr x)

end Heap

/-- Where an object is held: a `Lisp_Object *`. -/
inductive Place
  | field
  | cdr (x : ℕ)
  deriving DecidableEq

/-- The conses and the variable or the field that holds the list. -/
structure Memory (α : Type) where
  heap : Heap α
  plist : Obj α

namespace Memory

def read (m : Memory α) : Place → Obj α
  | .field => m.plist
  | .cdr x => m.heap.cdr x

def write (m : Memory α) (o : Obj α) : Place → Memory α
  | .field => { m with plist := o }
  | .cdr x => { m with heap := { m.heap with cdr := Function.update m.heap.cdr x o } }

end Memory

/-- `malformed-property-list` and `circular-property-list`, with their data. -/
inductive PlistError (α : Type)
  | malformed (plist badplace : Obj α)
  | circular (plist : Obj α)
  deriving DecidableEq

inductive ErrorBehavior
  | errorMe
  | errorMeNot
  | errorMeWarn

/-- What a function leaves in memory and what it returns or signals. -/
abbrev Returned (α β : Type) : Type := Memory α × Except (PlistError α) β

namespace Memory

variable (m : Memory α) (plist : Place)

/-- `bad_bad_bunny`; the warning is left out. -/
def badBadBunny (badplace : Place) : ErrorBehavior → Returned α (Option (Obj α))
  | .errorMe => (m, .error (.malformed (m.read plist) (m.read badplace)))
  | .errorMeNot => (m, .ok none)
  | .errorMeWarn => (m.write nil badplace, .ok none)

/-- `bad_bad_turtle`; the warning is left out. -/
def badBadTurtle (badplace : Place) : ErrorBehavior → Returned α (Option (Obj α))
  | .errorMe => (m, .error (.circular (m.read plist)))
  | .errorMeNot => (m, .ok none)
  | .errorMeWarn => (m.write nil badplace, .ok none)

/-- Where the hare is after an iteration; none where the list is malformed. -/
def advanceHare (hare : Place) : Option Place :=
  match m.read hare with
  | .atom none => some hare
  | .atom (some _) => none
  | .cons x =>
    match m.heap.cdr x with
    | .cons y => some (.cdr y)
    | .atom _ => none

/-- An iteration of `advance_plist_pointers`: the new pointers, or what is returned at once; none
where it would take the cdr of no cons. -/
def advanceOnce (tortsave : Place) (errb : ErrorBehavior) (tortoise hare : Place) :
    Option (Returned α (Option (Obj α)) ⊕ Place × Place) :=
  match m.advanceHare hare with
  | none => some (.inl (m.badBadBunny plist hare errb))
  | some hare =>
    match m.read tortoise with
    | .atom _ => none
    | .cons x =>
      if m.read hare ≠ nil ∧ m.heap.cdr x = m.read hare then some (.inl (m.badBadTurtle plist tortsave errb))
      else some (.inr (.cdr x, hare))

def advancePlistPointers (errb : ErrorBehavior) (tortoise hare : Place) :
    Option (Returned α (Option (Obj α)) ⊕ Place × Place) :=
  (m.advanceOnce plist tortoise errb tortoise hare).bind fun
    | .inl r => some (.inl r)
    | .inr (t, h) => m.advanceOnce plist tortoise errb t h

/-- How a loop over a property list ends. -/
inductive LoopEnd (α : Type)
  /-- the list ends -/
  | ended
  /-- the property is found in the list that a place holds -/
  | found (tortsave : Place)
  /-- the pointers cannot be advanced -/
  | failed (r : Returned α (Option (Obj α)))

/-- The loop over a property list that looks for a property. It is undefined where it takes the car
or the cdr of no cons and where `fuel` iterations are not enough. -/
def plistLoop (test : Obj α → Bool) (errb : ErrorBehavior) : ℕ → Place → Place → Option (LoopEnd α)
  | 0, _, _ => none
  | fuel + 1, tortoise, hare =>
    if m.read tortoise = nil then some .ended
    else
      (m.advancePlistPointers plist errb tortoise hare).bind fun
        | .inl r => some (.failed r)
        | .inr (t, h) => (m.heap.xcar (m.read tortoise)).bind fun property =>
          if test property then some (.found tortoise) else plistLoop test errb fuel t h

/-- `external_plist_get`; none for `Qunbound`. The test is `EQ` or `internal_equal` to the property. -/
def externalPlistGet (fuel : ℕ) (test : Obj α → Bool) (errb : ErrorBehavior) : Option (Returned α (Option (Obj α))) :=
  (m.plistLoop plist test errb fuel plist plist).bind fun
    | .ended => some (m, .ok none)
    | .found tortsave => (m.heap.xcdr (m.read tortsave)).bind fun next =>
      (m.heap.xcar next).map fun value => (m, .ok (some value))
    | .failed r => some r

def externalPlistPut (fuel : ℕ) (test : Obj α → Bool) (property value : Obj α) (errb : ErrorBehavior) :
    Option (Returned α Unit) :=
  (m.plistLoop plist test errb fuel plist plist).bind fun
    | .ended =>
      let h := m.heap.cons value (m.read plist)
      let h' := h.1.cons property h.2
      some ({ m with heap := h'.1 }.write h'.2 plist, .ok ())
    | .found tortsave => (m.heap.xcdr (m.read tortsave)).bind fun
      | .cons y => some ({ m with heap := { m.heap with car := Function.update m.heap.car y value } }, .ok ())
      | .atom _ => none
    | .failed r => some (r.1, r.2.map fun _ => ())

def externalRemprop (fuel : ℕ) (test : Obj α → Bool) (errb : ErrorBehavior) : Option (Returned α Bool) :=
  (m.plistLoop plist test errb fuel plist plist).bind fun
    | .ended => some (m, .ok false)
    | .found tortsave => (m.heap.xcdr (m.read tortsave)).bind fun next =>
      (m.heap.xcdr next).map fun rest => (m.write rest tortsave, .ok true)
    | .failed r => some (r.1, r.2.map fun _ => false)

end Memory

namespace Heap

variable (h : Heap α) (fuel : ℕ) (plist property : Obj α)

/-- `plist-get`, with the default that is returned for a property that is not on the list. -/
def plistGet (default_ : Obj α) : Option (Returned α (Obj α)) :=
  (Memory.externalPlistGet ⟨h, plist⟩ .field fuel (· = property) .errorMe).map fun r =>
    (r.1, r.2.map (·.getD default_))

def plistPut (value : Obj α) : Option (Returned α (Obj α)) :=
  (Memory.externalPlistPut ⟨h, plist⟩ .field fuel (· = property) property value .errorMe).map fun r =>
    (r.1, r.2.map fun _ => r.1.plist)

def plistRemprop : Option (Returned α (Obj α)) :=
  (Memory.externalRemprop ⟨h, plist⟩ .field fuel (· = property) .errorMe).map fun r =>
    (r.1, r.2.map fun _ => r.1.plist)

/-- `check-valid-plist`; a signal does not return, so that the loop does not start over. -/
def checkValidPlist : Option (Returned α (Obj α)) :=
  (Memory.plistLoop ⟨h, plist⟩ .field (fun _ => false) .errorMe fuel .field .field).map fun
    | .failed r => (r.1, r.2.map fun _ => nil)
    | _ => (⟨h, plist⟩, .ok nil)

def validPlistP : Option Bool :=
  (Memory.plistLoop ⟨h, plist⟩ .field (fun _ => false) .errorMeNot fuel .field .field).map fun
    | .failed _ => false
    | _ => true

end Heap

end XEmacs.Plists
