import Mathlib.Logic.Function.Basic
import XEmacs.Lib.Forest
import XEmacs.Lib.Transition

/-! Parents and children of extents, in extents.c. The relation is stored twice: an extent
has a parent, and a parent has a weak list of its children. Extents and weak lists are
objects with addresses; an address from `nextExtent` or `nextWeakList` on is not yet used.
The properties that an extent takes from its parent, and garbage collection, are left out. -/

namespace XEmacs.Extent

/-- An extent, with what its auxiliary structure says about its family. -/
structure Member where
  /-- `EXTENT_LIVE_P` -/
  live : Bool
  detached : Bool
  hasParent : Bool
  parent : Option ℕ
  children : Option ℕ
  deriving DecidableEq

/-- `allocate_extent`, in an object. -/
def Member.fresh : Member := ⟨true, true, false, none, none⟩

structure Family where
  extents : ℕ → Member
  weakLists : ℕ → List ℕ
  nextExtent : ℕ
  nextWeakList : ℕ

namespace Family

def empty : Family := ⟨fun _ => ⟨false, true, false, none, none⟩, fun _ => [], 0, 0⟩

/-- `extent_parent`. -/
def parent (s : Family) (e : ℕ) : Option ℕ := (s.extents e).parent

def live (s : Family) (e : ℕ) : Bool := (s.extents e).live

/-- `extent-children`. -/
def children (s : Family) (e : ℕ) : List ℕ :=
  match (s.extents e).children with
  | some w => s.weakLists w
  | none => []

def setExtent (s : Family) (e : ℕ) (m : Member) : Family :=
  { s with extents := Function.update s.extents e m }

/-- `remove_extent_from_children_list`. -/
def removeFromChildrenList (s : Family) (e child : ℕ) : Family :=
  match (s.extents e).children with
  | some w => { s with weakLists := Function.update s.weakLists w ((s.weakLists w).filter (· ≠ child)) }
  | none => s

/-- `add_extent_to_children_list`. -/
def addToChildrenList (s : Family) (e child : ℕ) : Family :=
  match (s.extents e).children with
  | some w => { s with weakLists := Function.update s.weakLists w (child :: s.weakLists w) }
  | none =>
    { s.setExtent e { s.extents e with children := some s.nextWeakList } with
      weakLists := Function.update s.weakLists s.nextWeakList [child]
      nextWeakList := s.nextWeakList + 1 }

/-- The loop of `Fset_extent_parent` over `rest` and its ancestors, that looks for `extent`. -/
def meetsChain (s : Family) (extent : ℕ) : ℕ → Option ℕ → Bool
  | 0, _ => false
  | _, none => false
  | fuel + 1, some rest => rest = extent ∨ s.meetsChain extent fuel (s.parent rest)

def circular (s : Family) (extent : ℕ) (parent : Option ℕ) : Bool :=
  s.meetsChain extent s.nextExtent parent

/-- `set-extent-parent`; the flag says whether it returns or signals an error. -/
def setExtentParent (s : Family) (e : ℕ) (parent : Option ℕ) : Family × Bool :=
  if ¬ s.live e then (s, false)
  else if parent.any (¬ s.live ·) then (s, false)
  else if parent = s.parent e then (s, true)
  else if s.circular e parent then (s, false)
  else
    match parent with
    | none =>
      let s := (s.parent e).elim s (s.removeFromChildrenList · e)
      (s.setExtent e { s.extents e with parent := none, hasParent := false }, true)
    | some p =>
      let s := s.addToChildrenList p e
      (s.setExtent e { s.extents e with parent := some p, hasParent := true }, true)

/-- `make_extent_detached`, and `set_extent_endpoints` where the extent gets endpoints. -/
def makeExtent (s : Family) (detached : Bool) : Family :=
  { s.setExtent s.nextExtent { Member.fresh with detached := detached } with
    nextExtent := s.nextExtent + 1 }

/-- `copy_extent`: the new extent has a copy of the auxiliary structure of the original. -/
def copyExtent (s : Family) (original : ℕ) (detached : Bool) : Family :=
  let e := s.nextExtent
  let o := s.extents original
  let s := s.makeExtent detached
  let s := s.setExtent e { s.extents e with
    hasParent := o.hasParent
    parent := o.parent
    children := o.children }
  match s.parent e with
  | some p => s.addToChildrenList p e
  | none => s

/-- `extent_detach`. -/
def detachExtent (s : Family) (e : ℕ) : Family := s.setExtent e { s.extents e with detached := true }

/-- The loop of `destroy_extent`; an error ends it. -/
def orphan (s : Family) : List ℕ → Family × Bool
  | [] => (s, true)
  | child :: rest =>
    match s.setExtentParent child none with
    | (s, true) => s.orphan rest
    | (s, false) => (s, false)

def destroyExtent (s : Family) (e : ℕ) : Family × Bool :=
  let s := if ¬ (s.extents e).detached then s.detachExtent e else s
  match s.orphan (s.children e) with
  | (s, false) => (s, false)
  | (s, true) =>
    let s := (s.setExtentParent e none).1
    (s.setExtent e { s.extents e with live := false }, true)

inductive Op
  | makeExtent (detached : Bool)
  | copyExtent (e : ℕ) (detached : Bool)
  | setExtentParent (e : ℕ) (parent : Option ℕ)
  | detachExtent (e : ℕ)
  | deleteExtent (e : ℕ)

/-- One call; one that signals an error leaves what it has done so far. Undefined on what is
no extent. -/
def step (s : Family) : Op → Option Family
  | .makeExtent detached => some (s.makeExtent detached)
  | .copyExtent e detached =>
    if e < s.nextExtent then some (if s.live e then s.copyExtent e detached else s) else none
  | .setExtentParent e parent =>
    if e < s.nextExtent ∧ parent.all (· < s.nextExtent) then some (s.setExtentParent e parent).1
    else none
  | .detachExtent e =>
    if e < s.nextExtent then some (if s.live e then s.detachExtent e else s) else none
  | .deleteExtent e =>
    if e < s.nextExtent then some (if s.live e then (s.destroyExtent e).1 else s) else none

end Family

end XEmacs.Extent
