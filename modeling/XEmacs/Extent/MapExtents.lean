import XEmacs.Extent.ExtentList
import XEmacs.Text.Buffer

/-! `map_extents`, in extents.c: calls a function on the extents of a buffer that meet a range.
It maps first over the stack of extents, moved to the start of the range, and then over the
extents that start in the range; or over one of the lists only. The function may change the
extents and whatever else it works on; what remains to be visited is then tracked by a marker
in the list. Unwinding is what happens at the end, and the function does not change the text. -/

namespace XEmacs.Extents

open Lib Text

/-- The flags `ME_ALL_EXTENTS_*`. -/
inductive AllExtents
  | closed
  | opened
  | closedOpen
  | openClosed
  deriving DecidableEq

/-- The flags `ME_*_IN_REGION`. -/
inductive InRegion
  | start
  /-- `ME_END_IN_REGION` -/
  | stop
  | startAndEnd
  | startOrEnd
  deriving DecidableEq

/-- The flags of `map_extents`. -/
structure MapFlags where
  endClosed : Bool
  startOpen : Bool
  allExtents : Option AllExtents
  inRegion : Option InRegion
  negateInRegion : Bool
  includeInternal : Bool
  mightModifyText : Bool
  mightModifyExtents : Bool
  mightMoveSoe : Bool
  deriving DecidableEq

def MapFlags.zero : MapFlags := ⟨false, false, none, none, false, false, false, false, false⟩

/-- `memxpos_to_startind`, as an `Endpoint_Index`. -/
def memxposToStartind (x : ℤ) (startOpen : Bool) : ℤ := toInt (2 * x + if startOpen then 1 else 0)

/-- `memxpos_to_endind`, as an `Endpoint_Index`. -/
def memxposToEndind (x : ℤ) (endOpen : Bool) : ℤ := toInt (2 * x - if endOpen then 1 else 0)

/-- Whether the start and the end of an extent count as open. -/
def Extent.openness (x : Extent) : Option AllExtents → Bool × Bool
  | flags =>
    if x.start = x.stop then (false, false)
    else
      match flags with
      | none => (x.startOpen, x.endOpen)
      | some .closed => (false, false)
      | some .opened => (true, true)
      | some .closedOpen => (false, true)
      | some .openClosed => (true, false)

/-- `extent_in_region_p`, for a range given in byte positions. -/
def extentInRegionP (b : Buffer) (x : Extent) (start stop : ℤ) (flags : MapFlags) : Bool :=
  let endClosed := if start = stop then true else flags.endClosed
  let startOpen := if start = stop then false else flags.startOpen
  let isOpen := x.openness flags.allExtents
  let start := memxposToStartind (b.bytebposToMembpos start) startOpen
  let stop := memxposToEndind (b.bytebposToMembpos stop) (!endClosed)
  let exs := memxposToStartind x.start isOpen.1
  let exe := memxposToEndind x.stop isOpen.2
  if exs > stop ∨ exe < start then false
  else
    let retval : Bool :=
      match flags.inRegion with
      | none => true
      | some .start => start ≤ exs ∧ exs ≤ stop
      | some .stop => start ≤ exe ∧ exe ≤ stop
      | some .startAndEnd => start ≤ exs ∧ exe ≤ stop
      | some .startOrEnd => (start ≤ exs ∧ exs ≤ stop) ∨ (start ≤ exe ∧ exe ≤ stop)
    if flags.negateInRegion then !retval else retval

/-- The function that is mapped, with its argument; true to stop. -/
abbrev Mapper (α : Type) := ExtentInfo → α → ℕ → Option (ExtentInfo × α × Bool)

/-- The variables of `map_extents` that its loops change. -/
structure MapState (α : Type) where
  info : ExtentInfo
  arg : α
  /-- extents up to this one are still to be skipped -/
  after : Option ℕ
  st : ℤ
  en : ℤ

/-- What does not change during a loop: the flags, the internal extent for the range, whether
it is the stack of extents that is mapped over, and the marker in its list. -/
structure MapLoop where
  flags : MapFlags
  range : Option ℕ
  overSoe : Bool
  rangeEndp : Bool
  posm : Option ℕ

/-- `extent_list_marker_pos`. -/
def markerPos (ga : MarkedList ℕ) (mkr : ℕ) : Option ℤ := (ga.markers.find? (·.1 = mkr)).map (·.2)

namespace ExtentInfo

def mapped (s : ExtentInfo) (overSoe : Bool) : ExtentList := if overSoe then s.soeForce.extents else s.extents

def setMapped (s : ExtentInfo) (overSoe : Bool) (el : ExtentList) : ExtentInfo :=
  if overSoe then { s with soe := some { s.soeForce with extents := el } } else { s with extents := el }

def stepMapped (s : ExtentInfo) (overSoe endp : Bool) (op : GapArrayOp ℕ) : Option ExtentInfo :=
  (((s.mapped overSoe).ga endp).step op).map fun ga => s.setMapped overSoe ((s.mapped overSoe).setGa endp ga)

end ExtentInfo

namespace MapLoop

variable {α : Type} (c : MapLoop)

/-- `extent_list_marker_pos`, or the position without a marker. -/
def fetchPos (s : ExtentInfo) (pos : ℤ) : Option ℤ :=
  match c.posm with
  | none => some pos
  | some m => markerPos ((s.mapped c.overSoe).ga c.rangeEndp) m

def movePosm (s : ExtentInfo) (pos : ℤ) : Option ExtentInfo :=
  match c.posm with
  | none => some s
  | some m => s.stepMapped c.overSoe c.rangeEndp (.moveMarker m pos)

/-- Internal extents are skipped, or at least that for the range. -/
def skipped (ext : Heap) (e : ℕ) : Bool :=
  (ext e).internal && (!c.flags.includeInternal || c.range = some e)

def visit (b : Buffer) (fn : Mapper α) (m : MapState α) (e : ℕ) : Option (MapState α × Bool) :=
  if c.skipped m.info.ext e then some (m, false)
  else if m.after.any fun after => !(m.info.ext after).less false (m.info.ext e) then some (m, false)
  else
    let m := { m with
      after := none
      st := (c.range.map fun r => (m.info.ext r).start).getD m.st
      en := (c.range.map fun r => (m.info.ext r).stop).getD m.en }
    if (m.info.ext e).endpoint c.rangeEndp > m.en then
      -- all extents of the stack should overlap `st`
      if c.overSoe then none else some (m, true)
    else if extentInRegionP b (m.info.ext e) (b.membposToBytebpos m.st) (b.membposToBytebpos m.en) c.flags then
      (fn m.info m.arg e).map fun r => ({ m with info := r.1, arg := r.2.1 }, r.2.2)
    else some (m, false)

/-- The loop, in at most `fuel` steps. -/
def run (b : Buffer) (fn : Mapper α) : ℕ → ℤ → MapState α → Option (MapState α × Bool)
  | 0, _, _ => none
  | fuel + 1, pos, m =>
    (c.fetchPos m.info pos).bind fun pos =>
      if pos ≥ (m.info.mapped c.overSoe).numEls then some (m, false)
      else
        ((m.info.mapped c.overSoe).at' pos c.rangeEndp).bind fun e =>
          (c.movePosm m.info (pos + 1)).bind fun info =>
            (c.visit b fn { m with info := info } e).bind fun r =>
              if r.2 then some r else run b fn fuel (pos + 1) r.1

end MapLoop

/-- How the range stage begins: after the start of the range or at it, or at a given place. -/
inductive RangeStart
  | including
  | excluding
  | at' (pos : ℕ)

def RangeStart.pos (s : ExtentInfo) (st : ℤ) (endp : Bool) : RangeStart → ℕ
  | .including => s.extents.locateFromPos s.ext st endp
  | .excluding => s.extents.locateFromPos s.ext (st + 1) endp
  | .at' pos => pos

/-- What is to be mapped over: whether there is a stage over the stack of extents, and the
order and the beginning of the range stage. -/
structure MapPlan where
  doSoeStage : Bool
  rangeEndp : Bool
  rangeStart : RangeStart

namespace ExtentInfo

/-- Where the mapping starts; `dontUseSoe` says whether `DONT_USE_SOE` is defined. -/
def planMap (s : ExtentInfo) (dontUseSoe : Bool) (st : ℤ) (flags : MapFlags) : Option (ExtentInfo × MapPlan) :=
  if (flags.inRegion = some .start ∨ flags.inRegion = some .startAndEnd) ∧ ¬ flags.negateInRegion then
    some (s, ⟨false, false, .including⟩)
  else if flags.inRegion = some .stop ∧ ¬ flags.negateInRegion then some (s, ⟨false, true, .including⟩)
  else if dontUseSoe then some (s, ⟨false, false, .at' 0⟩)
  else
    (s.soeMove st).bind fun s =>
      if s.soeForce.extents.numEls > 0 then
        if flags.mightMoveSoe then
          (s.soeForce.extents.at' 0 false).bind fun e =>
            let r := s.extents.locate s.ext e false
            if r.2 then some (s, ⟨false, false, .at' r.1⟩) else none
        else some (s, ⟨true, false, .excluding⟩)
      else some (s, ⟨false, false, .including⟩)

/-- `extent_list_make_marker`, with an unused name for the marker. -/
def makePosm (s : ExtentInfo) (overSoe endp : Bool) (pos : ℤ) : Option (ExtentInfo × ℕ) :=
  let addr := ((s.mapped overSoe).ga endp).markers.foldr (fun m addr => max (m.1 + 1) addr) 0
  (s.stepMapped overSoe endp (.makeMarker pos addr)).map fun s => (s, addr)

/-- `extent_list_delete_marker`, if there is a marker. -/
def deletePosm (s : ExtentInfo) (overSoe endp : Bool) (posm : Option ℕ) : Option ExtentInfo :=
  match posm with
  | none => some s
  | some m => s.stepMapped overSoe endp (.deleteMarker m)

end ExtentInfo

variable {α : Type}

/-- One stage, with the marker at its beginning; the result still has the marker. -/
def MapLoop.stage (c : MapLoop) (b : Buffer) (fn : Mapper α) (fuel pos : ℕ) (m : MapState α) :
    Option (MapLoop × MapState α × Bool) :=
  if c.flags.mightModifyExtents then
    (m.info.makePosm c.overSoe c.rangeEndp pos).bind fun r =>
      let c := { c with posm := some r.2 }
      (c.run b fn fuel pos { m with info := r.1 }).map (c, ·)
  else (c.run b fn fuel pos m).map (c, ·)

def MapLoop.rangeStage (c : MapLoop) (b : Buffer) (fn : Mapper α) (fuel : ℕ) (rangeStart : RangeStart)
    (m : MapState α) : Option (MapLoop × MapState α × Bool) :=
  c.stage b fn fuel (rangeStart.pos m.info m.st c.rangeEndp) m

/-- The two stages, or the second only. -/
def MapLoop.stages (c : MapLoop) (b : Buffer) (fn : Mapper α) (fuel : ℕ) (rangeStart : RangeStart)
    (m : MapState α) : Option (MapLoop × MapState α) :=
  if c.overSoe then
    (c.stage b fn fuel 0 m).bind fun r =>
      if r.2.2 then some (r.1, r.2.1)
      else
        (r.2.1.info.deletePosm true c.rangeEndp r.1.posm).bind fun info =>
          (rangeStage { c with overSoe := false } b fn fuel rangeStart { r.2.1 with info := info }).map
            fun r => (r.1, r.2.1)
  else (c.rangeStage b fn fuel rangeStart m).map fun r => (r.1, r.2.1)

/-- `map_extents`, from the plan on. -/
def mapRange (dontUseSoe : Bool) (b : Buffer) (fuel : ℕ) (fn : Mapper α) (flags : MapFlags) (range : Option ℕ)
    (m : MapState α) : Option (ExtentInfo × α) :=
  (m.info.planMap dontUseSoe m.st flags).bind fun p =>
    let c : MapLoop := ⟨flags, range, p.2.doSoeStage, p.2.rangeEndp, none⟩
    (c.stages b fn fuel p.2.rangeStart { m with info := p.1 }).bind fun r =>
      (match range with
        | some e => r.2.info.detach e
        | none => some r.2.info).bind fun info =>
          (info.deletePosm r.1.overSoe r.1.rangeEndp r.1.posm).map fun info => (info, r.2.arg)

/-- `map_extents`. Each of its loops makes at most `fuel` steps. -/
def mapExtents (dontUseSoe : Bool) (b : Buffer) (fuel : ℕ) (start stop : ℤ) (fn : Mapper α) (arg : α)
    (after : Option ℕ) (flags : MapFlags) (s : ExtentInfo) : Option (ExtentInfo × α) :=
  if after.any fun e => (s.ext e).detachedP then none
  else if s.extents.numEls = 0 then some (s, arg)
  else
    let st := b.bytebposToMembpos start
    let en := b.bytebposToMembpos stop
    if flags.mightModifyText then
      -- the one-bit field for an open start does not hold `ME_START_OPEN`
      let made := s.makeExtentDetached ⟨-1, -1, false, !flags.endClosed, false, true⟩
      ((made.1.setStartEnd made.2 st en).attach made.2).bind fun s =>
        mapRange dontUseSoe b fuel fn flags (some made.2) ⟨s, arg, after, st, en⟩
    else mapRange dontUseSoe b fuel fn flags none ⟨s, arg, after, st, en⟩

end XEmacs.Extents
