import XEmacs.Lib.Transition
import Mathlib.Data.Int.Notation

/-! The coroutine scheduler of async-scheduler.c as a transition system. A state holds the
coroutines in a heap, the two lists that thread them, the requests in flight and where the
main thread is. One action is what happens up to the next point where Lisp code, the HTTP
library or the scheduler may act: a primitive called by the running Lisp code, a step of
one of the loops of a tick, or the end of a coroutine's body. Handles of coroutines that a
join has freed are not given to primitives that follow them. Wakeup timers, the saved
interpreter state and the stacks are left out. -/

namespace XEmacs.Async

open Lib

inductive Symbol
  | kexit
  | qasyncTimeout
  | qasyncHttpError
  | other (id : ℕ)
  deriving DecidableEq

inductive LispObject
  | nil
  | symbol (s : Symbol)
  | fixnum (n : ℤ)
  | string (s : String)
  | function (id : ℕ)
  | cons (car cdr : LispObject)
  deriving DecidableEq

namespace LispObject

def list2 (a b : LispObject) : LispObject := cons a (cons b nil)

def car : LispObject → LispObject
  | cons a _ => a
  | _ => nil

def cdr : LispObject → LispObject
  | cons _ b => b
  | _ => nil

end LispObject

/-- How a body or an operation ends. -/
inductive Outcome
  | value (v : LispObject)
  | signal (errorSymbol data : LispObject)
  deriving DecidableEq

/-- What `condition_case_1` hands to its handler: nil if there was no error. -/
def Outcome.errordata : Outcome → LispObject
  | value _ => .nil
  | signal errorSymbol data => .cons errorSymbol data

/-- What a call returns, nil where it does not. -/
def Outcome.ret : Outcome → LispObject
  | value v => v
  | signal _ _ => .nil

/-- A coroutine is known by its address; addresses are not used again. -/
abbrev CoroId := ℕ

inductive CoroState
  | runnable
  | running
  | suspended
  | dead
  deriving DecidableEq

inductive WaitReason
  | none
  | fd
  | timer
  | mailbox
  | join
  deriving DecidableEq

/-- Where a coroutine's own stack stands: before its body, in Lisp code, or in the
primitive that yielded. -/
inductive Frame
  | start
  | active
  | yield
  | receive
  | http
  /-- `actor-join-internal` -/
  | join (target : CoroId)
  /-- `actor-join-internal`, called by `await` -/
  | await (target : CoroId)
  deriving DecidableEq

/-- `xemacs_coro`. -/
structure Coro where
  state : CoroState
  waitReason : WaitReason
  result : LispObject
  error : LispObject
  lispFn : LispObject
  waitDeadline : ℤ
  mailbox : List LispObject
  isActor : Bool
  joinWaiter : Option CoroId
  monitorList : List CoroId
  next : Option CoroId
  prev : Option CoroId
  frame : Frame
  deriving DecidableEq

/-- What `coro_spawn` fills in. -/
def Coro.new (fn arg : LispObject) (isActor : Bool) : Coro where
  state := .runnable
  waitReason := .none
  result := arg
  error := .nil
  lispFn := fn
  waitDeadline := 0
  mailbox := []
  isActor := isActor
  joinWaiter := none
  monitorList := []
  next := none
  prev := none
  frame := .start

/-- The error slot when the body has ended: the handler of `condition_case_1` stores an error
that has escaped it. -/
def Coro.exitError (k : Coro) (outcome : Outcome) : LispObject :=
  match outcome with
  | .value _ => k.error
  | .signal .. => outcome.errordata

/-- Where the main thread is. The cursor of a loop is the coroutine it looks at next. -/
inductive Control
  | toplevel
  /-- in `async_http_tick`, which may call Lisp -/
  | httpTick
  | phase1a (cursor : Option CoroId) (now : ℤ)
  | phase1b (cursor : Option CoroId) (now : ℤ)
  | phase2 (cursor : Option CoroId)
  /-- switched to a coroutine, with the successor that phase 2 has saved -/
  | running (current : CoroId) (nextC : Option CoroId)
  deriving DecidableEq

/-- What has happened, for statements about runs. -/
inductive Event
  | sent (target : CoroId) (msg : LispObject)
  /-- `blocked` is whether the receiver had to wait -/
  | received (receiver : CoroId) (msg : LispObject) (blocked : Bool)
  | resumed (c : CoroId) (error : LispObject)
  | exited (c : CoroId) (outcome : Outcome)
  | awaited (joiner target : CoroId) (outcome : Outcome)
  | ran (c : CoroId)
  | walkEnd
  deriving DecidableEq

structure State where
  heap : CoroId → Option Coro
  allocated : ℕ
  allCoros : Option CoroId
  deadCoros : Option CoroId
  coroCount : ℤ
  /-- the coroutines that a request in flight will resume -/
  inflight : List CoroId
  control : Control
  log : List Event

namespace State

def init : State := ⟨fun _ => none, 0, none, none, 0, [], .toplevel, []⟩

/-- Write to a coroutine. -/
def modify (s : State) (c : CoroId) (f : Coro → Coro) : State :=
  { s with heap := fun x => if x = c then (s.heap x).map f else s.heap x }

def free (s : State) (c : CoroId) : State :=
  { s with heap := fun x => if x = c then none else s.heap x }

def emit (s : State) (e : Event) : State := { s with log := s.log ++ [e] }

def nextOf (s : State) (c : CoroId) : Option CoroId := (s.heap c).bind (·.next)

def prevOf (s : State) (c : CoroId) : Option CoroId := (s.heap c).bind (·.prev)

def setNext (s : State) (c : CoroId) (p : Option CoroId) : State := s.modify c ({ · with next := p })

def setPrev (s : State) (c : CoroId) (p : Option CoroId) : State := s.modify c ({ · with prev := p })

def coroListAdd (s : State) (c : CoroId) : State :=
  let first := s.allCoros
  let s := (s.setNext c first).setPrev c none
  let s := match first with
    | some a => s.setPrev a (some c)
    | none => s
  { s with allCoros := some c, coroCount := s.coroCount + 1 }

def coroListRemove (s : State) (c : CoroId) : State :=
  let next := s.nextOf c
  let prev := s.prevOf c
  let s := match prev with
    | some p => s.setNext p next
    | none => { s with allCoros := next }
  let s := match next with
    | some n => s.setPrev n prev
    | none => s
  { s with coroCount := s.coroCount - 1 }

/-- The loop of `coro_graveyard_remove`, where the pointer it looks at is the `next` field
of `q`. -/
def graveyardLoop (s : State) (c : CoroId) : ℕ → CoroId → State
  | 0, _ => s
  | fuel + 1, q =>
    match s.nextOf q with
    | none => s
    | some d => if d = c then s.setNext q (s.nextOf c) else graveyardLoop s c fuel d

def coroGraveyardRemove (s : State) (c : CoroId) : State :=
  match s.deadCoros with
  | none => s
  | some d =>
    if d = c then { s with deadCoros := s.nextOf c } else s.graveyardLoop c s.allocated d

/-- `coro_spawn`; the handle is the next address. -/
def coroSpawn (s : State) (fn arg : LispObject) (isActor : Bool) : State :=
  let c := s.allocated
  coroListAdd
    { s with
      heap := fun x => if x = c then some (.new fn arg isActor) else s.heap x
      allocated := c + 1 }
    c

/-- `coro_yield`, called by `frame`; the walk of phase 2 goes on. -/
def coroYield (s : State) (c : CoroId) (nextC : Option CoroId) (reason : WaitReason) (frame : Frame) :
    State :=
  { s.modify c ({ · with state := .suspended, waitReason := reason, frame := frame }) with
    control := .phase2 nextC }

def coroResume (s : State) (c : CoroId) (result : LispObject) : State :=
  (s.modify c ({ · with
    result := result, error := .nil, state := .runnable, waitReason := .none })).emit (.resumed c .nil)

def coroResumeWithError (s : State) (c : CoroId) (error : LispObject) : State :=
  (s.modify c ({ · with
    result := .nil, error := error, state := .runnable, waitReason := .none })).emit (.resumed c error)

def actorSendInternal (s : State) (target : CoroId) (msg : LispObject) : Option State :=
  (s.heap target).map fun k =>
    let wokeMailbox := k.state = .suspended ∧ k.waitReason = .mailbox
    let s := (s.modify target ({ · with mailbox := k.mailbox ++ [msg] })).emit (.sent target msg)
    if wokeMailbox then s.coroResume target msg else s

/-- `actor_receive_internal`, up to its return or to `coro_yield`. -/
def actorReceiveInternal (s : State) (c : CoroId) (nextC : Option CoroId) (timeoutMs now : ℤ) :
    Option State :=
  (s.heap c).bind fun k =>
    if k.isActor then
      match k.mailbox with
      | msg :: rest => some ((s.modify c ({ · with mailbox := rest })).emit (.received c msg false))
      | [] =>
        let s := if timeoutMs > 0 then s.modify c ({ · with waitDeadline := now + timeoutMs }) else s
        some (s.coroYield c nextC (if timeoutMs > 0 then .timer else .mailbox) .receive)
    else none

def actorMonitorInternal (s : State) (target watcher : CoroId) : Option State :=
  (s.heap target).map fun _ =>
    s.modify target fun k => { k with monitorList := k.monitorList ++ [watcher] }

/-- The end of `await`: the error slot of the current coroutine decides. -/
def awaitOutcome (error res : LispObject) : Outcome :=
  if error = .nil then .value res else .signal error.car error.cdr

/-- `Factor_join_internal`, up to its return or to `coro_yield`; `frame` says whether `await`
has called it. -/
def actorJoinInternal (s : State) (self : CoroId) (nextC : Option CoroId) (target : CoroId)
    (frame : Frame) : Option State :=
  (s.heap target).bind fun t =>
    if t.state = .dead then
      let res := t.result
      let s := (s.coroGraveyardRemove target).free target
      match frame with
      | .await _ => (s.heap self).map fun k =>
        s.emit (.awaited self target (awaitOutcome k.error res))
      | _ => some s
    else
      some ((s.modify target ({ · with joinWaiter := some self })).coroYield self nextC .join frame)

/-- Follow `next`. -/
def scan (s : State) : ℕ → Option CoroId → List CoroId
  | 0, _ => []
  | _ + 1, none => []
  | fuel + 1, some c => c :: s.scan fuel (s.nextOf c)

def asyncCoroutineP (s : State) (c : CoroId) : Bool :=
  c ∈ s.scan s.allocated s.allCoros ∨ c ∈ s.scan s.allocated s.deadCoros

/-- `(:exit reason)`. -/
def exitMsg (reason : LispObject) : LispObject := .list2 (.symbol .kexit) reason

def notifyMonitors (msg : LispObject) : List CoroId → State → Option State
  | [], s => some s
  | w :: ws, s =>
    (s.heap w).bind fun watcher =>
      if watcher.state ≠ .dead then (s.actorSendInternal w msg).bind (notifyMonitors msg ws)
      else notifyMonitors msg ws s

/-- `coro_trampoline` from where `condition_case_1` returns to where the join waiter has been
woken. -/
def finishBody (s : State) (c : CoroId) (k : Coro) (outcome : Outcome) : State :=
  let error := k.exitError outcome
  let result := if error ≠ .nil then k.result else outcome.ret
  let s := (s.modify c ({ · with error := error, lispFn := .nil, result := result })).emit
    (.exited c outcome)
  match k.joinWaiter with
  | some w =>
    let s := if error ≠ .nil then s.coroResumeWithError w error else s.coroResume w outcome.ret
    s.modify c ({ · with joinWaiter := none })
  | none => s

/-- `coro_trampoline` from where `condition_case_1` returns. -/
def coroTrampoline (s : State) (c : CoroId) (nextC : Option CoroId) (outcome : Outcome) :
    Option State :=
  (s.heap c).bind fun k =>
    (notifyMonitors (exitMsg (k.exitError outcome)) k.monitorList (s.finishBody c k outcome)).map fun s =>
      let s := s.modify c ({ · with monitorList := [], state := .dead })
      let s := s.coroListRemove c
      let s := s.setNext c s.deadCoros
      { s with deadCoros := some c, control := .phase2 nextC }

/-- Swap to a coroutine: its body starts, or the primitive that yielded returns. -/
def switchTo (s : State) (c : CoroId) (k : Coro) : State :=
  let result := if k.frame = .start then .cons k.lispFn k.result else k.result
  let s := (s.modify c ({ · with state := .running, frame := .active, result := result })).emit (.ran c)
  let s := { s with control := .running c k.next }
  match k.frame with
  | .receive => s.emit (.received c k.result true)
  | .await target => s.emit (.awaited c target (awaitOutcome k.error k.result))
  | _ => s

/-- Where `async_scheduler_tick` goes on when `async_http_tick` has returned. -/
def afterHttpTick (s : State) (now : ℤ) : Control :=
  match s.allCoros with
  | none => .toplevel
  | some c => .phase1a (some c) now

/-- One step of the loops of `async_scheduler_tick`. -/
def continueTick (s : State) : Option State :=
  match s.control with
  | .phase1a none now => some { s with control := .phase1b s.allCoros now }
  | .phase1a (some c) now => (s.heap c).map fun k =>
    let s := if k.state = .suspended ∧ k.waitReason = .none then s.coroResume c k.result else s
    { s with control := .phase1a k.next now }
  | .phase1b none _ => some { s with control := .phase2 s.allCoros }
  | .phase1b (some c) now => (s.heap c).map fun k =>
    let s :=
      if k.state = .suspended ∧ k.waitReason = .timer ∧ now ≥ k.waitDeadline then
        s.coroResumeWithError c (.list2 (.symbol .qasyncTimeout) (.string "timeout"))
      else s
    { s with control := .phase1b k.next now }
  | .phase2 none => some ({ s with control := .toplevel }.emit .walkEnd)
  | .phase2 (some c) => (s.heap c).map fun k =>
    if k.state = .runnable then s.switchTo c k else { s with control := .phase2 k.next }
  | .toplevel | .httpTick | .running .. => none

end State

inductive Action
  /-- `async-spawn-coroutine` -/
  | spawn (fn arg : LispObject)
  /-- `actor-spawn-internal` -/
  | actorSpawn (fn : LispObject) (args : List LispObject)
  | send (target : CoroId) (msg : LispObject)
  | monitor (target watcher : CoroId)
  /-- `async-scheduler-tick`, which does nothing within a tick -/
  | tick
  | leaveHttpTick (now : ℤ)
  | continueTick
  | httpComplete (c : CoroId) (outcome : Outcome)
  | yield
  | receive (timeoutMs now : ℤ)
  | join (target : CoroId)
  | await (handle : CoroId)
  | httpStart
  | exit (outcome : Outcome)
  deriving DecidableEq

namespace State

/-- What the main thread or the running coroutine may do while Lisp code runs. -/
def stepLisp (s : State) : Action → Option State
  | .spawn fn arg => some (s.coroSpawn fn arg false)
  | .actorSpawn fn args => some (s.coroSpawn fn (args.headD .nil) true)
  | .send target msg => s.actorSendInternal target msg
  | .monitor target watcher => s.actorMonitorInternal target watcher
  | .tick => if s.control = .toplevel then some { s with control := .httpTick } else some s
  | .httpComplete c outcome =>
    if c ∈ s.inflight then
      let s := { s with inflight := s.inflight.erase c }
      match outcome with
      | .value v => some (s.coroResume c v)
      | .signal .. => some (s.coroResumeWithError c outcome.errordata)
    else none
  | _ => none

/-- What the running coroutine `c` does. -/
def stepCoro (s : State) (c : CoroId) (nextC : Option CoroId) : Action → Option State
  | .yield => some (s.coroYield c nextC .none .yield)
  | .receive timeoutMs now => s.actorReceiveInternal c nextC timeoutMs now
  | .join target => s.actorJoinInternal c nextC target (.join target)
  | .await handle =>
    if s.asyncCoroutineP handle then s.actorJoinInternal c nextC handle (.await handle) else some s
  | .httpStart => some ({ s with inflight := c :: s.inflight }.coroYield c nextC .fd .http)
  | .exit outcome => s.coroTrampoline c nextC outcome
  | a => s.stepLisp a

def step (s : State) (a : Action) : Option State :=
  match s.control with
  | .running c nextC => s.stepCoro c nextC a
  | .toplevel => s.stepLisp a
  | .httpTick =>
    match a with
    | .leaveHttpTick now => some { s with control := s.afterHttpTick now }
    | _ => s.stepLisp a
  | .phase1a .. | .phase1b .. | .phase2 .. =>
    match a with
    | .continueTick => s.continueTick
    | _ => none

end State

end XEmacs.Async
