import XEmacs.Async.Scheduler
import Mathlib.Logic.Function.Iterate
import Mathlib.Tactic.Common

/-! What one step of the scheduler does to the coroutines, leaving out how the two lists
thread them: one effect, given by a label, and for the end of a body the deliveries to its
monitors and its death after that. Invariants of runs are derived from this list. -/

namespace XEmacs.Async

open Lib

def Coro.unlinked (k : Coro) : Coro := { k with next := none, prev := none }

def Control.current : Control → Option CoroId
  | running c _ => some c
  | _ => none

structure View where
  core : CoroId → Option Coro
  allocated : ℕ
  inflight : List CoroId
  current : Option CoroId
  log : List Event

namespace View

def set (v : View) (c : CoroId) (k : Coro) : View := { v with core := Function.update v.core c (some k) }

def modify (v : View) (c : CoroId) (f : Coro → Coro) : View :=
  { v with core := fun x => if x = c then (v.core x).map f else v.core x }

def emit (v : View) (e : Event) : View := { v with log := v.log ++ [e] }

def alive (v : View) (c : CoroId) : Bool := (v.core c).any (·.state ≠ .dead)

@[simp] theorem set_core_self (v : View) (c : CoroId) (k : Coro) : (v.set c k).core c = some k :=
  Function.update_self ..

theorem set_core_of_ne (v : View) {c x : CoroId} (h : x ≠ c) (k : Coro) :
    (v.set c k).core x = v.core x := Function.update_of_ne h ..

theorem modify_eq_set {v : View} {c : CoroId} {k : Coro} (hk : v.core c = some k) (f : Coro → Coro) :
    v.modify c f = v.set c (f k) := by
  simp only [modify, set]
  congr 1
  funext x
  by_cases hx : x = c
  · subst hx; simp [hk]
  · simp [hx]

end View

def Frame.waits : Frame → WaitReason → Bool
  | yield, .none | receive, .timer | receive, .mailbox | http, .fd | join _, .join | await _, .join => true
  | _, _ => false

def Frame.Joins (f : Frame) (t : CoroId) : Prop := f = .join t ∨ f = .await t

namespace Coro

def resumed (k : Coro) (result error : LispObject) : Coro :=
  { k with result := result, error := error, state := .runnable, waitReason := .none }

def blocked (k : Coro) (reason : WaitReason) (frame : Frame) : Coro :=
  { k with state := .suspended, waitReason := reason, frame := frame }

def switched (k : Coro) : Coro :=
  { k with
    state := .running
    frame := .active
    result := if k.frame = .start then .cons k.lispFn k.result else k.result }

def delivered (k : Coro) (msg : LispObject) : Coro :=
  if k.state = .suspended ∧ k.waitReason = .mailbox then
    { k with mailbox := k.mailbox ++ [msg] }.resumed msg .nil
  else { k with mailbox := k.mailbox ++ [msg] }

def exitResult (k : Coro) (outcome : Outcome) : LispObject :=
  if k.exitError outcome ≠ .nil then .nil else outcome.ret

def finished (k : Coro) (outcome : Outcome) : Coro :=
  { k with
    lispFn := .nil
    error := k.exitError outcome
    result := if k.exitError outcome ≠ .nil then k.result else outcome.ret
    joinWaiter := none }

end Coro

/-- What the primitive that a coroutine returns to reports. -/
def View.returned (v : View) (c : CoroId) (k : Coro) : View :=
  match k.frame with
  | .receive => v.emit (.received c k.result true)
  | .await target => v.emit (.awaited c target (State.awaitOutcome k.error k.result))
  | _ => v

/-! ### Effects -/

inductive Label
  | quiet
  | spawn
  | deliver (t : CoroId) (msg : LispObject)
  | monitor
  | resume
  | take (c : CoroId)
  | block (c : CoroId) (reason : WaitReason) (frame : Frame)
  | register (c target : CoroId)
  | reap (c target : CoroId)
  | reapAwait (c target : CoroId)
  | switch (c : CoroId)
  | finish (c : CoroId) (outcome : Outcome)
  | die (c : CoroId)

inductive Effect (v : View) : Label → View → Prop
  | quiet : Effect v .quiet v
  | walkEnd : Effect v .quiet (v.emit .walkEnd)
  | spawn {fn arg : LispObject} {isActor : Bool} (hfresh : v.core v.allocated = none) :
    Effect v .spawn { v.set v.allocated (.new fn arg isActor) with allocated := v.allocated + 1 }
  | deliver {t : CoroId} {k : Coro} (msg : LispObject) (hk : v.core t = some k)
      (hw : ¬ (k.state = .suspended ∧ k.waitReason = .mailbox)) :
    Effect v (.deliver t msg) ((v.set t { k with mailbox := k.mailbox ++ [msg] }).emit (.sent t msg))
  | wake {t : CoroId} {k : Coro} (msg : LispObject) (hk : v.core t = some k)
      (hs : k.state = .suspended) (hr : k.waitReason = .mailbox) :
    Effect v (.deliver t msg)
      (((v.set t ({ k with mailbox := k.mailbox ++ [msg] }.resumed msg .nil)).emit (.sent t msg)).emit
        (.resumed t .nil))
  | monitor {t : CoroId} {k : Coro} {ws : List CoroId} (hk : v.core t = some k) :
    Effect v .monitor (v.set t { k with monitorList := ws })
  | resume {c : CoroId} {k : Coro} (result error : LispObject) (hk : v.core c = some k)
      (hs : k.state = .suspended)
      (hf : k.frame = .yield ∨ k.frame = .receive ∧ k.waitReason = .timer ∨ k.frame = .http) :
    Effect v .resume
      ({ v.set c (k.resumed result error) with inflight := v.inflight.erase c }.emit (.resumed c error))
  | take {c : CoroId} {k : Coro} {msg : LispObject} {rest : List LispObject}
      (hc : v.current = some c) (hk : v.core c = some k) (hm : k.mailbox = msg :: rest) :
    Effect v (.take c) ((v.set c { k with mailbox := rest }).emit (.received c msg false))
  | block {c : CoroId} {k : Coro} (reason : WaitReason) (frame : Frame) (deadline : ℤ)
      (hc : v.current = some c) (hk : v.core c = some k) (hs : k.state = .running)
      (hw : frame.waits reason) (hj : reason ≠ .join) (hm : frame = .receive → k.mailbox = []) :
    Effect v (.block c reason frame)
      { v.set c ({ k with waitDeadline := deadline }.blocked reason frame) with
        current := none
        inflight := if frame = .http then c :: v.inflight else v.inflight }
  | register {c t : CoroId} {k kt : Coro} {frame : Frame} (hc : v.current = some c)
      (ht : v.core t = some kt) (hd : kt.state ≠ .dead) (hj : frame.Joins t)
      (hk : (v.set t { kt with joinWaiter := some c }).core c = some k) (hs : k.state = .running) :
    Effect v (.register c t)
      { (v.set t { kt with joinWaiter := some c }).set c (k.blocked .join frame) with current := none }
  | reap {c t : CoroId} {kt : Coro} (hc : v.current = some c) (ht : v.core t = some kt)
      (hd : kt.state = .dead) : Effect v (.reap c t) { v with core := Function.update v.core t none }
  | reapAwait {c t : CoroId} {k kt : Coro} (hc : v.current = some c) (hk : v.core c = some k)
      (ht : v.core t = some kt) (hd : kt.state = .dead) (hne : c ≠ t) :
    Effect v (.reapAwait c t)
      ({ v with core := Function.update v.core t none }.emit
        (.awaited c t (State.awaitOutcome k.error kt.result)))
  | switch {c : CoroId} {k : Coro} (hc : v.current = none) (hk : v.core c = some k)
      (hs : k.state = .runnable) :
    Effect v (.switch c) (({ v.set c k.switched with current := some c }.emit (.ran c)).returned c k)
  | finish {c : CoroId} {k : Coro} {outcome : Outcome} (hc : v.current = some c)
      (hk : v.core c = some k) (hs : k.state = .running) (hw : k.joinWaiter = none) :
    Effect v (.finish c outcome) ((v.set c (k.finished outcome)).emit (.exited c outcome))
  | finishWake {c w : CoroId} {k kw : Coro} {outcome : Outcome} (hc : v.current = some c)
      (hk : v.core c = some k) (hs : k.state = .running) (hw : k.joinWaiter = some w)
      (hkw : v.core w = some kw) (hsw : kw.state = .suspended) (hj : kw.frame.Joins c) (hne : w ≠ c) :
    Effect v (.finish c outcome)
      ((((v.set c (k.finished outcome)).set w
        (kw.resumed (k.exitResult outcome) (k.exitError outcome))).emit (.exited c outcome)).emit
          (.resumed w (k.exitError outcome)))
  | die {c : CoroId} {k : Coro} (hc : v.current = some c) (hk : v.core c = some k)
      (hs : k.state = .running) (hw : k.joinWaiter = none) :
    Effect v (.die c) { v.set c { k with monitorList := [], state := .dead } with current := none }

inductive Deliveries (msg : LispObject) : View → List CoroId → View → Prop
  | nil {v : View} : Deliveries msg v [] v
  | cons {v v' v'' : View} {w : CoroId} {ws : List CoroId} (h : Effect v (.deliver w msg) v')
      (hrest : Deliveries msg v' ws v'') : Deliveries msg v (w :: ws) v''

/-- The effect of a step. When a body ends, the join waiter is woken, the monitors that are
not dead are notified, and the coroutine is dead. -/
inductive Effects (v : View) : Label → View → Prop
  | single {v' : View} {l : Label} (h : Effect v l v') (hl : ∀ c outcome, l ≠ .finish c outcome) :
    Effects v l v'
  | exit {v₁ v₂ v₃ : View} {c : CoroId} {k : Coro} {outcome : Outcome} (hk : v.core c = some k)
      (hfinish : Effect v (.finish c outcome) v₁)
      (hmonitors : Deliveries (State.exitMsg (k.exitError outcome)) v₁
        (k.monitorList.filter v₁.alive) v₂)
      (hdie : Effect v₂ (.die c) v₃) : Effects v (.finish c outcome) v₃

namespace Coro

variable (k : Coro) (msg : LispObject) (n : ℕ)

@[simp] theorem delivered_mailbox : (k.delivered msg).mailbox = k.mailbox ++ [msg] := by
  unfold delivered; split <;> rfl

theorem delivered_dead : (k.delivered msg).state = .dead ↔ k.state = .dead := by
  unfold delivered
  split
  next h => simp [resumed, h.1]
  next => rfl

theorem iterate_delivered_mailbox :
    ((·.delivered msg)^[n] k).mailbox = k.mailbox ++ List.replicate n msg := by
  induction n generalizing k with
  | zero => simp
  | succ n ih => rw [Function.iterate_succ_apply, ih]; simp [List.replicate_succ]

theorem iterate_delivered {k : Coro} (h : k.state ≠ .suspended) :
    (·.delivered msg)^[n] k = { k with mailbox := k.mailbox ++ List.replicate n msg } := by
  induction n generalizing k with
  | zero => simp
  | succ n ih =>
    have hk : k.delivered msg = { k with mailbox := k.mailbox ++ [msg] } :=
      if_neg fun hs => h hs.1
    rw [Function.iterate_succ_apply, hk, ih (by exact h)]
    simp [List.replicate_succ]

end Coro

section Deliveries

variable {v v' : View} {msg : LispObject} {w : CoroId} {ws : List CoroId}

theorem Effect.deliver_core (h : Effect v (.deliver w msg) v') :
    ∃ k, v.core w = some k ∧ v'.core = Function.update v.core w (some (k.delivered msg)) := by
  cases h with
  | @deliver _ k _ hk hw => exact ⟨k, hk, by rw [Coro.delivered, if_neg hw]; rfl⟩
  | @wake _ k _ hk hs hr => exact ⟨k, hk, by rw [Coro.delivered, if_pos ⟨hs, hr⟩]; rfl⟩

theorem Effect.deliver_alive (h : Effect v (.deliver w msg) v') : v'.alive = v.alive := by
  obtain ⟨k, hk, hcore⟩ := h.deliver_core
  funext x
  rw [View.alive, View.alive, hcore]
  by_cases hx : x = w
  · subst hx
    simp [hk, Coro.delivered_dead]
  · rw [Function.update_of_ne hx]

theorem Effect.deliver_current (h : Effect v (.deliver w msg) v') : v'.current = v.current := by
  cases h <;> rfl

theorem Deliveries.core {x : CoroId} {k : Coro} (h : Deliveries msg v ws v') (hk : v.core x = some k) :
    v'.core x = some ((·.delivered msg)^[ws.count x] k) := by
  induction h generalizing k with
  | nil => exact hk
  | @cons v v' v'' w ws h _ ih =>
    obtain ⟨kw, hkw, hcore⟩ := h.deliver_core
    by_cases hx : w = x
    · subst hx
      obtain rfl := Option.some.inj (hk.symm.trans hkw)
      rw [List.count_cons_self, Function.iterate_succ_apply]
      exact ih (by rw [hcore, Function.update_self])
    · rw [List.count_cons_of_ne hx]
      exact ih (by rw [hcore, Function.update_of_ne (Ne.symm hx), hk])

theorem Deliveries.invariant {I : View → Prop} (h : Deliveries msg v ws v') (h0 : I v)
    (hstep : ∀ w u u', I u → Effect u (.deliver w msg) u' → I u') : I v' := by
  induction h with
  | nil => exact h0
  | cons h _ ih => exact ih (hstep _ _ _ h0 h)

end Deliveries

theorem Effects.invariant_exit {I : View → Prop} {J : CoroId → View → Prop} {v v' : View} {l : Label}
    (h : Effects v l v') (hsingle : (∀ c outcome, l ≠ .finish c outcome) → ∀ u, Effect v l u → I u)
    (hfinish : ∀ c outcome u, l = .finish c outcome → Effect v l u → J c u)
    (hdeliver : ∀ c w msg u u', J c u → Effect u (.deliver w msg) u' → J c u')
    (hdie : ∀ c u u', J c u → Effect u (.die c) u' → I u') : I v' := by
  cases h with
  | single h hl => exact hsingle hl _ h
  | exit hk hf hm hd =>
    refine hdie _ _ _ ?_ hd
    exact hm.invariant (hfinish _ _ _ rfl hf) fun w u u' => hdeliver _ w _ u u'

/-- What may follow the effect of an exit. -/
def Label.Settles (l : Label) : Prop := (∃ t msg, l = .deliver t msg) ∨ ∃ c, l = .die c

theorem Effects.invariant {I : View → Prop} {v v' : View} {l : Label} (h : Effects v l v')
    (hfirst : ∀ v', Effect v l v' → I v')
    (hrest : ∀ v v' l', l'.Settles → I v → Effect v l' v' → I v') : I v' :=
  h.invariant_exit (J := fun _ => I) (fun _ => hfirst) (fun _ _ u _ => hfirst u)
    (fun _ w msg u u' => hrest u u' _ (.inl ⟨w, msg, rfl⟩)) fun c u u' => hrest u u' _ (.inr ⟨c, rfl⟩)

/-! ### How the coroutines refer to each other -/

structure View.Linked (v : View) : Prop where
  fresh : ∀ c, v.allocated ≤ c → v.core c = none
  current : ∀ c, v.current = some c → ∃ k, v.core c = some k
  running : ∀ c k, v.core c = some k → (k.state = .running ↔ v.current = some c)
  suspended : ∀ c k, v.core c = some k → k.state = .suspended → k.frame.waits k.waitReason
  active : ∀ c k, v.core c = some k → k.state = .running → k.frame = .active
  runnable : ∀ c k, v.core c = some k → k.state = .runnable → k.frame ≠ .active
  joinWaiter : ∀ t k w, v.core t = some k → k.joinWaiter = some w →
    k.state ≠ .dead ∧ ∃ kw, v.core w = some kw ∧ kw.state = .suspended ∧ kw.frame.Joins t
  inflight : ∀ c ∈ v.inflight, ∃ k, v.core c = some k ∧ k.state = .suspended ∧ k.frame = .http
  nodup : v.inflight.Nodup

namespace View

variable {v v' : View} {l : Label} {c : CoroId} {k k' : Coro}

@[simp] theorem returned_core (v : View) (c : CoroId) (k : Coro) : (v.returned c k).core = v.core := by
  unfold returned; split <;> rfl

theorem Linked.emit (h : v.Linked) (e : Event) : (v.emit e).Linked :=
  ⟨h.1, h.2, h.3, h.4, h.5, h.6, h.7, h.8, h.9⟩

theorem Linked.returned (h : v.Linked) (c : CoroId) (k : Coro) : (v.returned c k).Linked := by
  unfold View.returned
  split
  · exact h.emit _
  · exact h.emit _
  · exact h

theorem Linked.setData (h : v.Linked) (k' : Coro) (hk : v.core c = some k) (hstate : k'.state = k.state)
    (hreason : k'.waitReason = k.waitReason) (hframe : k'.frame = k.frame)
    (hjoin : ∀ w, k'.joinWaiter = some w → k.joinWaiter = some w) : (v.set c k').Linked := by
  obtain ⟨h1, h2, h3, h4, h5, h6, h7, h8, h9⟩ := h
  constructor <;> simp only [set, Function.update_apply] <;> grind

theorem Linked.wake (h : v.Linked) (hk : v.core c = some k) (hs : k.state = .suspended)
    (hno : ∀ t kt, v.core t = some kt → kt.joinWaiter ≠ some c) (result error : LispObject) :
    { v.set c (k.resumed result error) with inflight := v.inflight.erase c }.Linked := by
  obtain ⟨h1, h2, h3, h4, h5, h6, h7, h8, h9⟩ := h
  constructor <;> simp only [set, Function.update_apply, Coro.resumed] <;>
    grind [Frame.waits, List.Nodup.erase, List.Nodup.mem_erase_iff]

theorem Linked.not_joinWaiter (h : v.Linked) (hk : v.core c = some k) (hno : ∀ t, ¬ k.frame.Joins t) :
    ∀ t kt, v.core t = some kt → kt.joinWaiter ≠ some c := by
  intro t kt ht hw
  obtain ⟨-, kw, hkw, -, hj⟩ := h.joinWaiter t kt c ht hw
  obtain rfl : kw = k := Option.some.inj (hkw.symm.trans hk)
  exact hno t hj

theorem Linked.not_inflight (h : v.Linked) (hk : v.core c = some k) (hno : k.frame ≠ .http) :
    v.inflight.erase c = v.inflight := by
  refine List.erase_of_not_mem fun hmem => ?_
  obtain ⟨k', hk', -, hf⟩ := h.inflight c hmem
  obtain rfl : k' = k := Option.some.inj (hk'.symm.trans hk)
  exact hno hf

theorem Linked.effect (h : v.Linked) (he : Effect v l v') : v'.Linked := by
  cases he with
  | quiet => exact h
  | walkEnd => exact h.emit _
  | spawn hfresh =>
    obtain ⟨h1, h2, h3, h4, h5, h6, h7, h8, h9⟩ := h
    constructor <;> simp only [View.set, Function.update_apply, Coro.new] <;> grind
  | deliver msg hk hw =>
    refine Linked.emit ?_ _
    exact h.setData _ hk rfl rfl rfl fun _ => id
  | @wake t k msg hk hs hr =>
    have hwaits := h.suspended t k hk hs
    rw [hr] at hwaits
    have hframe : k.frame = .receive := by
      cases hf : k.frame <;> simp [hf, Frame.waits] at hwaits ⊢
    have hdata := h.setData { k with mailbox := k.mailbox ++ [msg] } hk rfl rfl rfl fun _ => id
    have hkd : (v.set t { k with mailbox := k.mailbox ++ [msg] }).core t =
      some { k with mailbox := k.mailbox ++ [msg] } := by simp [View.set]
    have hwake := hdata.wake hkd hs
      (hdata.not_joinWaiter hkd fun t hj => by simp [hframe, Frame.Joins] at hj) msg .nil
    rw [hdata.not_inflight hkd (by simp [hframe])] at hwake
    simp only [View.set, Function.update_idem] at hwake
    exact (hwake.emit _).emit _
  | monitor hk => exact h.setData _ hk rfl rfl rfl fun _ => id
  | resume result error hk hs hf =>
    refine (h.wake hk hs (h.not_joinWaiter hk fun t hj => ?_) _ _).emit _
    rcases hj with hj | hj <;> simp [hj] at hf
  | take hc hk hm =>
    refine Linked.emit ?_ _
    exact h.setData _ hk rfl rfl rfl fun _ => id
  | block reason frame deadline hc hk hs hw hj hm =>
    obtain ⟨h1, h2, h3, h4, h5, h6, h7, h8, h9⟩ := h
    constructor <;> simp only [View.set, Function.update_apply, Coro.blocked] <;> grind
  | register hc ht hd hj hk hs =>
    obtain ⟨h1, h2, h3, h4, h5, h6, h7, h8, h9⟩ := h
    constructor <;> simp only [View.set, Function.update_apply, Coro.blocked, Frame.Joins] at * <;>
      grind [Frame.waits]
  | reap hc ht hd =>
    obtain ⟨h1, h2, h3, h4, h5, h6, h7, h8, h9⟩ := h
    constructor <;> simp only [Function.update_apply] <;> grind
  | reapAwait hc hk ht hd hne =>
    refine Linked.emit ?_ _
    obtain ⟨h1, h2, h3, h4, h5, h6, h7, h8, h9⟩ := h
    constructor <;> simp only [Function.update_apply] <;> grind
  | switch hc hk hs =>
    refine (Linked.emit ?_ _).returned _ _
    obtain ⟨h1, h2, h3, h4, h5, h6, h7, h8, h9⟩ := h
    constructor <;> simp only [View.set, Function.update_apply, Coro.switched] <;> grind
  | finish hc hk hs hw =>
    refine Linked.emit ?_ _
    exact h.setData _ hk rfl rfl rfl fun _ hc => by simp [Coro.finished] at hc
  | @finishWake c w k kw outcome hc hk hs hw hkw hsw hj hne =>
    have hdata := h.setData (k.finished outcome) hk rfl rfl rfl fun _ hc => by
      simp [Coro.finished] at hc
    have hkd : (v.set c (k.finished outcome)).core w = some kw := by
      simp [View.set, Function.update_of_ne hne, hkw]
    -- a coroutine waits for one target, so that no other one has it as its waiter
    have hno : ∀ t kt, (v.set c (k.finished outcome)).core t = some kt → kt.joinWaiter ≠ some w := by
      intro t kt ht hwt
      obtain ⟨-, kw', hkw', -, hj'⟩ := hdata.joinWaiter t kt w ht hwt
      obtain rfl : kw' = kw := Option.some.inj (hkw'.symm.trans hkd)
      obtain rfl : t = c := by
        rcases hj with hj | hj <;> rcases hj' with hj' | hj' <;> rw [hj] at hj' <;>
          simp only [Frame.join.injEq, Frame.await.injEq, reduceCtorEq] at hj' <;> exact hj'.symm
      simp only [View.set, Function.update_self, Option.some.injEq] at ht
      subst ht
      simp [Coro.finished] at hwt
    have hframe : kw.frame ≠ .http := by
      rcases hj with hj | hj <;> simp [hj]
    have hwake := hdata.wake hkd hsw hno (k.exitResult outcome) (k.exitError outcome)
    rw [hdata.not_inflight hkd hframe] at hwake
    exact (Linked.emit hwake _).emit _
  | die hc hk hs hw =>
    obtain ⟨h1, h2, h3, h4, h5, h6, h7, h8, h9⟩ := h
    constructor <;> simp only [View.set, Function.update_apply] <;> grind

theorem Linked.effects (h : v.Linked) (he : Effects v l v') : v'.Linked :=
  he.invariant (fun _ => h.effect) fun _ _ _ _ h => h.effect

end View

end XEmacs.Async
