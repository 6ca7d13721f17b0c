import Mathlib.Logic.Function.Basic
import XEmacs.Lib.ListBuilding
import XEmacs.Lib.Transition

/-! `Vcondition_handlers` while coroutines come and go. The handlers are conses in a heap. Every
party, the main program or a coroutine, conses handlers of its own on the current ones, and makes
any handler of its own the first one: when it unwinds, when a handler runs with the outer ones,
and when these are restored. When a coroutine yields, its handlers are cut off from the outer
chain, and when it goes on they are spliced onto the chain of that time. -/

namespace XEmacs.Async.Handlers

open Lib

/-- The parties: the main program, and coroutines by their addresses. -/
abbrev Party := Option ℕ

structure State where
  cdr : ℕ → Option ℕ
  /-- which party has allocated a cons -/
  owner : ℕ → Option Party
  /-- `Vcondition_handlers` -/
  conditionHandlers : Option ℕ
  /-- `sched_condition_handlers` -/
  schedConditionHandlers : Option ℕ
  savedHead : ℕ → Option ℕ
  savedBoundary : ℕ → Option ℕ
  /-- `current_coro` -/
  currentCoro : Party

namespace State

variable (s : State)

/-- The walk of `coro_detach_condition_handlers` to the boundary. The result is nil where the
chain does not reach the outer one, and there is none when the turns do not suffice. -/
def boundaryWalk (cdr : ℕ → Option ℕ) (outer : Option ℕ) : ℕ → Option ℕ → Option (Option ℕ)
  | _, none => some none
  | 0, some _ => none
  | fuel + 1, some curr =>
    if cdr curr = outer then some (some curr) else boundaryWalk cdr outer fuel (cdr curr)

/-- `coro_detach_condition_handlers`. -/
def detach (fuel c : ℕ) : Option State :=
  let head := s.conditionHandlers
  let outer := s.schedConditionHandlers
  if head = outer then
    some { s with
      savedHead := Function.update s.savedHead c none
      savedBoundary := Function.update s.savedBoundary c none
      conditionHandlers := outer }
  else
    (boundaryWalk s.cdr outer fuel head).map fun curr =>
      { s with
        savedHead := Function.update s.savedHead c head
        savedBoundary := Function.update s.savedBoundary c curr
        cdr :=
          match curr with
          | some curr => Function.update s.cdr curr none
          | none => s.cdr
        conditionHandlers := outer }

/-- `coro_reattach_condition_handlers`. -/
def reattach (c : ℕ) : State :=
  match s.savedHead c with
  | none => s
  | some head =>
    { s with
      cdr :=
        match s.savedBoundary c with
        | some boundary => Function.update s.cdr boundary s.conditionHandlers
        | none => s.cdr
      conditionHandlers := some head
      savedHead := Function.update s.savedHead c none
      savedBoundary := Function.update s.savedBoundary c none }

end State

inductive Action
  /-- the running party conses a handler on the current ones -/
  | push (x : ℕ)
  /-- it makes a handler of its own the first one; the main program may also have none -/
  | rebind (x : Option ℕ)
  /-- all of its handlers are unwound -/
  | unwind
  /-- `async_scheduler_tick` switches to a coroutine -/
  | swapIn (c : ℕ)
  /-- `coro_yield` -/
  | yield (fuel : ℕ)
  /-- the coroutine's body ends -/
  | exit
  deriving DecidableEq

/-- The conses of a party are free. -/
def release (owner : ℕ → Option Party) (party : Party) : ℕ → Option Party :=
  fun x => if owner x = some party then none else owner x

def step (s : State) : Action → Option State
  | .push x =>
    if s.owner x = none then
      some { s with
        owner := Function.update s.owner x (some s.currentCoro)
        cdr := Function.update s.cdr x s.conditionHandlers
        conditionHandlers := some x }
    else none
  | .rebind (some x) =>
    if s.owner x = some s.currentCoro then some { s with conditionHandlers := some x } else none
  | .rebind none =>
    if s.currentCoro = none then some { s with conditionHandlers := none } else none
  | .unwind =>
    some { s with
      owner := release s.owner s.currentCoro
      conditionHandlers := if s.currentCoro = none then none else s.schedConditionHandlers }
  | .swapIn c =>
    if s.currentCoro = none then
      some ({ s with currentCoro := some c, schedConditionHandlers := s.conditionHandlers }.reattach c)
    else none
  | .yield fuel =>
    match s.currentCoro with
    | none => none
    | some c => (s.detach fuel c).map ({ · with currentCoro := none })
  | .exit =>
    match s.currentCoro with
    | none => none
    | some c =>
      some { s with
        owner := release s.owner (some c)
        conditionHandlers := s.schedConditionHandlers
        currentCoro := none }

/-- No handlers and no coroutines, and memory with any contents. -/
def init (cdr : ℕ → Option ℕ) : State where
  cdr := cdr
  owner _ := none
  conditionHandlers := none
  schedConditionHandlers := none
  savedHead _ := none
  savedBoundary _ := none
  currentCoro := none

/-- The conses of a list up to one that the rest is linked to. -/
def Branch (s : State) (c b : ℕ) (p : Option ℕ) (l : List ℕ) : Prop :=
  SList (Function.update s.cdr b none) p l ∧ (∀ y ∈ l, s.owner y = some (some c)) ∧ l.getLast? = some b

/-- All conses of a coroutine lead to one, which is the last one of each list. -/
structure Rooted (s : State) (c b : ℕ) : Prop where
  owner : s.owner b = some (some c)
  branch : ∀ x, s.owner x = some (some c) → ∃ l, Branch s c b (some x) l

/-- A coroutine has no conses, or they lead to the boundary. -/
def NoneOwned (s : State) (c : ℕ) : Prop :=
  ∀ x, s.owner x ≠ some (some c)

def Suspended (s : State) (c : ℕ) : Prop :=
  (NoneOwned s c ∧ s.savedHead c = none ∧ s.savedBoundary c = none) ∨
  ∃ h b, s.savedHead c = some h ∧ s.savedBoundary c = some b ∧ s.owner h = some (some c) ∧
    Rooted s c b ∧ s.cdr b = none

def Running (s : State) (c : ℕ) : Prop :=
  s.savedHead c = none ∧ s.savedBoundary c = none ∧
    ((NoneOwned s c ∧ s.conditionHandlers = s.schedConditionHandlers) ∨
    ∃ h b, s.conditionHandlers = some h ∧ s.owner h = some (some c) ∧ Rooted s c b ∧
      s.cdr b = s.schedConditionHandlers)

def outer (s : State) : Option ℕ :=
  if s.currentCoro = none then s.conditionHandlers else s.schedConditionHandlers

structure Inv (s : State) : Prop where
  main : ∀ x, s.owner x = some none → ∃ l, SList s.cdr (some x) l ∧ ∀ y ∈ l, s.owner y = some none
  outer : ∀ x, outer s = some x → s.owner x = some none
  running : ∀ c, s.currentCoro = some c → Running s c
  suspended : ∀ c, s.currentCoro ≠ some c → Suspended s c

/-- Only the conses of one party, and what is saved for it, may have changed. -/
structure Only (s s' : State) (p : Party) : Prop where
  owner : ∀ x q, q ≠ p → (s'.owner x = some q ↔ s.owner x = some q)
  cdr : ∀ x q, q ≠ p → s.owner x = some q → s'.cdr x = s.cdr x
  saved : ∀ c, some c ≠ p →
    s'.savedHead c = s.savedHead c ∧ s'.savedBoundary c = s.savedBoundary c

theorem only_release {s : State} {p : Party} {handlers : Option ℕ} {coro : Party} :
    Only s { s with owner := release s.owner p, conditionHandlers := handlers, currentCoro := coro } p where
  owner x q hq := by
    show release s.owner p x = some q ↔ _
    rw [release]
    split
    case isTrue hx =>
      rw [hx]
      exact ⟨fun h => absurd h (Option.some_ne_none q).symm,
        fun h => absurd (Option.some_inj.mp h).symm hq⟩
    case isFalse => rfl
  cdr _ _ _ _ := rfl
  saved _ _ := ⟨rfl, rfl⟩

namespace Branch

variable {s s' : State} {c b : ℕ} {p : Option ℕ} {l rest : List ℕ}

theorem congr (h : Branch s c b p l) (howner : ∀ y ∈ l, s'.owner y = s.owner y)
    (hcdr : ∀ y ∈ l, y ≠ b → s'.cdr y = s.cdr y) : Branch s' c b p l := by
  refine ⟨h.1.congr fun y hy => ?_, fun y hy => (howner y hy).trans (h.2.1 y hy), h.2.2⟩
  by_cases hyb : y = b
  · rw [hyb, Function.update_self, Function.update_self]
  · rw [Function.update_of_ne hyb, Function.update_of_ne hyb, hcdr y hy hyb]

theorem append (h : Branch s c b p l) (hrest : SList s.cdr (s.cdr b) rest) :
    SList s.cdr p (l ++ rest) := by
  obtain ⟨hlist, -, hlast⟩ := h
  induction l generalizing p with
  | nil => exact absurd hlast (Option.some_ne_none b).symm
  | cons x l ih =>
    refine ⟨hlist.1, ?_⟩
    cases l with
    | nil =>
      obtain rfl : x = b := Option.some_inj.mp hlast
      exact hrest
    | cons y l =>
      have hxb : x ≠ b := by
        rintro rfl
        have hnone := hlist.2.1
        rw [Function.update_self] at hnone
        exact absurd hnone (Option.some_ne_none y).symm
      have hnext := hlist.2
      rw [Function.update_of_ne hxb] at hnext
      exact ih hnext hlast

theorem boundaryWalk_eq (h : Branch s c b p l) {outer : Option ℕ} (hb : s.cdr b = outer)
    (houter : ∀ x, outer = some x → s.owner x ≠ some (some c)) (fuel : ℕ) :
    State.boundaryWalk s.cdr outer fuel p = if l.length ≤ fuel then some (some b) else none := by
  obtain ⟨hlist, howner, hlast⟩ := h
  induction l generalizing p fuel with
  | nil => exact absurd hlast (Option.some_ne_none b).symm
  | cons x l ih =>
    obtain rfl : p = some x := hlist.1
    cases fuel with
    | zero => rfl
    | succ fuel =>
      rw [State.boundaryWalk]
      cases l with
      | nil =>
        obtain rfl : x = b := Option.some_inj.mp hlast
        rw [if_pos hb, if_pos (show [x].length ≤ fuel + 1 from Nat.le_add_left 1 fuel)]
      | cons y l =>
        have hnext := hlist.2
        by_cases hxb : x = b
        · rw [hxb, Function.update_self] at hnext
          exact absurd hnext.1 (Option.some_ne_none y).symm
        · rw [Function.update_of_ne hxb] at hnext
          have hy := howner y (List.mem_cons_of_mem x List.mem_cons_self)
          rw [if_neg fun hc => houter y (hc.symm.trans hnext.1) hy,
            ih fuel hnext (fun z hz => howner z (List.mem_cons_of_mem x hz)) hlast]
          exact if_congr Nat.succ_le_succ_iff.symm rfl rfl

end Branch

theorem Rooted.congr {s s' : State} {c b : ℕ} (h : Rooted s c b)
    (howner : ∀ x, s'.owner x = some (some c) ↔ s.owner x = some (some c))
    (hcdr : ∀ x, s.owner x = some (some c) → x ≠ b → s'.cdr x = s.cdr x) : Rooted s' c b where
  owner := (howner b).mpr h.owner
  branch x hx := by
    obtain ⟨l, hl⟩ := h.branch x ((howner x).mp hx)
    refine ⟨l, hl.congr (fun y hy => ?_) fun y hy => hcdr y (hl.2.1 y hy)⟩
    rw [(howner y).mpr (hl.2.1 y hy), hl.2.1 y hy]

namespace Only

variable {s s' : State} {p : Party} {c : ℕ}

theorem suspended (h : Only s s' p) (hc : some c ≠ p) (hs : Suspended s c) : Suspended s' c := by
  obtain ⟨hhead, hboundary⟩ := h.saved c hc
  rcases hs with ⟨hnone, hh, hb⟩ | ⟨x, b, hh, hb, hx, hroot, hnil⟩
  · exact Or.inl ⟨fun y hy => hnone y ((h.owner y _ hc).mp hy), hhead.trans hh, hboundary.trans hb⟩
  · refine Or.inr ⟨x, b, hhead.trans hh, hboundary.trans hb, (h.owner x _ hc).mpr hx,
      hroot.congr (fun y => h.owner y _ hc) fun y hy _ => h.cdr y _ hc hy, ?_⟩
    rw [h.cdr b _ hc hroot.owner, hnil]

theorem main (h : Only s s' p) (hp : none ≠ p)
    (hm : ∀ x, s.owner x = some none → ∃ l, SList s.cdr (some x) l ∧ ∀ y ∈ l, s.owner y = some none)
    (x : ℕ) (hx : s'.owner x = some none) :
    ∃ l, SList s'.cdr (some x) l ∧ ∀ y ∈ l, s'.owner y = some none := by
  obtain ⟨l, hl, howner⟩ := hm x ((h.owner x none hp).mp hx)
  exact ⟨l, hl.congr fun y hy => h.cdr y none hp (howner y hy),
    fun y hy => (h.owner y none hp).mpr (howner y hy)⟩

end Only

end XEmacs.Async.Handlers
