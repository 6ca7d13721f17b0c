import XEmacs.Async.Steps

/-! The error slot of a coroutine. While a coroutine lives, its slot holds the error that it
was last resumed with, whether or not its body has handled that error since. -/

namespace XEmacs.Async

open Lib

/-- The error that `c` was last resumed with, nil if with none. -/
def lastResumeError (c : CoroId) (log : List Event) : LispObject :=
  log.foldl (fun error e => match e with
    | .resumed target error' => if target = c then error' else error
    | _ => error) .nil

/-- The body of `c` has not ended, and `error` is what `c` was last resumed with. -/
structure Life (c : CoroId) (log : List Event) (error : LispObject) : Prop where
  unended : ∀ outcome, .exited c outcome ∉ log
  last : lastResumeError c log = error

section Log

variable {c t w : CoroId} {log : List Event} {error error' : LispObject}

@[simp] theorem lastResumeError_append (e : Event) :
    lastResumeError c (log ++ [e]) = match e with
      | .resumed target error => if target = c then error else lastResumeError c log
      | _ => lastResumeError c log := by
  simp only [lastResumeError, List.foldl_append, List.foldl_cons, List.foldl_nil]

theorem life_append {e : Event} (hexit : ∀ outcome, e ≠ .exited c outcome)
    (hresume : ∀ error, e ≠ .resumed c error) : Life c (log ++ [e]) error ↔ Life c log error := by
  have hlast : lastResumeError c (log ++ [e]) = lastResumeError c log := by
    rw [lastResumeError_append]
    cases e with
    | resumed target error => exact if_neg fun h => hresume error (by rw [h])
    | _ => rfl
  have hmem : ∀ outcome, .exited c outcome ∈ log ++ [e] ↔ .exited c outcome ∈ log := by
    intro outcome
    simp [(hexit outcome).symm]
  constructor
  · exact fun h => ⟨fun o ho => h.unended o ((hmem o).mpr ho), hlast ▸ h.last⟩
  · exact fun h => ⟨fun o ho => h.unended o ((hmem o).mp ho), hlast.trans h.last⟩

theorem life_resumed (h : Life c log error) : Life c (log ++ [.resumed c error']) error' :=
  ⟨fun outcome ho => h.unended outcome (by simpa using ho), by simp⟩

end Log

/-- The error slots of the coroutines, but for one that exits. -/
structure ErrorSlots (exiting : Option CoroId) (v : View) : Prop where
  unborn : ∀ c, v.allocated ≤ c → Life c v.log .nil
  live : ∀ c k, v.core c = some k → k.state ≠ .dead → exiting ≠ some c → Life c v.log k.error

variable {v v' : View} {l : Label} {ex : Option CoroId} {x : CoroId} {k k' : Coro} {error : LispObject}

theorem ErrorSlots.emit (h : ErrorSlots ex v) {e : Event} (hexit : ∀ c outcome, e ≠ .exited c outcome)
    (hresume : ∀ c error, e ≠ .resumed c error) : ErrorSlots ex (v.emit e) where
  unborn c hc := (life_append (hexit c) (hresume c)).mpr (h.unborn c hc)
  live c k hk hd hne := (life_append (hexit c) (hresume c)).mpr (h.live c k hk hd hne)

theorem ErrorSlots.set (h : ErrorSlots ex v) (k' : Coro) (hk : v.core x = some k) (herror : k'.error = k.error)
    (hdead : k.state = .dead → k'.state = .dead) : ErrorSlots ex (v.set x k') where
  unborn := h.unborn
  live c kc hc hd hne := by
    by_cases hcx : c = x
    · subst hcx
      obtain rfl := Option.some.inj ((View.set_core_self _ _ _).symm.trans hc)
      rw [herror]
      exact h.live c k hk (fun hdk => hd (hdead hdk)) hne
    · exact h.live c kc ((View.set_core_of_ne _ hcx _).symm.trans hc) hd hne

theorem ErrorSlots.resumed (h : ErrorSlots ex v) (k' : Coro) (hl : v.Linked) (hk : v.core x = some k)
    (hdead : k.state ≠ .dead) (herror : ex ≠ some x → k'.error = error) :
    ErrorSlots ex ((v.set x k').emit (.resumed x error)) where
  unborn c hc := by
    have hcx : c ≠ x := by
      rintro rfl
      simp [hl.fresh c hc] at hk
    exact (life_append (by simp) (by simp [hcx.symm])).mpr (h.unborn c hc)
  live c kc hc hd hne := by
    by_cases hcx : c = x
    · subst hcx
      obtain rfl := Option.some.inj ((View.set_core_self _ _ _).symm.trans hc)
      rw [herror hne]
      exact life_resumed (h.live c k hk hdead hne)
    · refine (life_append (by simp) (by simp [Ne.symm hcx])).mpr ?_
      exact h.live c kc ((View.set_core_of_ne _ hcx _).symm.trans hc) hd hne

theorem ErrorSlots.congr (h : ErrorSlots ex v) (hcore : v'.core = v.core)
    (halloc : v'.allocated = v.allocated) (hlog : v'.log = v.log) : ErrorSlots ex v' where
  unborn c hc := hlog ▸ h.unborn c (halloc ▸ hc)
  live c k hk hd hne := hlog ▸ h.live c k (hcore ▸ hk) hd hne

theorem ErrorSlots.freed (h : ErrorSlots ex v) (x : CoroId) :
    ErrorSlots ex { v with core := Function.update v.core x none } where
  unborn := h.unborn
  live c k hk hd hne := by
    have hcx : c ≠ x := by
      rintro rfl
      simp at hk
    exact h.live c k ((Function.update_of_ne hcx ..).symm.trans hk) hd hne

theorem ErrorSlots.returned (h : ErrorSlots ex v) (c : CoroId) (k : Coro) :
    ErrorSlots ex (v.returned c k) := by
  unfold View.returned
  split
  · exact h.emit (by simp) (by simp)
  · exact h.emit (by simp) (by simp)
  · exact h

theorem ErrorSlots.deliver {w : CoroId} {msg : LispObject} (h : ErrorSlots ex v) (hl : v.Linked)
    (he : Effect v (.deliver w msg) v') : ErrorSlots ex v' := by
  have hsent : ErrorSlots ex (v.emit (.sent w msg)) := h.emit (by simp) (by simp)
  cases he with
  | deliver _ hk hw => exact hsent.set _ hk rfl fun hd => hd
  | wake _ hk hs hr => exact hsent.resumed _ (hl.emit _) hk (by simp [hs]) fun _ => rfl

theorem ErrorSlots.effect (h : ErrorSlots none v) (hl : v.Linked)
    (hnot : ∀ c outcome, l ≠ .finish c outcome) (he : Effect v l v') : ErrorSlots none v' := by
  cases he with
  | quiet => exact h
  | walkEnd => exact h.emit (by simp) (by simp)
  | spawn hfresh =>
    refine ⟨fun c hc => h.unborn c (Nat.le_of_succ_le hc), fun c k hk hd _ => ?_⟩
    by_cases hnew : c = v.allocated
    · subst hnew
      obtain rfl := Option.some.inj ((View.set_core_self _ _ _).symm.trans hk)
      exact h.unborn _ (Nat.le_refl _)
    · exact h.live c k ((View.set_core_of_ne _ hnew _).symm.trans hk) hd (by simp)
  | deliver msg hk hw => exact h.deliver hl (.deliver msg hk hw)
  | wake msg hk hs hr => exact h.deliver hl (.wake msg hk hs hr)
  | monitor hk => exact h.set _ hk rfl fun hd => hd
  | @resume c k result error hk hs hf =>
    exact (h.resumed (k.resumed result error) hl hk (by simp [hs]) fun _ => rfl).congr rfl rfl rfl
  | @take c k msg rest hc hk hm =>
    have hset := h.set ({ k with mailbox := rest }) hk rfl fun hd => hd
    exact hset.emit (by simp) (by simp)
  | @block c k reason frame deadline hc hk hs hw hj hm =>
    have hset := h.set ({ k with waitDeadline := deadline }.blocked reason frame) hk rfl
      fun hd => by simp [hs] at hd
    exact hset.congr rfl rfl rfl
  | @register c t k kt frame hc ht hd hj hk hs =>
    have hslot := h.set ({ kt with joinWaiter := some c }) ht rfl fun hd => hd
    have hset := hslot.set (k.blocked .join frame) hk rfl fun hd => by simp [hs] at hd
    exact hset.congr rfl rfl rfl
  | reap hc ht hd => exact h.freed _
  | reapAwait hc hk ht hd hne => exact (h.freed _).emit (by simp) (by simp)
  | @switch c k hc hk hs =>
    have hset := h.set (k.switched) hk rfl fun hd => by simp [hs] at hd
    have hran : ErrorSlots none ((v.set c k.switched).emit (.ran c)) := hset.emit (by simp) (by simp)
    refine ErrorSlots.returned ?_ _ _
    exact hran.congr rfl rfl rfl
  | finish => exact absurd rfl (hnot _ _)
  | finishWake => exact absurd rfl (hnot _ _)
  | @die c k hc hk hs hw =>
    have hset := h.set ({ k with monitorList := [], state := .dead }) hk rfl fun _ => rfl
    exact hset.congr rfl rfl rfl

theorem ErrorSlots.exited (h : ErrorSlots none v) (hl : v.Linked) (hk : v.core x = some k)
    (outcome : Outcome) : ErrorSlots (some x) ((v.set x k').emit (.exited x outcome)) where
  unborn c hc := by
    have hcx : c ≠ x := by
      rintro rfl
      simp [hl.fresh c hc] at hk
    exact (life_append (by simp [hcx.symm]) (by simp)).mpr (h.unborn c hc)
  live c kc hc hd hne := by
    have hcx : c ≠ x := fun hcx => hne (by rw [hcx])
    refine (life_append (by simp [hcx.symm]) (by simp)).mpr ?_
    exact h.live c kc ((View.set_core_of_ne _ hcx _).symm.trans hc) hd (by simp)

theorem ErrorSlots.finish {outcome : Outcome} (h : ErrorSlots none v) (hl : v.Linked)
    (he : Effect v (.finish x outcome) v') : ErrorSlots (some x) v' := by
  cases he with
  | finish hc hk hs hw => exact h.exited hl hk outcome
  | @finishWake _ w k kw _ hc hk hs hw hkw hsw hj hne =>
    have hexit : ErrorSlots (some x) ((v.set x (k.finished outcome)).emit (.exited x outcome)) :=
      h.exited hl hk outcome
    have hkw' : ((v.set x (k.finished outcome)).emit (.exited x outcome)).core w = some kw :=
      (View.set_core_of_ne _ hne _).trans hkw
    have hlink := hl.setData (k.finished outcome) hk rfl rfl rfl fun _ hc => by simp [Coro.finished] at hc
    exact hexit.resumed _ (hlink.emit _) hkw' (by simp [hsw]) fun _ => rfl

theorem ErrorSlots.die (h : ErrorSlots (some x) v) (he : Effect v (.die x) v') : ErrorSlots none v' := by
  cases he with
  | die hc hk hs hw =>
    refine ⟨h.unborn, fun c kc hc hd _ => ?_⟩
    by_cases hcx : c = x
    · subst hcx
      obtain rfl := Option.some.inj ((View.set_core_self _ _ _).symm.trans hc)
      simp at hd
    · exact h.live c kc ((View.set_core_of_ne _ hcx _).symm.trans hc) hd (by simpa using Ne.symm hcx)

theorem ErrorSlots.effects (h : ErrorSlots none v) (hl : v.Linked) (he : Effects v l v') :
    ErrorSlots none v' := by
  refine he.invariant_exit (J := fun c v => ErrorSlots (some c) v ∧ v.Linked)
    (fun hnot u => h.effect hl hnot) (fun c outcome u hfinish heff => ?_)
    (fun c w msg u u' hu heff => ⟨hu.1.deliver hu.2 heff, hu.2.effect heff⟩)
    fun c u u' hu heff => hu.1.die heff
  subst hfinish
  exact ⟨h.finish hl heff, hl.effect heff⟩

theorem errorSlots_init : ErrorSlots none State.init.view where
  unborn _ _ := ⟨fun _ ho => by simp [State.view, State.init] at ho, rfl⟩
  live c k hk := by simp [State.view, State.init] at hk

theorem run_errorSlots {s : State} {ok : State → Action → Prop} {as : List Action}
    (h : Run State.step ok .init as s) : ErrorSlots none s.view := by
  have hinv : ErrorSlots none s.view ∧ s.view.Linked := by
    refine h.invariant (I := fun s => ErrorSlots none s.view ∧ s.view.Linked)
      ⟨errorSlots_init, State.linked_init⟩ fun s a s' hi _ hs => ?_
    obtain ⟨l, -, he⟩ := State.step_effects hi.2 hs
    exact ⟨hi.1.effects hi.2 he, hi.2.effects he⟩
  exact hinv.1

end XEmacs.Async
