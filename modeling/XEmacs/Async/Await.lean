import XEmacs.Async.ErrorSlot
import XEmacs.Async.Join

/-! What `await` of a coroutine's handle yields: how the target's body ended, whether it died before
or after the joiner came to wait, on runs that keep away from four kinds of steps. -/

namespace XEmacs.Async

open Lib

/-- The body of `t` has ended with the outcome, and with no other. -/
structure Ends (t : CoroId) (outcome : Outcome) (log : List Event) : Prop where
  exited : .exited t outcome ∈ log
  unique : ∀ outcome', .exited t outcome' ∈ log → outcome' = outcome

section Log

variable {t c : CoroId} {outcome : Outcome} {log : List Event}

theorem Ends.append (h : Ends t outcome log) {e : Event} (he : ∀ outcome, e ≠ .exited t outcome) :
    Ends t outcome (log ++ [e]) where
  exited := List.mem_append_left _ h.exited
  unique o ho := h.unique o (by simpa [(he o).symm] using ho)

theorem ends_exited {error : LispObject} (h : Life c log error) (outcome : Outcome) :
    Ends c outcome (log ++ [.exited c outcome]) where
  exited := by simp
  unique o ho := by
    rcases List.mem_append.mp ho with ho | ho
    · exact absurd ho (h.unended o)
    · simpa using ho

theorem Ends.ne {error : LispObject} (h : Ends t outcome log) (hlife : Life c log error) : t ≠ c := by
  rintro rfl
  exact hlife.unended outcome h.exited

theorem awaitOutcome_exit {k : Coro} (h : k.exitError outcome = outcome.errordata) :
    State.awaitOutcome (k.exitError outcome) (k.exitResult outcome) = outcome := by
  rw [Coro.exitResult, h]
  cases outcome <;> rfl

end Log

/-- What the dead, the woken and the log say about awaited coroutines. -/
structure Awaits (exiting : Option CoroId) (v : View) : Prop where
  dead : ∀ t k, v.core t = some k → k.state = .dead ∨ exiting = some t →
    ∃ outcome, Ends t outcome v.log ∧ ∀ r, outcome = .value r → k.result = r
  woken : ∀ c k t, v.core c = some k → k.state = .runnable → k.frame = .await t →
    Ends t (State.awaitOutcome k.error k.result) v.log
  awaited : ∀ c t outcome, .awaited c t outcome ∈ v.log → Ends t outcome v.log

/-- The labels of steps that an await does not see the wrong outcome of. -/
structure AwaitsLabel (v : View) (l : Label) : Prop where
  alive : ∀ c, l ≠ .die c
  join : JoinsAloneLabel v l
  returns : ∀ c r, l = .finish c (.value r) → lastResumeError c v.log = .nil
  reaps : ∀ c t, l = .reapAwait c t →
    (∀ outcome, .exited t outcome ∈ v.log → ∃ r, outcome = .value r) ∧ lastResumeError c v.log = .nil

variable {v v' : View} {l : Label} {ex : Option CoroId} {x : CoroId} {k k' : Coro}

theorem Awaits.emit (h : Awaits ex v) {e : Event} (hexit : ∀ c outcome, e ≠ .exited c outcome)
    (hawait : ∀ c t outcome, e = .awaited c t outcome → Ends t outcome v.log) :
    Awaits ex (v.emit e) where
  dead t k hk hd := by
    obtain ⟨outcome, hends, hresult⟩ := h.dead t k hk hd
    exact ⟨outcome, hends.append (hexit t), hresult⟩
  woken c k t hk hs hf := (h.woken c k t hk hs hf).append (hexit t)
  awaited c t outcome hmem := by
    rcases List.mem_append.mp hmem with hmem | hmem
    · exact (h.awaited c t outcome hmem).append (hexit t)
    · exact (hawait c t outcome (List.mem_singleton.mp hmem).symm).append (hexit t)

theorem Awaits.congr (h : Awaits ex v) (hcore : v'.core = v.core) (hlog : v'.log = v.log) :
    Awaits ex v' where
  dead t k hk hd := hlog ▸ h.dead t k (hcore ▸ hk) hd
  woken c k t hk hs hf := hlog ▸ h.woken c k t (hcore ▸ hk) hs hf
  awaited c t outcome hmem := hlog ▸ h.awaited c t outcome (hlog ▸ hmem)

theorem Awaits.set (h : Awaits ex v) (k' : Coro) (hk : v.core x = some k)
    (hdead : k'.state = .dead ∨ ex = some x → (k.state = .dead ∨ ex = some x) ∧ k'.result = k.result)
    (hwoken : k'.state = .runnable → ∀ t, k'.frame = .await t →
      Ends t (State.awaitOutcome k'.error k'.result) v.log) : Awaits ex (v.set x k') where
  dead t kt ht hd := by
    by_cases htx : t = x
    · subst htx
      obtain rfl := Option.some.inj ((View.set_core_self _ _ _).symm.trans ht)
      obtain ⟨hd', hresult⟩ := hdead hd
      rw [hresult]
      exact h.dead t k hk hd'
    · exact h.dead t kt ((View.set_core_of_ne _ htx _).symm.trans ht) hd
  woken c kc t hc hs hf := by
    by_cases hcx : c = x
    · subst hcx
      obtain rfl := Option.some.inj ((View.set_core_self _ _ _).symm.trans hc)
      exact hwoken hs t hf
    · exact h.woken c kc t ((View.set_core_of_ne _ hcx _).symm.trans hc) hs hf
  awaited := h.awaited

theorem Awaits.freed (h : Awaits ex v) (x : CoroId) :
    Awaits ex { v with core := Function.update v.core x none } where
  dead t k hk hd := by
    have htx : t ≠ x := by
      rintro rfl
      simp at hk
    exact h.dead t k ((Function.update_of_ne htx ..).symm.trans hk) hd
  woken c k t hk hs hf := by
    have hcx : c ≠ x := by
      rintro rfl
      simp at hk
    exact h.woken c k t ((Function.update_of_ne hcx ..).symm.trans hk) hs hf
  awaited := h.awaited

theorem Awaits.deliver {w : CoroId} {msg : LispObject} (h : Awaits ex v) (hl : v.Linked)
    (hcur : ∀ c, ex = some c → v.current = some c) (he : Effect v (.deliver w msg) v') :
    Awaits ex v' := by
  cases he with
  | @deliver _ k _ hk hw =>
    refine Awaits.emit ?_ (by simp) (by simp)
    exact h.set _ hk (fun hd => ⟨hd, rfl⟩) fun hs t hf => h.woken w k t hk hs hf
  | @wake _ k _ hk hs hr =>
    have hwaits := hl.suspended w k hk hs
    rw [hr] at hwaits
    refine Awaits.emit (Awaits.emit ?_ (by simp) (by simp)) (by simp) (by simp)
    refine h.set _ hk (fun hd => ?_) fun _ t hf => ?_
    · have hrun := (hl.running w k hk).mpr (hcur w (hd.resolve_left (by simp [Coro.resumed])))
      simp [hs] at hrun
    · -- a join does not wait for a message
      have hf' : k.frame = .await t := hf
      simp [hf', Frame.waits] at hwaits

theorem Awaits.effect (h : Awaits none v) (hl : v.Linked) (hslots : ErrorSlots none v)
    (hok : AwaitsLabel v l) (hnot : ∀ c outcome, l ≠ .finish c outcome)
    (he : Effect v l v') : Awaits none v' := by
  cases he with
  | quiet => exact h
  | walkEnd => exact h.emit (by simp) (by simp)
  | spawn hfresh =>
    refine ⟨fun t kt ht hd => ?_, fun c kc t hc hs hf => ?_, h.awaited⟩
    · by_cases hnew : t = v.allocated
      · subst hnew
        obtain rfl := Option.some.inj ((View.set_core_self _ _ _).symm.trans ht)
        simp [Coro.new] at hd
      · exact h.dead t kt ((View.set_core_of_ne _ hnew _).symm.trans ht) hd
    · by_cases hnew : c = v.allocated
      · subst hnew
        obtain rfl := Option.some.inj ((View.set_core_self _ _ _).symm.trans hc)
        simp [Coro.new] at hf
      · exact h.woken c kc t ((View.set_core_of_ne _ hnew _).symm.trans hc) hs hf
  | deliver msg hk hw => exact h.deliver hl (by simp) (.deliver msg hk hw)
  | wake msg hk hs hr => exact h.deliver hl (by simp) (.wake msg hk hs hr)
  | @monitor t k ws hk => exact h.set _ hk (fun hd => ⟨hd, rfl⟩) fun hs u hf => h.woken t k u hk hs hf
  | @resume c k result error hk hs hf =>
    have hset : Awaits none (v.set c (k.resumed result error)) := by
      refine h.set _ hk (fun hd => by simp [Coro.resumed] at hd) fun _ t hft => ?_
      have hft' : k.frame = .await t := hft
      simp [hft'] at hf
    exact (hset.emit (by simp) (by simp)).congr rfl rfl
  | @take c k msg rest hc hk hm =>
    refine Awaits.emit ?_ (by simp) (by simp)
    exact h.set _ hk (fun hd => ⟨hd, rfl⟩) fun hs t hf => h.woken c k t hk hs hf
  | @block c k reason frame deadline hc hk hs hw hj hm =>
    have hset : Awaits none (v.set c ({ k with waitDeadline := deadline }.blocked reason frame)) :=
      h.set _ hk (fun hd => by simp [Coro.blocked] at hd) fun hr => by simp [Coro.blocked] at hr
    exact hset.congr rfl rfl
  | @register c t k kt frame hc ht hd hj hk hs =>
    have hslot : Awaits none (v.set t { kt with joinWaiter := some c }) :=
      h.set _ ht (fun hd => ⟨hd, rfl⟩) fun hs u hf => h.woken t kt u ht hs hf
    have hset := hslot.set (k.blocked .join frame) hk (fun hd => by simp [Coro.blocked] at hd)
      fun hr => by simp [Coro.blocked] at hr
    exact hset.congr rfl rfl
  | reap hc ht hd => exact h.freed _
  | @reapAwait c t k kt hc hk ht hd hne =>
    refine Awaits.emit (h.freed t) (by simp) fun c' t' outcome' heq => ?_
    simp only [Event.awaited.injEq] at heq
    obtain ⟨-, rfl, rfl⟩ := heq
    obtain ⟨outcome, hends, hresult⟩ := h.dead t kt ht (.inl hd)
    obtain ⟨hvalue, hlast⟩ := hok.reaps c t rfl
    obtain ⟨r, rfl⟩ := hvalue outcome hends.exited
    have hrun := (hl.running c k hk).mpr hc
    have herror := (hslots.live c k hk (by simp [hrun]) (by simp)).last
    rw [← herror, hlast, hresult r rfl]
    exact hends
  | @switch c k hc hk hs =>
    have hset : Awaits none (v.set c k.switched) :=
      h.set _ hk (fun hd => by simp [Coro.switched] at hd) fun hr => by simp [Coro.switched] at hr
    have hran : Awaits none ({ v.set c k.switched with current := some c }.emit (.ran c)) :=
      (hset.emit (e := .ran c) (by simp) (by simp)).congr rfl rfl
    unfold View.returned
    split
    · exact hran.emit (by simp) (by simp)
    · rename_i t hf
      refine hran.emit (by simp) fun c' t' outcome' heq => ?_
      simp only [Event.awaited.injEq] at heq
      obtain ⟨-, rfl, rfl⟩ := heq
      exact (h.woken c k t hk hs hf).append (by simp)
    · exact hran
  | finish => exact absurd rfl (hnot _ _)
  | finishWake => exact absurd rfl (hnot _ _)
  | die => exact absurd rfl (hok.alive _)

theorem Awaits.finish {outcome : Outcome} (h : Awaits none v)
    (hslots : ErrorSlots none v) (hok : AwaitsLabel v (.finish x outcome))
    (he : Effect v (.finish x outcome) v') : Awaits (some x) v' := by
  -- the error slot is the error that the body has ended with
  have herror : ∀ {k}, v.core x = some k → k.state = .running → Life x v.log k.error ∧
      k.exitError outcome = outcome.errordata := by
    intro k hk hs
    have hlife := hslots.live x k hk (by simp [hs]) (by simp)
    refine ⟨hlife, ?_⟩
    cases outcome with
    | value r => exact hlife.last.symm.trans (hok.returns x r rfl)
    | signal errorSymbol data => rfl
  have hexit : ∀ {k}, v.core x = some k → k.state = .running →
      Awaits (some x) ((v.set x (k.finished outcome)).emit (.exited x outcome)) := by
    intro k hk hs
    obtain ⟨hlife, heq⟩ := herror hk hs
    have hothers : ∀ {t o}, Ends t o v.log → Ends t o (v.log ++ [.exited x outcome]) :=
      fun hends => hends.append fun o heq => hends.ne hlife (by simp at heq; exact heq.1.symm)
    refine ⟨fun t kt ht hd => ?_, fun c kc t hc hsc hf => ?_, fun c t o hmem => ?_⟩
    · by_cases htx : t = x
      · subst htx
        obtain rfl := Option.some.inj ((View.set_core_self _ _ _).symm.trans ht)
        refine ⟨outcome, ends_exited hlife outcome, fun r hr => ?_⟩
        subst hr
        rw [Coro.finished, heq]
        rfl
      · obtain ⟨o, hends, hresult⟩ := h.dead t kt ((View.set_core_of_ne _ htx _).symm.trans ht)
          (.inl (hd.resolve_right (by simpa using Ne.symm htx)))
        exact ⟨o, hothers hends, hresult⟩
    · have hcx : c ≠ x := by
        rintro rfl
        obtain rfl := Option.some.inj ((View.set_core_self _ _ _).symm.trans hc)
        simp [Coro.finished, hs] at hsc
      exact hothers (h.woken c kc t ((View.set_core_of_ne _ hcx _).symm.trans hc) hsc hf)
    · rcases List.mem_append.mp hmem with hmem | hmem
      · exact hothers (h.awaited c t o hmem)
      · simp at hmem
  cases he with
  | finish hc hk hs hw => exact hexit hk hs
  | @finishWake _ w k kw _ hc hk hs hw hkw hsw hj hne =>
    have hkw' : ((v.set x (k.finished outcome)).emit (.exited x outcome)).core w = some kw :=
      (View.set_core_of_ne _ hne _).trans hkw
    obtain ⟨hlife, heq⟩ := herror hk hs
    have hset := (hexit hk hs).set (kw.resumed (k.exitResult outcome) (k.exitError outcome)) hkw'
      (fun hd => by rcases hd with hd | hd <;> simp [Coro.resumed, Ne.symm hne] at hd) fun _ t hf => by
        have hf' : kw.frame = .await t := hf
        obtain rfl := hj.eq (.inr hf')
        show Ends x (State.awaitOutcome (k.exitError outcome) (k.exitResult outcome)) _
        rw [awaitOutcome_exit heq]
        exact ends_exited hlife outcome
    exact hset.emit (by simp) (by simp)

theorem Awaits.die (h : Awaits (some x) v) (he : Effect v (.die x) v') : Awaits none v' := by
  cases he with
  | @die _ k hc hk hs hw =>
    have hset := h.set ({ k with monitorList := [], state := .dead }) hk
      (fun _ => ⟨.inr rfl, rfl⟩) fun hr => by simp at hr
    refine ⟨fun t kt ht hd => ?_, hset.woken, hset.awaited⟩
    exact hset.dead t kt ht (.inl (hd.resolve_right (by simp)))

theorem Awaits.effects (h : Awaits none v) (hl : v.Linked) (hslots : ErrorSlots none v)
    (hok : AwaitsLabel v l) (he : Effects v l v') : Awaits none v' := by
  refine he.invariant_exit (J := fun c v => Awaits (some c) v ∧ v.Linked ∧ v.current = some c)
    (fun hnot u => h.effect hl hslots hok hnot) (fun c outcome u hfinish heff => ?_)
    (fun c w msg u u' hu heff => ?_) fun c u u' hu heff => hu.1.die heff
  · subst hfinish
    refine ⟨h.finish hslots hok heff, hl.effect heff, ?_⟩
    cases heff with
    | finish hc => exact hc
    | finishWake hc => exact hc
  · refine ⟨hu.1.deliver hu.2.1 (fun x hx => ?_) heff, hu.2.1.effect heff, heff.deliver_current.trans hu.2.2⟩
    exact Option.some.inj hx ▸ hu.2.2

/-- The body of `t` has ended with an error. -/
def Raised (t : CoroId) (log : List Event) : Prop :=
  log.any fun
    | .exited target (.signal ..) => target = t
    | _ => false

instance (t : CoroId) (log : List Event) : Decidable (Raised t log) :=
  inferInstanceAs (Decidable (_ = true))

/-- The running coroutine was not last resumed with an error. -/
def ErrorFree (s : State) : Prop := ∀ c ∈ s.control.current, lastResumeError c s.log = .nil

instance (s : State) : Decidable (ErrorFree s) :=
  inferInstanceAs (Decidable (∀ c ∈ s.control.current, lastResumeError c s.log = .nil))

/-- A dead target has returned, and the running coroutine was not last resumed with an error. -/
def AwaitsReturned (s : State) (t : CoroId) : Prop :=
  ∀ k ∈ s.heap t, k.state = .dead → ¬ Raised t s.log ∧ ErrorFree s

instance (s : State) (t : CoroId) : Decidable (AwaitsReturned s t) :=
  inferInstanceAs (Decidable (∀ k ∈ s.heap t, k.state = .dead → ¬ Raised t s.log ∧ ErrorFree s))

def AwaitsPlainly (s : State) : Action → Prop
  | .exit (.value _) => ErrorFree s
  | .join t => SlotFree s t
  | .await t => SlotFree s t ∧ AwaitsReturned s t
  | _ => True

instance (s : State) : (a : Action) → Decidable (AwaitsPlainly s a)
  | .exit (.value _) => inferInstanceAs (Decidable (ErrorFree s))
  | .join t => inferInstanceAs (Decidable (SlotFree s t))
  | .await t => inferInstanceAs (Decidable (SlotFree s t ∧ AwaitsReturned s t))
  | .spawn .. | .actorSpawn .. | .send .. | .monitor .. | .tick | .leaveHttpTick .. | .continueTick
  | .httpComplete .. | .yield | .receive .. | .httpStart | .exit (.signal ..) => isTrue trivial

theorem AwaitsPlainly.joinsAlone {s : State} {a : Action} (h : AwaitsPlainly s a) : JoinsAlone s a := by
  cases a with
  | join t => exact h
  | await t => exact h.1
  | _ => trivial

theorem awaitsLabel_of_does {s : State} {a : Action} (hok : AwaitsPlainly s a)
    (hd : s.Does a l) (he : Effects s.view l v') : AwaitsLabel s.view l where
  alive c := by
    rintro rfl
    cases hd with
    | plain hl => simp at hl
  join := joinsAloneLabel_of_does hok.joinsAlone hd
  returns c r := by
    rintro rfl
    cases hd with
    | plain hl => simp at hl
    | finish hc => exact hok c (by simp [hc, Control.current])
  reaps c t := by
    rintro rfl
    cases hd with
    | plain hl => simp at hl
    | reapAwait hc =>
      cases he with
      | single heff _ =>
        cases heff with
        | reapAwait _ _ ht hdead =>
          obtain ⟨kt, hkt, rfl⟩ := Option.map_eq_some_iff.mp ht
          obtain ⟨hraised, hfree⟩ := hok.2 kt hkt hdead
          refine ⟨fun outcome hmem => ?_, hfree c (by simp [hc, Control.current])⟩
          cases outcome with
          | value r => exact ⟨r, rfl⟩
          | signal errorSymbol data =>
            exact absurd (List.any_eq_true.mpr ⟨_, hmem, by simp⟩) hraised

/-- Every await that has returned has yielded how the body of its target ended, and no await
of a target whose body has ended is still waiting. -/
structure AwaitsOutcome (s : State) : Prop where
  yielded : ∀ c t outcome, .awaited c t outcome ∈ s.log → Ends t outcome s.log
  waiting : ∀ c k t, s.heap c = some k → k.state = .suspended → k.frame = .await t →
    ∀ outcome, .exited t outcome ∉ s.log

/-- Coroutine 0 signals an error, and coroutine 2 awaits it afterwards. -/
def awaitDeadByError : List Action :=
  spawnThree ++ [.yield, .continueTick, .yield, .continueTick,
    .exit (.signal (.symbol (.other 1)) .nil), .continueTick, .tick, .leaveHttpTick 0, .continueTick,
    .continueTick, .continueTick, .continueTick, .continueTick, .continueTick, .continueTick, .await 0]

end XEmacs.Async
