import XEmacs.Async.ErrorSlot

/-! What the exit of a coroutine reports to its join waiter and its monitors. It is how the
body ended, but for a body that returns after it has been resumed with an error: then the
report is that error. -/

namespace XEmacs.Async

open Lib

section Effects

variable {v v' : View} {c w : CoroId} {k kw : Coro} {outcome : Outcome}

theorem Effect.finish_core (he : Effect v (.finish c outcome) v') (hw : v.core w = some kw) :
    ∃ kw', v'.core w = some kw' ∧ kw'.mailbox = kw.mailbox ∧ (kw'.state = .dead ↔ kw.state = .dead) := by
  have hself : ∀ {u : View} {y : CoroId} {ky : Coro} (ky' : Coro), u.core y = some ky → u.core w = some kw →
      ky'.mailbox = ky.mailbox → (ky'.state = .dead ↔ ky.state = .dead) →
      ∃ kw', (u.set y ky').core w = some kw' ∧ kw'.mailbox = kw.mailbox ∧
        (kw'.state = .dead ↔ kw.state = .dead) := by
    intro u y ky ky' hy hw hmail hdead
    by_cases hwy : w = y
    · subst hwy
      obtain rfl := Option.some.inj (hy.symm.trans hw)
      exact ⟨ky', View.set_core_self _ _ _, hmail, hdead⟩
    · exact ⟨kw, (View.set_core_of_ne _ hwy _).trans hw, rfl, Iff.rfl⟩
  cases he with
  | finish _ hk _ _ => exact hself _ hk hw rfl Iff.rfl
  | @finishWake _ x k kx _ hc hk hs hjoin hx hsx hj hne =>
    obtain ⟨ku, hu, hmail, hdead⟩ := hself (k.finished outcome) hk hw rfl Iff.rfl
    have hx' : (v.set c (k.finished outcome)).core x = some kx := (View.set_core_of_ne _ hne _).trans hx
    by_cases hwx : w = x
    · subst hwx
      obtain rfl := Option.some.inj (hx'.symm.trans hu)
      exact ⟨_, View.set_core_self _ _ _, hmail, by rw [← hdead]; simp [Coro.resumed, hsx]⟩
    · exact ⟨ku, (View.set_core_of_ne _ hwx _).trans hu, hmail, hdead⟩

theorem Effect.die_core (he : Effect v (.die c) v') (hw : v.core w = some kw) :
    ∃ kw', v'.core w = some kw' ∧ kw'.mailbox = kw.mailbox ∧ (w ≠ c → kw' = kw) := by
  cases he with
  | die hc hk hs hj =>
    by_cases hwc : w = c
    · subst hwc
      obtain rfl := Option.some.inj (hk.symm.trans hw)
      exact ⟨_, View.set_core_self _ _ _, rfl, fun h => absurd rfl h⟩
    · exact ⟨kw, (View.set_core_of_ne _ hwc _).trans hw, rfl, fun _ => rfl⟩

theorem Effects.exit_monitor (he : Effects v (.finish c outcome) v') (hk : v.core c = some k)
    (hw : v.core w = some kw) (hd : kw.state ≠ .dead) :
    ∃ kw', v'.core w = some kw' ∧ kw'.mailbox = kw.mailbox ++
      List.replicate (k.monitorList.count w) (State.exitMsg (k.exitError outcome)) := by
  cases he with
  | single _ hnot => exact absurd rfl (hnot c outcome)
  | @exit v₁ v₂ _ _ k' _ hk' hfinish hmonitors hdie =>
    obtain rfl := Option.some.inj (hk.symm.trans hk')
    obtain ⟨k₁, h₁, hmail₁, hdead₁⟩ := hfinish.finish_core hw
    have halive : v₁.alive w = true := by
      simp [View.alive, h₁, hdead₁, hd]
    have h₂ := hmonitors.core h₁
    rw [List.count_filter halive] at h₂
    obtain ⟨k₃, h₃, hmail₃, -⟩ := hdie.die_core h₂
    exact ⟨k₃, h₃, by rw [hmail₃, Coro.iterate_delivered_mailbox, hmail₁]⟩

theorem Effects.exit_joiner (he : Effects v (.finish c outcome) v') (hk : v.core c = some k)
    (hw : k.joinWaiter = some w) :
    ∃ kw, v'.core w = some kw ∧ kw.state = .runnable ∧ kw.result = k.exitResult outcome ∧
      kw.error = k.exitError outcome := by
  cases he with
  | single _ hnot => exact absurd rfl (hnot c outcome)
  | @exit v₁ v₂ _ _ k' _ hk' hfinish hmonitors hdie =>
    cases hfinish with
    | finish _ hkc _ hno =>
      obtain rfl := Option.some.inj (hk.symm.trans hkc)
      simp [hw] at hno
    | @finishWake _ x kc kx _ hc hkc hs hjoin hx hsx hj hne =>
      obtain rfl := Option.some.inj (hk.symm.trans hkc)
      obtain rfl := Option.some.inj (hw.symm.trans hjoin)
      have h₂ := hmonitors.core (View.set_core_self _ w
        (kx.resumed (k.exitResult outcome) (k.exitError outcome)))
      rw [Coro.iterate_delivered _ _ (by simp [Coro.resumed])] at h₂
      obtain ⟨k₃, h₃, -, hsame⟩ := hdie.die_core h₂
      rw [hsame hne] at h₃
      exact ⟨_, h₃, rfl, rfl, rfl⟩

end Effects

/-- The join waiter of the coroutine `k` that has exited is resumed with how its body ended, and its
monitors that are not dead have been told so. -/
structure ReportsExit (k : Coro) (s s' : State) (outcome : Outcome) : Prop where
  joiner : ∀ w, k.joinWaiter = some w → ∃ kw, s'.heap w = some kw ∧ kw.state = .runnable ∧
    kw.result = outcome.ret ∧ kw.error = outcome.errordata
  monitors : ∀ w ∈ k.monitorList, ∀ kw, s.heap w = some kw → kw.state ≠ .dead →
    ∃ kw', s'.heap w = some kw' ∧ kw'.mailbox = kw.mailbox ++
      List.replicate (k.monitorList.count w) (State.exitMsg outcome.errordata)

/-- Nobody is told how the coroutine ends. -/
structure Unobserved (k : Coro) (s : State) : Prop where
  joiner : k.joinWaiter = none
  monitors : ∀ w ∈ k.monitorList, ∀ kw, s.heap w = some kw → kw.state = .dead

theorem exitResult_eq {k : Coro} {outcome : Outcome} (h : k.exitError outcome = outcome.errordata) :
    k.exitResult outcome = outcome.ret := by
  rw [Coro.exitResult, h]
  cases outcome <;> rfl

/-- An exit reports how the body ended just if it is not a return after the coroutine was last
resumed with an error, or nobody is told. -/
theorem run_exit_reports {s s' : State} {as : List Action} (h : Run State.step anyStep .init as s)
    {c : CoroId} {n : Option CoroId} {k : Coro} {outcome : Outcome} (hc : s.control = .running c n)
    (hk : s.heap c = some k) (hs : s.step (.exit outcome) = some s') :
    ReportsExit k s s' outcome ↔
      (outcome.errordata = .nil → lastResumeError c s.log ≠ .nil → Unobserved k s) := by
  have hlinked := State.run_linked h
  have hcore := State.core_eq hk
  have heffs : Effects s.view (.finish c outcome) s'.view := by
    simp only [State.step, hc] at hs
    exact State.coroTrampoline_effects hlinked hc hs
  have hrun : k.state = .running :=
    (hlinked.running c _ hcore).mpr (by simp [State.view, hc, Control.current])
  have hslot : lastResumeError c s.log = k.error :=
    ((run_errorSlots h).live c _ hcore (by simp [Coro.unlinked, hrun]) (by simp)).last
  have hjoiner : ∀ w, k.joinWaiter = some w → ∃ kw, s'.heap w = some kw ∧ kw.state = .runnable ∧
      kw.result = k.exitResult outcome ∧ kw.error = k.exitError outcome := by
    intro w hw
    obtain ⟨kv, hkv, hstate, hresult, herror⟩ := heffs.exit_joiner hcore hw
    obtain ⟨kw, hkw, rfl⟩ := Option.map_eq_some_iff.mp hkv
    exact ⟨kw, hkw, hstate, hresult, herror⟩
  have hmonitor : ∀ w kw, s.heap w = some kw → kw.state ≠ .dead →
      ∃ kw', s'.heap w = some kw' ∧ kw'.mailbox = kw.mailbox ++
        List.replicate (k.monitorList.count w) (State.exitMsg (k.exitError outcome)) := by
    intro w kw hw hd
    obtain ⟨kv, hkv, hmail⟩ := heffs.exit_monitor hcore (State.core_eq hw) hd
    obtain ⟨kw', hkw', rfl⟩ := Option.map_eq_some_iff.mp hkv
    exact ⟨kw', hkw', hmail⟩
  rw [hslot]
  constructor
  · intro hreports hvalue hsurvived
    have herror : k.exitError outcome = k.error := by
      cases outcome with
      | value v => rfl
      | signal errorSymbol data => simp [Outcome.errordata] at hvalue
    refine ⟨Option.eq_none_iff_forall_ne_some.mpr fun w hw => hsurvived ?_, fun w hmem kw hw => ?_⟩
    · obtain ⟨kw, hkw, -, -, hwrong⟩ := hjoiner w hw
      obtain ⟨kw', hkw', -, -, hright⟩ := hreports.joiner w hw
      obtain rfl := Option.some.inj (hkw.symm.trans hkw')
      rw [← herror, ← hwrong, hright, hvalue]
    · by_contra hd
      obtain ⟨kw₁, hkw₁, hwrong⟩ := hmonitor w kw hw hd
      obtain ⟨kw₂, hkw₂, hright⟩ := hreports.monitors w hmem kw hw hd
      obtain rfl := Option.some.inj (hkw₁.symm.trans hkw₂)
      rw [hwrong, List.append_cancel_left_eq, herror, hvalue] at hright
      have hpos : k.monitorList.count w ≠ 0 := Nat.ne_of_gt (List.count_pos_iff.mpr hmem)
      have hmsg := (List.replicate_right_inj hpos).mp hright
      simp only [State.exitMsg, LispObject.list2, LispObject.cons.injEq, and_true, true_and] at hmsg
      exact hsurvived hmsg
  · intro hcond
    by_cases hright : k.exitError outcome = outcome.errordata
    · constructor
      · intro w hw
        rw [← hright, ← exitResult_eq hright]
        exact hjoiner w hw
      · intro w _ kw hw hd
        rw [← hright]
        exact hmonitor w kw hw hd
    · have hunobserved : Unobserved k s := by
        cases outcome with
        | value v => exact hcond rfl hright
        | signal errorSymbol data => exact absurd rfl hright
      constructor
      · intro w hw
        simp [hunobserved.joiner] at hw
      · intro w hmem kw hw hd
        exact absurd (hunobserved.monitors w hmem kw hw) hd

/-- Coroutine 1 monitors the actor 0 and joins it; the actor waits for a message and is
resumed by the timer. -/
def receiveTimesOut : List Action :=
  [.actorSpawn (.function 0) [], .spawn (.function 1) .nil, .monitor 0 1, .tick, .leaveHttpTick 0,
    .continueTick, .continueTick, .continueTick, .continueTick, .continueTick, .continueTick,
    .continueTick, .join 0, .continueTick, .receive 10 0, .continueTick, .tick, .leaveHttpTick 20,
    .continueTick, .continueTick, .continueTick, .continueTick, .continueTick, .continueTick,
    .continueTick, .continueTick]

theorem run_exit_reports_signal :
    ∃ s s' k, Run State.step anyStep .init receiveTimesOut s ∧ s.heap 0 = some k ∧
      s.step (.exit (.signal (.symbol (.other 1)) .nil)) = some s' ∧
      ReportsExit k s s' (.signal (.symbol (.other 1)) .nil) := by
  have hexec : (exec State.step .init receiveTimesOut).any (fun s => decide
      (s.control = .running 0 none ∧ (s.heap 0).isSome ∧
        (s.step (.exit (.signal (.symbol (.other 1)) .nil))).isSome)) = true := by
    decide +kernel
  obtain ⟨s, hs, hc, hk, hs'⟩ := exists_run_of_exec hexec
  obtain ⟨k, hk⟩ := Option.isSome_iff_exists.mp hk
  obtain ⟨s', hs'⟩ := Option.isSome_iff_exists.mp hs'
  exact ⟨s, s', k, hs, hk, hs', (run_exit_reports hs hc hk hs').mpr fun h => by simp [Outcome.errordata] at h⟩

/-- The actor returns 5, and its join waiter is resumed with the timeout, which its monitor is
told too. -/
theorem receiveTimesOut_reports_timeout :
    ∃ s s' k, Run State.step anyStep .init receiveTimesOut s ∧ s.heap 0 = some k ∧
      s.step (.exit (.value (.fixnum 5))) = some s' ∧ k.joinWaiter = some 1 ∧
      (∃ kw, s'.heap 1 = some kw ∧
        kw.error = .list2 (.symbol .qasyncTimeout) (.string "timeout") ∧
        kw.mailbox = [State.exitMsg (.list2 (.symbol .qasyncTimeout) (.string "timeout"))]) ∧
      ¬ ReportsExit k s s' (.value (.fixnum 5)) := by
  have hexec : (exec State.step .init receiveTimesOut).any (fun s => decide
      ((s.heap 0).any (fun k => decide (k.joinWaiter = some 1)) = true ∧
        (s.step (.exit (.value (.fixnum 5)))).any (fun s' =>
          (s'.heap 1).any (fun kw => decide
            (kw.error = .list2 (.symbol .qasyncTimeout) (.string "timeout") ∧
              kw.mailbox = [State.exitMsg (.list2 (.symbol .qasyncTimeout) (.string "timeout"))])))
          = true)) = true := by
    decide +kernel
  obtain ⟨s, hs, hk, hs'⟩ := exists_run_of_exec hexec
  obtain ⟨k, hk, hw⟩ := (Option.any_eq_true _ _).mp hk
  obtain ⟨s', hs', hkw⟩ := (Option.any_eq_true _ _).mp hs'
  obtain ⟨kw, hkw, hwrong⟩ := (Option.any_eq_true _ _).mp hkw
  have hjoin := of_decide_eq_true hw
  refine ⟨s, s', k, hs, hk, hs', hjoin, ⟨kw, hkw, of_decide_eq_true hwrong⟩, fun hreports => ?_⟩
  obtain ⟨kw', hkw', -, -, hnil⟩ := hreports.joiner 1 hjoin
  obtain rfl := Option.some.inj (hkw.symm.trans hkw')
  exact absurd ((of_decide_eq_true hwrong).1.symm.trans hnil) (by simp [LispObject.list2, Outcome.errordata])

end XEmacs.Async
