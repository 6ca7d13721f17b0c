import XEmacs.Async.Steps

/-! Joining. A target has one slot for a join waiter. As long as no coroutine joins a target
whose slot is taken, every coroutine that waits for a target is in the slot of a target
that is not dead, so that the end of the target wakes it. -/

namespace XEmacs.Async

open Lib

def Joined (v : View) : Prop :=
  ∀ c k t, v.core c = some k → k.state = .suspended → k.frame.Joins t →
    ∃ kt, v.core t = some kt ∧ kt.state ≠ .dead ∧ kt.joinWaiter = some c

def JoinsAloneLabel (v : View) (l : Label) : Prop :=
  ∀ c t kt, l = .register c t → v.core t = some kt → kt.state ≠ .dead → kt.joinWaiter = none

variable {v v' : View} {l : Label} {x : CoroId} {k k' : Coro}

theorem Frame.Joins.eq {f : Frame} {t u : CoroId} (ht : f.Joins t) (hu : f.Joins u) : t = u := by
  rcases ht with rfl | rfl <;> rcases hu with hu | hu <;> simp at hu <;> exact hu

theorem Joined.set (h : Joined v) (hk : v.core x = some k)
    (hjoiner : k'.state = .suspended → ∀ t, k'.frame.Joins t → k.state = .suspended ∧ k.frame.Joins t)
    (htarget : ∀ c, k.joinWaiter = some c → k.state ≠ .dead →
      k'.joinWaiter = some c ∧ k'.state ≠ .dead) : Joined (v.set x k') := by
  intro c kc t hc hs hj
  -- the target is one of before
  have htarget' : ∀ kt, v.core t = some kt → kt.state ≠ .dead → kt.joinWaiter = some c →
      ∃ kt, (v.set x k').core t = some kt ∧ kt.state ≠ .dead ∧ kt.joinWaiter = some c := by
    intro kt ht hd hw
    by_cases htx : t = x
    · subst htx
      obtain rfl : k = kt := Option.some.inj (hk.symm.trans ht)
      exact ⟨k', v.set_core_self _ _, (htarget c hw hd).2, (htarget c hw hd).1⟩
    · exact ⟨kt, (v.set_core_of_ne htx _).trans ht, hd, hw⟩
  by_cases hcx : c = x
  · subst hcx
    obtain rfl : k' = kc := Option.some.inj ((v.set_core_self _ _).symm.trans hc)
    obtain ⟨hs', hj'⟩ := hjoiner hs t hj
    obtain ⟨kt, ht, hd, hw⟩ := h c k t hk hs' hj'
    exact htarget' kt ht hd hw
  · obtain ⟨kt, ht, hd, hw⟩ := h c kc t ((v.set_core_of_ne hcx _).symm.trans hc) hs hj
    exact htarget' kt ht hd hw

theorem Joined.freed {kt : Coro} (h : Joined v) (log : List Event) (ht : v.core x = some kt)
    (hd : kt.state = .dead) :
    Joined { v with core := Function.update v.core x none, log := log } := by
  intro c k u hc hs hj
  have hcx : c ≠ x := by
    rintro rfl
    simp at hc
  obtain ⟨ku, hu, hdu, hwu⟩ := h c k u ((Function.update_of_ne hcx ..).symm.trans hc) hs hj
  have hux : u ≠ x := by
    rintro rfl
    exact hdu (Option.some.inj (hu.symm.trans ht) ▸ hd)
  exact ⟨ku, (Function.update_of_ne hux ..).trans hu, hdu, hwu⟩

theorem Joined.effect (h : Joined v) (hok : JoinsAloneLabel v l)
    (he : Effect v l v') : Joined v' := by
  cases he with
  | quiet => exact h
  | walkEnd => exact h
  | spawn hfresh =>
    intro c kc t hc hs hj
    by_cases hnew : c = v.allocated
    · subst hnew
      obtain rfl := Option.some.inj ((v.set_core_self _ _).symm.trans hc)
      simp [Coro.new] at hs
    · obtain ⟨kt, ht, hd, hw⟩ := h c kc t ((v.set_core_of_ne hnew _).symm.trans hc) hs hj
      have htnew : t ≠ v.allocated := by
        rintro rfl
        simp [hfresh] at ht
      exact ⟨kt, (v.set_core_of_ne htnew _).trans ht, hd, hw⟩
  | deliver msg hk hw => exact h.set hk (fun hs t hj => ⟨hs, hj⟩) fun c hw hd => ⟨hw, hd⟩
  | wake msg hk hs hr => exact h.set hk (fun hs => by simp [Coro.resumed] at hs) fun c hw _ =>
      ⟨hw, by simp [Coro.resumed]⟩
  | monitor hk => exact h.set hk (fun hs t hj => ⟨hs, hj⟩) fun c hw hd => ⟨hw, hd⟩
  | resume result error hk hs hf => exact h.set hk (fun hs => by simp [Coro.resumed] at hs) fun c hw _ =>
      ⟨hw, by simp [Coro.resumed]⟩
  | take hc hk hm => exact h.set hk (fun hs t hj => ⟨hs, hj⟩) fun c hw hd => ⟨hw, hd⟩
  | block reason frame deadline hc hk hs hw hj hm =>
    refine h.set hk (fun _ t hjt => ?_) fun c hw _ => ⟨hw, by simp [Coro.blocked]⟩
    -- only a join waits for this reason
    have hjt' : frame.Joins t := hjt
    rcases hjt' with rfl | rfl <;> cases reason <;> simp [Frame.waits] at hw hj
  | @register c t k kt frame hcur ht hd hj hk hs =>
    have hfree := hok c t kt rfl ht hd
    have hslot : Joined (v.set t { kt with joinWaiter := some c }) :=
      h.set ht (fun hs u hju => ⟨hs, hju⟩) fun x hw => by simp [hfree] at hw
    intro x kx u hx hsx hjx
    by_cases hxc : x = c
    · subst hxc
      obtain rfl := Option.some.inj ((View.set_core_self _ _ _).symm.trans hx)
      obtain rfl : t = u := hj.eq hjx
      by_cases hxt : t = x
      · subst hxt
        obtain rfl := Option.some.inj ((View.set_core_self _ _ _).symm.trans hk)
        exact ⟨_, View.set_core_self _ _ _, by simp [Coro.blocked], rfl⟩
      · exact ⟨_, (View.set_core_of_ne _ hxt _).trans (View.set_core_self _ _ _), hd, rfl⟩
    · obtain ⟨ku, hu, hdu, hwu⟩ := hslot x kx u ((View.set_core_of_ne _ hxc _).symm.trans hx) hsx hjx
      by_cases huc : u = c
      · subst huc
        obtain rfl : k = ku := Option.some.inj (hk.symm.trans hu)
        exact ⟨_, View.set_core_self _ _ _, by simp [Coro.blocked], hwu⟩
      · exact ⟨ku, (View.set_core_of_ne _ huc _).trans hu, hdu, hwu⟩
  | reap hcur ht hd => exact h.freed v.log ht hd
  | reapAwait hcur hk ht hd hne => exact h.freed _ ht hd
  | @switch c k hcur hk hs =>
    rw [Joined, View.returned_core]
    exact h.set hk (fun hs => by simp [Coro.switched] at hs) fun c hw _ => ⟨hw, by simp [Coro.switched]⟩
  | finish hc hk hs hw =>
    exact h.set hk (fun hs' => by simp [Coro.finished, hs] at hs') fun c hwc => by simp [hw] at hwc
  | @finishWake c w k kw outcome hcur hk hs hw hkw hsw hj hne =>
    intro x kx t hx hsx hjx
    have hxw : x ≠ w := by
      rintro rfl
      obtain rfl := Option.some.inj ((View.set_core_self _ _ _).symm.trans hx)
      simp [Coro.resumed] at hsx
    have hxc : x ≠ c := by
      rintro rfl
      have hx' := (View.set_core_of_ne _ hxw _).symm.trans hx
      obtain rfl := Option.some.inj ((View.set_core_self _ _ _).symm.trans hx')
      simp [Coro.finished, hs] at hsx
    obtain ⟨kt, ht, hd, hwt⟩ :=
      h x kx t ((View.set_core_of_ne _ hxc _).symm.trans ((View.set_core_of_ne _ hxw _).symm.trans hx)) hsx hjx
    -- who else waited for the coroutine would be in its slot
    have htc : t ≠ c := by
      rintro rfl
      obtain rfl : k = kt := Option.some.inj (hk.symm.trans ht)
      exact hxw (Option.some.inj (hwt.symm.trans hw))
    by_cases htw : t = w
    · subst htw
      obtain rfl : kw = kt := Option.some.inj (hkw.symm.trans ht)
      exact ⟨_, View.set_core_self _ _ _, by simp [Coro.resumed], hwt⟩
    · exact ⟨kt, (View.set_core_of_ne _ htw _).trans ((View.set_core_of_ne _ htc _).trans ht), hd, hwt⟩
  | die hc hk hs hw => exact h.set hk (fun hs => by simp at hs) fun c hwc => by simp [hw] at hwc

theorem Joined.effects (h : Joined v) (hok : JoinsAloneLabel v l)
    (he : Effects v l v') : Joined v' := by
  refine he.invariant (fun _ => h.effect hok) fun u u' l' hsettle hu heff => ?_
  refine hu.effect (fun c t kt hreg => ?_) heff
  rcases hsettle with ⟨t, msg, rfl⟩ | ⟨x, rfl⟩ <;> simp at hreg

theorem Joined.wakes {t : CoroId} {outcome : Outcome} (h : Joined v) (hk : v.core x = some k)
    (hs : k.state = .suspended) (hj : k.frame.Joins t) (he : Effects v (.finish t outcome) v') :
    ∃ k', v'.core x = some k' ∧ k'.state = .runnable := by
  refine he.invariant (I := fun v => ∃ k', v.core x = some k' ∧ k'.state = .runnable)
    (fun u heff => ?_) fun u u' l' hsettle ⟨k', hk', hrun⟩ heff => ?_
  · obtain ⟨kt, ht, -, hw⟩ := h x k t hk hs hj
    cases heff with
    | finish _ ht' _ hw' =>
      obtain rfl := Option.some.inj (ht.symm.trans ht')
      simp [hw'] at hw
    | finishWake _ ht' _ hw' =>
      obtain rfl := Option.some.inj (ht.symm.trans ht')
      obtain rfl := Option.some.inj (hw.symm.trans hw')
      exact ⟨_, View.set_core_self _ _ _, rfl⟩
  · have hset : ∀ y (ky ky' : Coro), u.core y = some ky →
        (ky.state = .runnable → ky'.state = .runnable) →
        ∃ k'', (u.set y ky').core x = some k'' ∧ k''.state = .runnable := by
      intro y ky ky' hy himp
      by_cases hxy : x = y
      · subst hxy
        obtain rfl := Option.some.inj (hk'.symm.trans hy)
        exact ⟨ky', View.set_core_self _ _ _, himp hrun⟩
      · exact ⟨k', (View.set_core_of_ne _ hxy _).trans hk', hrun⟩
    -- the runnable coroutine gets messages, and is not the one that dies
    cases heff with
    | deliver msg hy => exact hset _ _ _ hy id
    | wake msg hy => exact hset _ _ _ hy fun _ => rfl
    | die _ hy hrunning => exact hset _ _ _ hy fun hr => by simp [hrunning] at hr
    | _ => rcases hsettle with ⟨t, msg, hl⟩ | ⟨y, hl⟩ <;> simp at hl

/-- A join of `t` finds the slot of a target that is not dead free. -/
def SlotFree (s : State) (t : CoroId) : Prop :=
  ∀ k ∈ s.heap t, k.state ≠ .dead → k.joinWaiter = none

instance (s : State) (t : CoroId) : Decidable (SlotFree s t) :=
  inferInstanceAs (Decidable (∀ k ∈ s.heap t, k.state ≠ .dead → k.joinWaiter = none))

/-- No coroutine joins a target that another one waits for. -/
def JoinsAlone (s : State) : Action → Prop
  | .join t | .await t => SlotFree s t
  | _ => True

instance (s : State) : (a : Action) → Decidable (JoinsAlone s a)
  | .join t => inferInstanceAs (Decidable (SlotFree s t))
  | .await t => inferInstanceAs (Decidable (SlotFree s t))
  | .spawn .. | .actorSpawn .. | .send .. | .monitor .. | .tick | .leaveHttpTick .. | .continueTick
  | .httpComplete .. | .yield | .receive .. | .httpStart | .exit .. => isTrue trivial

theorem joinsAloneLabel_of_does {s : State} {a : Action} (hok : JoinsAlone s a) (hd : s.Does a l) :
    JoinsAloneLabel s.view l := by
  intro c t kt hl ht hdead
  have hfree : SlotFree s t → kt.joinWaiter = none := by
    intro hfree
    obtain ⟨k, hk, rfl⟩ := Option.map_eq_some_iff.mp ht
    exact hfree k hk hdead
  subst hl
  cases hd with
  | plain hl => simp at hl
  | join => exact hfree hok
  | await => exact hfree hok

/-- As long as no coroutine joins a target that another one waits for, every joiner waits for a
target that is not dead, and its end wakes the joiner. -/
theorem run_wakes_joiners {s : State} {as : List Action} (h : Run State.step JoinsAlone .init as s)
    {c : CoroId} {k : Coro} (hk : s.heap c = some k) (hs : k.state = .suspended)
    (hr : k.waitReason = .join) :
    ∃ t kt, k.frame.Joins t ∧ s.heap t = some kt ∧ kt.state ≠ .dead ∧
      ∀ n outcome s', s.control = .running t n → s.step (.exit outcome) = some s' →
        ∃ k', s'.heap c = some k' ∧ k'.state = .runnable := by
  have hinv : Joined s.view ∧ s.view.Linked := by
    refine h.invariant (I := fun s => Joined s.view ∧ s.view.Linked) ⟨?_, State.linked_init⟩
      fun s a s' hi hok hs => ?_
    · intro c k t hk
      simp [State.view, State.init] at hk
    · obtain ⟨l, hd, he⟩ := State.step_effects hi.2 hs
      exact ⟨hi.1.effects (joinsAloneLabel_of_does hok hd) he, hi.2.effects he⟩
  have hcore := State.core_eq hk
  obtain ⟨t, hj⟩ : ∃ t, k.frame.Joins t := by
    have hwaits := hinv.2.suspended c _ hcore hs
    change k.frame.waits k.waitReason = true at hwaits
    rw [hr] at hwaits
    cases hf : k.frame with
    | join t => exact ⟨t, .inl rfl⟩
    | await t => exact ⟨t, .inr rfl⟩
    | _ => simp [hf, Frame.waits] at hwaits
  obtain ⟨kt, hkt, hd, -⟩ := hinv.1 c _ t hcore hs hj
  obtain ⟨kt, ht, rfl⟩ := Option.map_eq_some_iff.mp hkt
  refine ⟨t, kt, hj, ht, hd, fun n outcome s' hc hstep => ?_⟩
  have heffs : Effects s.view (.finish t outcome) s'.view := by
    simp only [State.step, hc] at hstep
    exact State.coroTrampoline_effects hinv.2 hc hstep
  obtain ⟨u, hu, hrun⟩ := hinv.1.wakes hcore hs hj heffs
  obtain ⟨k', hk', rfl⟩ := Option.map_eq_some_iff.mp hu
  exact ⟨k', hk', hrun⟩

def spawnThree : List Action :=
  [.spawn (.function 0) .nil, .spawn (.function 1) .nil, .spawn (.function 2) .nil, .tick,
    .leaveHttpTick 0, .continueTick, .continueTick, .continueTick, .continueTick, .continueTick,
    .continueTick, .continueTick, .continueTick, .continueTick]

theorem run_wakes_joiners_three :
    ∃ (s : State) (k : Coro), s.heap 2 = some k ∧ k.state = .suspended ∧ k.waitReason = .join ∧
      ∃ t kt, k.frame.Joins t ∧ s.heap t = some kt ∧ kt.state ≠ .dead ∧
        ∀ n outcome s', s.control = .running t n → s.step (.exit outcome) = some s' →
          ∃ k', s'.heap 2 = some k' ∧ k'.state = .runnable := by
  have hexec : (execOk State.step JoinsAlone .init
      (spawnThree ++ [.join 1, .continueTick, .await 0, .continueTick])).any
      (fun s => decide ((s.heap 2).any
        (fun k => decide (k.state = .suspended ∧ k.waitReason = .join)) = true)) = true := by
    decide +kernel
  obtain ⟨s, hs, hk⟩ := exists_run_of_execOk hexec
  obtain ⟨k, hk, hd⟩ := (Option.any_eq_true _ _).mp hk
  obtain ⟨hsus, hr⟩ := of_decide_eq_true hd
  exact ⟨s, k, hk, hsus, hr, run_wakes_joiners hs hk hsus hr⟩

def joinTwice : List Action :=
  spawnThree ++ [.join 0, .continueTick, .join 0, .continueTick, .exit (.value .nil)]

/-- The target is dead, and the coroutine that joined it first is suspended still. -/
theorem joinTwice_loses_joiner :
    ∃ s, Run State.step anyStep .init joinTwice s ∧
      (∃ k, s.heap 2 = some k ∧ k.state = .suspended ∧ k.waitReason = .join ∧ k.frame = .join 0) ∧
      ∃ kt, s.heap 0 = some kt ∧ kt.state = .dead := by
  have hexec : (exec State.step .init joinTwice).any (fun s => decide
      ((s.heap 2).any (fun k => decide
        (k.state = .suspended ∧ k.waitReason = .join ∧ k.frame = .join 0)) = true ∧
      (s.heap 0).any (fun k => decide (k.state = .dead)) = true)) = true := by
    decide +kernel
  obtain ⟨s, hs, hjoiner, htarget⟩ := exists_run_of_exec hexec
  obtain ⟨k, hk, hd⟩ := (Option.any_eq_true _ _).mp hjoiner
  obtain ⟨kt, ht, hdt⟩ := (Option.any_eq_true _ _).mp htarget
  exact ⟨s, hs, ⟨k, hk, of_decide_eq_true hd⟩, kt, ht, of_decide_eq_true hdt⟩

end XEmacs.Async
