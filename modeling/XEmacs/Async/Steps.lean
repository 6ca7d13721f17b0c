import XEmacs.Async.Effects

/-! Every step of the scheduler has one of the effects, on coroutines that refer to each
other as they should. -/

namespace XEmacs.Async

open Lib

namespace State

variable {s s' : State} {a : Action} {c : CoroId} {k : Coro}

def view (s : State) : View where
  core c := (s.heap c).map Coro.unlinked
  allocated := s.allocated
  inflight := s.inflight
  current := s.control.current
  log := s.log

theorem core_eq (h : s.heap c = some k) : s.view.core c = some k.unlinked := by
  simp [view, h]

theorem view_modify (s : State) (c : CoroId) {f g : Coro → Coro}
    (hfg : ∀ k, (f k).unlinked = g k.unlinked) : (s.modify c f).view = s.view.modify c g := by
  simp only [view, modify, View.modify, View.mk.injEq, and_true]
  funext x
  by_cases hx : x = c
  · subst hx
    cases s.heap x with
    | none => simp
    | some k => simp [hfg]
  · simp [hx]

theorem modify_id (v : View) (c : CoroId) : v.modify c id = v := by
  simp [View.modify]

@[simp] theorem view_setNext (s : State) (c : CoroId) (p : Option CoroId) :
    (s.setNext c p).view = s.view := by
  rw [setNext]
  refine (view_modify s c (g := id) ?_).trans (modify_id _ c)
  exact fun _ => rfl

@[simp] theorem view_setPrev (s : State) (c : CoroId) (p : Option CoroId) :
    (s.setPrev c p).view = s.view := by
  rw [setPrev]
  refine (view_modify s c (g := id) ?_).trans (modify_id _ c)
  exact fun _ => rfl

theorem view_emit (s : State) (e : Event) : (s.emit e).view = s.view.emit e := rfl

theorem view_coroListAdd (s : State) (c : CoroId) : (s.coroListAdd c).view = s.view := by
  have hlinks : ((s.setNext c s.allCoros).setPrev c none).view = s.view := by simp
  rw [← hlinks]
  unfold coroListAdd
  cases s.allCoros with
  | none => rfl
  | some a => exact view_setPrev _ a (some c)

theorem view_coroListRemove (s : State) (c : CoroId) : (s.coroListRemove c).view = s.view := by
  unfold coroListRemove
  cases s.prevOf c with
  | none =>
    cases s.nextOf c with
    | none => rfl
    | some n => exact view_setPrev _ n none
  | some p =>
    cases s.nextOf c with
    | none => exact view_setNext _ p none
    | some n => exact (view_setPrev _ n (some p)).trans (view_setNext _ p (some n))

theorem view_graveyardLoop (s : State) (c : CoroId) (fuel : ℕ) (q : CoroId) :
    (s.graveyardLoop c fuel q).view = s.view := by
  induction fuel generalizing q with
  | zero => rfl
  | succ fuel ih =>
    rw [graveyardLoop]
    cases s.nextOf q with
    | none => rfl
    | some d =>
      by_cases hd : d = c
      · simp only [hd, if_true, view_setNext]
      · simp only [hd, if_false, ih]

theorem view_coroGraveyardRemove (s : State) (c : CoroId) : (s.coroGraveyardRemove c).view = s.view := by
  unfold coroGraveyardRemove
  cases s.deadCoros with
  | none => rfl
  | some d =>
    by_cases hd : d = c
    · simp only [hd, if_true]; rfl
    · simp only [hd, if_false, view_graveyardLoop]

theorem view_free (s : State) (c : CoroId) :
    (s.free c).view = { s.view with core := Function.update s.view.core c none } := by
  simp only [view, free, View.mk.injEq, and_true]
  funext x
  by_cases hx : x = c
  · subst hx; simp
  · simp [hx]

theorem view_coroResume (s : State) (c : CoroId) (result : LispObject) :
    (s.coroResume c result).view = (s.view.modify c (·.resumed result .nil)).emit (.resumed c .nil) := by
  rw [coroResume, view_emit, view_modify s c (g := (·.resumed result .nil)) fun _ => rfl]

theorem view_coroResumeWithError (s : State) (c : CoroId) (error : LispObject) :
    (s.coroResumeWithError c error).view =
      (s.view.modify c (·.resumed .nil error)).emit (.resumed c error) := by
  rw [coroResumeWithError, view_emit, view_modify s c (g := (·.resumed .nil error)) fun _ => rfl]

theorem view_coroYield (s : State) (c : CoroId) (nextC : Option CoroId) (reason : WaitReason)
    (frame : Frame) : (s.coroYield c nextC reason frame).view =
      { s.view.modify c (·.blocked reason frame) with current := none } := by
  have hview := view_modify s c (f := ({ · with state := .suspended, waitReason := reason, frame := frame }))
    (g := (·.blocked reason frame)) fun _ => rfl
  rw [← hview]
  rfl

theorem view_coroSpawn (s : State) (fn arg : LispObject) (isActor : Bool) :
    (s.coroSpawn fn arg isActor).view =
      { s.view.set s.allocated (.new fn arg isActor) with allocated := s.allocated + 1 } := by
  rw [coroSpawn]
  simp only [view_coroListAdd]
  simp only [view, View.set, View.mk.injEq, and_true]
  funext x
  by_cases hx : x = s.allocated
  · subst hx; simp; rfl
  · simp [hx]

/-! ### What the primitives do -/

theorem actorSendInternal_effect {t : CoroId} {msg : LispObject}
    (hs : s.actorSendInternal t msg = some s') :
    Effect s.view (.deliver t msg) s'.view ∧ s'.control = s.control := by
  obtain ⟨k, hk, rfl⟩ := Option.map_eq_some_iff.mp hs
  have hcore := core_eq hk
  have hsend : ((s.modify t ({ · with mailbox := k.mailbox ++ [msg] })).emit (.sent t msg)).view =
      (s.view.set t { k.unlinked with mailbox := k.unlinked.mailbox ++ [msg] }).emit (.sent t msg) := by
    rw [view_emit, view_modify s t (g := ({ · with mailbox := k.mailbox ++ [msg] })) fun _ => rfl,
      View.modify_eq_set hcore]
    rfl
  by_cases hw : k.state = .suspended ∧ k.waitReason = .mailbox
  · simp only [hw, and_self, if_true]
    refine ⟨?_, rfl⟩
    rw [view_coroResume, hsend, View.modify_eq_set (k := { k.unlinked with
      mailbox := k.unlinked.mailbox ++ [msg] }) (by simp [View.set, View.emit])]
    have heff := Effect.wake msg hcore hw.1 hw.2
    simpa [View.set, View.emit] using heff
  · simp only [hw, if_false]
    refine ⟨?_, rfl⟩
    rw [hsend]
    exact .deliver msg hcore hw

theorem actorMonitorInternal_effect {t w : CoroId} (hs : s.actorMonitorInternal t w = some s') :
    Effect s.view .monitor s'.view := by
  obtain ⟨k, hk, rfl⟩ := Option.map_eq_some_iff.mp hs
  have hcore := core_eq hk
  rw [view_modify s t (g := fun k => { k with monitorList := k.monitorList ++ [w] }) fun _ => rfl,
    View.modify_eq_set hcore]
  exact .monitor hcore

/-- What an action of the running coroutine is the beginning of. -/
inductive Does (s : State) : Action → Label → Prop
  | plain {a : Action} {l : Label}
      (hl : l = .quiet ∨ l = .spawn ∨ (∃ t msg, l = .deliver t msg) ∨ l = .monitor ∨ l = .resume ∨
        ∃ c, l = .switch c) :
    Does s a l
  | take {c : CoroId} {n : Option CoroId} {ms now : ℤ} (hc : s.control = .running c n) :
    Does s (.receive ms now) (.take c)
  | receive {c : CoroId} {n : Option CoroId} {ms now : ℤ} (hc : s.control = .running c n) :
    Does s (.receive ms now) (.block c (if ms > 0 then .timer else .mailbox) .receive)
  | yield {c : CoroId} {n : Option CoroId} (hc : s.control = .running c n) :
    Does s .yield (.block c .none .yield)
  | http {c : CoroId} {n : Option CoroId} (hc : s.control = .running c n) :
    Does s .httpStart (.block c .fd .http)
  | join {c t : CoroId} {n : Option CoroId} (hc : s.control = .running c n) :
    Does s (.join t) (.register c t)
  | await {c t : CoroId} {n : Option CoroId} (hc : s.control = .running c n) :
    Does s (.await t) (.register c t)
  | reap {c t : CoroId} {n : Option CoroId} (hc : s.control = .running c n) :
    Does s (.join t) (.reap c t)
  | reapAwait {c t : CoroId} {n : Option CoroId} (hc : s.control = .running c n) :
    Does s (.await t) (.reapAwait c t)
  | finish {c : CoroId} {n : Option CoroId} {outcome : Outcome} (hc : s.control = .running c n) :
    Does s (.exit outcome) (.finish c outcome)

theorem coroYield_effect {n : Option CoroId} {reason : WaitReason} {frame : Frame}
    (hc : s.control = .running c n) (hk : s.view.core c = some k) (hrun : k.state = .running)
    (hw : frame.waits reason) (hj : reason ≠ .join) (hm : frame = .receive → k.mailbox = [])
    (hf : frame ≠ .http) :
    Effect s.view (.block c reason frame) (s.coroYield c n reason frame).view := by
  rw [view_coroYield, View.modify_eq_set hk]
  have heff := Effect.block reason frame k.waitDeadline (show s.view.current = some c by
    simp [view, hc, Control.current]) hk hrun hw hj hm
  rwa [if_neg hf] at heff

theorem actorReceiveInternal_effect {n : Option CoroId} {ms now : ℤ} (h : s.view.Linked)
    (hc : s.control = .running c n) (hs : s.actorReceiveInternal c n ms now = some s') :
    Effect s.view (.take c) s'.view ∨
      Effect s.view (.block c (if ms > 0 then .timer else .mailbox) .receive) s'.view := by
  have hcur : s.view.current = some c := by simp [view, hc, Control.current]
  obtain ⟨k, hk, hs⟩ := Option.bind_eq_some_iff.mp hs
  have hcore := core_eq hk
  have hrun : k.unlinked.state = .running := (h.running c _ hcore).mpr hcur
  split at hs
  · split at hs
    · rename_i msg rest hmail
      simp only [Option.some.injEq] at hs
      subst hs
      rw [view_emit, view_modify s c (g := ({ · with mailbox := rest })) fun _ => rfl,
        View.modify_eq_set hcore]
      exact .inl (.take hcur hcore hmail)
    · rename_i hmail
      simp only [Option.some.injEq] at hs
      subst hs
      right
      by_cases hms : ms > 0
      · simp only [hms, if_true]
        rw [view_coroYield, view_modify s c (g := ({ · with waitDeadline := now + ms })) fun _ => rfl,
          View.modify_eq_set hcore, View.modify_eq_set (k := { k.unlinked with waitDeadline := now + ms })
            (by simp [View.set])]
        have heff := Effect.block .timer .receive (now + ms) hcur hcore
          hrun rfl (by simp) fun _ => hmail
        simpa [View.set] using heff
      · simp only [hms, if_false]
        exact coroYield_effect hc hcore hrun rfl (by simp) (fun _ => hmail) (by simp)
  · contradiction

theorem actorJoinInternal_effect {n : Option CoroId} {t : CoroId} {frame : Frame} (h : s.view.Linked)
    (hc : s.control = .running c n) (hj : frame.Joins t)
    (hs : s.actorJoinInternal c n t frame = some s') :
    Effect s.view (.register c t) s'.view ∨ frame = .join t ∧ Effect s.view (.reap c t) s'.view ∨
      frame = .await t ∧ Effect s.view (.reapAwait c t) s'.view := by
  have hcur : s.view.current = some c := by simp [view, hc, Control.current]
  obtain ⟨k, hk⟩ := h.current c hcur
  have hrun : k.state = .running := (h.running c k hk).mpr hcur
  obtain ⟨kt, ht, hs⟩ := Option.bind_eq_some_iff.mp hs
  have hcore := core_eq ht
  by_cases hdead : kt.state = .dead
  · simp only [hdead, if_true] at hs
    have hview : ((s.coroGraveyardRemove t).free t).view =
        { s.view with core := Function.update s.view.core t none } := by
      rw [view_free, view_coroGraveyardRemove]
    have hne : c ≠ t := by
      rintro rfl
      obtain rfl : k = kt.unlinked := Option.some.inj (hk.symm.trans hcore)
      exact absurd (hrun.symm.trans hdead) (by simp)
    rcases hj with rfl | rfl
    · simp only [Option.some.injEq] at hs
      subst hs
      rw [hview]
      exact .inr (.inl ⟨rfl, .reap hcur hcore hdead⟩)
    · obtain ⟨k', hk', rfl⟩ := Option.map_eq_some_iff.mp hs
      have hsame : k = k'.unlinked := by
        have hcore' := core_eq hk'
        rw [hview] at hcore'
        simp only [Function.update_of_ne hne] at hcore'
        exact Option.some.inj (hk.symm.trans hcore')
      rw [view_emit, hview]
      refine .inr (.inr ⟨rfl, ?_⟩)
      have heff := Effect.reapAwait hcur hk hcore hdead hne
      rwa [hsame] at heff
  · simp only [hdead, if_false, Option.some.injEq] at hs
    subst hs
    left
    rw [view_coroYield, view_modify s t (g := ({ · with joinWaiter := some c })) fun _ => rfl,
      View.modify_eq_set hcore]
    by_cases hct : c = t
    · subst hct
      have hsame : k = kt.unlinked := Option.some.inj (hk.symm.trans hcore)
      have hset : (s.view.set c { kt.unlinked with joinWaiter := some c }).core c =
          some { kt.unlinked with joinWaiter := some c } := by simp [View.set]
      rw [View.modify_eq_set hset]
      exact .register hcur hcore hdead hj hset (hsame ▸ hrun)
    · have hset : (s.view.set t { kt.unlinked with joinWaiter := some c }).core c = some k := by
        simp [View.set, Function.update_of_ne hct, hk]
      rw [View.modify_eq_set hset]
      exact .register hcur hcore hdead hj hset hrun

theorem notifyMonitors_deliveries {msg : LispObject} {ws : List CoroId}
    (hs : notifyMonitors msg ws s = some s') :
    Deliveries msg s.view (ws.filter s.view.alive) s'.view ∧ s'.control = s.control := by
  induction ws generalizing s with
  | nil =>
    simp only [notifyMonitors, Option.some.injEq] at hs
    subst hs
    exact ⟨.nil, rfl⟩
  | cons w ws ih =>
    obtain ⟨k, hk, hs⟩ := Option.bind_eq_some_iff.mp hs
    have halive : s.view.alive w = decide (k.state ≠ .dead) := by
      rw [View.alive, core_eq hk]; rfl
    split at hs
    · rename_i hdead
      obtain ⟨u, hu, hs⟩ := Option.bind_eq_some_iff.mp hs
      obtain ⟨heff, hcontrol⟩ := actorSendInternal_effect hu
      obtain ⟨hrest, hcontrol'⟩ := ih hs
      rw [List.filter_cons_of_pos (by simpa [halive] using hdead)]
      rw [heff.deliver_alive] at hrest
      exact ⟨.cons heff hrest, hcontrol'.trans hcontrol⟩
    · rename_i hdead
      rw [List.filter_cons_of_neg (by simpa [halive] using hdead)]
      exact ih hs

theorem finishBody_effect {n : Option CoroId} (h : s.view.Linked) (hc : s.control = .running c n)
    (hk : s.heap c = some k) (outcome : Outcome) :
    Effect s.view (.finish c outcome) (s.finishBody c k outcome).view ∧
      (s.finishBody c k outcome).control = s.control ∧
      (s.finishBody c k outcome).view.core c = some (k.unlinked.finished outcome) := by
  have hcur : s.view.current = some c := by simp [view, hc, Control.current]
  have hcore := core_eq hk
  have hrun : k.unlinked.state = .running := (h.running c _ hcore).mpr hcur
  set error := k.exitError outcome with herror
  set result := if error ≠ .nil then k.result else outcome.ret with hresult
  set r := (s.modify c ({ · with error := error, lispFn := .nil, result := result })).emit
    (.exited c outcome) with hr
  have hrview : r.view = (s.view.set c
      { k.unlinked with error := error, lispFn := .nil, result := result }).emit (.exited c outcome) := by
    rw [hr, view_emit,
      view_modify s c (g := ({ · with error := error, lispFn := .nil, result := result })) fun _ => rfl,
      View.modify_eq_set hcore]
  cases hw : k.joinWaiter with
  | none =>
    have hbody : s.finishBody c k outcome = r := by simp only [finishBody, hw, hr, herror, hresult]
    have hsame : k.unlinked.finished outcome =
        { k.unlinked with error := error, lispFn := .nil, result := result } := by
      have hjoin : k.unlinked.joinWaiter = none := hw
      simp only [Coro.finished, Coro.mk.injEq, true_and, and_true]
      exact ⟨rfl, rfl, hjoin.symm⟩
    rw [hbody, hrview, ← hsame]
    exact ⟨.finish hcur hcore hrun hw, rfl, by simp [View.set, View.emit]⟩
  | some w =>
    obtain ⟨-, kw, hkw, hsw, hj⟩ := h.joinWaiter c _ w hcore hw
    have hne : w ≠ c := by
      rintro rfl
      obtain rfl : kw = k.unlinked := Option.some.inj (hkw.symm.trans hcore)
      exact absurd (hrun.symm.trans hsw) (by simp)
    have hbody : s.finishBody c k outcome =
        (if error ≠ .nil then r.coroResumeWithError w error else r.coroResume w outcome.ret).modify c
          ({ · with joinWaiter := none }) := by
      simp only [finishBody, hw, hr, herror, hresult]
    have hrw : r.view.core w = some kw := by
      rw [hrview]; simp [View.set, View.emit, Function.update_of_ne hne, hkw]
    have hwake : (if error ≠ .nil then r.coroResumeWithError w error else r.coroResume w outcome.ret).view =
        (r.view.set w (kw.resumed (k.unlinked.exitResult outcome) error)).emit (.resumed w error) := by
      have hres : k.unlinked.exitResult outcome = if error ≠ .nil then .nil else outcome.ret := rfl
      by_cases he : error = .nil
      · rw [if_neg (not_not.mpr he), hres, if_neg (not_not.mpr he), view_coroResume,
          View.modify_eq_set hrw, he]
      · rw [if_pos he, hres, if_pos he, view_coroResumeWithError, View.modify_eq_set hrw]
    have hview : (s.finishBody c k outcome).view =
        ((((s.view.set c (k.unlinked.finished outcome)).set w
          (kw.resumed (k.unlinked.exitResult outcome) error)).emit (.exited c outcome)).emit
            (.resumed w error)) := by
      rw [hbody, view_modify _ c (g := ({ · with joinWaiter := none })) fun _ => rfl, hwake, hrview,
        View.modify_eq_set (k := { k.unlinked with error := error, lispFn := .nil, result := result })
          (by simp [View.set, View.emit, Function.update_of_ne hne.symm])]
      simp only [View.set, View.emit, Function.update_comm hne, Function.update_idem]
      rfl
    refine ⟨?_, ?_, ?_⟩
    · rw [hview]
      exact .finishWake hcur hcore hrun hw hkw hsw hj hne
    · rw [hbody]
      by_cases he : error = .nil
      · rw [if_neg (not_not.mpr he)]; rfl
      · rw [if_pos he]; rfl
    · rw [hview]
      simp [View.set, View.emit, Function.update_of_ne hne.symm]

theorem coroTrampoline_effects {n : Option CoroId} {outcome : Outcome} (h : s.view.Linked)
    (hc : s.control = .running c n) (hs : s.coroTrampoline c n outcome = some s') :
    Effects s.view (.finish c outcome) s'.view := by
  obtain ⟨k, hk, hs⟩ := Option.bind_eq_some_iff.mp hs
  obtain ⟨u, hu, rfl⟩ := Option.map_eq_some_iff.mp hs
  have hrun : k.unlinked.state = .running :=
    (h.running c _ (core_eq hk)).mpr (by simp [view, hc, Control.current])
  obtain ⟨heff, hcontrol, hck⟩ := finishBody_effect h hc hk outcome
  obtain ⟨hmonitors, hcontrol'⟩ := notifyMonitors_deliveries hu
  obtain ⟨ms, hms⟩ : ∃ ms, u.view.core c = some { k.unlinked.finished outcome with mailbox := ms } := by
    rw [hmonitors.core hck, Coro.iterate_delivered _ _ (by simp [Coro.finished, hrun])]
    exact ⟨_, rfl⟩
  have hdie := Effect.die (v := u.view) (c := c) (by
    simp only [view, hcontrol', hcontrol, hc, Control.current]) hms hrun rfl
  -- taking the coroutine from one list and putting it in the other is not seen
  have hmono : (u.modify c ({ · with monitorList := [], state := .dead })).view =
      u.view.set c { k.unlinked.finished outcome with mailbox := ms, monitorList := [], state := .dead } := by
    rw [view_modify u c (g := ({ · with monitorList := [], state := .dead })) fun _ => rfl,
      View.modify_eq_set hms]
  refine .exit (core_eq hk) heff hmonitors ?_
  have hlinks := view_coroListRemove (u.modify c ({ · with monitorList := [], state := .dead })) c
  rw [hmono] at hlinks
  set d := (u.modify c ({ · with monitorList := [], state := .dead })).coroListRemove c
  have hfinal : ({ d.setNext c d.deadCoros with deadCoros := some c, control := .phase2 n } : State).view =
      { (d.setNext c d.deadCoros).view with current := none } := rfl
  rw [view_setNext, hlinks] at hfinal
  show Effect u.view (.die c) ({ d.setNext c d.deadCoros with
    deadCoros := some c, control := .phase2 n } : State).view
  rw [hfinal]
  exact hdie

theorem switchTo_effect (hcur : s.control.current = none) (hk : s.heap c = some k)
    (hrun : k.state = .runnable) : Effect s.view (.switch c) (s.switchTo c k).view := by
  have hcore := core_eq hk
  set result := if k.frame = .start then LispObject.cons k.lispFn k.result else k.result with hresult
  have hmod := view_modify s c (f := ({ · with state := .running, frame := .active, result := result }))
    (g := ({ · with state := .running, frame := .active, result := result })) fun _ => rfl
  rw [View.modify_eq_set hcore] at hmod
  have hview : ({ (s.modify c
      ({ · with state := .running, frame := .active, result := result })).emit (.ran c) with
        control := .running c k.next } : State).view =
      { s.view.set c k.unlinked.switched with current := some c }.emit (.ran c) :=
    congrArg (fun v : View => { v with current := some c }.emit (.ran c)) hmod
  have heff := Effect.switch (v := s.view) hcur hcore hrun
  rw [← hview] at heff
  simp only [switchTo, ← hresult]
  simp only [View.returned, Coro.unlinked] at heff
  cases hf : k.frame <;> simp only [hf] at heff ⊢ <;> exact heff

theorem resume_effect (h : s.view.Linked) (hk : s.heap c = some k) (hs : k.state = .suspended)
    (hf : k.frame = .yield ∨ k.frame = .receive ∧ k.waitReason = .timer) (result error : LispObject) :
    Effect s.view .resume ((s.view.modify c (·.resumed result error)).emit (.resumed c error)) := by
  have hcore := core_eq hk
  have heff := Effect.resume result error hcore hs (hf.imp_right .inl)
  rw [h.not_inflight hcore (by rcases hf with hf | hf <;> simp [Coro.unlinked, hf])] at heff
  rw [View.modify_eq_set hcore]
  exact heff

theorem view_control (s : State) (control : Control) (h : s.control.current = control.current) :
    ({ s with control := control } : State).view = s.view := by
  simp only [view, h]

theorem continueTick_effect (h : s.view.Linked) (hs : s.continueTick = some s') :
    ∃ l, (l = .quiet ∨ l = .resume ∨ ∃ c, l = .switch c) ∧ Effect s.view l s'.view := by
  have hquiet : ∀ control : Control, s.control.current = control.current →
      ∃ l, (l = .quiet ∨ l = .resume ∨ ∃ c, l = .switch c) ∧
        Effect s.view l ({ s with control := control } : State).view := fun control hcur =>
    ⟨.quiet, .inl rfl, (view_control s control hcur).symm ▸ .quiet⟩
  unfold continueTick at hs
  split at hs
  · rename_i now hcontrol
    simp only [Option.some.injEq] at hs
    subst hs
    exact hquiet _ (by rw [hcontrol]; rfl)
  · rename_i c now hcontrol
    obtain ⟨k, hk, rfl⟩ := Option.map_eq_some_iff.mp hs
    by_cases hyield : k.state = .suspended ∧ k.waitReason = .none
    · simp only [hyield, and_self, if_true]
      have hwaits := h.suspended c _ (core_eq hk) hyield.1
      have hframe : k.frame = .yield := by
        change k.frame.waits k.waitReason = true at hwaits
        rw [hyield.2] at hwaits
        cases hf : k.frame <;> simp [hf, Frame.waits] at hwaits ⊢
      have heff := resume_effect h hk hyield.1 (.inl hframe) k.result .nil
      rw [← view_coroResume, ← view_control (s.coroResume c k.result) (.phase1a k.next now)
        (by show s.control.current = _; rw [hcontrol]; rfl)] at heff
      exact ⟨.resume, .inr (.inl rfl), heff⟩
    · simp only [hyield, if_false]
      exact hquiet _ (by rw [hcontrol]; rfl)
  · rename_i now hcontrol
    simp only [Option.some.injEq] at hs
    subst hs
    exact hquiet _ (by rw [hcontrol]; rfl)
  · rename_i c now hcontrol
    obtain ⟨k, hk, rfl⟩ := Option.map_eq_some_iff.mp hs
    by_cases htimer : k.state = .suspended ∧ k.waitReason = .timer ∧ now ≥ k.waitDeadline
    · simp only [if_pos htimer]
      have hwaits := h.suspended c _ (core_eq hk) htimer.1
      have hframe : k.frame = .receive := by
        change k.frame.waits k.waitReason = true at hwaits
        rw [htimer.2.1] at hwaits
        cases hf : k.frame <;> simp [hf, Frame.waits] at hwaits ⊢
      set error : LispObject := .list2 (.symbol .qasyncTimeout) (.string "timeout")
      have heff := resume_effect h hk htimer.1 (.inr ⟨hframe, htimer.2.1⟩) .nil error
      rw [← view_coroResumeWithError, ← view_control (s.coroResumeWithError c error) (.phase1b k.next now)
        (by show s.control.current = _; rw [hcontrol]; rfl)] at heff
      exact ⟨.resume, .inr (.inl rfl), heff⟩
    · simp only [if_neg htimer]
      exact hquiet _ (by rw [hcontrol]; rfl)
  · rename_i hcontrol
    simp only [Option.some.injEq] at hs
    subst hs
    have hview : ({ s with control := .toplevel } : State).view = s.view :=
      view_control s _ (by rw [hcontrol]; rfl)
    rw [view_emit, hview]
    exact ⟨.quiet, .inl rfl, .walkEnd⟩
  · rename_i c hcontrol
    obtain ⟨k, hk, rfl⟩ := Option.map_eq_some_iff.mp hs
    by_cases hrun : k.state = .runnable
    · simp only [hrun, if_true]
      exact ⟨.switch c, .inr (.inr ⟨c, rfl⟩), switchTo_effect (by rw [hcontrol]; rfl) hk hrun⟩
    · simp only [hrun, if_false]
      exact hquiet _ (by rw [hcontrol]; rfl)
  · contradiction
  · contradiction
  · contradiction

/-! ### Steps -/

theorem httpComplete_effect {outcome : Outcome} (h : s.view.Linked)
    (hs : s.stepLisp (.httpComplete c outcome) = some s') : Effect s.view .resume s'.view := by
  simp only [stepLisp] at hs
  split at hs
  · rename_i hmem
    obtain ⟨k, hk, hsus, hf⟩ := h.inflight c hmem
    have hku : ({ s with inflight := s.inflight.erase c } : State).view.core c = some k := hk
    cases outcome with
    | value v =>
      simp only [Option.some.injEq] at hs
      subst hs
      rw [view_coroResume, View.modify_eq_set hku]
      exact .resume _ _ hk hsus (.inr (.inr hf))
    | signal errorSymbol data =>
      simp only [Option.some.injEq] at hs
      subst hs
      rw [view_coroResumeWithError, View.modify_eq_set hku]
      exact .resume _ _ hk hsus (.inr (.inr hf))
  · contradiction

theorem stepLisp_effect (h : s.view.Linked) (hs : s.stepLisp a = some s') :
    ∃ l, (l = .quiet ∨ l = .spawn ∨ (∃ t msg, l = .deliver t msg) ∨ l = .monitor ∨ l = .resume) ∧
      Effect s.view l s'.view := by
  have hfresh : s.view.core s.view.allocated = none := h.fresh _ (Nat.le_refl _)
  cases a with
  | spawn fn arg =>
    simp only [stepLisp, Option.some.injEq] at hs
    subst hs
    rw [view_coroSpawn]
    exact ⟨.spawn, by simp, .spawn hfresh⟩
  | actorSpawn fn args =>
    simp only [stepLisp, Option.some.injEq] at hs
    subst hs
    rw [view_coroSpawn]
    exact ⟨.spawn, by simp, .spawn hfresh⟩
  | send target msg => exact ⟨.deliver target msg, by simp, (actorSendInternal_effect hs).1⟩
  | monitor target watcher => exact ⟨.monitor, by simp, actorMonitorInternal_effect hs⟩
  | tick =>
    simp only [stepLisp] at hs
    refine ⟨.quiet, by simp, ?_⟩
    split at hs
    · rename_i hcontrol
      simp only [Option.some.injEq] at hs
      subst hs
      have hview : ({ s with control := .httpTick } : State).view = s.view := by
        simp only [view, hcontrol, Control.current]
      rw [hview]
      exact .quiet
    · simp only [Option.some.injEq] at hs
      subst hs
      exact .quiet
  | httpComplete c outcome => exact ⟨.resume, by simp, httpComplete_effect h hs⟩
  | leaveHttpTick | continueTick | yield | receive | join | await | httpStart | exit => contradiction

theorem step_effects (h : s.view.Linked) (hs : s.step a = some s') :
    ∃ l, Does s a l ∧ Effects s.view l s'.view := by
  have hlisp : ∀ {a}, s.stepLisp a = some s' → ∃ l, Does s a l ∧ Effects s.view l s'.view := by
    intro a hs
    obtain ⟨l, hl, heff⟩ := stepLisp_effect h hs
    refine ⟨l, .plain ?_, .single heff (by rintro c o rfl; simp at hl)⟩
    exact hl.imp_right (·.imp_right (·.imp_right (·.imp_right .inl)))
  have htick : ∀ {a}, s.continueTick = some s' → ∃ l, Does s a l ∧ Effects s.view l s'.view := by
    intro a hs
    obtain ⟨l, hl, heff⟩ := continueTick_effect h hs
    exact ⟨l, .plain (by tauto), .single heff (by rintro c o rfl; simp at hl)⟩
  unfold step at hs
  split at hs
  · rename_i c n hc
    have hcur : s.view.current = some c := by simp [view, hc, Control.current]
    obtain ⟨k, hk⟩ := h.current c hcur
    have hrun : k.state = .running := (h.running c k hk).mpr hcur
    cases a with
    | yield =>
      simp only [stepCoro, Option.some.injEq] at hs
      subst hs
      exact ⟨_, .yield hc, .single (coroYield_effect hc hk hrun rfl (by simp) (by simp) (by simp)) (by simp)⟩
    | receive ms now =>
      rcases actorReceiveInternal_effect h hc hs with heff | heff
      · exact ⟨_, .take hc, .single heff (by simp)⟩
      · exact ⟨_, .receive hc, .single heff (by simp)⟩
    | join t =>
      rcases actorJoinInternal_effect h hc (.inl rfl) hs with heff | ⟨-, heff⟩ | ⟨hf, -⟩
      · exact ⟨_, .join hc, .single heff (by simp)⟩
      · exact ⟨_, .reap hc, .single heff (by simp)⟩
      · simp at hf
    | await t =>
      simp only [stepCoro] at hs
      split at hs
      · rcases actorJoinInternal_effect h hc (.inr rfl) hs with heff | ⟨hf, -⟩ | ⟨-, heff⟩
        · exact ⟨_, .await hc, .single heff (by simp)⟩
        · simp at hf
        · exact ⟨_, .reapAwait hc, .single heff (by simp)⟩
      · simp only [Option.some.injEq] at hs
        subst hs
        exact ⟨.quiet, .plain (.inl rfl), .single .quiet (by simp)⟩
    | httpStart =>
      simp only [stepCoro, Option.some.injEq] at hs
      subst hs
      have heff := Effect.block .fd .http k.waitDeadline hcur hk hrun
        rfl (by simp) (by simp)
      refine ⟨_, .http hc, .single ?_ (by simp)⟩
      rw [view_coroYield, View.modify_eq_set (k := k) (by exact hk)]
      exact heff
    | exit outcome => exact ⟨_, .finish hc, coroTrampoline_effects h hc hs⟩
    | spawn | actorSpawn | send | monitor | tick | httpComplete | leaveHttpTick | continueTick =>
      exact hlisp hs
  · exact hlisp hs
  · split at hs
    · rename_i hcontrol _ now
      simp only [Option.some.injEq] at hs
      subst hs
      refine ⟨.quiet, .plain (.inl rfl), .single ?_ (by simp)⟩
      have hview : ({ s with control := s.afterHttpTick now } : State).view = s.view :=
        view_control s _ (by rw [hcontrol, afterHttpTick]; cases s.allCoros <;> rfl)
      rw [hview]
      exact .quiet
    · exact hlisp hs
  all_goals
    split at hs
    · exact htick hs
    · contradiction

theorem linked_init : init.view.Linked := by
  constructor <;> simp [init, view, Control.current]

theorem run_linked {ok : State → Action → Prop} {as : List Action} (h : Run step ok init as s) :
    s.view.Linked :=
  h.invariant linked_init fun _ _ _ hl _ hs => by
    obtain ⟨l, -, heffs⟩ := step_effects hl hs
    exact hl.effects heffs

end State

end XEmacs.Async
