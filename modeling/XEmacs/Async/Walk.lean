import XEmacs.Async.Lists

/-! The walk of phase 2. Its cursor stays in the list under everything that the coroutines it
runs do, so that it visits every coroutine that was listed when it started, and runs each of
them that was runnable then once. -/

namespace XEmacs.Async

open Lib

section Effects

variable {v v' : View} {l : Label} {x : CoroId} {k : Coro}

theorem Effect.log_append (he : Effect v l v') : ∃ new, v'.log = v.log ++ new := by
  cases he with
  | @switch c k hc hk hs =>
    unfold View.returned
    split
    · exact ⟨[.ran c, .received c k.result true], by simp [View.emit, View.set]⟩
    · rename_i t _
      exact ⟨[.ran c, .awaited c t (State.awaitOutcome k.error k.result)], by simp [View.emit, View.set]⟩
    · exact ⟨[.ran c], rfl⟩
  | quiet | spawn | monitor | block | register | reap | die => exact ⟨[], by simp [View.set]⟩
  | walkEnd | deliver | resume | take | reapAwait | finish => exact ⟨_, rfl⟩
  | wake | finishWake => exact ⟨_, by simp only [View.emit, List.append_assoc]; rfl⟩

theorem Effects.log_append (he : Effects v l v') : ∃ new, v'.log = v.log ++ new := by
  refine he.invariant (I := fun u => ∃ new, u.log = v.log ++ new) (fun _ => Effect.log_append)
    fun u u' _ _ ⟨new, hnew⟩ heff => ?_
  obtain ⟨new', hnew'⟩ := heff.log_append
  exact ⟨new ++ new', by rw [hnew', hnew, List.append_assoc]⟩

theorem Effect.ran_count (he : Effect v l v') (hl : ∀ c, l ≠ .switch c) :
    v'.log.count (.ran x) = v.log.count (.ran x) := by
  cases he with
  | switch => exact absurd rfl (hl _)
  | _ => simp [View.emit, View.set]

theorem Effect.runnable (he : Effect v l v') (hl : ∀ c, l ≠ .switch c) (hk : v.core x = some k)
    (hr : k.state = .runnable) : ∃ k', v'.core x = some k' ∧ k'.state = .runnable := by
  have hset : ∀ {u : View} {y : CoroId} {ky ky' : Coro}, (∃ k, u.core x = some k ∧ k.state = .runnable) →
      u.core y = some ky → (ky.state = .runnable → ky'.state = .runnable) →
      ∃ k', (u.set y ky').core x = some k' ∧ k'.state = .runnable := by
    intro u y ky ky' ⟨k, hk, hr⟩ hy himp
    by_cases hxy : x = y
    · subst hxy
      obtain rfl := Option.some.inj (hk.symm.trans hy)
      exact ⟨ky', View.set_core_self _ _ _, himp hr⟩
    · exact ⟨k, (View.set_core_of_ne _ hxy _).trans hk, hr⟩
  have hx : ∃ k, v.core x = some k ∧ k.state = .runnable := ⟨k, hk, hr⟩
  cases he with
  | quiet => exact hx
  | walkEnd => exact hx
  | spawn hfresh =>
    have hne : x ≠ v.allocated := by
      rintro rfl
      simp [hfresh] at hk
    exact ⟨k, (View.set_core_of_ne _ hne _).trans hk, hr⟩
  | deliver msg hy => exact hset hx hy id
  | wake msg hy => exact hset hx hy fun _ => rfl
  | monitor hy => exact hset hx hy id
  | resume result error hy => exact hset hx hy fun _ => rfl
  | take _ hy => exact hset hx hy id
  | block reason frame deadline _ hy hrun => exact hset hx hy fun h => by simp [hrun] at h
  | register _ ht _ _ hy hrun => exact hset (hset hx ht id) hy fun h => by simp [hrun] at h
  | @reap c t kt _ ht hd =>
    have hne : x ≠ t := by
      rintro rfl
      obtain rfl := Option.some.inj (hk.symm.trans ht)
      simp [hr] at hd
    exact ⟨k, (Function.update_of_ne hne ..).trans hk, hr⟩
  | @reapAwait c t _ kt _ _ ht hd =>
    have hne : x ≠ t := by
      rintro rfl
      obtain rfl := Option.some.inj (hk.symm.trans ht)
      simp [hr] at hd
    exact ⟨k, (Function.update_of_ne hne ..).trans hk, hr⟩
  | switch => exact absurd rfl (hl _)
  | finish _ hy hrun => exact hset hx hy fun h => by simp [hrun] at h
  | @finishWake c w k kw _ _ hy hrun _ hw hsw _ hne =>
    refine hset (hset hx hy fun h => by simp [hrun] at h) ((View.set_core_of_ne _ hne _).trans hw) fun _ => rfl
  | die _ hy hrun => exact hset hx hy fun h => by simp [hrun] at h

theorem Effects.ran_count (he : Effects v l v') (hl : ∀ c, l ≠ .switch c) :
    v'.log.count (.ran x) = v.log.count (.ran x) := by
  refine he.invariant (I := fun u => u.log.count (.ran x) = v.log.count (.ran x))
    (fun _ heff => heff.ran_count hl) fun u u' l' hsettle hu heff => ?_
  rw [heff.ran_count fun c => by rcases hsettle with ⟨t, msg, rfl⟩ | ⟨y, rfl⟩ <;> simp, hu]

theorem Effects.runnable (he : Effects v l v') (hl : ∀ c, l ≠ .switch c) (hk : v.core x = some k)
    (hr : k.state = .runnable) : ∃ k', v'.core x = some k' ∧ k'.state = .runnable := by
  refine he.invariant (I := fun u => ∃ k, u.core x = some k ∧ k.state = .runnable)
    (fun _ heff => heff.runnable hl hk hr) fun u u' l' hsettle ⟨ku, hu, hru⟩ heff => ?_
  exact heff.runnable (fun c => by rcases hsettle with ⟨t, msg, rfl⟩ | ⟨y, rfl⟩ <;> simp) hu hru

theorem Effects.not_switch {c : CoroId} (he : Effects v l v') (hc : v.current = some c) :
    ∀ c, l ≠ .switch c := by
  rintro c rfl
  cases he with
  | single heff _ =>
    cases heff with
    | switch hcur => simp [hc] at hcur

end Effects

/-- Where the walk stands: it has visited `done` and still has to visit `todo`. -/
inductive Place (s : State) (todo : List CoroId) : Prop
  | next {all dead pre : List CoroId} (h : s.Threads all dead) (hc : s.control = .phase2 todo.head?)
      (hall : all = pre ++ todo)
  | inside {all dead pre : List CoroId} {c : CoroId} (h : s.Threads all dead)
      (hc : s.control = .running c todo.head?) (hall : all = pre ++ c :: todo)

structure Walk (s₀ s : State) (done todo : List CoroId) : Prop where
  place : Place s todo
  visited : ∀ x ∈ done, ∀ k, s₀.heap x = some k → k.state = .runnable →
    s.log.count (.ran x) = s₀.log.count (.ran x) + 1
  waiting : ∀ x ∈ todo, ∀ k, s₀.heap x = some k → k.state = .runnable →
    s.log.count (.ran x) = s₀.log.count (.ran x) ∧ ∃ k', s.heap x = some k' ∧ k'.state = .runnable

variable {s₀ s s' : State} {a : Action} {c : CoroId} {n : Option CoroId} {k : Coro} {done todo : List CoroId}

theorem Walk.visit (h : Walk s₀ s done (c :: todo)) (hnodup : (done ++ c :: todo).Nodup)
    (hk : s.heap c = some k) (hplace : Place s' todo)
    (hran : k.state = .runnable → s'.log.count (.ran c) = s.log.count (.ran c) + 1)
    (hlog : ∀ x, x ≠ c → s'.log.count (.ran x) = s.log.count (.ran x))
    (hheap : ∀ x, x ≠ c → s'.heap x = s.heap x) : Walk s₀ s' (done ++ [c]) todo := by
  obtain ⟨-, hnodupt, hdisj⟩ := List.nodup_append.mp hnodup
  refine ⟨hplace, fun x hx k₀ hk₀ hr₀ => ?_, fun x hx k₀ hk₀ hr₀ => ?_⟩
  · rcases List.mem_append.mp hx with hx | hx
    · rw [hlog x (hdisj x hx c List.mem_cons_self)]
      exact h.visited x hx k₀ hk₀ hr₀
    · obtain rfl := List.mem_singleton.mp hx
      obtain ⟨hcount, k', hk', hr'⟩ := h.waiting x List.mem_cons_self k₀ hk₀ hr₀
      obtain rfl := Option.some.inj (hk.symm.trans hk')
      rw [hran hr', hcount]
  · have hne : x ≠ c := fun heq => (List.nodup_cons.mp hnodupt).1 (heq ▸ hx)
    rw [hlog x hne, hheap x hne]
    exact h.waiting x (List.mem_cons_of_mem c hx) k₀ hk₀ hr₀

theorem Walk.continueTick {all dead pre : List CoroId} (h : Walk s₀ s done todo) (hnodup : (done ++ todo).Nodup)
    (ht : s.Threads all dead) (hc : s.control = .phase2 todo.head?) (hall : all = pre ++ todo)
    (hs : s.continueTick = some s') (hno : s'.log.count .walkEnd = s.log.count .walkEnd) :
    ∃ done' todo', done ++ todo = done' ++ todo' ∧ Walk s₀ s' done' todo' := by
  unfold State.continueTick at hs
  cases todo with
  | nil =>
    rw [hc] at hs
    simp only [List.head?_nil, Option.some.injEq] at hs
    subst hs
    simp [State.emit] at hno
  | cons c todo =>
    rw [hc] at hs
    obtain ⟨k, hk, hs⟩ := Option.map_eq_some_iff.mp hs
    have hnext : k.next = todo.head? := by
      have hnextOf : s.nextOf c = todo.head? := by
        have hlinked := ht.allLinked
        rw [hall] at hlinked
        exact hlinked.next_eq
      simpa [State.nextOf, hk] using hnextOf
    refine ⟨done ++ [c], todo, by simp, ?_⟩
    by_cases hr : k.state = .runnable
    · simp only [hr, if_true] at hs
      have hlinks : s'.links = s.links := by
        refine State.links_continueTick (s := s) ?_
        unfold State.continueTick
        rw [hc]
        simp only [List.head?_cons, hk, Option.map_some, hr, if_true, hs]
      subst hs
      have hfields : (s.switchTo c k).control = .running c k.next ∧
          (∀ x, x ≠ c → (s.switchTo c k).heap x = s.heap x) ∧
          ∀ x, (s.switchTo c k).log.count (.ran x) = s.log.count (.ran x) + if x = c then 1 else 0 := by
        simp only [State.switchTo]
        refine ⟨by cases k.frame <;> rfl, fun x hx => ?_, fun x => ?_⟩
        · cases k.frame <;> simp [State.emit, State.modify, hx]
        · rcases eq_or_ne x c with rfl | hx
          · cases k.frame <;> simp [State.emit, State.modify]
          · cases k.frame <;> simp [State.emit, State.modify, hx, hx.symm]
      obtain ⟨hcontrol, hheap, hlog⟩ := hfields
      refine h.visit hnodup hk ?_ (fun _ => ?_) (fun x hx => ?_) hheap
      · exact .inside (ht.congr hlinks) (by rw [hcontrol, hnext]) hall
      · rw [hlog, if_pos rfl]
      · rw [hlog, if_neg hx]
        rfl
    · simp only [hr, if_false] at hs
      subst hs
      refine h.visit hnodup hk ?_ (fun hr' => absurd hr' hr) (fun _ _ => rfl) fun _ _ => rfl
      exact .next (ht.congr rfl) (by rw [hnext]) (show all = (pre ++ [c]) ++ todo by simp [hall])

theorem Walk.step (h : Walk s₀ s done todo) (hnodup : (done ++ todo).Nodup) (hl : s.view.Linked)
    (hs : s.step a = some s') (hno : s'.log.count .walkEnd = s.log.count .walkEnd) :
    ∃ done' todo', done ++ todo = done' ++ todo' ∧ Walk s₀ s' done' todo' := by
  cases h.place with
  | next ht hc hall =>
    simp only [State.step, hc] at hs
    split at hs
    · exact h.continueTick hnodup ht hc hall hs hno
    · contradiction
  | @inside all dead pre c ht hc hall =>
    have hcur : s.view.current = some c := by simp [State.view, hc, Control.current]
    obtain ⟨l, -, he⟩ := State.step_effects hl hs
    have hnot := he.not_switch hcur
    have hplace : Place s' todo := by
      simp only [State.step, hc] at hs
      rcases State.stepCoro_threads hl ht hc hs with
        ⟨new, dead', ht', hc'⟩ | ⟨all', dead', ht', hc', rfl | ⟨l₁, l₂, hsplit, rfl⟩⟩
      · exact .inside ht' hc' (show new ++ all = (new ++ pre) ++ c :: todo by rw [hall, List.append_assoc])
      · exact .next ht' hc' (show all' = (pre ++ [c]) ++ todo by rw [hall]; simp)
      · -- the coroutine that has exited was at one place of the list
        rw [hall] at hsplit
        have honce : (pre ++ c :: todo).Nodup := hall ▸ (List.nodup_append.mp ht.nodup).1
        have hmid := (List.nodup_cons.mp
          ((List.perm_middle.nodup_iff).mp (hsplit ▸ honce))).1
        obtain ⟨rfl, -, rfl⟩ := (List.append_cons_inj_of_notMem
          (fun hmem => hmid (List.mem_append_left _ hmem))
          fun hmem => hmid (List.mem_append_right _ hmem)).mp hsplit.symm
        exact .next ht' hc' rfl
    refine ⟨done, todo, rfl, hplace, fun x hx k hk hr => ?_, fun x hx k hk hr => ?_⟩
    · have hcount : s'.log.count (.ran x) = s.log.count (.ran x) := he.ran_count hnot
      rw [hcount]
      exact h.visited x hx k hk hr
    · have hcount : s'.log.count (.ran x) = s.log.count (.ran x) := he.ran_count hnot
      obtain ⟨hsame, k', hk', hr'⟩ := h.waiting x hx k hk hr
      obtain ⟨kv, hkv, hrv⟩ := he.runnable hnot (State.core_eq hk') hr'
      obtain ⟨k'', hk'', rfl⟩ := Option.map_eq_some_iff.mp hkv
      exact ⟨hcount.trans hsame, k'', hk'', hrv⟩

theorem walk_run {all dead : List CoroId} {as : List Action} (hl : s₀.view.Linked)
    (ht : s₀.Threads all dead) (hc : s₀.control = .phase2 s₀.allCoros)
    (h : Run State.step anyStep s₀ as s) (hno : s.log.count .walkEnd = s₀.log.count .walkEnd) :
    ∃ done todo, all = done ++ todo ∧ Walk s₀ s done todo := by
  have hnodup : all.Nodup := (List.nodup_append.mp ht.nodup).1
  have hinv : s₀.log.count .walkEnd ≤ s.log.count .walkEnd ∧ s.view.Linked ∧
      (s.log.count .walkEnd = s₀.log.count .walkEnd →
        ∃ done todo, all = done ++ todo ∧ Walk s₀ s done todo) := by
    refine h.invariant (I := fun s => s₀.log.count .walkEnd ≤ s.log.count .walkEnd ∧ s.view.Linked ∧
      (s.log.count .walkEnd = s₀.log.count .walkEnd →
        ∃ done todo, all = done ++ todo ∧ Walk s₀ s done todo))
      ⟨Nat.le_refl _, hl, fun _ => ⟨[], all, rfl, ?_, by simp, fun x _ k hk hr => ⟨rfl, k, hk, hr⟩⟩⟩
      fun t a u ⟨hle, hlt, hwalk⟩ _ hs => ?_
    · refine .next ht ?_ (List.nil_append all).symm
      rw [hc, ht.allLinked.forward.head?_eq]
    · obtain ⟨l, -, he⟩ := State.step_effects hlt hs
      obtain ⟨new, hnew⟩ := he.log_append
      have hlog : u.log = t.log ++ new := hnew
      have hmono : t.log.count .walkEnd ≤ u.log.count .walkEnd := by
        rw [hlog, List.count_append]
        exact Nat.le_add_right _ _
      refine ⟨Nat.le_trans hle hmono, hlt.effects he, fun heq => ?_⟩
      have heqt : t.log.count .walkEnd = s₀.log.count .walkEnd := Nat.le_antisymm (heq ▸ hmono) hle
      obtain ⟨done, todo, rfl, hw⟩ := hwalk heqt
      exact hw.step hnodup hlt hs (heq.trans heqt.symm)
  exact hinv.2.2 hno

/-- In every reachable state the two lists are linked and hold the coroutines that they should, at
most one is running, and a walk runs every listed and runnable one once. -/
theorem run_lists {as : List Action} (h : Run State.step anyStep .init as s) :
    ∃ all dead, s.Threads all dead ∧
      (∀ c c' k k', s.heap c = some k → s.heap c' = some k' → k.state = .running →
        k'.state = .running → c = c') ∧
      (s.control = .phase2 s.allCoros → ∀ bs s', Run State.step anyStep s bs s' →
        s'.log.count .walkEnd = s.log.count .walkEnd → s'.control = .phase2 none →
        ∀ c ∈ all, ∀ k, s.heap c = some k → k.state = .runnable →
          s'.log.count (.ran c) = s.log.count (.ran c) + 1) := by
  have hl := State.run_linked h
  obtain ⟨all, dead, ht⟩ := State.run_threads h
  refine ⟨all, dead, ht, fun c c' k k' hk hk' hr hr' => ?_, fun hc bs s' hrun hno hend c hmem k hk hr => ?_⟩
  · have hcur : s.view.current = some c := (hl.running c _ (State.core_eq hk)).mp hr
    have hcur' : s.view.current = some c' := (hl.running c' _ (State.core_eq hk')).mp hr'
    exact Option.some.inj (hcur.symm.trans hcur')
  · obtain ⟨done, todo, rfl, hw⟩ := walk_run hl ht hc hrun hno
    have htodo : todo = [] := by
      cases hw.place with
      | next _ hc' _ =>
        rw [hend, Control.phase2.injEq] at hc'
        exact List.head?_eq_none_iff.mp hc'.symm
      | inside _ hc' _ => simp [hend] at hc'
    subst htodo
    exact hw.visited c (by simpa using hmem) k hk hr

theorem run_lists_spawn :
    ∃ s : State, s.coroCount = 2 ∧ s.allCoros = some 3 ∧ s.deadCoros = some 1 ∧
      ∃ all dead, s.Threads all dead ∧
        (∀ c c' k k', s.heap c = some k → s.heap c' = some k' → k.state = .running →
          k'.state = .running → c = c') ∧
        (s.control = .phase2 s.allCoros → ∀ bs s', Run State.step anyStep s bs s' →
          s'.log.count .walkEnd = s.log.count .walkEnd → s'.control = .phase2 none →
          ∀ c ∈ all, ∀ k, s.heap c = some k → k.state = .runnable →
            s'.log.count (.ran c) = s.log.count (.ran c) + 1) := by
  have hexec : (exec State.step .init
      [.spawn (.function 0) .nil, .spawn (.function 1) .nil, .spawn (.function 2) .nil, .tick,
        .leaveHttpTick 0, .continueTick, .continueTick, .continueTick, .continueTick, .continueTick,
        .continueTick, .continueTick, .continueTick, .continueTick, .spawn (.function 3) .nil,
        .exit (.value .nil), .continueTick, .exit (.value .nil), .continueTick, .join 2]).any
      (fun s => decide (s.coroCount = 2 ∧ s.allCoros = some 3 ∧ s.deadCoros = some 1)) = true := by
    decide +kernel
  obtain ⟨s, hs, hcount, hall, hdead⟩ := exists_run_of_exec hexec
  exact ⟨s, hcount, hall, hdead, run_lists hs⟩

end XEmacs.Async
