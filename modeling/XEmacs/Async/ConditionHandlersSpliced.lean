import XEmacs.Async.ConditionHandlers

/-! The handlers of a coroutine are kept together by their last cons, the boundary, whatever the
other parties do. Switching to the coroutine links the boundary to the outer chain of the time,
and yielding takes it off again. -/

namespace XEmacs.Async.Handlers

open Lib

section

variable {s s' : State} {c : ℕ}

def State.detached (s : State) (c : ℕ) : State :=
  { s with
    savedHead := Function.update s.savedHead c none
    savedBoundary := Function.update s.savedBoundary c none
    conditionHandlers := s.schedConditionHandlers }

def State.detachedAt (s : State) (c h b : ℕ) : State :=
  { s with
    savedHead := Function.update s.savedHead c (some h)
    savedBoundary := Function.update s.savedBoundary c (some b)
    cdr := Function.update s.cdr b none
    conditionHandlers := s.schedConditionHandlers }

theorem detach_of_noneOwned (h : s.conditionHandlers = s.schedConditionHandlers) (fuel : ℕ) :
    s.detach fuel c = some (s.detached c) :=
  if_pos h

theorem detach_of_branch {h b : ℕ} {l : List ℕ} (hh : s.conditionHandlers = some h)
    (howner : s.owner h = some (some c)) (hl : Branch s c b (some h) l)
    (hb : s.cdr b = s.schedConditionHandlers)
    (houter : ∀ x, s.schedConditionHandlers = some x → s.owner x ≠ some (some c)) (fuel : ℕ) :
    s.detach fuel c = if l.length ≤ fuel then some (s.detachedAt c h b) else none := by
  have hne : s.conditionHandlers ≠ s.schedConditionHandlers := fun heq =>
    houter h (heq.symm.trans hh) howner
  rw [State.detach, if_neg hne, hh, hl.boundaryWalk_eq hb houter]
  split <;> rfl

theorem Inv.schedConditionHandlers_owner (hi : Inv s) (hc : s.currentCoro = some c) (x : ℕ)
    (hx : s.schedConditionHandlers = some x) : s.owner x = some none := by
  refine hi.outer x ?_
  rw [Handlers.outer, hc, if_neg (Option.some_ne_none c)]
  exact hx

theorem detach_cases (hi : Inv s) (hc : s.currentCoro = some c) {fuel : ℕ}
    (hs : s.detach fuel c = some s') :
    (NoneOwned s c ∧ s.conditionHandlers = s.schedConditionHandlers ∧ s' = s.detached c) ∨
    ∃ h b, s.conditionHandlers = some h ∧ s.owner h = some (some c) ∧ Rooted s c b ∧
      s.cdr b = s.schedConditionHandlers ∧ s' = s.detachedAt c h b := by
  obtain ⟨-, -, ⟨hnone, hsame⟩ | ⟨h, b, hh, howner, hroot, hb⟩⟩ := hi.running c hc
  · rw [detach_of_noneOwned hsame] at hs
    exact Or.inl ⟨hnone, hsame, (Option.some.inj hs).symm⟩
  · obtain ⟨l, hl⟩ := hroot.branch h howner
    rw [detach_of_branch hh howner hl hb fun x hx => by
      rw [hi.schedConditionHandlers_owner hc x hx]
      exact fun heq => Option.some_ne_none c (Option.some_inj.mp heq).symm] at hs
    split at hs
    case isTrue => exact Or.inr ⟨h, b, hh, howner, hroot, hb, (Option.some.inj hs).symm⟩
    case isFalse => exact absurd hs (Option.some_ne_none s').symm

theorem detached_only : Only s { s.detached c with currentCoro := none } (some c) where
  owner _ _ _ := Iff.rfl
  cdr _ _ _ _ := rfl
  saved _ hc := ⟨Function.update_of_ne (fun h => hc (congrArg some h)) _ _,
    Function.update_of_ne (fun h => hc (congrArg some h)) _ _⟩

theorem detachedAt_only {h b : ℕ} (hb : s.owner b = some (some c)) :
    Only s { s.detachedAt c h b with currentCoro := none } (some c) where
  owner _ _ _ := Iff.rfl
  cdr x q hq hx := by
    refine Function.update_of_ne ?_ _ _
    rintro rfl
    exact hq (Option.some_inj.mp (hx.symm.trans hb))
  saved _ hc := ⟨Function.update_of_ne (fun h => hc (congrArg some h)) _ _,
    Function.update_of_ne (fun h => hc (congrArg some h)) _ _⟩

theorem inv_yield (hi : Inv s) {fuel : ℕ} (hs : step s (.yield fuel) = some s') : Inv s' := by
  cases hc : s.currentCoro with
  | none =>
    simp only [step, hc] at hs
    exact absurd hs (Option.some_ne_none s').symm
  | some c =>
    simp only [step, hc] at hs
    obtain ⟨s₁, hs₁, rfl⟩ := Option.map_eq_some_iff.mp hs
    have houter := hi.schedConditionHandlers_owner hc
    have hother : ∀ c', c' ≠ c → Suspended s c' := fun c' hne => hi.suspended c' fun heq =>
      hne (Option.some_inj.mp (heq.symm.trans hc))
    rcases detach_cases hi hc hs₁ with ⟨hnone, -, rfl⟩ | ⟨h, b, hh, howner, hroot, hb, rfl⟩
    · have honly : Only s { s.detached c with currentCoro := none } (some c) := detached_only
      refine ⟨hi.main, houter, fun c' hc' => absurd hc' (Option.some_ne_none c').symm, fun c' _ => ?_⟩
      by_cases hne : c' = c
      · subst hne
        exact Or.inl ⟨hnone, Function.update_self _ _ _, Function.update_self _ _ _⟩
      · exact honly.suspended (fun heq => hne (Option.some_inj.mp heq)) (hother c' hne)
    · have honly := detachedAt_only (h := h) hroot.owner
      refine ⟨honly.main (Option.some_ne_none c).symm hi.main, houter,
        fun c' hc' => absurd hc' (Option.some_ne_none c').symm, fun c' _ => ?_⟩
      by_cases hne : c' = c
      · subst hne
        refine Or.inr ⟨h, b, Function.update_self _ _ _, Function.update_self _ _ _, howner,
          hroot.congr (fun _ => Iff.rfl) fun x _ hxb => Function.update_of_ne hxb _ _,
          Function.update_self _ _ _⟩
      · exact honly.suspended (fun heq => hne (Option.some_inj.mp heq)) (hother c' hne)

def State.swappedIn (s : State) (c : ℕ) : State :=
  { s with currentCoro := some c, schedConditionHandlers := s.conditionHandlers }

def State.swappedInAt (s : State) (c h b : ℕ) : State :=
  { s with
    currentCoro := some c
    schedConditionHandlers := s.conditionHandlers
    cdr := Function.update s.cdr b s.conditionHandlers
    conditionHandlers := some h
    savedHead := Function.update s.savedHead c none
    savedBoundary := Function.update s.savedBoundary c none }

theorem reattach_cases (hs : Suspended s c) :
    (NoneOwned s c ∧ s.savedHead c = none ∧ s.savedBoundary c = none ∧
      (s.swappedIn c).reattach c = s.swappedIn c) ∨
    ∃ h b, s.savedHead c = some h ∧ s.owner h = some (some c) ∧ Rooted s c b ∧ s.cdr b = none ∧
      (s.swappedIn c).reattach c = s.swappedInAt c h b := by
  rcases hs with ⟨hnone, hh, hb⟩ | ⟨h, b, hh, hb, howner, hroot, hnil⟩
  · refine Or.inl ⟨hnone, hh, hb, ?_⟩
    rw [State.reattach, show (s.swappedIn c).savedHead c = none from hh]
  · refine Or.inr ⟨h, b, hh, howner, hroot, hnil, ?_⟩
    rw [State.reattach, show (s.swappedIn c).savedHead c = some h from hh,
      show (s.swappedIn c).savedBoundary c = some b from hb]
    rfl

theorem swappedIn_only : Only s (s.swappedIn c) (some c) :=
  ⟨fun _ _ _ => Iff.rfl, fun _ _ _ _ => rfl, fun _ _ => ⟨rfl, rfl⟩⟩

theorem swappedInAt_only {h b : ℕ} (hb : s.owner b = some (some c)) :
    Only s (s.swappedInAt c h b) (some c) where
  owner _ _ _ := Iff.rfl
  cdr x q hq hx := by
    refine Function.update_of_ne ?_ _ _
    rintro rfl
    exact hq (Option.some_inj.mp (hx.symm.trans hb))
  saved _ hc := ⟨Function.update_of_ne (fun h => hc (congrArg some h)) _ _,
    Function.update_of_ne (fun h => hc (congrArg some h)) _ _⟩

theorem inv_swapIn (hi : Inv s) (hs : step s (.swapIn c) = some s') : Inv s' := by
  by_cases hcoro : s.currentCoro = none
  · have hs : some ((s.swappedIn c).reattach c) = some s' := by
      rw [← hs]
      exact (if_pos hcoro).symm
    obtain rfl := Option.some.inj hs
    have hall : ∀ c', Suspended s c' := fun c' => hi.suspended c' fun heq =>
      Option.some_ne_none c' (heq.symm.trans hcoro)
    have houter : ∀ x, s.conditionHandlers = some x → s.owner x = some none := fun x hx =>
      hi.outer x (by rw [outer, if_pos hcoro]; exact hx)
    rcases reattach_cases (hall c) with ⟨hnone, hh, hb, heq⟩ | ⟨h, b, hh, howner, hroot, -, heq⟩
    · rw [heq]
      refine ⟨hi.main, houter, fun c' hc' => ?_, fun c' hc' => ?_⟩
      · obtain rfl : c = c' := Option.some_inj.mp hc'
        exact ⟨hh, hb, Or.inl ⟨hnone, rfl⟩⟩
      · exact swappedIn_only.suspended (fun heq => hc' heq.symm) (hall c')
    · rw [heq]
      have honly := swappedInAt_only (h := h) hroot.owner
      refine ⟨honly.main (Option.some_ne_none c).symm hi.main, houter, fun c' hc' => ?_, fun c' hc' => ?_⟩
      · obtain rfl : c = c' := Option.some_inj.mp hc'
        refine ⟨Function.update_self _ _ _, Function.update_self _ _ _, Or.inr ⟨h, b, rfl, howner,
          hroot.congr (fun _ => Iff.rfl) fun x _ hxb => Function.update_of_ne hxb _ _,
          Function.update_self _ _ _⟩⟩
      · exact honly.suspended (fun heq => hc' heq.symm) (hall c')
  · exact absurd ((if_neg hcoro).symm.trans hs) (Option.some_ne_none s').symm

/-! ### The actions of the running party -/

theorem noneOwned_release (p : Party) {handlers : Option ℕ} {coro : Party} (hp : p = some c) :
    NoneOwned { s with owner := release s.owner p, conditionHandlers := handlers, currentCoro := coro }
      c := by
  intro x hx
  have hx : release s.owner p x = some (some c) := hx
  rw [release] at hx
  split at hx
  case isTrue => exact absurd hx (Option.some_ne_none _).symm
  case isFalse hne => exact hne (hp ▸ hx)

theorem inv_exit (hi : Inv s) (hs : step s .exit = some s') : Inv s' := by
  cases hc : s.currentCoro with
  | none =>
    simp only [step, hc] at hs
    exact absurd hs (Option.some_ne_none s').symm
  | some c =>
    simp only [step, hc] at hs
    obtain rfl := Option.some.inj hs
    have honly : Only s { s with
        owner := release s.owner (some c)
        conditionHandlers := s.schedConditionHandlers
        currentCoro := none } (some c) := only_release
    refine ⟨honly.main (Option.some_ne_none c).symm hi.main, fun x hx => ?_,
      fun c' hc' => absurd hc' (Option.some_ne_none c').symm, fun c' _ => ?_⟩
    · exact (honly.owner x none (Option.some_ne_none c).symm).mpr
        (hi.schedConditionHandlers_owner hc x hx)
    · by_cases hne : c' = c
      · subst hne
        obtain ⟨hh, hb, -⟩ := hi.running c' hc
        exact Or.inl ⟨noneOwned_release (some c') rfl, hh, hb⟩
      · exact honly.suspended (fun heq => hne (Option.some_inj.mp heq))
          (hi.suspended c' fun heq => hne (Option.some_inj.mp (heq.symm.trans hc)))

theorem inv_unwind (hi : Inv s) (hs : step s .unwind = some s') : Inv s' := by
  obtain rfl := Option.some.inj hs
  have honly : Only s { s with
      owner := release s.owner s.currentCoro
      conditionHandlers := if s.currentCoro = none then none else s.schedConditionHandlers }
      s.currentCoro := only_release
  cases hc : s.currentCoro with
  | none =>
    rw [hc] at honly
    refine ⟨fun x hx => ?_, fun x hx => ?_, fun c' hc' => ?_, fun c' _ => ?_⟩
    · have hx : release s.owner none x = some none := hx
      rw [release] at hx
      split at hx
      case isTrue => exact absurd hx (Option.some_ne_none _).symm
      case isFalse hne => exact absurd hx hne
    · simp only [outer, if_true] at hx
      exact absurd hx (Option.some_ne_none x).symm
    · exact absurd hc' (Option.some_ne_none c').symm
    · exact honly.suspended (Option.some_ne_none c') (hi.suspended c' (by rw [hc]; exact (Option.some_ne_none c').symm))
  | some c =>
    rw [hc, if_neg (Option.some_ne_none c)] at honly
    rw [if_neg (Option.some_ne_none c)]
    refine ⟨honly.main (Option.some_ne_none c).symm hi.main, fun x hx => ?_, fun c' hc' => ?_,
      fun c' hc' => ?_⟩
    · exact (honly.owner x none (Option.some_ne_none c).symm).mpr
        (hi.schedConditionHandlers_owner hc x hx)
    · obtain rfl : c = c' := Option.some_inj.mp hc'
      obtain ⟨hh, hb, -⟩ := hi.running c hc
      exact ⟨hh, hb, Or.inl ⟨noneOwned_release (some c) rfl, rfl⟩⟩
    · exact honly.suspended (fun heq => hc' heq.symm) (hi.suspended c' fun heq => hc' (hc.symm.trans heq))

theorem inv_rebind (hi : Inv s) {x : Option ℕ} (hs : step s (.rebind x) = some s') : Inv s' := by
  have honly : ∀ handlers, Only s { s with conditionHandlers := handlers } s.currentCoro := fun _ =>
    ⟨fun _ _ _ => Iff.rfl, fun _ _ _ _ => rfl, fun _ _ => ⟨rfl, rfl⟩⟩
  have hsuspended : ∀ handlers c, s.currentCoro ≠ some c →
      Suspended { s with conditionHandlers := handlers } c := fun handlers c hc =>
    (honly handlers).suspended (fun heq => hc heq.symm) (hi.suspended c hc)
  cases x with
  | none =>
    simp only [step, Option.ite_none_right_eq_some, Option.some.injEq] at hs
    obtain ⟨hc, rfl⟩ := hs
    refine ⟨hi.main, fun y hy => ?_, fun c' hc' => ?_, hsuspended none⟩
    · rw [outer, if_pos hc] at hy
      exact absurd hy (Option.some_ne_none y).symm
    · exact absurd (hc'.symm.trans hc) (Option.some_ne_none c')
  | some x =>
    simp only [step, Option.ite_none_right_eq_some, Option.some.injEq] at hs
    obtain ⟨hx, rfl⟩ := hs
    refine ⟨hi.main, fun y hy => ?_, fun c' hc' => ?_, hsuspended (some x)⟩
    · by_cases hc : s.currentCoro = none
      · rw [outer, if_pos hc] at hy
        rw [← Option.some_inj.mp hy]
        exact hx.trans (congrArg some hc)
      · refine hi.outer y ?_
        rw [outer, if_neg hc] at hy ⊢
        exact hy
    · have hc' : s.currentCoro = some c' := hc'
      rw [hc'] at hx
      obtain ⟨hh, hb, ⟨hnone, -⟩ | ⟨h, b, -, -, hroot, hb'⟩⟩ := hi.running c' hc'
      · exact absurd hx (hnone x)
      · exact ⟨hh, hb, Or.inr ⟨x, b, rfl, hx, hroot.congr (fun _ => Iff.rfl) fun _ _ _ => rfl, hb'⟩⟩

theorem Running.push (hr : Running s c) (hc : s.currentCoro = some c) {x : ℕ} (hx : s.owner x = none) :
    Running { s with
      owner := Function.update s.owner x (some s.currentCoro)
      cdr := Function.update s.cdr x s.conditionHandlers
      conditionHandlers := some x } c := by
  have hself : Function.update s.owner x (some s.currentCoro) x = some (some c) := by
    rw [Function.update_self, hc]
  have howner : ∀ y, Function.update s.owner x (some s.currentCoro) y = some (some c) →
      y ≠ x → s.owner y = some (some c) := fun y hy hne => by rwa [Function.update_of_ne hne] at hy
  have hne : ∀ y, s.owner y = some (some c) → y ≠ x := by
    rintro y hy rfl
    exact absurd (hy.symm.trans hx) (Option.some_ne_none _)
  obtain ⟨hh, hb, ⟨hnone, hsame⟩ | ⟨h, b, hhandlers, hh', hroot, hb'⟩⟩ := hr
  · refine ⟨hh, hb, Or.inr ⟨x, x, rfl, hself, ⟨hself, fun y hy => ⟨[x], ?_⟩⟩, ?_⟩⟩
    · by_cases hyx : y = x
      · subst hyx
        refine ⟨⟨rfl, Function.update_self _ _ _⟩, fun z hz => ?_, rfl⟩
        rw [List.mem_singleton.mp hz]
        exact hself
      · exact absurd (howner y hy hyx) (hnone y)
    · show Function.update s.cdr x s.conditionHandlers x = s.schedConditionHandlers
      rw [Function.update_self, hsame]
  · have hold : ∀ y l, Branch s c b (some y) l → Branch { s with
        owner := Function.update s.owner x (some s.currentCoro)
        cdr := Function.update s.cdr x s.conditionHandlers
        conditionHandlers := some x } c b (some y) l := fun y l hl =>
      hl.congr (fun z hz => Function.update_of_ne (hne z (hl.2.1 z hz)) _ _)
        fun z hz _ => Function.update_of_ne (hne z (hl.2.1 z hz)) _ _
    refine ⟨hh, hb, Or.inr ⟨x, b, rfl, hself, ⟨?_, fun y hy => ?_⟩, ?_⟩⟩
    · exact (Function.update_of_ne (hne b hroot.owner) _ _).trans hroot.owner
    · by_cases hyx : y = x
      · subst hyx
        obtain ⟨l, hl⟩ := hroot.branch h hh'
        have hl' := hold h l hl
        refine ⟨y :: l, ⟨rfl, ?_⟩, fun z hz => ?_, ?_⟩
        · have hnext : Function.update (Function.update s.cdr y s.conditionHandlers) b none y =
              some h := by
            rw [Function.update_of_ne (hne b hroot.owner).symm, Function.update_self, hhandlers]
          exact hnext.symm ▸ hl'.1
        · rcases List.mem_cons.mp hz with rfl | hz
          · exact hself
          · exact hl'.2.1 z hz
        · rw [List.getLast?_cons, hl.2.2]
          rfl
      · obtain ⟨l, hl⟩ := hroot.branch y (howner y hy hyx)
        exact ⟨l, hold y l hl⟩
    · exact (Function.update_of_ne (hne b hroot.owner) _ _).trans hb'

theorem only_push {x : ℕ} (hx : s.owner x = none) :
    Only s { s with
      owner := Function.update s.owner x (some s.currentCoro)
      cdr := Function.update s.cdr x s.conditionHandlers
      conditionHandlers := some x } s.currentCoro where
  owner y q hq := by
    show Function.update s.owner x (some s.currentCoro) y = some q ↔ _
    by_cases hyx : y = x
    · subst hyx
      rw [Function.update_self, hx]
      exact ⟨fun h => absurd (Option.some_inj.mp h).symm hq, fun h => absurd h (Option.some_ne_none q).symm⟩
    · rw [Function.update_of_ne hyx]
  cdr y q _ hy := Function.update_of_ne (fun hyx => by
    subst hyx
    exact absurd (hy.symm.trans hx) (Option.some_ne_none _)) _ _
  saved _ _ := ⟨rfl, rfl⟩

theorem inv_push (hi : Inv s) {x : ℕ} (hs : step s (.push x) = some s') : Inv s' := by
  simp only [step, Option.ite_none_right_eq_some, Option.some.injEq] at hs
  obtain ⟨hx, rfl⟩ := hs
  have honly := only_push hx
  refine ⟨?_, fun y hy => ?_, fun c' hc' => (hi.running c' hc').push hc' hx, fun c' hc' =>
    honly.suspended (fun heq => hc' heq.symm) (hi.suspended c' hc')⟩
  · intro y hy
    by_cases hc : s.currentCoro = none
    · have hold : ∀ p l, SList s.cdr p l → (∀ z ∈ l, s.owner z = some none) →
          SList (Function.update s.cdr x s.conditionHandlers) p l ∧
            ∀ z ∈ l, Function.update s.owner x (some s.currentCoro) z = some none := by
        intro p l hl howner
        have hne : ∀ z ∈ l, z ≠ x := by
          rintro z hz rfl
          exact absurd ((howner z hz).symm.trans hx) (Option.some_ne_none _)
        refine ⟨hl.congr fun z hz => Function.update_of_ne (hne z hz) _ _, fun z hz => ?_⟩
        rw [Function.update_of_ne (hne z hz), howner z hz]
      by_cases hyx : y = x
      · subst hyx
        -- the rest of the list is what the main program had
        have hrest : ∃ l, SList s.cdr s.conditionHandlers l ∧ ∀ z ∈ l, s.owner z = some none := by
          cases hh : s.conditionHandlers with
          | none => exact ⟨[], rfl, fun _ hz => absurd hz List.not_mem_nil⟩
          | some z => exact hi.main z (hi.outer z (by rw [outer, if_pos hc, hh]))
        obtain ⟨l, hl, howner⟩ := hrest
        obtain ⟨hl', howner'⟩ := hold _ l hl howner
        refine ⟨y :: l, hl'.cons (Function.update_self _ _ _), fun z hz => ?_⟩
        rcases List.mem_cons.mp hz with rfl | hz
        · exact hy
        · exact howner' z hz
      · have hy : s.owner y = some none := (Function.update_of_ne hyx _ _).symm.trans hy
        obtain ⟨l, hl, howner⟩ := hi.main y hy
        exact ⟨l, hold _ l hl howner⟩
    · exact honly.main (Ne.symm hc) hi.main y hy
  · by_cases hc : s.currentCoro = none
    · rw [outer, if_pos hc] at hy
      obtain rfl : x = y := Option.some_inj.mp hy
      show Function.update s.owner x (some s.currentCoro) x = _
      rw [Function.update_self, hc]
    · rw [outer, if_neg hc] at hy
      exact (honly.owner y none (Ne.symm hc)).mpr (hi.outer y (by rw [outer, if_neg hc]; exact hy))

/-! ### Runs -/

theorem inv_init (cdr : ℕ → Option ℕ) : Inv (init cdr) where
  main _ hx := absurd hx (Option.some_ne_none _).symm
  outer x hx := absurd (show none = some x from hx) (Option.some_ne_none x).symm
  running c hc := absurd hc (Option.some_ne_none c).symm
  suspended _ _ := Or.inl ⟨fun _ hx => absurd hx (Option.some_ne_none _).symm, rfl, rfl⟩

theorem inv_step {a : Action} (hi : Inv s) (hs : step s a = some s') : Inv s' := by
  cases a with
  | push x => exact inv_push hi hs
  | rebind x => exact inv_rebind hi hs
  | unwind => exact inv_unwind hi hs
  | swapIn c => exact inv_swapIn hi hs
  | yield fuel => exact inv_yield hi hs
  | exit => exact inv_exit hi hs

theorem inv_run {cdr : ℕ → Option ℕ} {as : List Action} (h : Run step anyStep (init cdr) as s) : Inv s :=
  h.invariant (inv_init cdr) fun _ _ _ hi _ hs => inv_step hi hs

def actor (s : State) : Action → Party
  | .swapIn c => some c
  | _ => s.currentCoro

theorem only_step {a : Action} (hi : Inv s) (hs : step s a = some s') : Only s s' (actor s a) := by
  cases a with
  | push x =>
    simp only [step, Option.ite_none_right_eq_some, Option.some.injEq] at hs
    obtain ⟨hx, rfl⟩ := hs
    exact only_push hx
  | rebind x =>
    cases x with
    | none =>
      simp only [step, Option.ite_none_right_eq_some, Option.some.injEq] at hs
      obtain ⟨-, rfl⟩ := hs
      exact ⟨fun _ _ _ => Iff.rfl, fun _ _ _ _ => rfl, fun _ _ => ⟨rfl, rfl⟩⟩
    | some x =>
      simp only [step, Option.ite_none_right_eq_some, Option.some.injEq] at hs
      obtain ⟨-, rfl⟩ := hs
      exact ⟨fun _ _ _ => Iff.rfl, fun _ _ _ _ => rfl, fun _ _ => ⟨rfl, rfl⟩⟩
  | unwind =>
    obtain rfl := Option.some.inj hs
    exact only_release
  | swapIn c =>
    simp only [step, Option.ite_none_right_eq_some, Option.some.injEq] at hs
    obtain ⟨hcoro, rfl⟩ := hs
    have hsuspended := hi.suspended c fun heq => Option.some_ne_none c (heq.symm.trans hcoro)
    show Only s ((s.swappedIn c).reattach c) (some c)
    rcases reattach_cases hsuspended with ⟨-, -, -, heq⟩ | ⟨h, b, -, -, hroot, -, heq⟩
    · rw [heq]
      exact swappedIn_only
    · rw [heq]
      exact swappedInAt_only hroot.owner
  | yield fuel =>
    cases hc : s.currentCoro with
    | none =>
      simp only [step, hc] at hs
      exact absurd hs (Option.some_ne_none s').symm
    | some c =>
      simp only [step, hc] at hs
      obtain ⟨s₁, hs₁, rfl⟩ := Option.map_eq_some_iff.mp hs
      show Only s _ s.currentCoro
      rw [hc]
      rcases detach_cases hi hc hs₁ with ⟨-, -, rfl⟩ | ⟨h, b, -, -, hroot, -, rfl⟩
      · exact detached_only
      · exact detachedAt_only hroot.owner
  | exit =>
    cases hc : s.currentCoro with
    | none =>
      simp only [step, hc] at hs
      exact absurd hs (Option.some_ne_none s').symm
    | some c =>
      simp only [step, hc] at hs
      obtain rfl := Option.some.inj hs
      show Only s _ s.currentCoro
      rw [hc]
      exact only_release

theorem currentCoro_of_step {a : Action} (hi : Inv s) (hs : step s a = some s')
    (hc : s'.currentCoro = some c) : s.currentCoro = some c ∨ a = .swapIn c := by
  cases a with
  | push x =>
    simp only [step, Option.ite_none_right_eq_some, Option.some.injEq] at hs
    obtain ⟨-, rfl⟩ := hs
    exact Or.inl hc
  | rebind x =>
    cases x with
    | none | some _ =>
      simp only [step, Option.ite_none_right_eq_some, Option.some.injEq] at hs
      obtain ⟨-, rfl⟩ := hs
      exact Or.inl hc
  | unwind =>
    obtain rfl := Option.some.inj hs
    exact Or.inl hc
  | swapIn c' =>
    simp only [step, Option.ite_none_right_eq_some, Option.some.injEq] at hs
    obtain ⟨hcoro, rfl⟩ := hs
    have hc : ((s.swappedIn c').reattach c').currentCoro = some c := hc
    right
    rcases reattach_cases (hi.suspended c' fun heq => Option.some_ne_none c' (heq.symm.trans hcoro)) with
      ⟨-, -, -, heq⟩ | ⟨h, b, -, -, -, -, heq⟩
    · rw [heq] at hc
      rw [Option.some_inj.mp hc]
    · rw [heq] at hc
      rw [Option.some_inj.mp hc]
  | yield fuel =>
    cases hcoro : s.currentCoro with
    | none =>
      simp only [step, hcoro] at hs
      exact absurd hs (Option.some_ne_none s').symm
    | some c' =>
      simp only [step, hcoro] at hs
      obtain ⟨_, -, rfl⟩ := Option.map_eq_some_iff.mp hs
      exact absurd hc (Option.some_ne_none c).symm
  | exit =>
    cases hcoro : s.currentCoro with
    | none =>
      simp only [step, hcoro] at hs
      exact absurd hs (Option.some_ne_none s').symm
    | some c' =>
      simp only [step, hcoro] at hs
      obtain rfl := Option.some.inj hs
      exact absurd hc (Option.some_ne_none c).symm

theorem Suspended.exists_saved (h : Suspended s c) :
    ∃ l, SList s.cdr (s.savedHead c) l ∧ ∀ x ∈ l, s.owner x = some (some c) := by
  rcases h with ⟨-, hh, -⟩ | ⟨x, b, hh, -, hx, hroot, hnil⟩
  · exact ⟨[], hh, fun _ hx => absurd hx List.not_mem_nil⟩
  · obtain ⟨l, hl⟩ := hroot.branch x hx
    have hlist : SList s.cdr _ (l ++ []) := hl.append hnil
    rw [List.append_nil] at hlist
    exact ⟨l, hh ▸ hlist, hl.2.1⟩

theorem saved_run {as : List Action} {P : List ℕ} (hi : Inv s) (hc : s.currentCoro ≠ some c)
    (hP : SList s.cdr (s.savedHead c) P) (h : Run step (fun _ a => a ≠ .swapIn c) s as s') :
    Inv s' ∧ s'.currentCoro ≠ some c ∧ SList s'.cdr (s'.savedHead c) P := by
  refine h.invariant (I := fun s => Inv s ∧ s.currentCoro ≠ some c ∧ SList s.cdr (s.savedHead c) P)
    ⟨hi, hc, hP⟩ fun t a u ⟨hi, hc, hP⟩ hok hs => ?_
  have hactor : some c ≠ actor t a := by
    cases a with
    | swapIn c' => exact fun heq => hok (congrArg Action.swapIn (Option.some_inj.mp heq).symm)
    | push _ | rebind _ | unwind | yield _ | exit => exact fun heq => hc heq.symm
  have honly := only_step hi hs
  refine ⟨inv_step hi hs, fun heq => ?_, ?_⟩
  · exact (currentCoro_of_step hi hs heq).elim hc hok
  · obtain ⟨l, hl, howner⟩ := (hi.suspended c hc).exists_saved
    obtain rfl := hP.unique hl
    rw [(honly.saved c hactor).1]
    exact hP.congr fun x hx => honly.cdr x _ hactor (howner x hx)

theorem Inv.exists_outer (hi : Inv s) :
    ∃ l, SList s.cdr (Handlers.outer s) l ∧ ∀ x ∈ l, s.owner x = some none := by
  cases ho : Handlers.outer s with
  | none => exact ⟨[], rfl, fun _ hx => absurd hx List.not_mem_nil⟩
  | some x => exact hi.main x (hi.outer x ho)

theorem Inv.exists_onTop (hi : Inv s) (hc : s.currentCoro = some c) :
    ∃ P, (∀ x ∈ P, s.owner x = some (some c)) ∧
      (∀ O, SList s.cdr s.schedConditionHandlers O → SList s.cdr s.conditionHandlers (P ++ O)) ∧
      (∃ n, ∀ fuel, n ≤ fuel → (step s (.yield fuel)).isSome) ∧
      ∀ fuel s₁, step s (.yield fuel) = some s₁ →
        s₁.conditionHandlers = s.schedConditionHandlers ∧ SList s₁.cdr (s₁.savedHead c) P := by
  have hsched : ∀ x, s.schedConditionHandlers = some x → s.owner x ≠ some (some c) := fun x hx => by
    rw [hi.schedConditionHandlers_owner hc x hx]
    exact fun heq => Option.some_ne_none c (Option.some_inj.mp heq).symm
  have hstep : ∀ fuel, step s (.yield fuel) = (s.detach fuel c).map ({ · with currentCoro := none }) :=
    fun fuel => by simp only [step, hc]
  obtain ⟨-, -, ⟨-, hsame⟩ | ⟨h, b, hh, howner, hroot, hb⟩⟩ := hi.running c hc
  · have hdetach : ∀ fuel, s.detach fuel c = some (s.detached c) := detach_of_noneOwned hsame
    refine ⟨[], fun _ hx => absurd hx List.not_mem_nil, fun O hO => hsame ▸ hO, ⟨0, fun fuel _ => ?_⟩,
      fun fuel s₁ hs₁ => ?_⟩
    · rw [hstep, hdetach]
      rfl
    · rw [hstep, hdetach] at hs₁
      obtain rfl := Option.some.inj hs₁
      exact ⟨rfl, Function.update_self _ _ _⟩
  · obtain ⟨l, hl⟩ := hroot.branch h howner
    have hdetach := detach_of_branch hh howner hl hb hsched
    refine ⟨l, hl.2.1, fun O hO => hh ▸ hl.append (hb ▸ hO), ⟨l.length, fun fuel hfuel => ?_⟩,
      fun fuel s₁ hs₁ => ?_⟩
    · rw [hstep, hdetach, if_pos hfuel]
      rfl
    · rw [hstep, hdetach] at hs₁
      split at hs₁
      case isTrue =>
        obtain rfl := Option.some.inj hs₁
        refine ⟨rfl, ?_⟩
        show SList (Function.update s.cdr b none) (Function.update s.savedHead c (some h) c) l
        rw [Function.update_self]
        exact hl.1
      case isFalse => exact absurd hs₁ (Option.some_ne_none s₁).symm

theorem Inv.onTop_swapIn (hi : Inv s) {P O : List ℕ} (hP : SList s.cdr (s.savedHead c) P)
    (hO : SList s.cdr s.conditionHandlers O) (howner : ∀ x ∈ O, s.owner x = some none)
    (hs : step s (.swapIn c) = some s') :
    s'.schedConditionHandlers = s.conditionHandlers ∧ SList s'.cdr s'.schedConditionHandlers O ∧
      SList s'.cdr s'.conditionHandlers (P ++ O) := by
  have hcdr := only_step hi hs
  simp only [step, Option.ite_none_right_eq_some, Option.some.injEq] at hs
  obtain ⟨hcoro, hs⟩ := hs
  have hs : (s.swappedIn c).reattach c = s' := hs
  have hO' : SList s'.cdr s.conditionHandlers O :=
    hO.congr fun x hx => hcdr.cdr x none (Option.some_ne_none c).symm (howner x hx)
  rcases reattach_cases (hi.suspended c fun heq => Option.some_ne_none c (heq.symm.trans hcoro)) with
    ⟨-, hh, -, heq⟩ | ⟨h, b, hh, hown, hroot, hnil, heq⟩
  · obtain rfl := heq.symm.trans hs
    rw [hh] at hP
    obtain rfl : P = [] := hP.unique rfl
    exact ⟨rfl, hO', hO'⟩
  · obtain rfl := heq.symm.trans hs
    refine ⟨rfl, hO', ?_⟩
    obtain ⟨l, hl⟩ := hroot.branch h hown
    have hlist : SList s.cdr _ (l ++ []) := hl.append hnil
    rw [List.append_nil, ← hh] at hlist
    obtain rfl := hP.unique hlist
    have hl' : Branch (s.swappedInAt c h b) c b (some h) P :=
      hl.congr (fun _ _ => rfl) fun y _ hyb => Function.update_of_ne hyb _ _
    refine hl'.append ?_
    rw [show (s.swappedInAt c h b).cdr b = s.conditionHandlers from Function.update_self _ _ _]
    exact hO'

/-- A coroutine's handlers `P` are on top of the outer chain. Yielding leaves the outer chain, `P`
alone is saved, and switching back puts `P` on top again. -/
theorem handlers_respliced {cdr : ℕ → Option ℕ} {as : List Action}
    (h : Run step anyStep (init cdr) as s) (hc : s.currentCoro = some c) :
    ∃ P O₁, SList s.cdr s.conditionHandlers (P ++ O₁) ∧ SList s.cdr s.schedConditionHandlers O₁ ∧
      (∀ x ∈ P, s.owner x = some (some c)) ∧ (∀ x ∈ O₁, s.owner x = some none) ∧
      (∃ n, ∀ fuel, n ≤ fuel → (step s (.yield fuel)).isSome) ∧
      ∀ fuel s₁, step s (.yield fuel) = some s₁ →
        s₁.conditionHandlers = s.schedConditionHandlers ∧ SList s₁.cdr s₁.conditionHandlers O₁ ∧
        ∀ bs s₂, Run step (fun _ a => a ≠ .swapIn c) s₁ bs s₂ →
          SList s₂.cdr (s₂.savedHead c) P ∧
          ∀ s₃, step s₂ (.swapIn c) = some s₃ →
            ∃ O₂, SList s₂.cdr s₂.conditionHandlers O₂ ∧
              s₃.schedConditionHandlers = s₂.conditionHandlers ∧
              SList s₃.cdr s₃.schedConditionHandlers O₂ ∧
              SList s₃.cdr s₃.conditionHandlers (P ++ O₂) := by
  have hi := inv_run h
  obtain ⟨P, howner, hP, hyields, hyield⟩ := hi.exists_onTop hc
  obtain ⟨O₁, hO₁, howner₁⟩ := hi.exists_outer
  have hsched : Handlers.outer s = s.schedConditionHandlers := by
    rw [outer, hc, if_neg (Option.some_ne_none c)]
  rw [hsched] at hO₁
  refine ⟨P, O₁, hP O₁ hO₁, hO₁, howner, howner₁, hyields, fun fuel s₁ hs₁ => ?_⟩
  obtain ⟨hhandlers, hsaved⟩ := hyield fuel s₁ hs₁
  have honly := only_step hi hs₁
  have hne : s₁.currentCoro ≠ some c := by
    simp only [step, hc] at hs₁
    obtain ⟨_, -, rfl⟩ := Option.map_eq_some_iff.mp hs₁
    exact (Option.some_ne_none c).symm
  refine ⟨hhandlers, ?_, fun bs s₂ h₂ => ?_⟩
  · rw [hhandlers]
    exact hO₁.congr fun x hx => honly.cdr x none
      (fun heq => Option.some_ne_none c (heq.trans hc).symm) (howner₁ x hx)
  · obtain ⟨hi₂, hne₂, hP₂⟩ := saved_run (inv_step hi hs₁) hne hsaved h₂
    refine ⟨hP₂, fun s₃ hs₃ => ?_⟩
    obtain ⟨O₂, hO₂, howner₂⟩ := hi₂.exists_outer
    have hcoro : s₂.currentCoro = none := by
      simp only [step, Option.ite_none_right_eq_some] at hs₃
      exact hs₃.1
    rw [Handlers.outer, if_pos hcoro] at hO₂
    obtain ⟨hsched₃, hO₃, hP₃⟩ := hi₂.onTop_swapIn hP₂ hO₂ howner₂ hs₃
    exact ⟨O₂, hO₂, hsched₃, hO₃, hP₃⟩

theorem handlers_respliced_two :
    ∃ s, Run step anyStep (init fun _ => none) [.push 0, .swapIn 7, .push 1, .push 2] s ∧
      ∃ P O₁, SList s.cdr s.conditionHandlers (P ++ O₁) ∧ SList s.cdr s.schedConditionHandlers O₁ := by
  have hexec : (exec step (init fun _ => none) [.push 0, .swapIn 7, .push 1, .push 2]).any
      (fun s => decide (s.currentCoro = some 7)) = true := by decide
  obtain ⟨s, hs, hc⟩ := exists_run_of_exec hexec
  obtain ⟨P, O₁, hP, hO₁, -⟩ := handlers_respliced hs hc
  exact ⟨s, hs, P, O₁, hP, hO₁⟩

end

end XEmacs.Async.Handlers
