import XEmacs.Async.Steps
import XEmacs.Lib.HeapList
import Mathlib.Data.List.Perm.Subperm

/-! The two lists of coroutines. Spawning, exiting and a join of a dead target change them; every
other step leaves the links, and who is dead, alone. The walk of phase 2 keeps its place under all
of these. -/

namespace XEmacs.Async

open Lib

/-- What the lists are made of: for each coroutine its links and whether it is dead. -/
structure Links where
  node : CoroId → Option (Option CoroId × Option CoroId × Bool)
  allCoros : Option CoroId
  deadCoros : Option CoroId
  coroCount : ℤ

def Coro.node (k : Coro) : Option CoroId × Option CoroId × Bool := (k.next, k.prev, k.state = .dead)

namespace State

variable {s s' u : State} {a : Action} {c t x : CoroId} {k : Coro} {n : Option CoroId}

def links (s : State) : Links := ⟨fun c => (s.heap c).map Coro.node, s.allCoros, s.deadCoros, s.coroCount⟩

theorem nextOf_eq_links (s : State) (c : CoroId) : s.nextOf c = (s.links.node c).bind (·.1) := by
  simp only [links, nextOf]
  cases s.heap c <;> rfl

theorem prevOf_eq_links (s : State) (c : CoroId) : s.prevOf c = (s.links.node c).bind (·.2.1) := by
  simp only [links, prevOf]
  cases s.heap c <;> rfl

/-- Whether a coroutine is dead, none if there is no such coroutine. -/
def dead? (s : State) (c : CoroId) : Option Bool := (s.heap c).map (·.state = .dead)

theorem dead?_eq_links (s : State) (c : CoroId) : s.dead? c = (s.links.node c).map (·.2.2) := by
  simp only [links, dead?]
  cases s.heap c <;> rfl

/-- `all` and `dead` are the coroutines in the two lists. -/
structure Threads (s : State) (all dead : List CoroId) : Prop where
  allLinked : DList s.nextOf s.prevOf s.allCoros all
  deadLinked : SList s.nextOf s.deadCoros dead
  nodup : (all ++ dead).Nodup
  mem_all : ∀ c, c ∈ all ↔ s.dead? c = some false
  mem_dead : ∀ c, c ∈ dead ↔ s.dead? c = some true
  count : s.coroCount = all.length

theorem Threads.congr {all dead : List CoroId} (h : s.Threads all dead) (hlinks : s'.links = s.links) :
    s'.Threads all dead where
  allLinked := by
    have hall : s'.allCoros = s.allCoros := congrArg Links.allCoros hlinks
    rw [hall]
    exact h.allLinked.congr (fun c _ => by rw [nextOf_eq_links, nextOf_eq_links, hlinks])
      fun c _ => by rw [prevOf_eq_links, prevOf_eq_links, hlinks]
  deadLinked := by
    have hdead : s'.deadCoros = s.deadCoros := congrArg Links.deadCoros hlinks
    rw [hdead]
    exact h.deadLinked.congr fun c _ => by rw [nextOf_eq_links, nextOf_eq_links, hlinks]
  nodup := h.nodup
  mem_all c := by rw [h.mem_all, dead?_eq_links, dead?_eq_links, hlinks]
  mem_dead c := by rw [h.mem_dead, dead?_eq_links, dead?_eq_links, hlinks]
  count := (congrArg Links.coroCount hlinks).trans h.count

theorem links_modify {f : Coro → Coro} (hf : ∀ k, s.heap c = some k → (f k).node = k.node) :
    (s.modify c f).links = s.links := by
  simp only [links, modify, Links.mk.injEq, and_true]
  funext x
  by_cases hx : x = c
  · subst hx
    cases hk : s.heap x with
    | none => simp
    | some k => simp [hf k hk]
  · simp [hx]

theorem links_emit (s : State) (e : Event) : (s.emit e).links = s.links := rfl

theorem links_coroResume (hk : s.heap c = some k) (hd : k.state ≠ .dead) (result : LispObject) :
    (s.coroResume c result).links = s.links := by
  rw [coroResume, links_emit, links_modify]
  intro k' hk'
  obtain rfl := Option.some.inj (hk.symm.trans hk')
  simp [Coro.node, hd]

theorem links_coroResumeWithError (hk : s.heap c = some k) (hd : k.state ≠ .dead) (error : LispObject) :
    (s.coroResumeWithError c error).links = s.links := by
  rw [coroResumeWithError, links_emit, links_modify]
  intro k' hk'
  obtain rfl := Option.some.inj (hk.symm.trans hk')
  simp [Coro.node, hd]

theorem links_coroYield (hk : s.heap c = some k) (hd : k.state ≠ .dead) (reason : WaitReason)
    (frame : Frame) : (s.coroYield c n reason frame).links = s.links := by
  have hlinks : (s.modify c
      ({ · with state := .suspended, waitReason := reason, frame := frame })).links = s.links := by
    refine links_modify fun k' hk' => ?_
    obtain rfl := Option.some.inj (hk.symm.trans hk')
    simp [Coro.node, hd]
  exact hlinks

theorem links_actorSendInternal {msg : LispObject} (hs : s.actorSendInternal t msg = some s') :
    s'.links = s.links := by
  obtain ⟨k, hk, rfl⟩ := Option.map_eq_some_iff.mp hs
  have hsent : ((s.modify t ({ · with mailbox := k.mailbox ++ [msg] })).emit (.sent t msg)).links = s.links :=
    links_modify fun _ _ => rfl
  by_cases hw : k.state = .suspended ∧ k.waitReason = .mailbox
  · simp only [hw, and_self, if_true]
    rw [links_coroResume (k := { k with mailbox := k.mailbox ++ [msg] }) (by simp [emit, modify, hk])
      (by simp [hw.1]), hsent]
  · simp only [hw, if_false]
    exact hsent

theorem links_notifyMonitors {msg : LispObject} {ws : List CoroId} (hs : notifyMonitors msg ws s = some s') :
    s'.links = s.links := by
  induction ws generalizing s with
  | nil =>
    simp only [notifyMonitors, Option.some.injEq] at hs
    rw [hs]
  | cons w ws ih =>
    obtain ⟨k, hk, hs⟩ := Option.bind_eq_some_iff.mp hs
    split at hs
    · obtain ⟨u, hu, hs⟩ := Option.bind_eq_some_iff.mp hs
      rw [ih hs, links_actorSendInternal hu]
    · exact ih hs

section Writes

variable (s : State) (c x : CoroId) (p : Option CoroId)

@[simp] theorem dead?_setNext : (s.setNext c p).dead? x = s.dead? x := by
  simp only [dead?, setNext, modify]
  by_cases hx : x = c
  · subst hx
    cases s.heap x <;> simp
  · simp [hx]

@[simp] theorem dead?_setPrev : (s.setPrev c p).dead? x = s.dead? x := by
  simp only [dead?, setPrev, modify]
  by_cases hx : x = c
  · subst hx
    cases s.heap x <;> simp
  · simp [hx]

theorem nextOf_setNext_self {b : Bool} (hc : s.dead? c = some b) : (s.setNext c p).nextOf c = p := by
  obtain ⟨k, hk, -⟩ := Option.map_eq_some_iff.mp hc
  simp [nextOf, setNext, modify, hk]

theorem nextOf_setNext_of_ne {x c : CoroId} (hx : x ≠ c) : (s.setNext c p).nextOf x = s.nextOf x := by
  simp [nextOf, setNext, modify, hx]

@[simp] theorem prevOf_setNext : (s.setNext c p).prevOf x = s.prevOf x := by
  simp only [prevOf, setNext, modify]
  by_cases hx : x = c
  · subst hx
    cases s.heap x <;> simp
  · simp [hx]

theorem prevOf_setPrev_self {b : Bool} (hc : s.dead? c = some b) : (s.setPrev c p).prevOf c = p := by
  obtain ⟨k, hk, -⟩ := Option.map_eq_some_iff.mp hc
  simp [prevOf, setPrev, modify, hk]

theorem prevOf_setPrev_of_ne {x c : CoroId} (hx : x ≠ c) : (s.setPrev c p).prevOf x = s.prevOf x := by
  simp [prevOf, setPrev, modify, hx]

@[simp] theorem nextOf_setPrev : (s.setPrev c p).nextOf x = s.nextOf x := by
  simp only [nextOf, setPrev, modify]
  by_cases hx : x = c
  · subst hx
    cases s.heap x <;> simp
  · simp [hx]

end Writes

section Add

variable (s : State) (c x : CoroId)

theorem dead?_coroListAdd : (s.coroListAdd c).dead? x = s.dead? x := by
  have hset : ((s.setNext c s.allCoros).setPrev c none).dead? x = s.dead? x := by simp
  rw [← hset]
  unfold State.coroListAdd
  cases s.allCoros with
  | none => rfl
  | some a => exact dead?_setPrev _ a x (some c)

theorem nextOf_coroListAdd :
    (s.coroListAdd c).nextOf x = (s.setNext c s.allCoros).nextOf x := by
  have hset : ((s.setNext c s.allCoros).setPrev c none).nextOf x = (s.setNext c s.allCoros).nextOf x := by simp
  rw [← hset]
  unfold State.coroListAdd
  cases s.allCoros with
  | none => rfl
  | some a => exact nextOf_setPrev _ a x (some c)

theorem prevOf_coroListAdd (hx : s.allCoros ≠ some x) :
    (s.coroListAdd c).prevOf x = (s.setPrev c none).prevOf x := by
  have hset : ((s.setNext c s.allCoros).setPrev c none).prevOf x = (s.setPrev c none).prevOf x := by
    by_cases hxc : x = c
    · subst hxc
      cases hk : s.heap x <;> simp [prevOf, setPrev, setNext, modify, hk]
    · simp [prevOf_setPrev_of_ne _ _ hxc]
  rw [← hset]
  unfold State.coroListAdd
  cases ha : s.allCoros with
  | none => rfl
  | some a => exact prevOf_setPrev_of_ne _ _ (fun h => hx (by rw [ha, h]))

theorem prevOf_coroListAdd_first {b : Bool} (ha : s.allCoros = some x) (hx : s.dead? x = some b) :
    (s.coroListAdd c).prevOf x = some c := by
  unfold State.coroListAdd
  simp only [ha]
  exact prevOf_setPrev_self _ x _ (b := b) (by simpa using hx)

end Add

theorem Threads.add {all dead : List CoroId} (hall : DList s.nextOf s.prevOf s.allCoros all)
    (hdead : SList s.nextOf s.deadCoros dead) (hnodup : (c :: all ++ dead).Nodup)
    (hmem : ∀ x, x ∈ c :: all ↔ s.dead? x = some false) (hmemd : ∀ x, x ∈ dead ↔ s.dead? x = some true)
    (hcount : s.coroCount = all.length) : (s.coroListAdd c).Threads (c :: all) dead := by
  have hc : s.dead? c = some false := (hmem c).mp List.mem_cons_self
  obtain ⟨hcnot, hnodup'⟩ := List.nodup_cons.mp hnodup
  have hne : ∀ x ∈ all ++ dead, x ≠ c := fun x hx heq => hcnot (heq ▸ hx)
  have hfirst := hall.forward.head?_eq
  have hnext : ∀ x, x ≠ c → (s.coroListAdd c).nextOf x = s.nextOf x := fun x hx => by
    rw [nextOf_coroListAdd, nextOf_setNext_of_ne s _ hx]
  have hstart : (s.coroListAdd c).allCoros = some c := rfl
  refine ⟨?_, ?_, hnodup, fun x => by rw [hmem, dead?_coroListAdd], fun x => by
    rw [hmemd, dead?_coroListAdd], ?_⟩
  · rw [hstart]
    refine hall.cons (List.nodup_append.mp hnodup').1 ?_ ?_ ?_ ?_ ?_
    · rw [nextOf_coroListAdd, nextOf_setNext_self s c _ hc]
    · rw [prevOf_coroListAdd, prevOf_setPrev_self s c _ hc]
      intro ha
      rw [hfirst] at ha
      exact hne c (List.mem_append_left _ (List.mem_of_mem_head? ha)) rfl
    · intro y hy
      refine prevOf_coroListAdd_first s c y hy (b := false) ((hmem y).mp (List.mem_cons_of_mem _ ?_))
      rw [hfirst] at hy
      exact List.mem_of_mem_head? hy
    · exact fun y hy => hnext y (hne y (List.mem_append_left _ hy))
    · intro y hy ha
      rw [prevOf_coroListAdd _ _ _ ha, prevOf_setPrev_of_ne _ _ (hne y (List.mem_append_left _ hy))]
  · have hdeadc : (s.coroListAdd c).deadCoros = s.deadCoros := by
      unfold State.coroListAdd
      cases s.allCoros <;> rfl
    rw [hdeadc]
    exact hdead.congr fun x hx => hnext x (hne x (List.mem_append_right _ hx))
  · have hcountc : (s.coroListAdd c).coroCount = s.coroCount + 1 := by
      unfold State.coroListAdd
      cases s.allCoros <;> rfl
    rw [hcountc, hcount]
    rfl

theorem Threads.coroSpawn {all dead : List CoroId} (h : s.Threads all dead)
    (hfresh : s.heap s.allocated = none) (fn arg : LispObject) (isActor : Bool) :
    (s.coroSpawn fn arg isActor).Threads (s.allocated :: all) dead := by
  have hne : ∀ x b, s.dead? x = some b → x ≠ s.allocated := by
    rintro x b hx rfl
    simp [dead?, hfresh] at hx
  have hnot : s.allocated ∉ all ++ dead := by
    intro hmem
    rcases List.mem_append.mp hmem with hmem | hmem
    · exact hne _ _ ((h.mem_all _).mp hmem) rfl
    · exact hne _ _ ((h.mem_dead _).mp hmem) rfl
  set r : State := { s with
    heap := fun x => if x = s.allocated then some (.new fn arg isActor) else s.heap x
    allocated := s.allocated + 1 } with hr
  have hheap : ∀ x, x ≠ s.allocated → r.heap x = s.heap x := fun x hx => if_neg hx
  have hold : ∀ x ∈ all ++ dead, x ≠ s.allocated := fun x hx heq => hnot (heq ▸ hx)
  have hnext : ∀ x, x ≠ s.allocated → r.nextOf x = s.nextOf x := fun x hx =>
    congrArg (·.bind (·.next)) (hheap x hx)
  have hprev : ∀ x, x ≠ s.allocated → r.prevOf x = s.prevOf x := fun x hx =>
    congrArg (·.bind (·.prev)) (hheap x hx)
  have hdead? : ∀ x, r.dead? x = if x = s.allocated then some false else s.dead? x := by
    intro x
    by_cases hx : x = s.allocated
    · subst hx
      simp [dead?, hr, Coro.new]
    · simp [dead?, hheap x hx, hx]
  refine Threads.add ?_ ?_ (List.nodup_cons.mpr ⟨hnot, h.nodup⟩) ?_ ?_ h.count
  · exact h.allLinked.congr (fun x hx => hnext x (hold x (List.mem_append_left _ hx)))
      fun x hx => hprev x (hold x (List.mem_append_left _ hx))
  · exact h.deadLinked.congr fun x hx => hnext x (hold x (List.mem_append_right _ hx))
  · intro x
    refine Iff.trans ?_ (Eq.congr_left (hdead? x).symm)
    rw [List.mem_cons, h.mem_all]
    by_cases hx : x = s.allocated <;> simp [hx]
  · intro x
    refine Iff.trans ?_ (Eq.congr_left (hdead? x).symm)
    rw [h.mem_dead]
    by_cases hx : x = s.allocated
    · subst hx; simp [dead?, hfresh]
    · simp [hx]

/-! ### Exiting -/

section Remove

variable (s : State) (c x : CoroId)

theorem dead?_coroListRemove : (s.coroListRemove c).dead? x = s.dead? x := by
  unfold coroListRemove
  cases s.prevOf c with
  | none =>
    cases s.nextOf c with
    | none => rfl
    | some n => exact dead?_setPrev _ n x none
  | some p =>
    cases s.nextOf c with
    | none => exact dead?_setNext _ p x none
    | some n => exact (dead?_setPrev _ n x (some p)).trans (dead?_setNext _ p x (some n))

theorem nextOf_coroListRemove_of_ne (hx : s.prevOf c ≠ some x) :
    (s.coroListRemove c).nextOf x = s.nextOf x := by
  unfold coroListRemove
  cases hp : s.prevOf c with
  | none =>
    cases s.nextOf c with
    | none => rfl
    | some n => exact nextOf_setPrev _ n x none
  | some p =>
    have hne : x ≠ p := fun heq => hx (by rw [hp, heq])
    cases s.nextOf c with
    | none => exact nextOf_setNext_of_ne s none hne
    | some n => exact (nextOf_setPrev _ n x (some p)).trans (nextOf_setNext_of_ne s (some n) hne)

theorem nextOf_coroListRemove {b : Bool} (hx : s.prevOf c = some x) (hb : s.dead? x = some b) :
    (s.coroListRemove c).nextOf x = s.nextOf c := by
  unfold coroListRemove
  simp only [hx]
  cases s.nextOf c with
  | none => exact nextOf_setNext_self s x none hb
  | some n => exact (nextOf_setPrev _ n x (some x)).trans (nextOf_setNext_self s x (some n) hb)

theorem prevOf_coroListRemove_of_ne (hx : s.nextOf c ≠ some x) :
    (s.coroListRemove c).prevOf x = s.prevOf x := by
  unfold coroListRemove
  cases s.prevOf c with
  | none =>
    cases hn : s.nextOf c with
    | none => rfl
    | some n => exact prevOf_setPrev_of_ne _ none fun heq => hx (by rw [hn, heq])
  | some p =>
    cases hn : s.nextOf c with
    | none => exact prevOf_setNext s p x none
    | some n =>
      have hne : x ≠ n := fun heq => hx (by rw [hn, heq])
      exact (prevOf_setPrev_of_ne _ (some p) hne).trans (prevOf_setNext s p x (some n))

theorem prevOf_coroListRemove {b : Bool} (hx : s.nextOf c = some x) (hb : s.dead? x = some b) :
    (s.coroListRemove c).prevOf x = s.prevOf c := by
  unfold coroListRemove
  simp only [hx]
  cases s.prevOf c with
  | none => exact prevOf_setPrev_self _ x none (b := b) hb
  | some p => exact prevOf_setPrev_self _ x (some p) (b := b) (by simpa using hb)

theorem allCoros_coroListRemove :
    (s.coroListRemove c).allCoros = if s.prevOf c = none then s.nextOf c else s.allCoros := by
  unfold coroListRemove
  cases s.prevOf c <;> cases s.nextOf c <;> rfl

theorem deadCoros_coroListRemove : (s.coroListRemove c).deadCoros = s.deadCoros := by
  unfold coroListRemove
  cases s.prevOf c <;> cases s.nextOf c <;> rfl

theorem coroCount_coroListRemove : (s.coroListRemove c).coroCount = s.coroCount - 1 := by
  unfold coroListRemove
  cases s.prevOf c <;> cases s.nextOf c <;> rfl

end Remove

/-- The end of `coro_trampoline`: from the list of all coroutines to the graveyard. -/
def bury (s : State) (c : CoroId) : State :=
  let s := s.coroListRemove c
  { s.setNext c s.deadCoros with deadCoros := some c }

theorem Threads.bury {all₁ all₂ dead : List CoroId} (hall : DList s.nextOf s.prevOf s.allCoros (all₁ ++ c :: all₂))
    (hdead : SList s.nextOf s.deadCoros dead) (hnodup : (all₁ ++ c :: all₂ ++ dead).Nodup)
    (hmem : ∀ x, x ∈ all₁ ++ all₂ ↔ s.dead? x = some false)
    (hmemd : ∀ x, x ∈ c :: dead ↔ s.dead? x = some true)
    (hcount : s.coroCount = (all₁ ++ c :: all₂).length) :
    (s.bury c).Threads (all₁ ++ all₂) (c :: dead) := by
  have hc : s.dead? c = some true := (hmemd c).mp List.mem_cons_self
  obtain ⟨hnodup₁, hnodup₂, hdisj⟩ := List.nodup_append.mp hnodup
  have hmoved : (all₁ ++ all₂ ++ c :: dead).Nodup := by
    refine (List.Perm.nodup_iff ?_).mp hnodup
    rw [List.append_assoc, List.append_assoc]
    exact List.Perm.append_left _ List.perm_middle.symm
  have hne : ∀ x ∈ all₁ ++ all₂, x ≠ c := by
    rintro x hx rfl
    exact (List.nodup_append.mp hmoved).2.2 x hx x List.mem_cons_self rfl
  have hned : ∀ x ∈ dead, x ≠ c := by
    rintro x hx rfl
    exact (List.nodup_cons.mp (List.nodup_append.mp hmoved).2.1).1 hx
  have hprevc := hall.prev_eq
  have hnextc := hall.next_eq
  have hprevmem : ∀ y, s.prevOf c = some y → y ∈ all₁ ++ all₂ := fun y hy =>
    List.mem_append_left _ (List.mem_of_getLast? (hprevc.symm.trans hy))
  have hnextmem : ∀ y, s.nextOf c = some y → y ∈ all₁ ++ all₂ := fun y hy =>
    List.mem_append_right _ (List.mem_of_mem_head? (hnextc.symm.trans hy))
  have hnext : ∀ x, x ≠ c → (s.bury c).nextOf x = (s.coroListRemove c).nextOf x := fun x hx =>
    nextOf_setNext_of_ne (s.coroListRemove c) _ hx
  have hprev : ∀ x, (s.bury c).prevOf x = (s.coroListRemove c).prevOf x := fun x =>
    prevOf_setNext (s.coroListRemove c) c x _
  have hdead? : ∀ x, (s.bury c).dead? x = s.dead? x := fun x =>
    (dead?_setNext (s.coroListRemove c) c x _).trans (dead?_coroListRemove s c x)
  refine ⟨?_, ?_, hmoved, fun x => by rw [hmem, hdead?], fun x => by rw [hmemd, hdead?], ?_⟩
  · have hstart : (s.bury c).allCoros = if s.prevOf c = none then s.nextOf c else s.allCoros :=
      allCoros_coroListRemove s c
    rw [hstart]
    refine hall.remove hnodup₁ ?_ ?_ ?_ ?_
    · intro y hy
      rw [hnext y (hne y (hprevmem y hy))]
      exact nextOf_coroListRemove s c y hy ((hmem y).mp (hprevmem y hy))
    · intro y hy
      rw [hprev y]
      exact prevOf_coroListRemove s c y hy ((hmem y).mp (hnextmem y hy))
    · intro y hy hyp
      rw [hnext y (hne y hy)]
      exact nextOf_coroListRemove_of_ne s c y hyp
    · intro y hy hyn
      rw [hprev y]
      exact prevOf_coroListRemove_of_ne s c y hyn
  · refine SList.cons (hdead.congr fun x hx => ?_) ?_
    · rw [hnext x (hned x hx)]
      refine nextOf_coroListRemove_of_ne s c x fun hp => ?_
      exact (List.nodup_append.mp hmoved).2.2 x (hprevmem x hp) x (List.mem_cons_of_mem _ hx) rfl
    · have hself := nextOf_setNext_self (s.coroListRemove c) c (s.coroListRemove c).deadCoros
        ((dead?_coroListRemove s c c).trans hc)
      exact hself.trans (deadCoros_coroListRemove s c)
  · have hcountb : (s.bury c).coroCount = s.coroCount - 1 := coroCount_coroListRemove s c
    rw [hcountb, hcount]
    simp only [List.length_append, List.length_cons]
    omega

theorem graveyardLoop_eq {q y : CoroId} {l₁ l₂ : List CoroId} {fuel : ℕ}
    (h : SList s.nextOf (some q) (q :: l₁ ++ t :: l₂)) (hnot : t ∉ q :: l₁)
    (hy : (q :: l₁).getLast? = some y) (hfuel : l₁.length < fuel) :
    s.graveyardLoop t fuel q = s.setNext y (s.nextOf t) := by
  induction l₁ generalizing q fuel with
  | nil =>
    cases fuel with
    | zero => simp at hfuel
    | succ fuel =>
      have hq : s.nextOf q = some t := h.2.1
      obtain rfl : q = y := by simpa using hy
      rw [graveyardLoop, hq]
      simp
  | cons d l₁ ih =>
    cases fuel with
    | zero => simp at hfuel
    | succ fuel =>
      have hq : s.nextOf q = some d := h.2.1
      have hne : d ≠ t := fun heq => hnot (by simp [heq])
      rw [graveyardLoop, hq]
      simp only [hne, if_false]
      have hrest := h.2
      rw [hq] at hrest
      refine ih hrest (fun hmem => hnot (List.mem_cons_of_mem q hmem)) ?_ (by simpa using hfuel)
      rwa [List.getLast?_cons_cons] at hy

theorem coroGraveyardRemove_dead {l₁ l₂ : List CoroId} (h : SList s.nextOf s.deadCoros (l₁ ++ t :: l₂))
    (hnodup : (l₁ ++ t :: l₂).Nodup) (hfuel : l₁.length ≤ s.allocated)
    (hheap : ∀ x ∈ l₁, s.dead? x = some true) :
    SList (s.coroGraveyardRemove t).nextOf (s.coroGraveyardRemove t).deadCoros (l₁ ++ l₂) ∧
      (∀ x, x ∉ l₁ → (s.coroGraveyardRemove t).nextOf x = s.nextOf x) ∧
      (s.coroGraveyardRemove t).prevOf = s.prevOf ∧
      (s.coroGraveyardRemove t).dead? = s.dead? ∧
      (s.coroGraveyardRemove t).allCoros = s.allCoros ∧
      (s.coroGraveyardRemove t).coroCount = s.coroCount := by
  cases l₁ with
  | nil =>
    have hrem : s.coroGraveyardRemove t = { s with deadCoros := s.nextOf t } := by
      rw [coroGraveyardRemove, h.1]
      simp
    rw [hrem]
    exact ⟨h.2, fun _ _ => rfl, rfl, rfl, rfl, rfl⟩
  | cons q l₁ =>
    have hd : s.deadCoros = some q := h.1
    have hnot : t ∉ q :: l₁ := fun hmem =>
      (List.nodup_append.mp hnodup).2.2 t hmem t List.mem_cons_self rfl
    have hne : q ≠ t := fun heq => hnot (by simp [heq])
    obtain ⟨y, hy⟩ : ∃ y, (q :: l₁).getLast? = some y := ⟨_, List.getLast?_eq_some_getLast (by simp)⟩
    have hrem : s.coroGraveyardRemove t = s.setNext y (s.nextOf t) := by
      rw [coroGraveyardRemove, hd]
      simp only [hne, if_false]
      exact graveyardLoop_eq (hd ▸ h) hnot hy (Nat.lt_of_succ_le hfuel)
    have hmemy := List.mem_of_getLast? hy
    rw [hrem]
    refine ⟨?_, fun x hx => ?_, ?_, ?_, rfl, rfl⟩
    · have hstart : (s.setNext y (s.nextOf t)).deadCoros = (q :: l₁ ++ l₂).head? := hd
      rw [hstart]
      refine h.remove hnodup (fun z hz => ?_) fun z hz hlast => ?_
      · obtain rfl : y = z := Option.some.inj (hy.symm.trans hz)
        exact nextOf_setNext_self s y _ (hheap y hmemy)
      · exact nextOf_setNext_of_ne s _ fun heq => hlast (heq ▸ hy)
    · exact nextOf_setNext_of_ne s _ fun heq => hx (heq ▸ hmemy)
    · funext x
      simp
    · funext x
      simp

theorem Threads.reap {all dead : List CoroId} (h : s.Threads all dead) (ht : s.dead? t = some true)
    (hfuel : dead.length ≤ s.allocated) :
    ∃ dead', ((s.coroGraveyardRemove t).free t).Threads all dead' := by
  obtain ⟨l₁, l₂, rfl⟩ := List.append_of_mem ((h.mem_dead t).mpr ht)
  obtain ⟨hnodupa, hnodupd, hdisj⟩ := List.nodup_append.mp h.nodup
  have hmemd : ∀ x ∈ l₁, s.dead? x = some true := fun x hx => (h.mem_dead x).mp (List.mem_append_left _ hx)
  obtain ⟨hdead, hnext, hprev, hdead?, hallc, hcount⟩ :=
    coroGraveyardRemove_dead h.deadLinked hnodupd (by simp at hfuel; omega) hmemd
  set u := s.coroGraveyardRemove t with hu
  have hheap : ∀ x, x ≠ t → (u.free t).heap x = u.heap x := fun x hx => if_neg hx
  have hnextf : ∀ x, x ≠ t → (u.free t).nextOf x = u.nextOf x := fun x hx =>
    congrArg (·.bind (·.next)) (hheap x hx)
  have hprevf : ∀ x, x ≠ t → (u.free t).prevOf x = u.prevOf x := fun x hx =>
    congrArg (·.bind (·.prev)) (hheap x hx)
  have hdeadf : ∀ x, (u.free t).dead? x = if x = t then none else s.dead? x := by
    intro x
    by_cases hx : x = t
    · subst hx
      simp [State.dead?, free]
    · rw [if_neg hx, ← hdead?]
      exact congrArg (·.map fun k => decide (k.state = .dead)) (hheap x hx)
  have hmid : (l₁ ++ l₂).Nodup ∧ t ∉ l₁ ++ l₂ := by
    have hperm := (List.perm_middle.nodup_iff).mp hnodupd
    exact (List.nodup_cons.mp hperm).symm
  have hall : ∀ x ∈ all, x ≠ t := fun x hx => hdisj x hx t (by simp)
  refine ⟨l₁ ++ l₂, ?_, ?_, ?_, fun x => ?_, fun x => ?_, ?_⟩
  · show DList _ _ u.allCoros all
    rw [hallc]
    refine h.allLinked.congr (fun x hx => ?_) fun x hx => ?_
    · rw [hnextf x (hall x hx), hnext x fun hx₁ => hdisj x hx x (by simp [hx₁]) rfl]
    · rw [hprevf x (hall x hx), hprev]
  · exact hdead.congr fun x hx => hnextf x fun heq => hmid.2 (heq ▸ hx)
  · refine List.nodup_append.mpr ⟨hnodupa, hmid.1, fun x hx y hy => hdisj x hx y ?_⟩
    rcases List.mem_append.mp hy with hy | hy <;> simp [hy]
  · rw [h.mem_all, hdeadf]
    by_cases hx : x = t
    · subst hx; simp [ht]
    · rw [if_neg hx]
  · rw [hdeadf]
    by_cases hx : x = t
    · subst hx; simpa using hmid.2
    · rw [if_neg hx, ← h.mem_dead]
      simp [hx]
  · exact hcount.trans h.count

/-! ### Steps -/

variable {all dead : List CoroId}

theorem Threads.dead_length_le (h : s.Threads all dead) (hl : s.view.Linked) : dead.length ≤ s.allocated := by
  have hsub : dead ⊆ List.range s.allocated := by
    intro c hc
    obtain ⟨k, hk, -⟩ := Option.map_eq_some_iff.mp ((h.mem_dead c).mp hc)
    refine List.mem_range.mpr (Nat.lt_of_not_le fun hle => ?_)
    have hcore := hl.fresh c hle
    simp [view, hk] at hcore
  have hnodup : dead.Nodup := (List.nodup_append.mp h.nodup).2.1
  simpa using (hnodup.subperm hsub).length_le

theorem stepLisp_threads (hl : s.view.Linked) (h : s.Threads all dead) (hs : s.stepLisp a = some s') :
    ∃ new, s'.Threads (new ++ all) dead ∧ (s'.control = s.control ∨ s'.control = .httpTick ∧ s.control = .toplevel) := by
  have hfresh : s.heap s.allocated = none := by
    have hcore := hl.fresh s.allocated (Nat.le_refl _)
    simpa [view] using hcore
  have hcontrol : ∀ fn arg b, (s.coroSpawn fn arg b).control = s.control := by
    intro fn arg b
    unfold State.coroSpawn coroListAdd
    cases s.allCoros <;> rfl
  cases a with
  | spawn fn arg =>
    simp only [stepLisp, Option.some.injEq] at hs
    subst hs
    exact ⟨[s.allocated], h.coroSpawn hfresh fn arg false, .inl (hcontrol _ _ _)⟩
  | actorSpawn fn args =>
    simp only [stepLisp, Option.some.injEq] at hs
    subst hs
    exact ⟨[s.allocated], h.coroSpawn hfresh fn _ true, .inl (hcontrol _ _ _)⟩
  | send target msg =>
    exact ⟨[], h.congr (links_actorSendInternal hs), .inl (actorSendInternal_effect hs).2⟩
  | monitor target watcher =>
    obtain ⟨k, hk, rfl⟩ := Option.map_eq_some_iff.mp hs
    exact ⟨[], h.congr (links_modify fun _ _ => rfl), .inl rfl⟩
  | tick =>
    simp only [stepLisp] at hs
    split at hs
    · rename_i hc
      simp only [Option.some.injEq] at hs
      subst hs
      exact ⟨[], h.congr rfl, .inr ⟨rfl, hc⟩⟩
    · simp only [Option.some.injEq] at hs
      subst hs
      exact ⟨[], h, .inl rfl⟩
  | httpComplete c outcome =>
    simp only [stepLisp] at hs
    split at hs
    · rename_i hmem
      obtain ⟨kv, hkv, hsus, -⟩ := hl.inflight c hmem
      obtain ⟨k, hk, rfl⟩ := Option.map_eq_some_iff.mp hkv
      have hd : k.state ≠ .dead := by
        have hstate : k.state = .suspended := hsus
        simp [hstate]
      cases outcome with
      | value r =>
        simp only [Option.some.injEq] at hs
        subst hs
        exact ⟨[], h.congr ((links_coroResume (s := { s with inflight := s.inflight.erase c }) hk hd r).trans rfl),
          .inl rfl⟩
      | signal errorSymbol data =>
        simp only [Option.some.injEq] at hs
        subst hs
        exact ⟨[], h.congr ((links_coroResumeWithError (s := { s with inflight := s.inflight.erase c })
          hk hd _).trans rfl), .inl rfl⟩
    · contradiction
  | leaveHttpTick | continueTick | yield | receive | join | await | httpStart | exit => contradiction

theorem coroTrampoline_threads {outcome : Outcome} (hl : s.view.Linked) (h : s.Threads all dead)
    (hc : s.control = .running c n) (hs : s.coroTrampoline c n outcome = some s') :
    ∃ l₁ l₂ dead', all = l₁ ++ c :: l₂ ∧ s'.Threads (l₁ ++ l₂) dead' ∧ s'.control = .phase2 n := by
  obtain ⟨k, hk, hs⟩ := Option.bind_eq_some_iff.mp hs
  obtain ⟨u, hu, rfl⟩ := Option.map_eq_some_iff.mp hs
  have hcur : s.view.current = some c := by simp [view, hc, Control.current]
  have hrun : k.state = .running := (hl.running c _ (core_eq hk)).mpr hcur
  have hbody : (s.finishBody c k outcome).links = s.links := by
    set r := (s.modify c ({ · with
      error := k.exitError outcome, lispFn := .nil,
      result := if k.exitError outcome ≠ .nil then k.result else outcome.ret })).emit (.exited c outcome) with hr
    have hrlinks : r.links = s.links := by
      rw [hr, links_emit, links_modify]
      exact fun _ _ => rfl
    cases hw : k.joinWaiter with
    | none =>
      have hbody : s.finishBody c k outcome = r := by simp only [finishBody, hw, hr]
      rw [hbody, hrlinks]
    | some w =>
      have hbody : s.finishBody c k outcome =
          (if k.exitError outcome ≠ .nil then r.coroResumeWithError w (k.exitError outcome)
            else r.coroResume w outcome.ret).modify c ({ · with joinWaiter := none }) := by
        simp only [finishBody, hw, hr]
      obtain ⟨-, kv, hkv, hsw, -⟩ := hl.joinWaiter c _ w (core_eq hk) hw
      obtain ⟨kw, hkw, rfl⟩ := Option.map_eq_some_iff.mp hkv
      have hne : w ≠ c := by
        rintro rfl
        obtain rfl := Option.some.inj (hk.symm.trans hkw)
        exact absurd (hrun.symm.trans hsw) (by simp)
      have hrw : r.heap w = some kw := by simp [hr, emit, modify, hne, hkw]
      have hd : kw.state ≠ .dead := by
        have hstate : kw.state = .suspended := hsw
        simp [hstate]
      rw [hbody, links_modify]
      swap
      · exact fun _ _ => rfl
      split
      · rw [links_coroResumeWithError hrw hd, hrlinks]
      · rw [links_coroResume hrw hd, hrlinks]
  have hlinks : u.links = s.links := (links_notifyMonitors hu).trans hbody
  have hthreads : u.Threads all dead := h.congr hlinks
  have hmem : c ∈ all := (h.mem_all c).mpr (by simp [State.dead?, hk, hrun])
  obtain ⟨l₁, l₂, rfl⟩ := List.append_of_mem hmem
  set d := u.modify c ({ · with monitorList := [], state := .dead }) with hd
  have hck : ∃ kc, u.heap c = some kc := by
    obtain ⟨kc, hkc, -⟩ := Option.map_eq_some_iff.mp ((hthreads.mem_all c).mp hmem)
    exact ⟨kc, hkc⟩
  obtain ⟨kc, hkc⟩ := hck
  have hnext : d.nextOf = u.nextOf := by
    funext x
    by_cases hx : x = c
    · subst hx; simp [hd, nextOf, modify, hkc]
    · simp [hd, nextOf, modify, hx]
  have hprev : d.prevOf = u.prevOf := by
    funext x
    by_cases hx : x = c
    · subst hx; simp [hd, prevOf, modify, hkc]
    · simp [hd, prevOf, modify, hx]
  have hdead? : ∀ x, d.dead? x = if x = c then some true else u.dead? x := by
    intro x
    by_cases hx : x = c
    · subst hx; simp [hd, State.dead?, modify, hkc]
    · simp [hd, State.dead?, modify, hx]
  have hperm := (List.perm_middle.nodup_iff).mp
    (List.nodup_append.mp h.nodup).1
  have hnot : c ∉ l₁ ++ l₂ := (List.nodup_cons.mp hperm).1
  have hburied : (d.bury c).Threads (l₁ ++ l₂) (c :: dead) := by
    refine Threads.bury ?_ ?_ h.nodup (fun x => ?_) (fun x => ?_) hthreads.count
    · rw [hnext, hprev]
      exact hthreads.allLinked
    · rw [hnext]
      exact hthreads.deadLinked
    · rw [hdead?]
      by_cases hx : x = c
      · subst hx; simpa using hnot
      · rw [if_neg hx, ← hthreads.mem_all]
        simp [hx]
    · rw [hdead?]
      by_cases hx : x = c
      · subst hx; simp
      · rw [if_neg hx, ← hthreads.mem_dead]
        simp [hx]
  exact ⟨l₁, l₂, c :: dead, rfl, hburied.congr rfl, rfl⟩

theorem stepCoro_threads (hl : s.view.Linked) (h : s.Threads all dead) (hc : s.control = .running c n)
    (hs : s.stepCoro c n a = some s') :
    (∃ new dead', s'.Threads (new ++ all) dead' ∧ s'.control = .running c n) ∨
      ∃ all' dead', s'.Threads all' dead' ∧ s'.control = .phase2 n ∧
        (all' = all ∨ ∃ l₁ l₂, all = l₁ ++ c :: l₂ ∧ all' = l₁ ++ l₂) := by
  have hcur : s.view.current = some c := by simp [view, hc, Control.current]
  obtain ⟨kv, hkv⟩ := hl.current c hcur
  obtain ⟨k, hk, rfl⟩ := Option.map_eq_some_iff.mp hkv
  have hrun : k.state = .running := (hl.running c _ hkv).mpr hcur
  have hd : k.state ≠ .dead := by simp [hrun]
  have hjoin : ∀ {t frame}, s.actorJoinInternal c n t frame = some s' →
      (∃ new dead', s'.Threads (new ++ all) dead' ∧ s'.control = .running c n) ∨
        ∃ all' dead', s'.Threads all' dead' ∧ s'.control = .phase2 n ∧
          (all' = all ∨ ∃ l₁ l₂, all = l₁ ++ c :: l₂ ∧ all' = l₁ ++ l₂) := by
    intro t frame hs
    obtain ⟨kt, ht, hs⟩ := Option.bind_eq_some_iff.mp hs
    have hgrave : ((s.coroGraveyardRemove t).free t).control = s.control := by
      have hloop : ∀ fuel q, (s.graveyardLoop t fuel q).control = s.control := by
        intro fuel
        induction fuel with
        | zero => exact fun _ => rfl
        | succ fuel ih =>
          intro q
          rw [graveyardLoop]
          cases s.nextOf q with
          | none => rfl
          | some d =>
            simp only
            split
            · rfl
            · exact ih d
      show (s.coroGraveyardRemove t).control = s.control
      unfold coroGraveyardRemove
      cases s.deadCoros with
      | none => rfl
      | some d =>
        simp only
        split
        · rfl
        · exact hloop _ _
    by_cases hdead : kt.state = .dead
    · simp only [hdead, if_true] at hs
      obtain ⟨dead', hreap⟩ := h.reap (t := t) (by simp [State.dead?, ht, hdead]) (h.dead_length_le hl)
      left
      cases frame with
      | await _ =>
        obtain ⟨k', -, rfl⟩ := Option.map_eq_some_iff.mp hs
        exact ⟨[], dead', hreap.congr rfl, hgrave.trans hc⟩
      | _ =>
        simp only [Option.some.injEq] at hs
        subst hs
        exact ⟨[], dead', hreap, hgrave.trans hc⟩
    · simp only [hdead, if_false, Option.some.injEq] at hs
      subst hs
      right
      refine ⟨all, dead, h.congr ?_, rfl, .inl rfl⟩
      have hslot : (s.modify t ({ · with joinWaiter := some c })).links = s.links :=
        links_modify fun _ _ => rfl
      have hself : ∃ k', (s.modify t ({ · with joinWaiter := some c })).heap c = some k' ∧ k'.state ≠ .dead := by
        by_cases hct : c = t
        · subst hct
          exact ⟨{ k with joinWaiter := some c }, by simp [modify, hk], hd⟩
        · exact ⟨k, by simp only [modify, hct, if_false, hk], hd⟩
      obtain ⟨k', hk', hd'⟩ := hself
      rw [links_coroYield hk' hd', hslot]
  have hlisp : ∀ {a}, s.stepLisp a = some s' →
      ∃ new dead', s'.Threads (new ++ all) dead' ∧ s'.control = .running c n := by
    intro a hs
    obtain ⟨new, hthreads, hcontrol | ⟨-, htop⟩⟩ := stepLisp_threads hl h hs
    · exact ⟨new, dead, hthreads, hcontrol.trans hc⟩
    · simp [hc] at htop
  have hyield : ∀ {reason frame}, (s.coroYield c n reason frame).Threads all dead := fun {reason frame} =>
    h.congr (links_coroYield hk hd reason frame)
  cases a with
  | yield =>
    simp only [stepCoro, Option.some.injEq] at hs
    subst hs
    exact .inr ⟨all, dead, hyield, rfl, .inl rfl⟩
  | receive ms now =>
    obtain ⟨k', hk', hs⟩ := Option.bind_eq_some_iff.mp hs
    split at hs
    · split at hs
      · simp only [Option.some.injEq] at hs
        subst hs
        exact .inl ⟨[], dead, h.congr (links_modify fun _ _ => rfl), hc⟩
      · simp only [Option.some.injEq] at hs
        subst hs
        refine .inr ⟨all, dead, h.congr ?_, rfl, .inl rfl⟩
        split
        · rw [links_coroYield (k := { k with waitDeadline := now + ms }) (by simp [modify, hk]) hd,
            links_modify]
          exact fun _ _ => rfl
        · exact links_coroYield hk hd _ _
    · contradiction
  | join t => exact hjoin hs
  | await t =>
    simp only [stepCoro] at hs
    split at hs
    · exact hjoin hs
    · simp only [Option.some.injEq] at hs
      subst hs
      exact .inl ⟨[], dead, h, hc⟩
  | httpStart =>
    simp only [stepCoro, Option.some.injEq] at hs
    subst hs
    refine .inr ⟨all, dead, h.congr ?_, rfl, .inl rfl⟩
    exact links_coroYield (s := { s with inflight := c :: s.inflight }) hk hd _ _
  | exit outcome =>
    obtain ⟨l₁, l₂, dead', rfl, hthreads, hcontrol⟩ := coroTrampoline_threads hl h hc hs
    exact .inr ⟨l₁ ++ l₂, dead', hthreads, hcontrol, .inr ⟨l₁, l₂, rfl, rfl⟩⟩
  | spawn | actorSpawn | send | monitor | tick | httpComplete | leaveHttpTick | continueTick =>
    simp only [stepCoro] at hs
    exact .inl (hlisp hs)

theorem links_continueTick (hs : s.continueTick = some s') : s'.links = s.links := by
  unfold continueTick at hs
  split at hs
  · simp only [Option.some.injEq] at hs
    subst hs
    rfl
  · obtain ⟨k, hk, rfl⟩ := Option.map_eq_some_iff.mp hs
    simp only
    split
    · rename_i hyield
      exact (links_coroResume hk (by simp [hyield.1]) _ : _)
    · rfl
  · simp only [Option.some.injEq] at hs
    subst hs
    rfl
  · obtain ⟨k, hk, rfl⟩ := Option.map_eq_some_iff.mp hs
    simp only
    split
    · rename_i htimer
      exact (links_coroResumeWithError hk (by simp [htimer.1]) _ : _)
    · rfl
  · simp only [Option.some.injEq] at hs
    subst hs
    rfl
  · obtain ⟨k, hk, rfl⟩ := Option.map_eq_some_iff.mp hs
    split
    · rename_i c _ hrun
      have hswitch : ∀ result, (s.modify c
          ({ · with state := .running, frame := .active, result := result })).links = s.links := by
        refine fun result => links_modify fun k' hk' => ?_
        obtain rfl := Option.some.inj (hk.symm.trans hk')
        simp [Coro.node, hrun]
      simp only [switchTo]
      cases k.frame <;> exact hswitch _
    · rfl
  · contradiction
  · contradiction
  · contradiction

theorem step_threads (hl : s.view.Linked) (h : s.Threads all dead) (hs : s.step a = some s') :
    ∃ all' dead', s'.Threads all' dead' := by
  have hlisp : ∀ {a}, s.stepLisp a = some s' → ∃ all' dead', s'.Threads all' dead' := fun hs => by
    obtain ⟨new, hthreads, -⟩ := stepLisp_threads hl h hs
    exact ⟨new ++ all, dead, hthreads⟩
  unfold step at hs
  split at hs
  · rename_i c n hc
    rcases stepCoro_threads hl h hc hs with ⟨new, dead', hthreads, -⟩ | ⟨all', dead', hthreads, -⟩
    · exact ⟨_, _, hthreads⟩
    · exact ⟨_, _, hthreads⟩
  · exact hlisp hs
  · split at hs
    · simp only [Option.some.injEq] at hs
      subst hs
      exact ⟨all, dead, h.congr rfl⟩
    · exact hlisp hs
  all_goals
    split at hs
    · exact ⟨all, dead, h.congr (links_continueTick hs)⟩
    · contradiction

theorem run_threads {ok : State → Action → Prop} {as : List Action} (h : Run step ok init as s) :
    ∃ all dead, s.Threads all dead := by
  have hinv : (∃ all dead, s.Threads all dead) ∧ s.view.Linked := by
    refine h.invariant (I := fun s => (∃ all dead, s.Threads all dead) ∧ s.view.Linked)
      ⟨⟨[], [], ?_⟩, linked_init⟩ fun s a s' ⟨⟨all, dead, ht⟩, hl⟩ _ hs => ?_
    · exact ⟨⟨rfl, rfl⟩, rfl, .nil, by simp [State.dead?, init], by simp [State.dead?, init], rfl⟩
    · obtain ⟨l, -, he⟩ := step_effects hl hs
      exact ⟨step_threads hl ht hs, hl.effects he⟩
  exact hinv.1

/-- The coroutines that are referred to are listed: the one that runs, those with a request in
flight, and join waiters. -/
def Listed (s : State) : Prop := ∃ all dead, s.Threads all dead ∧ (∀ c, s.control.current = some c → c ∈ all) ∧
  (∀ c ∈ s.inflight, c ∈ all) ∧ s.inflight.Nodup ∧ ∀ t k w, s.heap t = some k → k.joinWaiter = some w →
    t ∈ all ∧ w ∈ all ∧ ∃ kw, s.heap w = some kw ∧ kw.state = .suspended ∧ kw.frame.Joins t

end State

end XEmacs.Async
