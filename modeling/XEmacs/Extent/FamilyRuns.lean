import XEmacs.Extent.Family

/-! The two sides of the parent relation of extents agree, as long as no extent is moved from
one parent to another and no extent with a list of children is copied. -/

namespace XEmacs.Extent.Family

open Lib Lib.Forest

variable {s t : Family} {c e p q w : ℕ}

/-- The part of the invariant about who owns which list of children. -/
def OwnLists (s : Family) : Prop :=
  (∀ e e' w, (s.extents e).children = some w → (s.extents e').children = some w → e = e') ∧
    ∀ e w, (s.extents e).children = some w → w < s.nextWeakList

/-- Both sides of the relation agree, and no two extents share a list of children. -/
structure WellKept (s : Family) : Prop where
  acyclic : Acyclic s.parent
  mem_children : ∀ c p, c ∈ s.children p ↔ s.parent c = some p
  alive : ∀ c p, s.parent c = some p → s.live c ∧ s.live p
  ownLists : OwnLists s
  unborn : ∀ e, s.nextExtent ≤ e → s.extents e = ⟨false, true, false, none, none⟩
  hasParent : ∀ e, (s.extents e).hasParent = (s.parent e).isSome

theorem wellKept_empty : WellKept empty where
  acyclic := acyclic_none
  mem_children c p := by simp [children, parent, empty]
  alive c p h := by simp [parent, empty] at h
  ownLists := ⟨fun e e' w h => by simp [empty] at h, fun e w h => by simp [empty] at h⟩
  unborn e _ := rfl
  hasParent e := rfl

theorem WellKept.lt_of_live (h : WellKept s) (he : s.live e) : e < s.nextExtent := by
  by_contra hlt
  have hdead : s.live e = false := by rw [live, h.unborn e (Nat.le_of_not_lt hlt)]
  rw [hdead] at he
  cases he

@[simp] theorem extents_setExtent (m : Member) :
    (s.setExtent e m).extents = Function.update s.extents e m := rfl

@[simp] theorem weakLists_setExtent (m : Member) : (s.setExtent e m).weakLists = s.weakLists := rfl

@[simp] theorem extents_removeFromChildrenList : (s.removeFromChildrenList p c).extents = s.extents := by
  unfold removeFromChildrenList
  split <;> rfl

@[simp] theorem parent_removeFromChildrenList : (s.removeFromChildrenList p c).parent = s.parent :=
  funext fun x => congrArg (fun f : ℕ → Member => (f x).parent) extents_removeFromChildrenList

@[simp] theorem live_removeFromChildrenList : (s.removeFromChildrenList p c).live = s.live :=
  funext fun x => congrArg (fun f : ℕ → Member => (f x).live) extents_removeFromChildrenList

@[simp] theorem nextExtent_removeFromChildrenList :
    (s.removeFromChildrenList p c).nextExtent = s.nextExtent := by
  unfold removeFromChildrenList
  split <;> rfl

@[simp] theorem nextExtent_addToChildrenList : (s.addToChildrenList p c).nextExtent = s.nextExtent := by
  unfold addToChildrenList
  split <;> rfl

theorem children_of_none (h : (s.extents e).children = none) : s.children e = [] := by
  rw [children, h]

theorem children_of_some (h : (s.extents e).children = some w) : s.children e = s.weakLists w := by
  rw [children, h]

theorem children_removeFromChildrenList (h : WellKept s) (p c e : ℕ) :
    (s.removeFromChildrenList p c).children e =
      if e = p then (s.children p).filter (· ≠ c) else s.children e := by
  rcases hp : (s.extents p).children with _ | w
  · rw [removeFromChildrenList, hp]
    by_cases he : e = p
    · rw [if_pos he, he, children_of_none hp]
      rfl
    · rw [if_neg he]
  · rcases he : (s.extents e).children with _ | w'
    · have hne : e ≠ p := fun heq => by rw [heq, hp] at he; cases he
      rw [if_neg hne, children_of_none he, children_of_none (by rw [extents_removeFromChildrenList, he])]
    · rw [children_of_some (w := w') (by rw [extents_removeFromChildrenList, he]), children_of_some hp,
        children_of_some he, removeFromChildrenList, hp]
      by_cases hww : w' = w
      · subst hww
        rw [if_pos (h.ownLists.1 _ _ _ he hp)]
        simp
      · have hne : e ≠ p := fun heq => hww (Option.some.inj (by rw [← he, heq, hp]))
        rw [if_neg hne]
        simp [hww]

theorem extents_addToChildrenList (p c : ℕ) :
    ∃ w, (s.addToChildrenList p c).extents =
      Function.update s.extents p { s.extents p with children := some w } := by
  unfold addToChildrenList
  split
  · next w hw =>
    refine ⟨w, ?_⟩
    rw [← hw]
    exact (Function.update_eq_self p s.extents).symm
  · exact ⟨s.nextWeakList, rfl⟩

@[simp] theorem parent_addToChildrenList (p c : ℕ) : (s.addToChildrenList p c).parent = s.parent := by
  obtain ⟨w, hw⟩ := extents_addToChildrenList (s := s) p c
  funext x
  rw [parent, hw, parent]
  by_cases hx : x = p <;> simp [hx]

@[simp] theorem live_addToChildrenList (p c : ℕ) : (s.addToChildrenList p c).live = s.live := by
  obtain ⟨w, hw⟩ := extents_addToChildrenList (s := s) p c
  funext x
  rw [live, hw, live]
  by_cases hx : x = p <;> simp [hx]

theorem children_addToChildrenList (h : WellKept s) (p c e : ℕ) :
    (s.addToChildrenList p c).children e = if e = p then c :: s.children p else s.children e := by
  rcases hp : (s.extents p).children with _ | w
  · rw [addToChildrenList, hp]
    by_cases he : e = p
    · subst he
      rw [if_pos rfl, children_of_none hp, children]
      simp
    · rw [if_neg he]
      rcases hw : (s.extents e).children with _ | w'
      · rw [children_of_none hw, children]
        simp [he, hw]
      · have hlt := h.ownLists.2 e w' hw
        rw [children_of_some hw, children]
        simp [he, hw, Nat.ne_of_lt hlt]
  · rw [addToChildrenList, hp]
    rcases he : (s.extents e).children with _ | w'
    · have hne : e ≠ p := fun heq => by rw [heq, hp] at he; cases he
      rw [if_neg hne, children_of_none he, children]
      simp [he]
    · by_cases hww : w' = w
      · subst hww
        rw [if_pos (h.ownLists.1 _ _ _ he hp), children_of_some hp, children]
        simp [he]
      · have hne : e ≠ p := fun heq => hww (Option.some.inj (by rw [← he, heq, hp]))
        rw [if_neg hne, children_of_some he, children]
        simp [he, hww]

theorem meetsChain_iff (fuel : ℕ) (r : ℕ) :
    s.meetsChain e fuel (some r) ↔ ∃ k < fuel, up s.parent k r = some e := by
  induction fuel generalizing r with
  | zero => simp [meetsChain]
  | succ fuel ih =>
    rw [meetsChain]
    rcases hr : s.parent r with _ | r'
    · constructor
      · intro hmeet
        rcases fuel with _ | fuel <;> simp only [meetsChain, Bool.false_eq_true, or_false,
          decide_eq_true_eq] at hmeet <;> exact ⟨0, Nat.succ_pos _, congrArg some hmeet⟩
      · rintro ⟨k, -, hk⟩
        rcases k with _ | k
        · simpa [up] using Or.inl (Option.some.inj hk)
        · rw [up, hr] at hk
          cases hk
    · rw [decide_eq_true_eq, ih]
      constructor
      · rintro (rfl | ⟨k, hk, hup⟩)
        · exact ⟨0, Nat.succ_pos _, rfl⟩
        · exact ⟨k + 1, Nat.succ_lt_succ hk, by rw [up, hr]; exact hup⟩
      · rintro ⟨k, hk, hup⟩
        rcases k with _ | k
        · exact .inl (Option.some.inj hup)
        · rw [up, hr] at hup
          exact .inr ⟨k, Nat.lt_of_succ_lt_succ hk, hup⟩

theorem circular_iff (h : WellKept s) (hp : s.live p) :
    s.circular e (some p) ↔ ∃ k, up s.parent k p = some e := by
  rw [circular, meetsChain_iff]
  refine ⟨fun ⟨k, _, hk⟩ => ⟨k, hk⟩, fun hk => ?_⟩
  exact exists_up_lt (h.lt_of_live hp) (fun x y hxy => h.lt_of_live (h.alive x y hxy).2) hk

theorem parent_setExtent (m : Member) : (s.setExtent e m).parent = Function.update s.parent e m.parent := by
  funext x
  rw [parent, extents_setExtent]
  by_cases hx : x = e <;> simp [hx, parent]

theorem live_setExtent (m : Member) : (s.setExtent e m).live = Function.update s.live e m.live := by
  funext x
  rw [live, extents_setExtent]
  by_cases hx : x = e <;> simp [hx, live]

theorem children_setExtent {m : Member} (hm : m.children = (s.extents e).children) :
    (s.setExtent e m).children = s.children := by
  funext x
  rw [children, children, extents_setExtent, weakLists_setExtent]
  by_cases hx : x = e
  · rw [hx, Function.update_self, hm]
  · rw [Function.update_of_ne hx]

theorem OwnLists.setExtent (h : OwnLists s) {m : Member}
    (hm : m.children = none ∨ m.children = (s.extents e).children) : OwnLists (s.setExtent e m) := by
  have hsome : ∀ x w, ((s.setExtent e m).extents x).children = some w →
      (s.extents x).children = some w := by
    intro x w hw
    by_cases hx : x = e
    · subst hx
      rw [extents_setExtent, Function.update_self] at hw
      rcases hm with hm | hm <;> rw [hm] at hw
      · cases hw
      · exact hw
    · rwa [extents_setExtent, Function.update_of_ne hx] at hw
  exact ⟨fun x y w hx hy => h.1 x y w (hsome x w hx) (hsome y w hy), fun x w hx => h.2 x w (hsome x w hx)⟩

theorem OwnLists.removeFromChildrenList (h : OwnLists s) : OwnLists (s.removeFromChildrenList p c) := by
  unfold OwnLists
  rw [extents_removeFromChildrenList]
  refine ⟨h.1, fun e w hw => ?_⟩
  have hlt := h.2 e w hw
  unfold Family.removeFromChildrenList
  split <;> exact hlt

theorem OwnLists.addToChildrenList (h : OwnLists s) : OwnLists (s.addToChildrenList p c) := by
  unfold Family.addToChildrenList
  split
  · exact h
  · have hsome : ∀ x w, (Function.update s.extents p
        { s.extents p with children := some s.nextWeakList } x).children = some w →
        x = p ∧ w = s.nextWeakList ∨ (s.extents x).children = some w := by
      intro x w hw
      by_cases hx : x = p
      · subst hx
        rw [Function.update_self] at hw
        exact .inl ⟨rfl, (Option.some.inj hw).symm⟩
      · rw [Function.update_of_ne hx] at hw
        exact .inr hw
    constructor
    · intro x y w hx hy
      rcases hsome x w hx with ⟨rfl, rfl⟩ | hx' <;> rcases hsome y _ hy with ⟨rfl, hw⟩ | hy'
      · rfl
      · exact absurd (h.2 y _ hy') (Nat.lt_irrefl _)
      · exact absurd (hw ▸ h.2 x _ hx') (Nat.lt_irrefl _)
      · exact h.1 x y w hx' hy'
    · intro x w hx
      rcases hsome x w hx with ⟨-, rfl⟩ | hx'
      · exact Nat.lt_succ_self _
      · exact Nat.lt_succ_of_lt (h.2 x w hx')

/-- What `set-extent-parent` leaves where it sets a parent. -/
structure SetsParent (s t : Family) (e : ℕ) (parent : Option ℕ) : Prop where
  wellKept : WellKept t
  parent_eq : t.parent = Function.update s.parent e parent
  live_eq : t.live = s.live
  nextExtent_eq : t.nextExtent = s.nextExtent

theorem setExtentParent_none (h : WellKept s) (hp : s.parent e = some p) :
    ∃ t, s.setExtentParent e none = (t, true) ∧ SetsParent s t e none := by
  have he := (h.alive e p hp).1
  set m : Member := { s.extents e with parent := none, hasParent := false } with hm
  have hset : s.setExtentParent e none = ((s.removeFromChildrenList p e).setExtent e m, true) := by
    rw [setExtentParent, if_neg (by simp [he]), if_neg (by simp), if_neg (by rw [hp]; exact nofun), if_neg]
    · simp only [hp, Option.elim_some, extents_removeFromChildrenList, hm]
    · unfold circular
      rcases s.nextExtent with _ | n <;> simp [meetsChain]
  have hparent : ((s.removeFromChildrenList p e).setExtent e m).parent =
      Function.update s.parent e none := by
    rw [parent_setExtent, parent_removeFromChildrenList]
  have hlive : ((s.removeFromChildrenList p e).setExtent e m).live = s.live := by
    rw [live_setExtent, live_removeFromChildrenList]
    exact Function.update_eq_self e s.live
  have hnext : ((s.removeFromChildrenList p e).setExtent e m).nextExtent = s.nextExtent :=
    nextExtent_removeFromChildrenList
  refine ⟨_, hset, ⟨?_, hparent, hlive, hnext⟩⟩
  exact
    { acyclic := by
        rw [hparent]
        refine h.acyclic.mono fun x y hxy => ?_
        by_cases hx : x = e
        · rw [hx, Function.update_self] at hxy
          cases hxy
        · rwa [Function.update_of_ne hx] at hxy
      mem_children := fun c q => by
        rw [hparent, children_setExtent (by rw [extents_removeFromChildrenList]),
          children_removeFromChildrenList h]
        by_cases hc : c = e
        · subst hc
          rw [Function.update_self]
          by_cases hq : q = p
          · simp [hq]
          · rw [if_neg hq, h.mem_children, hp]
            simpa using Ne.symm hq
        · rw [Function.update_of_ne hc, ← h.mem_children]
          by_cases hq : q = p
          · simp [hq, hc]
          · rw [if_neg hq]
      alive := fun c q hcq => by
        rw [hparent] at hcq
        rw [hlive]
        by_cases hc : c = e
        · rw [hc, Function.update_self] at hcq
          cases hcq
        · rw [Function.update_of_ne hc] at hcq
          exact h.alive c q hcq
      ownLists := h.ownLists.removeFromChildrenList.setExtent (.inr (by rw [extents_removeFromChildrenList]))
      unborn := fun x hx => by
        rw [hnext] at hx
        have hne : x ≠ e := fun heq => absurd (h.lt_of_live he) (Nat.not_lt_of_le (heq ▸ hx))
        rw [extents_setExtent, Function.update_of_ne hne, extents_removeFromChildrenList, h.unborn x hx]
      hasParent := fun x => by
        rw [hparent, extents_setExtent, extents_removeFromChildrenList]
        by_cases hx : x = e
        · rw [hx, Function.update_self, Function.update_self]
          rfl
        · rw [Function.update_of_ne hx, Function.update_of_ne hx, h.hasParent] }

theorem setExtentParent_some (h : WellKept s) (he : s.live e) (hp : s.live p) (hnone : s.parent e = none)
    (hcircular : ¬ s.circular e (some p)) :
    ∃ t, s.setExtentParent e (some p) = (t, true) ∧ SetsParent s t e (some p) := by
  have hbelow : ∀ k, up s.parent k p ≠ some e := fun k hk => hcircular ((circular_iff h hp).mpr ⟨k, hk⟩)
  set a := s.addToChildrenList p e with ha
  set m : Member := { a.extents e with parent := some p, hasParent := true } with hm
  have hset : s.setExtentParent e (some p) = (a.setExtent e m, true) := by
    rw [setExtentParent, if_neg (by simp [he]), if_neg (by simp [hp]), if_neg (by rw [hnone]; exact nofun),
      if_neg hcircular]
  have hparent : (a.setExtent e m).parent = Function.update s.parent e (some p) := by
    rw [parent_setExtent, ha, parent_addToChildrenList]
  have hlive : (a.setExtent e m).live = s.live := by
    rw [live_setExtent]
    exact (Function.update_eq_self e a.live).trans (live_addToChildrenList p e)
  have hnext : (a.setExtent e m).nextExtent = s.nextExtent := nextExtent_addToChildrenList
  refine ⟨_, hset, ⟨?_, hparent, hlive, hnext⟩⟩
  exact
    { acyclic := by
        rw [hparent]
        exact h.acyclic.update (fun x hx => Function.update_of_ne hx _ _) (Function.update_self ..) hbelow
      mem_children := fun c q => by
        rw [hparent, children_setExtent (m := m) rfl, children_addToChildrenList h]
        by_cases hc : c = e
        · subst hc
          rw [Function.update_self]
          by_cases hq : q = p
          · simp [hq]
          · rw [if_neg hq, h.mem_children, hnone]
            simpa using Ne.symm hq
        · rw [Function.update_of_ne hc, ← h.mem_children]
          by_cases hq : q = p
          · simp [hq, hc]
          · rw [if_neg hq]
      alive := fun c q hcq => by
        rw [hparent] at hcq
        rw [hlive]
        by_cases hc : c = e
        · rw [hc, Function.update_self, Option.some.injEq] at hcq
          rw [hc, ← hcq]
          exact ⟨he, hp⟩
        · rw [Function.update_of_ne hc] at hcq
          exact h.alive c q hcq
      ownLists := h.ownLists.addToChildrenList.setExtent (.inr rfl)
      unborn := fun x hx => by
        rw [hnext] at hx
        have hxe : x ≠ e := fun heq => absurd (h.lt_of_live he) (Nat.not_lt_of_le (heq ▸ hx))
        have hxp : x ≠ p := fun heq => absurd (h.lt_of_live hp) (Nat.not_lt_of_le (heq ▸ hx))
        obtain ⟨w, hw⟩ := extents_addToChildrenList (s := s) p e
        rw [extents_setExtent, Function.update_of_ne hxe, ha, hw, Function.update_of_ne hxp, h.unborn x hx]
      hasParent := fun x => by
        rw [hparent, extents_setExtent]
        by_cases hx : x = e
        · rw [hx, Function.update_self, Function.update_self]
          rfl
        · obtain ⟨w, hw⟩ := extents_addToChildrenList (s := s) p e
          rw [Function.update_of_ne hx, Function.update_of_ne hx, ← h.hasParent, ha, hw]
          by_cases hxp : x = p <;> simp [hxp] }

theorem WellKept.setExtent (h : WellKept s) {m : Member} (he : e < s.nextExtent)
    (hparent : m.parent = s.parent e) (hchildren : m.children = (s.extents e).children)
    (hhas : m.hasParent = (s.extents e).hasParent)
    (hlive : m.live = s.live e ∨ s.parent e = none ∧ ∀ c, s.parent c ≠ some e) :
    WellKept (s.setExtent e m) := by
  have hsame : (s.setExtent e m).parent = s.parent := by
    rw [parent_setExtent, hparent, Function.update_eq_self]
  have halive : ∀ c, s.live c → (c = e → ¬ (s.parent e = none ∧ ∀ c, s.parent c ≠ some e)) →
      (s.setExtent e m).live c := by
    intro c hc hfamily
    rw [live_setExtent]
    by_cases hce : c = e
    · rw [hce, Function.update_self, hlive.resolve_right (hfamily hce), ← hce]
      exact hc
    · rwa [Function.update_of_ne hce]
  exact
    { acyclic := by rw [hsame]; exact h.acyclic
      mem_children := fun c p => by rw [hsame, children_setExtent hchildren]; exact h.mem_children c p
      alive := fun c p hcp => by
        rw [hsame] at hcp
        obtain ⟨hc, hp⟩ := h.alive c p hcp
        refine ⟨halive c hc ?_, halive p hp ?_⟩
        · rintro rfl ⟨hnone, -⟩
          rw [hnone] at hcp
          cases hcp
        · rintro rfl ⟨-, hno⟩
          exact hno c hcp
      ownLists := h.ownLists.setExtent (.inr hchildren)
      unborn := fun x hx => by
        have hne : x ≠ e := fun heq => absurd he (Nat.not_lt_of_le (heq ▸ hx))
        rw [extents_setExtent, Function.update_of_ne hne]
        exact h.unborn x hx
      hasParent := fun x => by
        rw [hsame, extents_setExtent]
        by_cases hx : x = e
        · rw [hx, Function.update_self, hhas]
          exact h.hasParent e
        · rw [Function.update_of_ne hx]
          exact h.hasParent x }

def Moves (s : Family) (e : ℕ) : Option ℕ → Prop
  | none => False
  | some p => s.parent e ≠ none ∧ s.parent e ≠ some p ∧ s.live e ∧ s.live p ∧ ¬ s.circular e (some p)

instance (s : Family) (e : ℕ) : ∀ parent, Decidable (s.Moves e parent)
  | none => .isFalse id
  | some _ => inferInstanceAs (Decidable (_ ∧ _))

theorem setExtentParent_wellKept (h : WellKept s) {parent : Option ℕ} (hmoves : ¬ s.Moves e parent) :
    WellKept (s.setExtentParent e parent).1 := by
  by_cases he : s.live e
  swap
  · rwa [setExtentParent.eq_def, if_pos he]
  by_cases hp : parent.any (¬ s.live ·)
  · rwa [setExtentParent.eq_def, if_neg (not_not.mpr he), if_pos hp]
  by_cases heq : parent = s.parent e
  · rwa [setExtentParent.eq_def, if_neg (not_not.mpr he), if_neg hp, if_pos heq]
  by_cases hcircular : s.circular e parent
  · rwa [setExtentParent.eq_def, if_neg (not_not.mpr he), if_neg hp, if_neg heq, if_pos hcircular]
  rcases parent with _ | p
  · rcases hq : s.parent e with _ | q
    · exact absurd hq.symm heq
    · obtain ⟨t, hset, ht⟩ := setExtentParent_none h hq
      rw [hset]
      exact ht.wellKept
  · have hlive : s.live p := by simpa using hp
    rcases hq : s.parent e with _ | q
    · obtain ⟨t, hset, ht⟩ := setExtentParent_some h he hlive hq hcircular
      rw [hset]
      exact ht.wellKept
    · refine absurd ⟨?_, Ne.symm heq, he, hlive, hcircular⟩ hmoves
      rw [hq]
      exact nofun

theorem orphan_spec (h : WellKept s) (l : List ℕ) (hl : ∀ c ∈ l, s.live c) :
    ∃ t, s.orphan l = (t, true) ∧ WellKept t ∧ t.parent = (fun c => if c ∈ l then none else s.parent c) ∧
      t.live = s.live ∧ t.nextExtent = s.nextExtent := by
  induction l generalizing s with
  | nil => exact ⟨s, rfl, h, by simp, rfl, rfl⟩
  | cons c l ih =>
    rcases hc : s.parent c with _ | p
    · have hset : s.setExtentParent c none = (s, true) := by
        rw [setExtentParent, if_neg (by simp [hl c (by simp)]), if_neg (by simp), if_pos hc.symm]
      obtain ⟨t, horphan, ht, hparent, hlive, hnext⟩ := ih h fun d hd => hl d (List.mem_cons_of_mem c hd)
      refine ⟨t, by rw [orphan, hset]; exact horphan, ht, ?_, hlive, hnext⟩
      rw [hparent]
      funext d
      by_cases hd : d = c
      · simp [hd, hc]
      · simp [hd]
    · obtain ⟨u, hset, hu⟩ := setExtentParent_none h hc
      obtain ⟨t, horphan, ht, hparent, hlive, hnext⟩ := ih hu.wellKept fun d hd => by
        rw [hu.live_eq]
        exact hl d (List.mem_cons_of_mem c hd)
      refine ⟨t, by rw [orphan, hset]; exact horphan, ht, ?_, hlive.trans hu.live_eq,
        hnext.trans hu.nextExtent_eq⟩
      rw [hparent, hu.parent_eq]
      funext d
      by_cases hd : d = c <;> simp [hd]

def without (s : Family) (e c : ℕ) : Option ℕ :=
  if c = e ∨ s.parent c = some e then none else s.parent c

theorem destroyExtent_spec (h : WellKept s) (he : s.live e) :
    ∃ t, s.destroyExtent e = (t, true) ∧ WellKept t ∧ t.parent = s.without e ∧
      t.live = Function.update s.live e false ∧ t.nextExtent = s.nextExtent := by
  -- detaching it says nothing about its family
  set d := if ¬ (s.extents e).detached then s.detachExtent e else s with hd
  have hlt := h.lt_of_live he
  have hdetach : WellKept d ∧ d.parent = s.parent ∧ d.live = s.live ∧ d.children = s.children ∧
      d.nextExtent = s.nextExtent := by
    rw [hd]
    split
    · exact ⟨h.setExtent hlt rfl rfl rfl (.inl rfl),
        (parent_setExtent _).trans (Function.update_eq_self e s.parent),
        (live_setExtent _).trans (Function.update_eq_self e s.live), children_setExtent rfl, rfl⟩
    · exact ⟨h, rfl, rfl, rfl, rfl⟩
  obtain ⟨hkept, hparent, hlive, hchildren, hnext⟩ := hdetach
  obtain ⟨o, horphan, hokept, hoparent, holive, honext⟩ := orphan_spec hkept (s.children e) fun c hc => by
    rw [hlive]
    exact (h.alive c e ((h.mem_children c e).mp hc)).1
  rw [hparent] at hoparent
  have hmem : ∀ c, o.parent c = if s.parent c = some e then none else s.parent c := by
    intro c
    rw [hoparent]
    exact if_congr (h.mem_children c e) rfl rfl
  -- then it loses its own parent, which is not itself
  obtain ⟨t, ht, htkept, htparent, htlive, htnext⟩ : ∃ t, (o.setExtentParent e none).1 = t ∧ WellKept t ∧
      t.parent = s.without e ∧ t.live = s.live ∧ t.nextExtent = s.nextExtent := by
    have hwithout : Function.update o.parent e none = s.without e := by
      funext c
      by_cases hc : c = e
      · rw [hc, Function.update_self, without, if_pos (.inl rfl)]
      · rw [Function.update_of_ne hc, hmem, without]
        exact if_congr (by simp [hc]) rfl rfl
    rcases hoe : o.parent e with _ | q
    · refine ⟨o, ?_, hokept, ?_, holive.trans hlive, honext.trans hnext⟩
      · rw [setExtentParent, if_neg (by rw [holive, hlive]; simp [he]), if_neg (by simp), if_pos hoe.symm]
      · rw [← hwithout, ← hoe, Function.update_eq_self]
    · obtain ⟨t, hset, ht⟩ := setExtentParent_none hokept hoe
      exact ⟨t, congrArg Prod.fst hset, ht.wellKept, ht.parent_eq.trans hwithout,
        ht.live_eq.trans (holive.trans hlive), ht.nextExtent_eq.trans (honext.trans hnext)⟩
  refine ⟨t.setExtent e { t.extents e with live := false }, ?_, ?_, ?_, ?_, htnext⟩
  · rw [destroyExtent]
    dsimp only
    rw [← hd, hchildren, horphan]
    dsimp only
    rw [ht]
  · refine htkept.setExtent (htnext ▸ hlt) rfl rfl rfl (.inr ⟨?_, fun c hc => ?_⟩)
    · rw [htparent, without, if_pos (.inl rfl)]
    · rw [htparent, without] at hc
      split at hc
      · cases hc
      · next hno => exact hno (.inr hc)
  · rw [parent_setExtent]
    exact (Function.update_eq_self e t.parent).trans htparent
  · rw [live_setExtent, htlive]

theorem parent_makeExtent (h : WellKept s) (detached : Bool) : (s.makeExtent detached).parent = s.parent := by
  have hnone : s.parent s.nextExtent = none := by rw [parent, h.unborn _ le_rfl]
  refine (parent_setExtent _).trans ?_
  exact (congrArg (Function.update s.parent _) hnone.symm).trans (Function.update_eq_self ..)

theorem live_makeExtent (detached : Bool) :
    (s.makeExtent detached).live = Function.update s.live s.nextExtent true :=
  live_setExtent _

theorem WellKept.makeExtent (h : WellKept s) (detached : Bool) : WellKept (s.makeExtent detached) := by
  have hfresh := h.unborn _ le_rfl
  have hchildren : (s.makeExtent detached).children = s.children :=
    children_setExtent (m := { Member.fresh with detached := detached }) (by rw [hfresh]; rfl)
  have halive : ∀ x, s.live x → (s.makeExtent detached).live x := by
    intro x hx
    rw [live_makeExtent, Function.update_of_ne (Nat.ne_of_lt (h.lt_of_live hx))]
    exact hx
  exact
    { acyclic := by rw [parent_makeExtent h]; exact h.acyclic
      mem_children := fun c p => by rw [hchildren, parent_makeExtent h]; exact h.mem_children c p
      alive := fun c p hcp => by
        rw [parent_makeExtent h] at hcp
        exact ⟨halive c (h.alive c p hcp).1, halive p (h.alive c p hcp).2⟩
      ownLists := h.ownLists.setExtent (m := { Member.fresh with detached := detached }) (.inl rfl)
      unborn := fun x hx => by
        have hx : s.nextExtent + 1 ≤ x := hx
        exact (Function.update_of_ne (by omega) ..).trans (h.unborn x (by omega))
      hasParent := fun x => by
        rw [parent_makeExtent h]
        by_cases hx : x = s.nextExtent
        · subst hx
          rw [parent, hfresh]
          exact congrArg Member.hasParent (Function.update_self _
            { Member.fresh with detached := detached } s.extents)
        · exact (congrArg Member.hasParent (Function.update_of_ne hx ..)).trans (h.hasParent x) }

theorem setExtent_addToChildrenList {m : Member} (hne : p ≠ e) :
    (s.setExtent e m).addToChildrenList p c = (s.addToChildrenList p c).setExtent e m := by
  unfold addToChildrenList
  rw [extents_setExtent, Function.update_of_ne hne]
  split
  · rfl
  · simp only [setExtent, Function.update_comm hne]

theorem copyExtent_eq (h : WellKept s) (hchildren : (s.extents e).children = none)
    (detached : Bool) :
    s.copyExtent e detached = ((s.makeExtent detached).setExtentParent s.nextExtent (s.parent e)).1 := by
  set new := s.nextExtent with hnew
  have hkept := h.makeExtent detached
  have hfresh : (s.makeExtent detached).extents new = { Member.fresh with detached := detached } :=
    Function.update_self ..
  have hlive : (s.makeExtent detached).live new := by
    rw [live, hfresh]
    rfl
  have hnone : (s.makeExtent detached).parent new = none := by
    rw [parent, hfresh]
    rfl
  have hparent := parent_setExtent (s := s.makeExtent detached) (e := new)
    { (s.makeExtent detached).extents new with
      hasParent := (s.extents e).hasParent
      parent := (s.extents e).parent
      children := (s.extents e).children }
  have hcopied := congrFun hparent new
  rw [Function.update_self] at hcopied
  rw [copyExtent]
  dsimp only
  rw [← hnew, hcopied]
  rcases hp : (s.extents e).parent with _ | p
  · rw [show s.parent e = none from hp, setExtentParent, if_neg (by simp [hlive]), if_neg (by simp),
      if_pos hnone.symm]
    dsimp only
    rw [h.hasParent, show s.parent e = none from hp, hchildren, setExtent]
    have hsame : { (s.makeExtent detached).extents new with
        hasParent := (none : Option ℕ).isSome, parent := none, children := none } =
          (s.makeExtent detached).extents new := by
      rw [hfresh]
      rfl
    rw [hsame, Function.update_eq_self]
  · have hplive := (h.alive e p hp).2
    have hlt := h.lt_of_live hplive
    have hpne : p ≠ new := Nat.ne_of_lt hlt
    have hmlive : (s.makeExtent detached).live p := by
      rw [live_makeExtent, Function.update_of_ne hpne]
      exact hplive
    have hnotcircular : ¬ (s.makeExtent detached).circular new (some p) := by
      rw [circular_iff hkept hmlive, parent_makeExtent h]
      rintro ⟨k, hk⟩
      -- the new extent is nobody's parent
      rcases k with _ | k
      · exact hpne (Option.some.inj hk)
      · rw [up_add] at hk
        obtain ⟨x, -, hx⟩ := Option.bind_eq_some_iff.mp hk
        rw [up_one] at hx
        exact absurd (h.lt_of_live (h.alive x new hx).2) (Nat.lt_irrefl _)
    rw [show s.parent e = some p from hp, setExtentParent, if_neg (by simp [hlive]),
      if_neg (by simp [hmlive]), if_neg (by rw [hnone]; exact nofun), if_neg hnotcircular]
    dsimp only
    rw [h.hasParent, show s.parent e = some p from hp, hchildren, setExtent_addToChildrenList hpne]
    have hsame : ((s.makeExtent detached).addToChildrenList p new).extents new =
        (s.makeExtent detached).extents new := by
      obtain ⟨w, hw⟩ := extents_addToChildrenList (s := s.makeExtent detached) p new
      rw [hw, Function.update_of_ne hpne.symm]
    rw [hsame, hfresh]
    rfl

theorem WellKept.copyExtent (h : WellKept s) (hchildren : (s.extents e).children = none)
    (detached : Bool) : WellKept (s.copyExtent e detached) := by
  rw [copyExtent_eq h hchildren]
  refine setExtentParent_wellKept (h.makeExtent detached) ?_
  rcases s.parent e with _ | p
  · exact id
  · rintro ⟨hnone, -⟩
    rw [parent_makeExtent h, parent, h.unborn _ le_rfl] at hnone
    exact hnone rfl

/-- A call does not move an extent from one parent to another and does not copy an extent that
has a list of children. -/
def KeepsBothSides (s : Family) : Op → Prop
  | .setExtentParent e parent => ¬ s.Moves e parent
  | .copyExtent e _ => s.live e → (s.extents e).children = none
  | _ => True

instance (s : Family) : ∀ op, Decidable (s.KeepsBothSides op)
  | .setExtentParent .. => inferInstanceAs (Decidable (¬ _))
  | .copyExtent .. => inferInstanceAs (Decidable (_ → _))
  | .makeExtent _ | .detachExtent _ | .deleteExtent _ => .isTrue trivial

theorem WellKept.step (h : WellKept s) {op : Op} (hop : s.KeepsBothSides op) (hs : s.step op = some t) :
    WellKept t := by
  cases op with
  | makeExtent detached =>
    cases hs
    exact h.makeExtent detached
  | copyExtent e detached =>
    simp only [Family.step, Option.ite_none_right_eq_some, Option.some.injEq] at hs
    obtain ⟨-, rfl⟩ := hs
    split
    · next he => exact h.copyExtent (hop he) detached
    · exact h
  | setExtentParent e parent =>
    simp only [Family.step, Option.ite_none_right_eq_some, Option.some.injEq] at hs
    obtain ⟨-, rfl⟩ := hs
    exact setExtentParent_wellKept h hop
  | detachExtent e =>
    simp only [Family.step, Option.ite_none_right_eq_some, Option.some.injEq] at hs
    obtain ⟨hlt, rfl⟩ := hs
    split
    · exact h.setExtent hlt rfl rfl rfl (.inl rfl)
    · exact h
  | deleteExtent e =>
    simp only [Family.step, Option.ite_none_right_eq_some, Option.some.injEq] at hs
    obtain ⟨-, rfl⟩ := hs
    split
    · next he =>
      obtain ⟨t, hdestroy, ht, -⟩ := destroyExtent_spec h he
      rw [hdestroy]
      exact ht
    · exact h

/-- The parents make a forest, children lists agree with it, and destroying an extent takes the
parent from exactly its children. -/
structure Consistent (s : Family) : Prop where
  acyclic : Acyclic s.parent
  mem_children : ∀ c p, s.live c → (c ∈ s.children p ↔ s.parent c = some p)
  destroy : ∀ p, s.live p → ∀ c, c ≠ p →
    (s.destroyExtent p).1.parent c = if s.parent c = some p then none else s.parent c

theorem WellKept.consistent (h : WellKept s) : Consistent s where
  acyclic := h.acyclic
  mem_children c p _ := h.mem_children c p
  destroy p hp c hc := by
    obtain ⟨t, hdestroy, -, hparent, -⟩ := destroyExtent_spec h hp
    rw [hdestroy, hparent, without]
    exact if_congr (by simp [hc]) rfl rfl

/-- In every run without the two slips, both sides of the relation agree. -/
theorem run_consistent {ops : List Op} (h : Run step KeepsBothSides empty ops t) : Consistent t :=
  (h.invariant wellKept_empty fun _ _ _ ht hop hs => ht.step hop hs).consistent

theorem run_consistent_orphan :
    ∃ t, Consistent t ∧ t.parent 1 = none ∧ t.parent 2 = none ∧ ¬ t.live 0 := by
  have hrun : Run step KeepsBothSides empty
      [.makeExtent true, .makeExtent false, .setExtentParent 1 (some 0), .copyExtent 1 true,
        .deleteExtent 0] _ := Run.of_execOk rfl
  exact ⟨_, run_consistent hrun, by decide, by decide, by decide⟩

/-- An extent moved from one parent to another stays a child of the first, which takes its parent
from it when it is destroyed. -/
theorem run_moved :
    ∃ t, Run step anyStep empty
        [.makeExtent true, .makeExtent true, .makeExtent true, .setExtentParent 2 (some 0),
          .setExtentParent 2 (some 1)] t ∧
      t.live 2 ∧ 2 ∈ t.children 0 ∧ t.parent 2 = some 1 ∧ (t.destroyExtent 0).1.parent 2 = none := by
  refine ⟨_, Run.of_exec rfl, ?_⟩
  decide

-- A copy of an extent with a child shares its list of children.
example : (exec step empty [.makeExtent true, .makeExtent true, .setExtentParent 1 (some 0),
    .copyExtent 0 true]).map (fun t => (t.children 2, t.parent 1)) = some ([1], some 0) := by
  decide

end XEmacs.Extent.Family
