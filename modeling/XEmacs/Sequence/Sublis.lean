import Mathlib.Data.List.Nodup
import XEmacs.Lisp.Plist

/-! `sublis`, `nsublis` and the shortcut through `subst`, from sequence.c. The conses can be
written to, the keywords are read, and an alist is given by its elements. -/

namespace XEmacs.Trees

open Lib Plists

variable {α : Type}

/-- What is signalled. -/
inductive TreeError (α : Type)
  | stackOverflow (message : String) (tree : Obj α)
  | circularList (tree : Obj α)

/-- A `check_test_func_t`; a function may look at the conses. -/
inductive CheckTest (α : Type)
  | eqNokey
  | eqlNokey
  | other (check : Heap α → Obj α → Obj α → Bool)

/-- The test and the key; no key is `Qidentity`. -/
structure Matching (α : Type) where
  nonFixnumNumberP : Obj α → Bool
  internalEqual : Heap α → Obj α → Obj α → Bool
  checkTest : CheckTest α
  testNotUnboundp : Bool
  key : Option (Heap α → Obj α → Obj α)

namespace Matching

variable [DecidableEq α] (K : Matching α) (alist : List (Obj α))

/-- `check_test`. -/
def check (h : Heap α) (item elt : Obj α) : Bool :=
  match K.checkTest with
  | .eqNokey => item = elt
  | .eqlNokey => item = elt || K.nonFixnumNumberP item && K.internalEqual h item elt
  | .other check => check h item elt

/-- `KEY`. -/
def keyed (h : Heap α) (tree : Obj α) : Obj α :=
  match K.key with
  | none => tree
  | some key => key h tree

/-- The loop over the alist: the value of the first entry that matches. -/
def entry (h : Heap α) (keyed : Obj α) : List (Obj α) → Option (Obj α)
  | [] => none
  | .atom _ :: rest => entry h keyed rest
  | .cons elt :: rest =>
    if K.check h (h.car elt) keyed = K.testNotUnboundp then some (h.cdr elt) else entry h keyed rest

def find (h : Heap α) (tree : Obj α) : Option (Obj α) := K.entry h (K.keyed h tree) alist

/-- `sublis`, `left` levels above the greatest depth. -/
def sublis : ℕ → Heap α → Obj α → Except (TreeError α) (Heap α × Obj α)
  | 0, _, tree => .error (.stackOverflow "Stack overflow in sublis" tree)
  | left + 1, h, tree =>
    match K.find alist h tree, tree with
    | some value, _ => .ok (h, value)
    | none, .atom a => .ok (h, .atom a)
    | none, .cons x =>
      sublis left h (h.car x) >>= fun aa =>
        sublis left aa.1 (aa.1.cdr x) >>= fun dd =>
          .ok (if aa.2 = dd.1.car x ∧ dd.2 = dd.1.cdr x then (dd.1, .cons x) else dd.1.cons aa.2 dd.2)

def subst (new old : Obj α) : ℕ → Heap α → Obj α → Except (TreeError α) (Heap α × Obj α)
  | 0, _, tree => .error (.stackOverflow "Stack overflow in subst" tree)
  | left + 1, h, tree =>
    if tree = old then .ok (h, new)
    else
      match tree with
      | .atom a => .ok (h, .atom a)
      | .cons x =>
        subst new old left h (h.car x) >>= fun aa =>
          subst new old left aa.1 (aa.1.cdr x) >>= fun dd =>
            .ok (if aa.2 = dd.1.car x ∧ dd.2 = dd.1.cdr x then (dd.1, .cons x) else dd.1.cons aa.2 dd.2)

/-- The test compares by `eq`, for this key of an entry. -/
def byEq (item : Obj α) : Bool :=
  match K.checkTest with
  | .eqNokey => true
  | .eqlNokey => !K.nonFixnumNumberP item
  | .other _ => false

/-- `Fsublis`, with `room` levels left of `max-lisp-eval-depth`. -/
def fsublis (room : ℕ) (h : Heap α) (tree : Obj α) : Except (TreeError α) (Heap α × Obj α) :=
  match alist with
  | [.cons x] =>
    if K.key.isNone ∧ K.testNotUnboundp ∧ K.byEq (h.car x) then subst (h.cdr x) (h.car x) (room + 1) h tree
    else K.sublis alist (room + 1) h tree
  | _ => K.sublis alist (room + 1) h tree

/-- What `nsublis` does for the car of a cons. -/
def replaceCar (descend : Heap α → Obj α → Option (Except (TreeError α) (Heap α))) (h : Heap α) (x : ℕ) :
    Option (Except (TreeError α) (Heap α)) :=
  match K.find alist h (h.car x), h.car x with
  | some value, _ => some (.ok { h with car := Function.update h.car x value })
  | none, .cons y => descend h (.cons y)
  | none, .atom _ => some (.ok h)

/-- And for the cdr, with the tree it goes on with. -/
def replaceCdr (h : Heap α) (x : ℕ) : Heap α × Obj α :=
  match K.find alist h (h.cdr x) with
  | some value => ({ h with cdr := Function.update h.cdr x value }, nil)
  | none => (h, h.cdr x)

/-- The loop of `nsublis` along the cdrs. -/
def nsublisLoop (descend : Heap α → Obj α → Option (Except (TreeError α) (Heap α))) :
    ℕ → Heap α → Obj α → Obj α → ℕ → Option (Except (TreeError α) (Heap α))
  | 0, _, _, _, _ => none
  | _ + 1, h, .atom _, _, _ => some (.ok h)
  | fuel + 1, h, .cons x, tortoise, count =>
    match K.replaceCar alist descend h x with
    | some (.ok h) =>
      let r := K.replaceCdr alist h x
      let tortoise := if count + 1 > 1024 ∧ (count + 1) % 2 = 1 then (r.1.xcdr tortoise).getD nil else tortoise
      if count + 1 > 1024 ∧ tortoise = r.2 then some (.error (.circularList r.2))
      else nsublisLoop descend fuel r.1 r.2 tortoise (count + 1)
    | other => other

/-- `nsublis`; `fuel` bounds the turns of each loop. -/
def nsublis (fuel : ℕ) : ℕ → Heap α → Obj α → Option (Except (TreeError α) (Heap α))
  | 0, _, tree => some (.error (.stackOverflow "Stack overflow in nsublis" tree))
  | left + 1, h, tree => K.nsublisLoop alist (nsublis fuel left) fuel h tree tree 0

def fnsublis (fuel room : ℕ) (h : Heap α) (tree : Obj α) : Option (Except (TreeError α) (Heap α × Obj α)) :=
  match K.find alist h tree with
  | some value => some (.ok (h, value))
  | none => (K.nsublis alist fuel (room + 1) h tree).map (Except.map (·, tree))

end Matching

inductive Tree (α : Type)
  | atom (a : Option α)
  | cons (x : ℕ) (car cdr : Tree α)

namespace Tree

def obj : Tree α → Obj α
  | atom a => .atom a
  | cons x _ _ => .cons x

def cells : Tree α → List ℕ
  | atom _ => []
  | cons x l r => x :: (l.cells ++ r.cells)

def Held (h : Heap α) : Tree α → Prop
  | atom _ => True
  | cons x l r => (h.car x = l.obj ∧ h.cdr x = r.obj) ∧ l.Held h ∧ r.Held h

end Tree

inductive Grafted (α : Type)
  | object (o : Obj α)
  | cons (car cdr : Grafted α)

/-- An object is such a tree, of conses of a kind. -/
def Reads (h : Heap α) (kind : ℕ → Prop) : Obj α → Grafted α → Prop
  | o, .object o' => o = o'
  | o, .cons l r => ∃ x, (kind x ∧ o = .cons x) ∧ Reads h kind (h.car x) l ∧ Reads h kind (h.cdr x) r

section

variable (found : Obj α → Option (Obj α))

/-- From the root on, the first subtrees for which there are values are replaced by these. -/
def replaced : Tree α → Grafted α
  | .atom a => .object ((found (.atom a)).getD (.atom a))
  | .cons x l r => (found (.cons x)).elim (.cons (replaced l) (replaced r)) .object

/-- How deep the conses are that are not replaced. -/
def levels : Tree α → ℕ
  | .atom _ => 0
  | .cons x l r => if (found (.cons x)).isSome then 0 else max (levels l) (levels r) + 1

end

/-- Outside some conses the heaps are the same, where they are allocated. -/
def SameOutside (cells : List ℕ) (h h' : Heap α) : Prop :=
  h.next ≤ h'.next ∧ ∀ x < h.next, x ∉ cells → h'.car x = h.car x ∧ h'.cdr x = h.cdr x

/-- The test and the key look only at the alist, which has no conses of the tree, and at what they are given. -/
def Matching.Pure [DecidableEq α] (K : Matching α) (alist : List (Obj α)) (h : Heap α) (t : Tree α) : Prop :=
  ∀ h', SameOutside t.cells h h' → ∀ s : Tree α, s.Held h → s.Held h' → K.find alist h' s.obj = K.find alist h s.obj

/-! ### `sublis` -/

section

variable {alist : List (Obj α)} {h h' : Heap α} {t s : Tree α} {x : ℕ}

theorem SameOutside.refl (cells : List ℕ) (h : Heap α) : SameOutside cells h h := ⟨le_rfl, fun _ _ _ => ⟨rfl, rfl⟩⟩

theorem SameOutside.trans {h'' : Heap α} {cells : List ℕ} (h₁ : SameOutside cells h h') (h₂ : SameOutside cells h' h'') :
    SameOutside cells h h'' := by
  refine ⟨h₁.1.trans h₂.1, fun x hx hout => ?_⟩
  rw [(h₂.2 x (hx.trans_le h₁.1) hout).1, (h₂.2 x (hx.trans_le h₁.1) hout).2]
  exact h₁.2 x hx hout

theorem Reads.congr {kind kind' : ℕ → Prop} {o : Obj α} {s : Grafted α} (hreads : Reads h kind o s)
    (hsame : ∀ x, kind x → (h'.car x = h.car x ∧ h'.cdr x = h.cdr x) ∧ kind' x) : Reads h' kind' o s := by
  induction s generalizing o with
  | object o' => exact hreads
  | cons l r ihl ihr =>
    obtain ⟨x, ⟨hx, ho⟩, hl, hr⟩ := hreads
    obtain ⟨⟨hcar, hcdr⟩, hx'⟩ := hsame x hx
    exact ⟨x, ⟨hx', ho⟩, hcar ▸ ihl hl, hcdr ▸ ihr hr⟩

theorem Tree.Held.congr (hheld : s.Held h) (hsame : ∀ x ∈ s.cells, h'.car x = h.car x ∧ h'.cdr x = h.cdr x) :
    s.Held h' := by
  induction s with
  | atom a => trivial
  | cons x l r ihl ihr =>
    simp only [cells, List.mem_cons, List.mem_append] at hsame
    obtain ⟨hcar, hcdr⟩ := hsame x (.inl rfl)
    refine ⟨⟨hcar.trans hheld.1.1, hcdr.trans hheld.1.2⟩, ihl hheld.2.1 ?_, ihr hheld.2.2 ?_⟩
    · exact fun y hy => hsame y (.inr (.inl hy))
    · exact fun y hy => hsame y (.inr (.inr hy))

theorem replaced_of_some {found : Obj α → Option (Obj α)} {value : Obj α} (hfound : found s.obj = some value) :
    replaced found s = .object value := by
  cases s <;> rw [Tree.obj] at hfound <;> simp [replaced, hfound]

theorem SameOutside.cons (h : Heap α) (car cdr : Obj α) : SameOutside [] h (h.cons car cdr).1 := by
  refine ⟨Nat.le_succ _, fun x hx _ => ?_⟩
  exact ⟨Function.update_of_ne hx.ne _ _, Function.update_of_ne hx.ne _ _⟩

variable [DecidableEq α] {K : Matching α}

theorem sublis_spec (hpure : K.Pure alist h t) (hheld : s.Held h) (hold : ∀ x ∈ s.cells, x < h.next) (left : ℕ)
    (hsame : SameOutside [] h h') :
    (levels (K.find alist h) s ≤ left → ∃ h'' o, K.sublis alist (left + 1) h' s.obj = .ok (h'', o) ∧
      SameOutside [] h' h'' ∧ Reads h'' (· < h''.next) o (replaced (K.find alist h) s)) ∧
    (left < levels (K.find alist h) s → ∃ tree, K.sublis alist (left + 1) h' s.obj =
      .error (.stackOverflow "Stack overflow in sublis" tree)) := by
  induction s generalizing left h' with
  | atom a =>
    have hfind := hpure h' ⟨hsame.1, fun x hx _ => hsame.2 x hx List.not_mem_nil⟩ (.atom a) trivial trivial
    rw [Tree.obj] at hfind ⊢
    refine ⟨fun _ => ?_, fun hlt => absurd hlt (Nat.not_lt_zero _)⟩
    unfold Matching.sublis
    rw [hfind, replaced]
    cases K.find alist h (.atom a) <;> exact ⟨h', _, rfl, .refl _ _, rfl⟩
  | cons x l r ihl ihr =>
    have hheld' : (Tree.cons x l r).Held h' := hheld.congr fun y hy => hsame.2 y (hold y hy) List.not_mem_nil
    have hfind := hpure h' ⟨hsame.1, fun x hx _ => hsame.2 x hx List.not_mem_nil⟩ _ hheld hheld'
    simp only [Tree.cells, List.mem_cons, List.mem_append] at hold
    have hl (left : ℕ) (h' : Heap α) := @ihl h' hheld.2.1 (fun y hy => hold y (.inr (.inl hy))) left
    have hr (left : ℕ) (h' : Heap α) := @ihr h' hheld.2.2 (fun y hy => hold y (.inr (.inr hy))) left
    rw [Tree.obj] at hfind ⊢
    unfold Matching.sublis
    rw [hfind, levels, replaced]
    cases K.find alist h (.cons x) with
    | some value => exact ⟨fun _ => ⟨h', value, rfl, .refl _ _, rfl⟩, fun hlt => absurd hlt (Nat.not_lt_zero _)⟩
    | none =>
      simp only [hheld'.1.1, Option.isSome_none, Bool.false_eq_true, if_false, Option.elim_none]
      cases left with
      | zero => exact ⟨fun hle => absurd hle (Nat.not_succ_le_zero _), fun _ => ⟨_, rfl⟩⟩
      | succ left =>
        rcases Nat.lt_or_ge left (levels (K.find alist h) l) with hlt | hle
        · obtain ⟨tree, herror⟩ := (hl left h' hsame).2 hlt
          rw [herror]
          exact ⟨fun hle => by omega, fun _ => ⟨tree, rfl⟩⟩
        · obtain ⟨h₁, aa, haa, hsame₁, hreads₁⟩ := (hl left h' hsame).1 hle
          have hx := hsame₁.2 x (Nat.lt_of_lt_of_le (hold x (.inl rfl)) hsame.1) List.not_mem_nil
          rw [haa]
          show (_ → ∃ h'' o, (K.sublis alist (left + 1) h₁ (h₁.cdr x) >>= _) = _ ∧ _) ∧
            (_ → ∃ tree, (K.sublis alist (left + 1) h₁ (h₁.cdr x) >>= _) = _)
          rw [hx.2, hheld'.1.2]
          rcases Nat.lt_or_ge left (levels (K.find alist h) r) with hlt | hle'
          · obtain ⟨tree, herror⟩ := (hr left h₁ (hsame.trans hsame₁)).2 hlt
            rw [herror]
            exact ⟨fun hle => by omega, fun _ => ⟨tree, rfl⟩⟩
          · obtain ⟨h₂, dd, hdd, hsame₂, hreads₂⟩ := (hr left h₁ (hsame.trans hsame₁)).1 hle'
            refine ⟨fun _ => ?_, fun hlt => by omega⟩
            rw [hdd]
            have hgrow {h₃ : Heap α} (hsame₃ : SameOutside [] h₂ h₃) :
                Reads h₃ (· < h₃.next) aa (replaced (K.find alist h) l) ∧
                Reads h₃ (· < h₃.next) dd (replaced (K.find alist h) r) := by
              constructor
              · exact hreads₁.congr fun y hy => ⟨(hsame₂.trans hsame₃).2 y hy List.not_mem_nil,
                  hy.trans_le (hsame₂.trans hsame₃).1⟩
              · exact hreads₂.congr fun y hy => ⟨hsame₃.2 y hy List.not_mem_nil, hy.trans_le hsame₃.1⟩
            by_cases heq : aa = h₂.car x ∧ dd = h₂.cdr x
            · refine ⟨h₂, .cons x, congrArg Except.ok (if_pos heq), hsame₁.trans hsame₂, x, ⟨?_, rfl⟩, ?_⟩
              · exact (hold x (.inl rfl)).trans_le ((hsame.trans hsame₁).trans hsame₂).1
              · rw [← heq.1, ← heq.2]
                exact hgrow (.refl _ _)
            · refine ⟨(h₂.cons aa dd).1, _, congrArg Except.ok (if_neg heq), (hsame₁.trans hsame₂).trans (.cons h₂ aa dd),
                h₂.next, ⟨Nat.lt_succ_self _, rfl⟩, ?_⟩
              rw [show (h₂.cons aa dd).1.car h₂.next = aa from Function.update_self _ _ _,
                show (h₂.cons aa dd).1.cdr h₂.next = dd from Function.update_self _ _ _]
              exact hgrow (.cons h₂ aa dd)

/-- An error of `sublis` as `subst` words it. -/
def TreeError.inSubst : TreeError α → TreeError α
  | stackOverflow _ tree => stackOverflow "Stack overflow in subst" tree
  | circularList tree => circularList tree

theorem subst_eq (hkey : K.key = none) (htest : K.testNotUnboundp = true) (hx : x < h.next)
    (heq : K.byEq (h.car x) = true) {left : ℕ} {o : Obj α} (hsame : SameOutside [] h h') :
    Matching.subst (h.cdr x) (h.car x) left h' o = (K.sublis [.cons x] left h' o).mapError TreeError.inSubst ∧
      ∀ h'' value, K.sublis [.cons x] left h' o = .ok (h'', value) → SameOutside [] h' h'' := by
  induction left generalizing h' o with
  | zero => exact ⟨rfl, fun _ _ hvalue => by cases hvalue⟩
  | succ left ih =>
    obtain ⟨hcar, hcdr⟩ := hsame.2 x hx List.not_mem_nil
    have hfind : K.find [.cons x] h' o = if o = h.car x then some (h.cdr x) else none := by
      rw [Matching.find, Matching.keyed, hkey, Matching.entry, htest, hcar, hcdr]
      refine if_congr ?_ rfl rfl
      rw [Matching.byEq] at heq
      rw [Matching.check, eq_comm (a := o)]
      split at heq
      · exact decide_eq_true_iff
      · rw [Bool.not_eq_true'] at heq
        rw [heq, Bool.false_and, Bool.or_false, decide_eq_true_iff]
      · cases heq
    unfold Matching.subst Matching.sublis
    rw [hfind]
    split_ifs with ho
    · exact ⟨rfl, fun _ _ hvalue => by cases hvalue; exact .refl _ _⟩
    · cases o with
      | atom a => exact ⟨rfl, fun _ _ hvalue => by cases hvalue; exact .refl _ _⟩
      | cons y =>
        simp only
        obtain ⟨haa, hgrows⟩ := ih (o := h'.car y) hsame
        rw [haa]
        cases hrun : K.sublis [.cons x] left h' (h'.car y) with
        | error e => exact ⟨rfl, fun _ _ hvalue => by cases hvalue⟩
        | ok aa =>
          have h₁ := hgrows _ _ hrun
          obtain ⟨hdd, hgrows'⟩ := ih (o := aa.1.cdr y) (hsame.trans h₁)
          show (Matching.subst (h.cdr x) (h.car x) left aa.1 (aa.1.cdr y) >>= _) = Except.mapError _
            (K.sublis [.cons x] left aa.1 (aa.1.cdr y) >>= _) ∧ ∀ h'' value,
              (K.sublis [.cons x] left aa.1 (aa.1.cdr y) >>= _) = _ → _
          rw [hdd]
          cases hrun' : K.sublis [.cons x] left aa.1 (aa.1.cdr y) with
          | error e => exact ⟨rfl, fun _ _ hvalue => by cases hvalue⟩
          | ok dd =>
            refine ⟨rfl, fun h'' value hvalue => (h₁.trans (hgrows' _ _ hrun')).trans ?_⟩
            have hvalue' := Except.ok.inj hvalue
            split_ifs at hvalue' <;> cases hvalue'
            · exact .refl _ _
            · exact .cons _ _ _

theorem fsublis_eq {room : ℕ} {o : Obj α} (halist : ∀ x, .cons x ∈ alist → x < h.next) :
    K.fsublis alist room h o = K.sublis alist (room + 1) h o ∨
      K.fsublis alist room h o = (K.sublis alist (room + 1) h o).mapError TreeError.inSubst := by
  unfold Matching.fsublis
  split
  · rename_i x
    split_ifs with hshort
    · obtain ⟨hkey, htest, heq⟩ := hshort
      exact .inr (subst_eq (Option.isNone_iff_eq_none.mp hkey) htest (halist x List.mem_cons_self) heq (.refl _ _)).1
    · exact .inl rfl
  · exact .inl rfl

/-! ### `nsublis` -/

omit [DecidableEq α] in
theorem tortoise_next {tortoise next : Obj α} {path : List ℕ} {count : ℕ}
    (hpath : Leads h.cdr tortoise (path ++ [x]) next) (hcount : path = [] → count = 0) :
    ∃ y ys, y ∈ path ++ [x] ∧ ys ⊆ path ++ [x] ∧ ys ≠ [] ∧
      (if count + 1 > 1024 ∧ (count + 1) % 2 = 1 then (h.xcdr tortoise).getD nil else tortoise) = .cons y ∧
      Leads h.cdr (.cons y) ys next := by
  split_ifs with hmove
  · obtain ⟨y, ys, rfl⟩ := List.exists_cons_of_ne_nil (show path ≠ [] by rintro rfl; have := hcount rfl; omega)
    obtain ⟨z, zs, hzs⟩ := List.exists_cons_of_ne_nil (show ys ++ [x] ≠ [] by simp)
    rw [List.cons_append, hzs] at hpath ⊢
    obtain ⟨rfl, hz, hleads⟩ := hpath
    exact ⟨z, z :: zs, by simp, by simp, by simp, hz, rfl, hleads⟩
  · obtain ⟨y, ys, hys⟩ := List.exists_cons_of_ne_nil (show path ++ [x] ≠ [] by simp)
    rw [hys] at hpath ⊢
    exact ⟨y, y :: ys, List.mem_cons_self, List.Subset.refl _, by simp, hpath.1, rfl, hpath.2⟩

omit [DecidableEq α] in
theorem Tree.mem_cells {y : ℕ} (hobj : s.obj = .cons y) : y ∈ s.cells := by
  cases s <;> cases hobj
  exact List.mem_cons_self

theorem nsublisLoop_spec (hpure : K.Pure alist h t) (hheld : s.Held h) (hcells : s.cells ⊆ t.cells)
    (hnodup : s.cells.Nodup) {fuel₀ fuel left : ℕ} (hfuel : s.cells.length < fuel) (hfuel₀ : s.cells.length < fuel₀)
    (hlevels : levels (K.find alist h) s ≤ left) (hnone : K.find alist h s.obj = none) {tortoise : Obj α}
    {count : ℕ} {path : List ℕ} (hnext : h'.next = h.next)
    (hsame : ∀ x, x ∈ s.cells ∨ x ∉ t.cells → h'.car x = h.car x ∧ h'.cdr x = h.cdr x)
    (hpath : Leads h'.cdr tortoise path s.obj) (hout : ∀ x ∈ path, x ∉ s.cells) (hcount : path = [] → count = 0) :
    ∃ h'', K.nsublisLoop alist (K.nsublis alist fuel₀ left) fuel h' s.obj tortoise count = some (.ok h'') ∧
      (h''.next = h'.next ∧ ∀ x ∉ s.cells, h''.car x = h'.car x ∧ h''.cdr x = h'.cdr x) ∧
      Reads h'' (· ∈ s.cells) s.obj (replaced (K.find alist h) s) := by
  induction s generalizing fuel left tortoise count path h' with
  | atom a =>
    obtain ⟨fuel, rfl⟩ := Nat.exists_eq_add_one_of_ne_zero (Nat.ne_zero_of_lt hfuel)
    rw [Tree.obj] at hnone
    refine ⟨h', rfl, ⟨rfl, fun _ _ => ⟨rfl, rfl⟩⟩, ?_⟩
    rw [replaced, hnone]
    rfl
  | cons x l r ihl ihr =>
    have hx : K.find alist h (.cons x) = none := hnone
    simp only [Tree.cells, List.nodup_cons, List.nodup_append, List.mem_append, not_or] at hnodup
    obtain ⟨⟨hxl, hxr⟩, hnl, hnr, hdisjoint⟩ := hnodup
    simp only [Tree.cells, List.cons_subset, List.append_subset] at hcells
    simp only [Tree.cells, List.mem_cons, List.mem_append, not_or] at hsame hout
    simp only [Tree.cells, List.length_cons, List.length_append] at hfuel hfuel₀
    rw [levels, hx, if_neg (by simp)] at hlevels
    obtain ⟨fuel, rfl⟩ := Nat.exists_eq_add_one_of_ne_zero (Nat.ne_zero_of_lt hfuel)
    obtain ⟨left, rfl⟩ := Nat.exists_eq_add_one_of_ne_zero (show left ≠ 0 by omega)
    have hrefl (y : ℕ) : y ∈ r.cells → y ≠ x ∧ y ∉ l.cells := fun hy => ⟨fun heq => hxr (heq ▸ hy), fun hl =>
      hdisjoint y hl y hy rfl⟩
    have hxh := hsame x (.inl (.inl rfl))
    -- the car, as it was in the first heap
    have hcar : ∃ h₁, K.replaceCar alist (K.nsublis alist fuel₀ (left + 1)) h' x = some (.ok h₁) ∧
        (h₁.next = h'.next ∧ ∀ y ∉ l.cells, (y ≠ x → h₁.car y = h'.car y) ∧ h₁.cdr y = h'.cdr y) ∧
        Reads h₁ (· ∈ l.cells) (h₁.car x) (replaced (K.find alist h) l) := by
      have hheld' : l.Held h' := hheld.2.1.congr fun y hy => hsame y (.inl (.inr (.inl hy)))
      have hfind := hpure h' ⟨hnext.ge, fun y _ hy => hsame y (.inr hy)⟩ l hheld.2.1 hheld'
      rw [Matching.replaceCar, hxh.1, hheld.1.1, hfind]
      cases hl : K.find alist h l.obj with
      | some value =>
        refine ⟨_, rfl, ⟨rfl, fun y _ => ⟨fun hy => Function.update_of_ne hy _ _, rfl⟩⟩, ?_⟩
        rw [replaced_of_some hl]
        exact Function.update_self _ _ _
      | none =>
        cases l with
        | atom a =>
          refine ⟨h', rfl, ⟨rfl, fun _ _ => ⟨fun _ => rfl, rfl⟩⟩, ?_⟩
          rw [Tree.obj] at hl
          rw [replaced, hl, hxh.1, hheld.1.1]
          rfl
        | cons y ll lr =>
          obtain ⟨h₁, hrun, ⟨hnext₁, hsame₁⟩, hreads⟩ := ihl hheld.2.1 hcells.2.1 hnl (show _ < fuel₀ by omega)
            (by omega) (show _ ≤ left by omega) hl hnext (fun z hz => hsame z (hz.imp_left fun h => .inr (.inl h)))
            (show Leads h'.cdr _ [] _ from rfl) (fun _ hz => absurd hz List.not_mem_nil) fun _ => rfl
          refine ⟨h₁, hrun, ⟨hnext₁, fun z hz => ⟨fun _ => (hsame₁ z hz).1, (hsame₁ z hz).2⟩⟩, ?_⟩
          rw [(hsame₁ x hxl).1, hxh.1, hheld.1.1]
          exact hreads
    obtain ⟨h₁, hrun, ⟨hnext₁, hsame₁⟩, hreads⟩ := hcar
    have hall (y : ℕ) (hy : y ∈ r.cells ∨ y ∉ t.cells) : h₁.car y = h.car y ∧ h₁.cdr y = h.cdr y := by
      have hyx : y ≠ x ∧ y ∉ l.cells :=
        hy.elim (hrefl y) fun hy => ⟨fun heq => hy (heq ▸ hcells.1), fun hl => hy (hcells.2.1 hl)⟩
      rw [(hsame₁ y hyx.2).1 hyx.1, (hsame₁ y hyx.2).2]
      exact hsame y (hy.imp_left fun hy => .inr (.inr hy))
    have hcdr : h₁.cdr x = r.obj := ((hsame₁ x hxl).2.trans hxh.2).trans hheld.1.2
    have hfind := hpure h₁ ⟨(hnext₁.trans hnext).ge, fun y _ hy => hall y (.inr hy)⟩ r hheld.2.2
      (hheld.2.2.congr fun y hy => hall y (.inl hy))
    have hleads {cdr : ℕ → Obj α} (hcdrs : ∀ y, y ≠ x → cdr y = h₁.cdr y) :
        Leads cdr tortoise (path ++ [x]) (cdr x) := by
      refine Leads.concat_iff.mpr ⟨hpath.congr fun y hy => ?_, rfl⟩
      rw [hcdrs y (hout y hy).1, (hsame₁ y (hout y hy).2.1).2]
    rw [Tree.obj, Matching.nsublisLoop, hrun, replaced, hx]
    cases hr : K.find alist h r.obj with
    | some value =>
      have hstep : K.replaceCdr alist h₁ x = ({ h₁ with cdr := Function.update h₁.cdr x value }, nil) := by
        rw [Matching.replaceCdr, hcdr, hfind, hr]
      obtain ⟨y, -, -, -, -, hy, -⟩ := tortoise_next (h := { h₁ with cdr := Function.update h₁.cdr x value })
        (hleads fun y hy => Function.update_of_ne hy _ _) hcount
      obtain ⟨fuel, rfl⟩ := Nat.exists_eq_add_one_of_ne_zero (show fuel ≠ 0 by omega)
      simp only [hstep, hy]
      rw [if_neg fun hcons => by cases hcons.2]
      refine ⟨_, rfl, ⟨hnext₁, fun y hy => ?_⟩, x, ⟨List.mem_cons_self, rfl⟩, ?_, ?_⟩
      · simp only [Tree.cells, List.mem_cons, List.mem_append, not_or] at hy
        rw [← (hsame₁ y hy.2.1).2]
        exact ⟨(hsame₁ y hy.2.1).1 hy.1, Function.update_of_ne hy.1 _ _⟩
      · exact hreads.congr fun y hy => ⟨⟨rfl, Function.update_of_ne (fun heq : y = x => hxl (heq ▸ hy)) _ _⟩,
          List.mem_cons_of_mem x (List.mem_append_left _ hy)⟩
      · rw [replaced_of_some hr]
        exact Function.update_self _ _ _
    | none =>
      have hstep : K.replaceCdr alist h₁ x = (h₁, r.obj) := by
        rw [Matching.replaceCdr, hcdr, hfind, hr]
      obtain ⟨y, ys, hmem, hsub, hys, hy, hleads'⟩ := tortoise_next (hcdr ▸ hleads fun _ _ => rfl) hcount
      have hpassed (z : ℕ) (hz : z ∈ path ++ [x]) : z ∉ r.cells := by
        rcases List.mem_append.mp hz with hz | hz
        · exact (hout z hz).2.2
        · exact List.mem_singleton.mp hz ▸ hxr
      simp only [hstep, hy]
      rw [if_neg fun hmeet => hpassed y hmem (Tree.mem_cells hmeet.2.symm)]
      obtain ⟨h₂, hloop, ⟨hnext₂, hsame₂⟩, hreads₂⟩ := ihr hheld.2.2 hcells.2.2 hnr (show _ < fuel by omega) (by omega)
        (show _ ≤ left + 1 by omega) hr (hnext₁.trans hnext) hall hleads' (fun z hz => hpassed z (hsub hz))
        fun hnil => absurd hnil hys
      refine ⟨h₂, hloop, ⟨hnext₂.trans hnext₁, fun y hy => ?_⟩, x, ⟨List.mem_cons_self, rfl⟩, ?_, ?_⟩
      · simp only [Tree.cells, List.mem_cons, List.mem_append, not_or] at hy
        rw [(hsame₂ y hy.2.2).1, (hsame₂ y hy.2.2).2]
        exact ⟨(hsame₁ y hy.2.1).1 hy.1, (hsame₁ y hy.2.1).2⟩
      · rw [(hsame₂ x hxr).1]
        exact hreads.congr fun y hy => ⟨hsame₂ y fun hr => hdisjoint y hy y hr rfl,
          List.mem_cons_of_mem x (List.mem_append_left _ hy)⟩
      · rw [(hsame₂ x hxr).2, hcdr]
        exact hreads₂.congr fun y hy => ⟨⟨rfl, rfl⟩, List.mem_cons_of_mem x (List.mem_append_right _ hy)⟩

end

section

variable [DecidableEq α] (K : Matching α) (alist : List (Obj α)) (fuel room : ℕ) (h : Heap α) (t : Tree α)

/-- `sublis` and `nsublis` give the tree with the values, and whatever `sublis` returns it also
returns by the recursion. -/
def SublisAgree : Prop :=
  (∃ h' o, K.fsublis alist room h t.obj = .ok (h', o) ∧ SameOutside [] h h' ∧
    Reads h' (· < h'.next) o (replaced (K.find alist h) t)) ∧
  (∃ h' o, K.fnsublis alist fuel room h t.obj = some (.ok (h', o)) ∧
    Reads h' (· < h'.next) o (replaced (K.find alist h) t)) ∧
  ∀ value, K.fsublis alist room h t.obj = .ok value ↔ K.sublis alist (room + 1) h t.obj = .ok value

end

/-- A list of two ones, and the entry `(1 . 5)`. -/
def ones : Heap ℕ := ⟨fun _ => .atom (some 1), fun x => if x = 0 then .cons 1 else if x = 1 then nil else .atom (some 5), 3⟩

def onesTree : Tree ℕ := .cons 0 (.atom (some 1)) (.cons 1 (.atom (some 1)) (.atom none))

/-- `eq`, without a key. -/
def byIdentity : Matching ℕ := ⟨fun _ => false, fun _ _ _ => false, .eqNokey, true, none⟩

theorem pure_ones : byIdentity.Pure [.cons 2] ones onesTree := by
  intro h' hsame s _ _
  obtain ⟨hcar, hcdr⟩ := hsame.2 2 (by decide) (by decide)
  rw [Matching.find, Matching.entry, hcar, hcdr]
  rfl

end XEmacs.Trees
