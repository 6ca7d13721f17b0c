import Mathlib.Data.List.Induction
import Mathlib.Data.List.Nodup
import Mathlib.Logic.Function.Basic
import Mathlib.Logic.Relation

/-! Classes that are kept as circular lists. A function gives the element that each element is linked behind;
the lists are its classes just where it is idempotent and nothing was linked before. -/

namespace XEmacs.Lib.Circular

open Relation

variable {α : Type*} {f k : α → α} {a b t x y : α} {l : List α}

/-- `y` is met on the way from `x`. -/
def Reaches (f : α → α) : α → α → Prop := ReflTransGen fun x y => f x = y

/-- The ways along `f` lead just to the elements of the same class. -/
def Lists (f k : α → α) : Prop := ∀ x y, Reaches f x y ↔ k x = k y

/-- A way on which only the last element may be outside the list. -/
def Through (l : List α) (f : α → α) : α → α → Prop := ReflTransGen fun x y => x ∈ l ∧ f x = y

theorem Through.reaches (h : Through l f x y) : Reaches f x y := ReflTransGen.mono (fun _ _ hxy => hxy.2) _ _ h

theorem eq_of_reaches (hfix : f x = x) (h : Reaches f x y) : y = x := by
  induction h with
  | refl => rfl
  | tail _ hstep ih => rw [← hstep, ih, hfix]

variable [DecidableEq α]

def insertAfter (f : α → α) (a b : α) : α → α := Function.update (Function.update f a b) b (f a)

/-- An element is linked behind that of its class. -/
def link (k f : α → α) (b : α) : α → α := if b = k b then f else insertAfter f (k b) b

@[simp] theorem insertAfter_right (f : α → α) (a b : α) : insertAfter f a b b = f a := Function.update_self _ _ _

theorem insertAfter_left (h : a ≠ b) : insertAfter f a b a = b := by
  rw [insertAfter, Function.update_of_ne h, Function.update_self]

theorem insertAfter_of_ne (ha : x ≠ a) (hb : x ≠ b) : insertAfter f a b x = f x := by
  rw [insertAfter, Function.update_of_ne hb, Function.update_of_ne ha]

section Insert

variable (hfix : f b = b) (hsymm : ∀ x y, Reaches f x y → Reaches f y x) (hne : a ≠ b)

include hfix hsymm

omit [DecidableEq α] in
theorem ne_of_fixed (hx : x ≠ b) : f x ≠ b :=
  fun hfx => hx (eq_of_reaches hfix (hsymm x b (.single hfx)))

include hne

theorem reaches_of_insertAfter (h : Reaches (insertAfter f a b) x y) :
    Reaches f (Function.update id b a x) (Function.update id b a y) := by
  induction h with
  | refl => exact .refl
  | @tail u w _ hstep ih =>
    refine ih.trans ?_
    subst hstep
    by_cases hub : u = b
    · subst hub
      rw [insertAfter_right, Function.update_self, Function.update_of_ne (ne_of_fixed hfix hsymm hne)]
      exact .single rfl
    · rw [Function.update_of_ne hub, id]
      by_cases hua : u = a
      · subst hua
        rw [insertAfter_left hne, Function.update_self]
      · rw [insertAfter_of_ne hua hub, Function.update_of_ne (ne_of_fixed hfix hsymm hub)]
        exact .single rfl

theorem insertAfter_reaches (hx : x ≠ b) (h : Reaches f x y) :
    y ≠ b ∧ Reaches (insertAfter f a b) x y := by
  induction h with
  | refl => exact ⟨hx, .refl⟩
  | @tail u w _ hstep ih =>
    subst hstep
    refine ⟨ne_of_fixed hfix hsymm ih.1, ih.2.trans ?_⟩
    by_cases hua : u = a
    · subst hua
      exact .tail (.single (insertAfter_left hne)) (insertAfter_right f u b)
    · exact .single (insertAfter_of_ne hua ih.1)

theorem reaches_insertAfter_iff : Reaches (insertAfter f a b) x y ↔
    Reaches f (Function.update id b a x) (Function.update id b a y) := by
  refine ⟨reaches_of_insertAfter hfix hsymm hne, fun h => ?_⟩
  have hlift {u w : α} (hu : u ≠ b) (huw : Reaches f u w) := (insertAfter_reaches hfix hsymm hne hu huw).2
  by_cases hx : x = b <;> by_cases hy : y = b
  · rw [hx, hy]
    exact .refl
  · rw [hx, Function.update_self, Function.update_of_ne hy, id] at h
    -- from the element in front the way back to it leads on
    have hback : Reaches f (f a) y := (hsymm a (f a) (.single rfl)).trans h
    rw [hx]
    exact .head (insertAfter_right f a b) (hlift (ne_of_fixed hfix hsymm hne) hback)
  · rw [hy, Function.update_self, Function.update_of_ne hx, id] at h
    rw [hy]
    exact .tail (hlift hx h) (insertAfter_left hne)
  · rw [Function.update_of_ne hx, Function.update_of_ne hy] at h
    exact hlift hx h

end Insert

theorem Lists.insertAfter (h : Lists f k) (hne : a ≠ b) (ha : k a = a) (hb : ∀ x, k x = k b → x = b) :
    Lists (insertAfter f a b) (Function.update k b a) := by
  have hsymm : ∀ x y, Reaches f x y → Reaches f y x := fun x y hxy => (h y x).mpr ((h x y).mp hxy).symm
  have hfix : f b = b := hb (f b) ((h b (f b)).mp (.single rfl)).symm
  have hkey (z : α) : k (Function.update id b a z) = Function.update k b a z := by
    by_cases hz : z = b
    · rw [hz, Function.update_self, Function.update_self, ha]
    · rw [Function.update_of_ne hz, Function.update_of_ne hz, id]
  intro x y
  rw [reaches_insertAfter_iff hfix hsymm hne, h, hkey, hkey]

theorem Through.insertAfter (hb : b ∉ l) (hne : a ≠ b) (h : Through l f x y) :
    Through (l ++ [b]) (insertAfter f a b) x y := by
  have hmem {z : α} (hz : z ∈ l) : z ∈ l ++ [b] := List.mem_append_left _ hz
  induction h with
  | refl => exact .refl
  | @tail u w _ hstep ih =>
    obtain ⟨hu, rfl⟩ := hstep
    refine ih.trans ?_
    by_cases hua : u = a
    · subst hua
      exact .tail (.single ⟨hmem hu, insertAfter_left hne⟩) ⟨List.mem_append_right _ (List.mem_singleton_self b), insertAfter_right f u b⟩
    · exact .single ⟨hmem hu, insertAfter_of_ne hua (ne_of_mem_of_not_mem hu hb)⟩

omit [DecidableEq α] in
theorem lists_id : Lists id (id : α → α) := by
  intro x y
  constructor
  · intro h
    induction h with
    | refl => rfl
    | tail _ hstep ih => exact ih.trans hstep
  · rintro rfl
    exact .refl

/-- Where the function is idempotent, the elements that were linked are in the lists of their classes. -/
theorem lists_foldl_link (hl : l.Nodup) (hidem : ∀ x, k (k x) = k x) :
    Lists (l.foldl (link k) id) fun x => if x ∈ l then k x else x := by
  induction l using List.reverseRecOn with
  | nil => exact lists_id
  | append_singleton l b ih =>
    obtain ⟨hl, -, hdisjoint⟩ := List.nodup_append.mp hl
    have hb : b ∉ l := fun h => hdisjoint b h b (List.mem_singleton_self b) rfl
    have hkey : (fun x => if x ∈ l ++ [b] then k x else x) =
        Function.update (fun x => if x ∈ l then k x else x) b (k b) := by
      funext x
      by_cases hx : x = b
      · subst hx
        rw [Function.update_self, if_pos (List.mem_append_right _ (List.mem_singleton_self x))]
      · rw [Function.update_of_ne hx]
        simp [hx]
    rw [List.foldl_append, List.foldl_cons, List.foldl_nil, link, hkey]
    split_ifs with hself
    · rw [← hself]
      have hsame : Function.update (fun x => if x ∈ l then k x else x) b b = fun x => if x ∈ l then k x else x :=
        Function.update_eq_self_iff.mpr (if_neg hb).symm
      rw [hsame]
      exact ih hl
    · refine (ih hl).insertAfter (fun h => hself h.symm) ?_ fun x hx => ?_
      · rw [hidem, ite_self]
      · rw [if_neg hb] at hx
        split_ifs at hx with hmem
        · -- a class known by an element that is not known by itself
          rw [← hx, hidem, hx] at hself
          exact absurd rfl hself
        · exact hx

theorem through_foldl_link (hl : l.Nodup) : (∀ c ∉ l, Through l (l.foldl (link k) id) (l.foldl (link k) id c) c) ∧
    ∀ x ∈ l, Through l (l.foldl (link k) id) x (k x) ∨ Through l (l.foldl (link k) id) (k x) x := by
  induction l using List.reverseRecOn with
  | nil => exact ⟨fun c _ => .refl, fun x hx => absurd hx List.not_mem_nil⟩
  | append_singleton l b ih =>
    obtain ⟨hl, -, hdisjoint⟩ := List.nodup_append.mp hl
    have hb : b ∉ l := fun h => hdisjoint b h b (List.mem_singleton_self b) rfl
    have hlast : b ∈ l ++ [b] := List.mem_append_right _ (List.mem_singleton_self b)
    obtain ⟨hout, hin⟩ := ih hl
    rw [List.foldl_append, List.foldl_cons, List.foldl_nil, link]
    generalize l.foldl (link k) id = f at hout hin
    split_ifs with hself
    · have hmono {x y : α} (h : Through l f x y) : Through (l ++ [b]) f x y :=
        ReflTransGen.mono (fun _ _ hxy => ⟨List.mem_append_left _ hxy.1, hxy.2⟩) _ _ h
      refine ⟨fun c hc => hmono (hout c fun h => hc (List.mem_append_left _ h)), fun x hx => ?_⟩
      rcases List.mem_append.mp hx with hx | hx
      · exact (hin x hx).imp hmono hmono
      · rw [List.mem_singleton.mp hx, ← hself]
        exact .inl .refl
    · have hne : k b ≠ b := fun h => hself h.symm
      have hlift {x y : α} (h : Through l f x y) := h.insertAfter hb hne
      refine ⟨fun c hc => ?_, fun x hx => ?_⟩
      · have hcl : c ∉ l := fun h => hc (List.mem_append_left _ h)
        have hcb : c ≠ b := fun h => hc (h ▸ hlast)
        by_cases hca : c = k b
        · rw [hca] at hcl ⊢
          rw [insertAfter_left hne]
          exact .head ⟨hlast, insertAfter_right f _ b⟩ (hlift (hout _ hcl))
        · rw [insertAfter_of_ne hca hcb]
          exact hlift (hout c hcl)
      · rcases List.mem_append.mp hx with hx | hx
        · exact (hin x hx).imp hlift hlift
        · rw [List.mem_singleton.mp hx]
          by_cases hkb : k b ∈ l
          · exact .inr (.single ⟨List.mem_append_left _ hkb, insertAfter_left hne⟩)
          · exact .inl (.head ⟨hlast, insertAfter_right f _ b⟩ (hlift (hout _ hkb)))

theorem foldl_link_ne (ht : t ∉ l) (hf : ∀ x, f x ≠ t) (x : α) : l.foldl (link k) f x ≠ t := by
  induction l generalizing f with
  | nil => exact hf x
  | cons b l ih =>
    have hb : t ≠ b := List.ne_of_not_mem_cons ht
    refine ih (List.not_mem_of_not_mem_cons ht) fun y => ?_
    rw [link]
    split_ifs with hself
    · exact hf y
    · by_cases hyb : y = b
      · rw [hyb, insertAfter_right]
        exact hf (k b)
      · by_cases hya : y = k b
        · rw [hya, insertAfter_left fun h => hself h.symm]
          exact hb.symm
        · rw [insertAfter_of_ne hya hyb]
          exact hf y

theorem foldl_link_of_notMem (hx : x ∉ l) : l.foldl (link k) f x = f x ∨ l.foldl (link k) f x ∈ l := by
  induction l generalizing f with
  | nil => exact .inl rfl
  | cons b l ih =>
    rw [List.foldl_cons]
    rcases ih (f := link k f b) (List.not_mem_of_not_mem_cons hx) with heq | hmem
    · rw [heq, link]
      split_ifs with hself
      · exact .inl rfl
      · by_cases hxa : x = k b
        · rw [hxa, insertAfter_left fun h => hself h.symm]
          exact .inr List.mem_cons_self
        · exact .inl (insertAfter_of_ne hxa (List.ne_of_not_mem_cons hx))
    · exact .inr (List.mem_cons_of_mem b hmem)

section Iff

variable (hl : l.Nodup) (hk : ∀ x ∉ l, k x = x) (hin : ∀ x ∈ l, f x = x) (hout : ∀ x ∉ l, f x = x ∨ f x ∈ l)

include hin hout

theorem fixed_of_lists (h : Lists (l.foldl (link k) f) k) (t : α) : f t = t := by
  by_contra hne
  have ht : t ∉ l := fun hmem => hne (hin t hmem)
  have hrange : ∀ x, f x ≠ t := by
    intro x hx
    by_cases hmem : x ∈ l
    · exact ht (((hin x hmem).symm.trans hx) ▸ hmem)
    · rcases hout x hmem with heq | hval
      · exact hne ((heq.symm.trans hx) ▸ hx)
      · exact ht (hx ▸ hval)
  have hnot := foldl_link_ne (k := k) ht hrange
  have hback := (h _ t).mpr ((h t _).mp (.single rfl)).symm
  rcases ReflTransGen.cases_tail hback with heq | ⟨y, -, hy⟩
  · exact hnot t heq.symm
  · exact hnot y hy

include hl hk

/-- The lists are the classes just where the function is idempotent and nothing was linked before. -/
theorem lists_foldl_link_iff : Lists (l.foldl (link k) f) k ↔ (∀ x, k (k x) = k x) ∧ ∀ x, f x = x := by
  constructor
  · intro h
    have hfixed := fixed_of_lists hin hout h
    obtain rfl : f = id := funext hfixed
    refine ⟨fun x => ?_, hfixed⟩
    by_cases hx : x ∈ l
    · rcases (through_foldl_link hl).2 x hx with hway | hway
      · exact ((h x (k x)).mp hway.reaches).symm
      · exact (h (k x) x).mp hway.reaches
    · rw [hk x hx, hk x hx]
  · rintro ⟨hidem, hfixed⟩
    obtain rfl : f = id := funext hfixed
    have hlists := lists_foldl_link hl hidem
    have hkey : (fun x => if x ∈ l then k x else x) = k := by
      funext x
      split_ifs with hx
      · rfl
      · exact (hk x hx).symm
    rwa [hkey] at hlists

end Iff

end XEmacs.Lib.Circular
