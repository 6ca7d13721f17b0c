import Mathlib.Data.List.TakeWhile

/-! The first of all those items of a list that are related: the items without later ones related to
them. A relation is given by a test; where it is an equivalence, an item is a first one just if it is
the first in the list that is related to itself. -/

namespace XEmacs.Lib

variable {α : Type*} (r : α → α → Bool)

structure Equivalent (r : α → α → Bool) : Prop where
  refl : ∀ a, r a a = true
  symm : ∀ {a b}, r a b = true → r b a = true
  trans : ∀ {a b c}, r a b = true → r b c = true → r a c = true

def others (a : α) (l : List α) : List α := l.filter fun b => !r b a

theorem length_others_le (a : α) (l : List α) : (others r a l).length ≤ l.length := List.length_filter_le _ _

def firsts : List α → List α
  | [] => []
  | a :: l => a :: firsts (others r a l)
termination_by l => l.length
decreasing_by exact Nat.lt_succ_of_le (length_others_le r a l)

/-- The firsts where some items, that are kept, are passed over without regard to later ones related
to them; at the start they are left out. -/
def firstsPassing (p : α → Bool) : Bool → List α → List α
  | _, [] => []
  | start, a :: l =>
    if p a then (if start then firstsPassing p true l else a :: firstsPassing p false l)
    else a :: firstsPassing p false (others r a l)
termination_by _ l => l.length
decreasing_by
  · exact Nat.lt_succ_self _
  · exact Nat.lt_succ_self _
  · exact Nat.lt_succ_of_le (length_others_le r a l)

variable {r} {p : α → Bool} {a b : α} {l l' : List α}

theorem Equivalent.congr (h : Equivalent r) (hab : r a b = true) (c : α) : r c a = r c b :=
  Bool.eq_iff_iff.mpr ⟨fun hc => h.trans hc hab, fun hc => h.trans hc (h.symm hab)⟩

theorem mem_others : b ∈ others r a l ↔ b ∈ l ∧ ¬ r b a = true := by
  rw [others, List.mem_filter, Bool.not_eq_true', Bool.not_eq_true]

theorem find?_others (h : Equivalent r) (hab : ¬ r b a = true) (l : List α) :
    (others r a l).find? (r · b) = l.find? (r · b) := by
  rw [others, List.find?_filter]
  refine congrArg (List.find? · l) (funext fun c => ?_)
  cases hcb : r c b with
  | false => simp
  | true =>
    have hca : ¬ r c a = true := fun hca => hab (h.trans (h.symm hcb) hca)
    simp [hca]

theorem find?_of_mem_firsts (h : Equivalent r) (hb : b ∈ firsts r l) : l.find? (r · b) = some b := by
  induction l using firsts.induct r with
  | case1 => rw [firsts] at hb; exact absurd hb List.not_mem_nil
  | case2 a l ih =>
    rw [firsts, List.mem_cons] at hb
    rcases hb with rfl | hb
    · exact List.find?_cons_of_pos (h.refl b)
    · have hfound := ih hb
      have hba := (mem_others.mp (List.mem_of_find?_eq_some hfound)).2
      rw [find?_others h hba] at hfound
      have hab : r a b = false := Bool.eq_false_iff.mpr fun hab => hba (h.symm hab)
      rw [List.find?_cons, hab]
      exact hfound

/-- Without anything to be passed over there are the firsts. -/
theorem firstsPassing_of_not (hp : ∀ a ∈ firsts r l, ¬ p a = true) (start : Bool) : firstsPassing r p start l = firsts r l := by
  induction l using firsts.induct r generalizing start with
  | case1 => rw [firstsPassing, firsts]
  | case2 a l ih =>
    rw [firsts] at hp ⊢
    rw [firstsPassing, if_neg (hp a List.mem_cons_self), ih (fun b hb => hp b (List.mem_cons_of_mem a hb))]

theorem firstsPassing_start (l : List α) : firstsPassing r p true l = firstsPassing r p false (l.dropWhile p) := by
  induction l with
  | nil => rw [List.dropWhile_nil, firstsPassing, firstsPassing]
  | cons a l ih =>
    by_cases ha : p a = true
    · rw [firstsPassing, if_pos ha, if_pos rfl, List.dropWhile_cons_of_pos ha, ih]
    · rw [List.dropWhile_cons_of_neg ha, firstsPassing, if_neg ha, firstsPassing, if_neg ha]

theorem exists_mem_firstsPassing (h : Equivalent r) (hb : b ∈ l) : ∃ c ∈ firstsPassing r p false l, r c b = true := by
  induction hn : l.length using Nat.strongRecOn generalizing l with
  | ind n ih =>
    cases l with
    | nil => exact absurd hb List.not_mem_nil
    | cons a l =>
      rw [firstsPassing]
      rcases List.mem_cons.mp hb with rfl | hb
      · refine ⟨b, ?_, h.refl b⟩
        simp only [Bool.false_eq_true, if_false]
        split_ifs <;> exact List.mem_cons_self
      simp only [Bool.false_eq_true, if_false]
      split_ifs
      · obtain ⟨c, hc, hcb⟩ := ih _ (hn ▸ Nat.lt_succ_self _) hb rfl
        exact ⟨c, List.mem_cons_of_mem a hc, hcb⟩
      · by_cases hab : r b a = true
        · exact ⟨a, List.mem_cons_self, h.symm hab⟩
        · have hlt : (others r a l).length < n := hn ▸ Nat.lt_succ_of_le (length_others_le r a l)
          obtain ⟨c, hc, hcb⟩ := ih _ hlt (mem_others.mpr ⟨hb, hab⟩) rfl
          exact ⟨c, List.mem_cons_of_mem a hc, hcb⟩

theorem firsts_append (hapart : ∀ a ∈ l, ∀ b ∈ l', ¬ r b a = true) (hp : ∀ a ∈ l, p a = true) :
    (firsts r (l ++ l')).filter (!p ·) = (firsts r l').filter (!p ·) := by
  induction hn : l.length using Nat.strongRecOn generalizing l with
  | ind n ih =>
    cases l with
    | nil => rfl
    | cons a l =>
      have hrest : others r a l' = l' := List.filter_eq_self.mpr fun b hb => by
        simpa using hapart a List.mem_cons_self b hb
      have hlt : (others r a l).length < n := hn ▸ Nat.lt_succ_of_le (length_others_le r a l)
      rw [List.cons_append, firsts, List.filter_cons_of_neg (by simp [hp a List.mem_cons_self]), others, List.filter_append,
        ← others, ← others, hrest]
      exact ih _ hlt (fun b hb => hapart b (List.mem_cons_of_mem a (mem_others.mp hb).1))
        (fun b hb => hp b (List.mem_cons_of_mem a (mem_others.mp hb).1)) rfl

/-- Passing over some items gives the firsts without them, just where nothing after the leading ones
comes first in one of them. -/
theorem firstsPassing_eq_iff (h : Equivalent r) (l : List α) :
    firstsPassing r p true l = (firsts r l).filter (!p ·) ↔
      ∀ b ∈ l.dropWhile p, ∀ a, l.find? (r · b) = some a → ¬ p a = true := by
  rw [firstsPassing_start]
  constructor
  · intro heq b hb a ha hpa
    obtain ⟨c, hc, hcb⟩ := exists_mem_firstsPassing (p := p) h hb
    rw [heq, List.mem_filter] at hc
    have hfound := find?_of_mem_firsts h hc.1
    rw [show (r · c) = (r · b) from funext (h.congr hcb), ha] at hfound
    rw [Option.some.inj hfound] at hpa
    exact absurd hc.2 (by simp [hpa])
  · intro hfirst
    have hsplit : l.takeWhile p ++ l.dropWhile p = l := List.takeWhile_append_dropWhile
    have hfind (b : α) : l.find? (r · b) = ((l.takeWhile p).find? (r · b)).or ((l.dropWhile p).find? (r · b)) := by
      rw [← List.find?_append, hsplit]
    have hlead : ∀ a ∈ l.takeWhile p, p a = true := fun a ha => List.mem_takeWhile_imp ha
    have hapart : ∀ a ∈ l.takeWhile p, ∀ b ∈ l.dropWhile p, ¬ r b a = true := by
      intro a ha b hb hba
      -- what comes first for `b` is among the leading items
      have hsome : ((l.takeWhile p).find? (r · b)).isSome = true := List.find?_isSome.mpr ⟨a, ha, h.symm hba⟩
      obtain ⟨c, hc⟩ := Option.isSome_iff_exists.mp hsome
      have hfound := hfind b
      rw [hc, Option.some_or] at hfound
      exact hfirst b hb c hfound (hlead c (List.mem_of_find?_eq_some hc))
    have hkept : ∀ b ∈ firsts r (l.dropWhile p), ¬ p b = true := by
      intro b hb
      have hfound := find?_of_mem_firsts h hb
      have hmem := List.mem_of_find?_eq_some hfound
      refine hfirst b hmem b ?_
      rw [hfind, hfound, List.find?_eq_none.mpr fun a ha hab => hapart a ha b hmem (h.symm hab), Option.none_or]
    have happend := firsts_append hapart hlead
    rw [hsplit] at happend
    rw [firstsPassing_of_not hkept, happend]
    refine (List.filter_eq_self.mpr fun b hb => ?_).symm
    simpa using hkept b hb

end XEmacs.Lib
