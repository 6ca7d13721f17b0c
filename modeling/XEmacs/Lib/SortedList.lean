import Mathlib.Data.List.Sort
import Mathlib.Tactic.Common

/-! Lists in the strict order of a key, and the binary search for a place in one. A test that
fails for every element after one it fails for divides a list in two; the place of the
division is found by halving. -/

namespace XEmacs.Lib

variable {α β : Type*}

/-- Halve the interval as long as it is not empty, going right where `p` holds, in at most
`fuel` steps. -/
def bisect (p : ℕ → Bool) : ℕ → ℕ → ℕ → ℕ
  | 0, left, _ => left
  | fuel + 1, left, right =>
    if left ≠ right then
      let mid := (left + right) / 2
      if p mid then bisect p fuel (mid + 1) right else bisect p fuel left mid
    else left

theorem bisect_eq {p : ℕ → Bool} {n fuel left right : ℕ} (hl : left ≤ n) (hr : n ≤ right)
    (hfuel : right - left ≤ fuel) (hp : ∀ i, left ≤ i → i < right → (p i = true ↔ i < n)) :
    bisect p fuel left right = n := by
  induction fuel generalizing left right with
  | zero =>
    rw [bisect]
    omega
  | succ fuel ih =>
    rw [bisect]
    by_cases hne : left ≠ right
    · have hmid := hp ((left + right) / 2) (by omega) (by omega)
      rw [if_pos hne]
      simp only
      by_cases hgo : p ((left + right) / 2) = true
      · rw [if_pos hgo]
        exact ih (hmid.mp hgo) hr (by omega) fun i h1 h2 => hp i (by omega) h2
      · rw [if_neg hgo]
        exact ih hl (not_lt.mp (mt hmid.mpr hgo)) (by omega) fun i h1 h2 => hp i h1 (by omega)
    · rw [if_neg hne]
      omega

/-- `p` holds of an initial part of the list, and of nothing after it. -/
def Divides (p : α → Bool) (l : List α) : Prop := l.Pairwise fun a b => p b = true → p a = true

section Divides

variable {p : α → Bool} {l : List α}

theorem Divides.take_drop (h : Divides p l) :
    l.take (l.countP p) = l.filter p ∧ l.drop (l.countP p) = l.filter (fun a => !p a) := by
  induction l with
  | nil => exact ⟨rfl, rfl⟩
  | cons a l ih =>
    obtain ⟨hhead, htail⟩ := List.pairwise_cons.mp h
    by_cases ha : p a = true
    · rw [List.countP_cons_of_pos ha, List.filter_cons_of_pos ha, List.filter_cons_of_neg (by simp [ha])]
      obtain ⟨ih1, ih2⟩ := ih htail
      exact ⟨by rw [List.take_succ_cons, ih1], by rw [List.drop_succ_cons, ih2]⟩
    · have hnone : ∀ b ∈ l, p b = false := fun b hb => by
        rw [Bool.eq_false_iff]
        exact fun hpb => ha (hhead b hb hpb)
      have hcount : l.countP p = 0 := List.countP_eq_zero.mpr fun b hb => by simp [hnone b hb]
      rw [List.countP_cons_of_neg ha, List.filter_cons_of_neg ha, List.filter_cons_of_pos (by simp [ha]), hcount]
      refine ⟨?_, ?_⟩
      · rw [List.take_zero, eq_comm, List.filter_eq_nil_iff]
        exact fun b hb => by simp [hnone b hb]
      · rw [List.drop_zero, List.filter_eq_self.mpr]
        exact fun b hb => by simp [hnone b hb]

theorem Divides.getElem_iff (h : Divides p l) {i : ℕ} (hi : i < l.length) :
    p l[i] = true ↔ i < l.countP p := by
  obtain ⟨htake, hdrop⟩ := h.take_drop
  constructor
  · intro hp
    by_contra hge
    have hmem : l[i] ∈ l.drop (l.countP p) := by
      rw [List.mem_drop_iff_getElem]
      exact ⟨i - l.countP p, by omega, by congr 1; omega⟩
    rw [hdrop, List.mem_filter, hp] at hmem
    exact absurd hmem.2 (by simp)
  · intro hlt
    have hmem : l[i] ∈ l.take (l.countP p) := by
      rw [List.mem_take_iff_getElem]
      exact ⟨i, by omega, rfl⟩
    rw [htake] at hmem
    exact (List.mem_filter.mp hmem).2

theorem Divides.length_takeWhile (h : Divides p l) : (l.takeWhile p).length = l.countP p := by
  induction l with
  | nil => rfl
  | cons a l ih =>
    obtain ⟨hhead, htail⟩ := List.pairwise_cons.mp h
    by_cases ha : p a = true
    · rw [List.takeWhile_cons_of_pos ha, List.countP_cons_of_pos ha, List.length_cons, ih htail]
    · rw [List.takeWhile_cons_of_neg ha, List.countP_cons_of_neg ha, List.length_nil, eq_comm, List.countP_eq_zero]
      exact fun b hb hpb => ha (hhead b hb hpb)

theorem Divides.bisect_eq [Inhabited α] (h : Divides p l) :
    bisect (fun i => p (l.getD i default)) l.length 0 l.length = l.countP p := by
  refine Lib.bisect_eq (Nat.zero_le _) List.countP_le_length le_rfl fun i _ hi => ?_
  rw [List.getD_eq_getElem?_getD, List.getElem?_eq_getElem hi, Option.getD_some]
  exact h.getElem_iff hi

end Divides

section SortedBy

variable [LinearOrder β] {key key' : α → β} {l l' : List α} {a b : α}

def SortedBy (key : α → β) (l : List α) : Prop := l.Pairwise fun a b => key a < key b

theorem SortedBy.nodup (h : SortedBy key l) : l.Nodup := h.imp fun hlt heq => absurd (congrArg key heq) hlt.ne

theorem SortedBy.filter (h : SortedBy key l) (p : α → Bool) : SortedBy key (l.filter p) := List.Pairwise.filter p h

/-- A list in the order of a key is in the order of every key that orders its elements so. -/
theorem SortedBy.mono (h : SortedBy key l) (hmono : ∀ a ∈ l, ∀ b ∈ l, key a < key b → key' a < key' b) :
    SortedBy key' l :=
  List.Pairwise.imp_of_mem (fun ha hb hlt => hmono _ ha _ hb hlt) h

theorem SortedBy.congr (h : SortedBy key l) (heq : ∀ a ∈ l, key' a = key a) : SortedBy key' l :=
  h.mono fun a ha b hb hlt => by rwa [heq a ha, heq b hb]

theorem SortedBy.ext (h : SortedBy key l) (h' : SortedBy key l') (hmem : ∀ a, a ∈ l ↔ a ∈ l') : l = l' :=
  ((List.perm_ext_iff_of_nodup h.nodup h'.nodup).mpr hmem).eq_of_pairwise
    (fun _ _ _ _ hab hba => absurd hba hab.asymm) h h'

theorem SortedBy.divides (h : SortedBy key l) {p : α → Bool}
    (hp : ∀ a ∈ l, ∀ b ∈ l, key a < key b → p b = true → p a = true) : Divides p l :=
  List.Pairwise.imp_of_mem (fun ha hb hlt => hp _ ha _ hb hlt) h

theorem SortedBy.insert (h : SortedBy key l) {n : ℕ} (hn : n = l.countP fun b => decide (key b < key a))
    (hne : ∀ b ∈ l, key b ≠ key a) : SortedBy key (l.take n ++ a :: l.drop n) := by
  have hdiv : Divides (fun b => decide (key b < key a)) l := h.divides fun b _ c _ hlt hc => by
    rw [decide_eq_true_eq] at hc ⊢
    exact hlt.trans hc
  obtain ⟨htake, hdrop⟩ := hdiv.take_drop
  rw [hn, htake, hdrop]
  have hbelow : ∀ b ∈ l.filter (fun b => decide (key b < key a)), key b < key a := fun b hb =>
    of_decide_eq_true (List.mem_filter.mp hb).2
  have habove : ∀ b ∈ l.filter (fun b => !decide (key b < key a)), key a < key b := fun b hb => by
    obtain ⟨hb, hnot⟩ := List.mem_filter.mp hb
    rw [Bool.not_eq_true', decide_eq_false_iff_not] at hnot
    exact lt_of_le_of_ne (not_lt.mp hnot) (hne b hb).symm
  refine List.pairwise_append.mpr ⟨h.filter _, List.pairwise_cons.mpr ⟨habove, h.filter _⟩, fun b hb c hc => ?_⟩
  rcases List.mem_cons.mp hc with rfl | hc
  · exact hbelow b hb
  · exact (hbelow b hb).trans (habove c hc)

end SortedBy

end XEmacs.Lib
