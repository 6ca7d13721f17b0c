import Mathlib.Data.List.Infix

/-! Tries whose nodes are numbers. The entry of a node for a letter is empty, another node or a
leaf, and a word is followed from letter to letter. A map from nodes to words, their addresses, is
all that is needed of the shape: it gives each node at most one place, so that the change of an
entry is seen by the words that go through it and by no others. -/

namespace XEmacs.Lib

inductive Entry (α : Type*)
  | empty
  | node (c : ℕ)
  | leaf (a : α)

inductive Found (α : Type*)
  | unbound
  | node (c : ℕ)
  | leaf (a : α)
  | tooLong

variable {κ α : Type*}

abbrev Trie (κ α : Type*) : Type _ := ℕ → κ → Entry α

def Entry.follow (find : ℕ → List κ → Found α) : Entry α → List κ → Found α
  | empty, _ => .unbound
  | node c, ks => find c ks
  | leaf a, [] => .leaf a
  | leaf _, _ :: _ => .tooLong

namespace Trie

def find (t : Trie κ α) : ℕ → List κ → Found α
  | i, [] => .node i
  | i, k :: ks =>
    match t i k with
    | .empty => .unbound
    | .node c => find t c ks
    | .leaf a => if ks.isEmpty then .leaf a else .tooLong

/-- Each node that has an address has it extended by a letter at the node that it leads to. -/
def Addressed (t : Trie κ α) (addr : ℕ → Option (List κ)) : Prop :=
  ∀ i a k c, addr i = some a → t i k = .node c → addr c = some (a ++ [k])

variable {t t' : Trie κ α} {addr : ℕ → Option (List κ)} {i n c : ℕ} {a b p q r : List κ} {k k₀ : κ} {e : Entry α}

@[simp] theorem find_nil (t : Trie κ α) (i : ℕ) : t.find i [] = .node i := rfl

theorem find_cons (t : Trie κ α) (i : ℕ) (k : κ) (ks : List κ) :
    t.find i (k :: ks) = (t i k).follow t.find ks := by
  rw [find]
  cases t i k with
  | empty => rfl
  | node c => rfl
  | leaf a => cases ks <;> rfl

theorem find_append (h : t.find i p = .node n) (q : List κ) : t.find i (p ++ q) = t.find n q := by
  induction p generalizing i with
  | nil =>
    obtain rfl := Found.node.inj h
    rfl
  | cons k p ih =>
    rw [find_cons] at h
    rw [List.cons_append, find_cons]
    cases hentry : t i k with
    | node c =>
      rw [hentry] at h
      exact ih h
    | empty =>
      rw [hentry] at h
      cases h
    | leaf x =>
      rw [hentry] at h
      cases p <;> cases h

theorem exists_node_of_prefix (h : t.find i p = .node n) (hq : q <+: p) : ∃ c, t.find i q = .node c := by
  induction q generalizing i p with
  | nil => exact ⟨i, rfl⟩
  | cons k q ih =>
    obtain ⟨r, rfl⟩ := hq
    rw [List.cons_append, find_cons] at h
    rw [find_cons]
    cases hentry : t i k with
    | node c =>
      rw [hentry] at h
      exact ih h (List.prefix_append q r)
    | empty =>
      rw [hentry] at h
      cases h
    | leaf x =>
      rw [hentry] at h
      cases hqr : q ++ r <;> rw [hqr] at h <;> cases h

theorem Addressed.find (h : t.Addressed addr) (hi : addr i = some a) (hfind : t.find i p = .node n) :
    addr n = some (a ++ p) := by
  induction p generalizing i a with
  | nil =>
    obtain rfl := Found.node.inj hfind
    rw [hi, List.append_nil]
  | cons k p ih =>
    rw [find_cons] at hfind
    cases hentry : t i k with
    | node c =>
      rw [hentry] at hfind
      rw [ih (h i a k c hi hentry) hfind, List.append_assoc, List.singleton_append]
    | empty =>
      rw [hentry] at hfind
      cases hfind
    | leaf x =>
      rw [hentry] at hfind
      cases p <;> cases hfind

def AgreesBut (t t' : Trie κ α) (addr : ℕ → Option (List κ)) (n : ℕ) (k₀ : κ) : Prop :=
  ∀ i a k, addr i = some a → ¬ (i = n ∧ k = k₀) → t' i k = t i k

theorem AgreesBut.find_of_not_prefix (hagrees : AgreesBut t t' addr n k₀) (h : t.Addressed addr)
    (hi : addr i = some a) (hn : addr n = some b) (hnot : ¬ a <+: b) (q : List κ) : t'.find i q = t.find i q := by
  induction q generalizing i a with
  | nil => rfl
  | cons k q ih =>
    have hentry : t' i k = t i k := hagrees i a k hi fun hand => by
      obtain rfl := Option.some.inj (hi.symm.trans (hand.1 ▸ hn))
      exact hnot (List.prefix_refl a)
    rw [find_cons, find_cons, hentry]
    cases hnode : t i k with
    | empty => rfl
    | leaf x => cases q <;> rfl
    | node c => exact ih (h i a k c hi hnode) fun hp => hnot ((List.prefix_append a [k]).trans hp)

theorem AgreesBut.find_of_not_through (hagrees : AgreesBut t t' addr n k₀) (h : t.Addressed addr)
    (hi : addr i = some a) (hfind : t.find i r = .node n) (hnot : ¬ r ++ [k₀] <+: q) : t'.find i q = t.find i q := by
  induction q generalizing i a r with
  | nil => rfl
  | cons k q ih =>
    have hn := h.find hi hfind
    have hentry : t' i k = t i k := hagrees i a k hi fun hand => by
      obtain ⟨rfl, rfl⟩ := hand
      obtain rfl : r = [] := List.append_cancel_left ((Option.some.inj (hi.symm.trans hn)).symm.trans (List.append_nil a).symm)
      exact hnot (List.prefix_append [k] q)
    rw [find_cons, find_cons, hentry]
    cases hnode : t i k with
    | empty => rfl
    | leaf x => cases q <;> rfl
    | node c =>
      have hc := h i a k c hi hnode
      by_cases hr : a ++ [k] <+: a ++ r
      · -- the entry is below this node
        obtain ⟨r, rfl⟩ := (List.prefix_append_right_inj a).mp hr
        rw [List.singleton_append, find_cons, hnode] at hfind
        refine ih hc hfind fun hp => hnot ?_
        obtain ⟨q', hq'⟩ := hp
        exact ⟨q', by rw [← hq']; rfl⟩
      · exact hagrees.find_of_not_prefix h hc hn hr q

theorem not_concat_le_self (r : List κ) (k : κ) : ¬ r ++ [k] <+: r := fun hp => by
  have hle := hp.length_le
  rw [List.length_append] at hle
  exact Nat.not_succ_le_self _ hle

theorem AgreesBut.find_through (hagrees : AgreesBut t t' addr n k₀) (h : t.Addressed addr) (hi : addr i = some a)
    (hfind : t.find i r = .node n) (q : List κ) : t'.find i (r ++ k₀ :: q) = (t' n k₀).follow t'.find q := by
  rw [find_append ((hagrees.find_of_not_through h hi hfind (not_concat_le_self r k₀)).trans hfind), find_cons]

end Trie

variable {F F' F'' : List κ → Found α}

def Prepared (F F' : List κ → Found α) (p : List κ) : Prop :=
  ∀ q, F' q = F q ∨ (F q = .unbound ∧ q <+: p ∧ ∃ c, F' q = .node c)

theorem Prepared.refl (F : List κ → Found α) (p : List κ) : Prepared F F p := fun _ => Or.inl rfl

theorem Prepared.trans (h : Prepared F F' p) (h' : Prepared F' F'' q) (hp : p <+: q) : Prepared F F'' q := by
  intro x
  rcases h' x with heq | ⟨hunbound, hx, hnode⟩
  · rcases h x with heq' | ⟨hunbound, hx, c, hc⟩
    · exact Or.inl (heq.trans heq')
    · exact Or.inr ⟨hunbound, hx.trans hp, c, heq.trans hc⟩
  · rcases h x with heq' | ⟨-, -, c, hc⟩
    · exact Or.inr ⟨heq'.symm.trans hunbound, hx, hnode⟩
    · cases hunbound.symm.trans hc

/-- A word is inserted with an entry that is no node: words that do not compare with it are found as before. -/
structure Inserted (F F' : List κ → Found α) (p : List κ) (e : Entry α) : Prop where
  after : ∀ q, F' (p ++ q) = e.follow (fun c _ => .node c) q
  before : ∀ q, q <+: p → q ≠ p → ∃ c, F' q = .node c ∧ (F q = .node c ∨ F q = .unbound)
  other : ∀ q, ¬ q <+: p → ¬ p <+: q → F' q = F q

theorem Prepared.inserted {e : Entry α} (h : Prepared F F' p) (hp : p <+: q) (h' : Inserted F' F'' q e) :
    Inserted F F'' q e where
  after := h'.after
  before x hx hne := by
    obtain ⟨c, hc, hold⟩ := h'.before x hx hne
    refine ⟨c, hc, ?_⟩
    rcases h x with heq | ⟨hunbound, -⟩
    · rwa [← heq]
    · exact Or.inr hunbound
  other x hx hnot := by
    rw [h'.other x hx hnot]
    rcases h x with heq | ⟨-, hpre, -⟩
    · exact heq
    · exact absurd (hpre.trans hp) hx

namespace Trie

variable {t t' : Trie κ α} {addr : ℕ → Option (List κ)} {i n c : ℕ} {a b p q r : List κ} {k k₀ : κ}

theorem find_congr (h : t.Addressed addr) (heq : ∀ i a k, addr i = some a → t' i k = t i k) (hi : addr i = some a)
    (q : List κ) : t'.find i q = t.find i q := by
  induction q generalizing i a with
  | nil => rfl
  | cons k q ih =>
    rw [find_cons, find_cons, heq i a k hi]
    cases hnode : t i k with
    | empty => rfl
    | leaf x => cases q <;> rfl
    | node c => exact ih (h i a k c hi hnode)

theorem AgreesBut.prepared (hagrees : AgreesBut t t' addr n k₀) (h : t.Addressed addr) (hi : addr i = some a)
    (hfind : t.find i r = .node n) (hold : t n k₀ = .empty) (hnew : t' n k₀ = .node c) (hempty : ∀ k, t' c k = .empty) :
    t'.find i (r ++ [k₀]) = .node c ∧ Prepared (t.find i) (t'.find i) (r ++ [k₀]) := by
  have hnode : t'.find i (r ++ [k₀]) = .node c := by
    rw [hagrees.find_through h hi hfind, hnew]
    rfl
  refine ⟨hnode, fun q => ?_⟩
  by_cases hq : r ++ [k₀] <+: q
  · obtain ⟨q, rfl⟩ := hq
    have hunbound : t.find i (r ++ [k₀] ++ q) = .unbound := by
      rw [List.append_assoc, find_append hfind, List.singleton_append, find_cons, hold]
      rfl
    cases q with
    | nil =>
      rw [List.append_nil] at hunbound ⊢
      exact Or.inr ⟨hunbound, List.prefix_refl _, c, hnode⟩
    | cons k q =>
      refine Or.inl ?_
      rw [find_append hnode, find_cons, hempty, hunbound]
      rfl
  · exact Or.inl (hagrees.find_of_not_through h hi hfind hq)

theorem follow_eq_of_ne_node {e : Entry α} (he : ∀ c, e ≠ .node c) (f g : ℕ → List κ → Found α) (q : List κ) :
    e.follow f q = e.follow g q := by
  cases e with
  | empty => rfl
  | node c => exact absurd rfl (he c)
  | leaf a => cases q <;> rfl

theorem AgreesBut.inserted (hprep : Prepared F (t.find i) p) (hp : p <+: r ++ [k₀]) (hagrees : AgreesBut t t' addr n k₀)
    (h : t.Addressed addr) (hi : addr i = some a) (hfind : t.find i r = .node n) (he : ∀ c, t' n k₀ ≠ .node c) :
    Inserted F (t'.find i) (r ++ [k₀]) (t' n k₀) where
  after q := by
    rw [List.append_assoc, List.singleton_append, hagrees.find_through h hi hfind]
    exact follow_eq_of_ne_node he _ _ q
  before q hq hne := by
    have hq' : q <+: r := (List.prefix_concat_iff.mp hq).resolve_left hne
    obtain ⟨c, hc⟩ := exists_node_of_prefix hfind hq'
    have hnot : ¬ r ++ [k₀] <+: q := fun hp => not_concat_le_self r k₀ (hp.trans hq')
    refine ⟨c, (hagrees.find_of_not_through h hi hfind hnot).trans hc, ?_⟩
    rcases hprep q with heq | ⟨hunbound, -⟩
    · exact Or.inl (heq.symm.trans hc)
    · exact Or.inr hunbound
  other q hq hnot := by
    rw [hagrees.find_of_not_through h hi hfind hnot]
    rcases hprep q with heq | ⟨-, hpre, -⟩
    · exact heq
    · exact absurd (hpre.trans hp) hq

end Trie

end XEmacs.Lib
