import Mathlib.Data.List.Chain
import Mathlib.Data.Int.Notation
import Mathlib.Tactic.Common

/-! Lists of half-open intervals of integers with values. An ordered list gives each integer
at most one value. A canonical one, without empty intervals and without neighbours of one
value that touch, is determined by the values it gives. -/

namespace XEmacs.Lib

variable {α : Type*}

/-- The integers from `first` up to, and without, `last`. -/
structure Interval (α : Type*) where
  first : ℤ
  last : ℤ
  val : α
  deriving DecidableEq

namespace Interval

def Contains (e : Interval α) (p : ℤ) : Prop := e.first ≤ p ∧ p < e.last

instance (e : Interval α) (p : ℤ) : Decidable (e.Contains p) := inferInstanceAs (Decidable (_ ∧ _))

/-- The value that a list of intervals gives to `p`. -/
def value (es : List (Interval α)) (p : ℤ) : Option α := (es.find? fun e => e.Contains p).map (·.val)

/-- In order and apart; intervals may be empty. -/
structure Ordered (es : List (Interval α)) : Prop where
  le : ∀ e ∈ es, e.first ≤ e.last
  before : es.Pairwise fun e e' => e.last ≤ e'.first

/-- Ordered, without empty intervals and without two that could be one. -/
structure Canonical (es : List (Interval α)) : Prop extends Ordered es where
  nonempty : ∀ e ∈ es, e.first < e.last
  apart : es.IsChain fun e e' => e.last = e'.first → e.val ≠ e'.val

variable {es es₁ es₂ : List (Interval α)} {e e' : Interval α} {p : ℤ} {v : α}

theorem Ordered.nil : Ordered ([] : List (Interval α)) := ⟨by simp, .nil⟩

theorem ordered_append : Ordered (es₁ ++ es₂) ↔
    Ordered es₁ ∧ Ordered es₂ ∧ ∀ e ∈ es₁, ∀ e' ∈ es₂, e.last ≤ e'.first := by
  constructor
  · rintro ⟨hle, hbefore⟩
    obtain ⟨h₁, h₂, h₃⟩ := List.pairwise_append.mp hbefore
    exact ⟨⟨fun e he => hle e (List.mem_append_left _ he), h₁⟩,
      ⟨fun e he => hle e (List.mem_append_right _ he), h₂⟩, h₃⟩
  · rintro ⟨h₁, h₂, h₃⟩
    refine ⟨fun e he => ?_, List.pairwise_append.mpr ⟨h₁.before, h₂.before, h₃⟩⟩
    rcases List.mem_append.mp he with he | he
    · exact h₁.le e he
    · exact h₂.le e he

theorem ordered_cons : Ordered (e :: es) ↔
    e.first ≤ e.last ∧ Ordered es ∧ ∀ e' ∈ es, e.last ≤ e'.first := by
  constructor
  · rintro ⟨hle, hbefore⟩
    obtain ⟨h₁, h₂⟩ := List.pairwise_cons.mp hbefore
    exact ⟨hle e List.mem_cons_self, ⟨fun e he => hle e (List.mem_cons_of_mem _ he), h₂⟩, h₁⟩
  · rintro ⟨h₁, h₂, h₃⟩
    refine ⟨fun e he => ?_, List.pairwise_cons.mpr ⟨h₃, h₂.before⟩⟩
    rcases List.mem_cons.mp he with rfl | he
    · exact h₁
    · exact h₂.le e he

/-- At most one interval of an ordered list contains an integer. -/
theorem Ordered.eq_of_contains (h : Ordered es) (he : e ∈ es) (he' : e' ∈ es) (hp : e.Contains p)
    (hp' : e'.Contains p) : e = e' := by
  induction es with
  | nil => simp at he
  | cons x es ih =>
    obtain ⟨hx, hes, hbefore⟩ := ordered_cons.mp h
    obtain ⟨hp₁, hp₂⟩ := hp
    obtain ⟨hp₁', hp₂'⟩ := hp'
    rcases List.mem_cons.mp he with rfl | hemem <;> rcases List.mem_cons.mp he' with rfl | hemem'
    · rfl
    · have hlt := hbefore e' hemem'
      omega
    · have hlt := hbefore e hemem
      omega
    · exact ih hes hemem hemem'

theorem Ordered.value_eq_some (h : Ordered es) :
    value es p = some v ↔ ∃ e ∈ es, e.Contains p ∧ e.val = v := by
  rw [value, Option.map_eq_some_iff]
  constructor
  · rintro ⟨e, he, hv⟩
    exact ⟨e, List.mem_of_find?_eq_some he, by simpa using List.find?_some he, hv⟩
  · rintro ⟨e, he, hp, hv⟩
    cases hf : es.find? fun e => e.Contains p with
    | none => exact absurd hp (by simpa using List.find?_eq_none.mp hf e he)
    | some e' =>
      have hp' : e'.Contains p := by simpa using List.find?_some hf
      obtain rfl := h.eq_of_contains he (List.mem_of_find?_eq_some hf) hp hp'
      exact ⟨e, rfl, hv⟩

theorem value_eq_none : value es p = none ↔ ∀ e ∈ es, ¬ e.Contains p := by
  rw [value, Option.map_eq_none_iff, List.find?_eq_none]
  simp

theorem value_cons (e : Interval α) (es : List (Interval α)) (p : ℤ) :
    value (e :: es) p = if e.Contains p then some e.val else value es p := by
  rw [value, List.find?_cons]
  by_cases hc : e.Contains p <;> simp [hc, value]

theorem value_append (es₁ es₂ : List (Interval α)) (p : ℤ) :
    value (es₁ ++ es₂) p = (value es₁ p).or (value es₂ p) := by
  rw [value, List.find?_append, Option.map_or]
  rfl

theorem Canonical.nil : Canonical ([] : List (Interval α)) := ⟨.nil, by simp, .nil⟩

theorem Canonical.tail (h : Canonical (e :: es)) : Canonical es where
  toOrdered := (ordered_cons.mp h.toOrdered).2.1
  nonempty x hx := h.nonempty x (List.mem_cons_of_mem _ hx)
  apart := h.apart.tail

theorem Canonical.value_head (h : Canonical (e :: es)) :
    (∀ p < e.first, value (e :: es) p = none) ∧ value (e :: es) e.first = some e.val := by
  obtain ⟨hle, hes, hbefore⟩ := ordered_cons.mp h.toOrdered
  refine ⟨fun p hp => value_eq_none.mpr fun x hx hc => ?_, h.value_eq_some.mpr ?_⟩
  · rcases List.mem_cons.mp hx with rfl | hx
    · exact absurd hc.1 (Int.not_le.mpr hp)
    · have hlt := hbefore x hx
      obtain ⟨hc₁, hc₂⟩ := hc
      omega
  · exact ⟨e, List.mem_cons_self, ⟨Int.le_refl _, h.nonempty e List.mem_cons_self⟩, rfl⟩

theorem Canonical.ne_of_touch (h : Canonical es) (he : e ∈ es) (he' : e' ∈ es) (htouch : e.last = e'.first) :
    e.val ≠ e'.val := by
  induction es with
  | nil => simp at he
  | cons x es ih =>
    obtain ⟨hx, hes, hbefore⟩ := ordered_cons.mp h.toOrdered
    have hne := h.nonempty
    rcases List.mem_cons.mp he with rfl | hmem <;> rcases List.mem_cons.mp he' with heq | hmem'
    · have hlt := hne e List.mem_cons_self
      rw [heq] at htouch
      omega
    · cases es with
      | nil => simp at hmem'
      | cons y es =>
        have hxy := hbefore y List.mem_cons_self
        rcases List.mem_cons.mp hmem' with rfl | hlater
        · exact (List.isChain_cons_cons.mp h.apart).1 htouch
        · have hy := hne y (by simp)
          have hye := (ordered_cons.mp hes).2.2 e' hlater
          omega
    · have hgt := hne e (List.mem_cons_of_mem _ hmem)
      have hle := hbefore e hmem
      rw [heq] at htouch
      omega
    · exact ih h.tail hmem hmem'

theorem Canonical.value_last (h : Canonical es) (he : e ∈ es) : value es e.last ≠ some e.val := by
  intro hv
  obtain ⟨x, hx, ⟨hx₁, hx₂⟩, hval⟩ := h.value_eq_some.mp hv
  have hne := h.nonempty e he
  by_cases htouch : e.last = x.first
  · exact h.ne_of_touch he hx htouch hval.symm
  · have hc : x.Contains (e.last - 1) := ⟨by omega, by omega⟩
    have hxe := h.eq_of_contains hx he hc ⟨by omega, by omega⟩
    rw [hxe] at hx₂
    omega

theorem Canonical.value_before (h : Canonical es) (he : e ∈ es) : value es (e.first - 1) ≠ some e.val := by
  intro hv
  obtain ⟨x, hx, ⟨hx₁, hx₂⟩, hval⟩ := h.value_eq_some.mp hv
  have hne := h.nonempty e he
  by_cases htouch : x.last = e.first
  · exact h.ne_of_touch hx he htouch hval
  · have hc : x.Contains e.first := ⟨by omega, by omega⟩
    have hxe := h.eq_of_contains hx he hc ⟨by omega, hne⟩
    rw [hxe] at hx₁
    omega

theorem Canonical.value_tail (h : Canonical (e :: es)) :
    value es p = if p < e.last then none else value (e :: es) p := by
  obtain ⟨hle, hes, hbefore⟩ := ordered_cons.mp h.toOrdered
  split
  next hp =>
    refine value_eq_none.mpr fun x hx hc => ?_
    have hlt := hbefore x hx
    obtain ⟨hc₁, hc₂⟩ := hc
    omega
  next hp =>
    have hnot : ¬ e.Contains p := fun hc => hp hc.2
    simp [value, hnot]

/-- A canonical list is determined by the values it gives. -/
theorem Canonical.unique (h₁ : Canonical es₁) (h₂ : Canonical es₂)
    (heq : ∀ p, value es₁ p = value es₂ p) : es₁ = es₂ := by
  induction es₁ generalizing es₂ with
  | nil =>
    cases es₂ with
    | nil => rfl
    | cons e es =>
      have hv := heq e.first
      rw [h₂.value_head.2] at hv
      simp [value] at hv
  | cons e₁ es₁ ih =>
    cases es₂ with
    | nil =>
      have hv := heq e₁.first
      rw [h₁.value_head.2] at hv
      simp [value] at hv
    | cons e₂ es₂ =>
      obtain ⟨hnone₁, hsome₁⟩ := h₁.value_head
      obtain ⟨hnone₂, hsome₂⟩ := h₂.value_head
      have hfirst : e₁.first = e₂.first := by
        rcases Int.lt_trichotomy e₁.first e₂.first with hlt | hfirst | hlt
        · rw [heq, hnone₂ _ hlt] at hsome₁
          contradiction
        · exact hfirst
        · rw [← heq, hnone₁ _ hlt] at hsome₂
          contradiction
      have hval : e₁.val = e₂.val := by
        rw [heq, hfirst, hsome₂] at hsome₁
        exact (Option.some.inj hsome₁).symm
      have hlast : e₁.last = e₂.last := by
        have hne₁ := h₁.nonempty e₁ List.mem_cons_self
        have hne₂ := h₂.nonempty e₂ List.mem_cons_self
        rcases Int.lt_trichotomy e₁.last e₂.last with hlt | hlast | hlt
        · refine absurd ?_ (h₁.value_last List.mem_cons_self)
          rw [heq, hval]
          exact h₂.value_eq_some.mpr ⟨e₂, List.mem_cons_self, ⟨by omega, hlt⟩, rfl⟩
        · exact hlast
        · refine absurd ?_ (h₂.value_last List.mem_cons_self)
          rw [← heq, ← hval]
          exact h₁.value_eq_some.mpr ⟨e₁, List.mem_cons_self, ⟨by omega, hlt⟩, rfl⟩
      have hhead : e₁ = e₂ := by
        cases e₁
        cases e₂
        simp_all
      have htail : es₁ = es₂ := ih h₁.tail h₂.tail fun p => by
        rw [h₁.value_tail, h₂.value_tail, heq, hlast]
      rw [hhead, htail]

theorem Canonical.of_append (h : Canonical (es₁ ++ es₂)) : Canonical es₁ ∧ Canonical es₂ := by
  obtain ⟨h₁, h₂, -⟩ := ordered_append.mp h.toOrdered
  obtain ⟨hc₁, hc₂, -⟩ := List.isChain_append.mp h.apart
  exact ⟨⟨h₁, fun e he => h.nonempty e (List.mem_append_left _ he), hc₁⟩,
    ⟨h₂, fun e he => h.nonempty e (List.mem_append_right _ he), hc₂⟩⟩

theorem Canonical.append (h₁ : Canonical es₁) (h₂ : Canonical es₂)
    (hbefore : ∀ e ∈ es₁, ∀ e' ∈ es₂, e.last ≤ e'.first)
    (hapart : ∀ e, es₁.getLast? = some e → ∀ e', es₂.head? = some e' → e.last = e'.first → e.val ≠ e'.val) :
    Canonical (es₁ ++ es₂) where
  toOrdered := ordered_append.mpr ⟨h₁.toOrdered, h₂.toOrdered, hbefore⟩
  nonempty e he := (List.mem_append.mp he).elim (h₁.nonempty e) (h₂.nonempty e)
  apart := List.isChain_append.mpr ⟨h₁.apart, h₂.apart, fun e he e' he' => hapart e he e' he'⟩

theorem Canonical.cons (h : Canonical es) (hne : e.first < e.last) (hbefore : ∀ e' ∈ es, e.last ≤ e'.first)
    (hapart : ∀ e', es.head? = some e' → e.last = e'.first → e.val ≠ e'.val) : Canonical (e :: es) where
  toOrdered := ordered_cons.mpr ⟨Int.le_of_lt hne, h.toOrdered, hbefore⟩
  nonempty x hx := (List.mem_cons.mp hx).elim (fun heq => heq ▸ hne) (h.nonempty x)
  apart := List.isChain_cons.mpr ⟨fun x hx => hapart x hx, h.apart⟩

theorem Canonical.truncate_last {m : ℤ} (h : Canonical (es ++ [e])) (hm : e.first < m) :
    Canonical (es ++ [{ e with last := m }]) := by
  obtain ⟨hes, -⟩ := h.of_append
  obtain ⟨-, -, hbefore⟩ := ordered_append.mp h.toOrdered
  obtain ⟨-, -, hapart⟩ := List.isChain_append.mp h.apart
  refine hes.append ⟨⟨by simpa using Int.le_of_lt hm, List.pairwise_singleton _ _⟩, by simpa using hm, .singleton _⟩
    (fun x hx y hy => ?_) fun x hx y hy => ?_
  · obtain rfl := List.mem_singleton.mp hy
    exact hbefore x hx e (by simp)
  · obtain rfl := Option.some.inj hy
    exact hapart x hx e (by simp)

theorem Canonical.truncate_first {m : ℤ} (h : Canonical (e :: es)) (hm : m < e.last) :
    Canonical ({ e with first := m } :: es) := by
  obtain ⟨-, hes, hbefore⟩ := ordered_cons.mp h.toOrdered
  refine ⟨ordered_cons.mpr ⟨Int.le_of_lt hm, hes, hbefore⟩, fun x hx => ?_, ?_⟩
  · rcases List.mem_cons.mp hx with rfl | hx
    · exact hm
    · exact h.nonempty x (List.mem_cons_of_mem _ hx)
  · cases es with
    | nil => exact .singleton _
    | cons y es =>
      obtain ⟨hey, hchain⟩ := List.isChain_cons_cons.mp h.apart
      exact List.isChain_cons_cons.mpr ⟨hey, hchain⟩

/-- A largest range on which `val` has one value. -/
structure Maximal (val : ℤ → Option α) (e : Interval α) : Prop where
  nonempty : e.first < e.last
  constant : ∀ p, e.Contains p → val p = some e.val
  before : val (e.first - 1) ≠ some e.val
  after : val e.last ≠ some e.val

/-- A canonical list holds the largest ranges of one value. -/
theorem Canonical.mem_iff_maximal (h : Canonical es) : e ∈ es ↔ Maximal (value es) e := by
  constructor
  · intro he
    exact ⟨h.nonempty e he, fun p hp => h.value_eq_some.mpr ⟨e, he, hp, rfl⟩, h.value_before he,
      h.value_last he⟩
  · rintro ⟨hne, hconst, hbefore, hafter⟩
    obtain ⟨x, hx, ⟨hx₁, hx₂⟩, hval⟩ := h.value_eq_some.mp (hconst e.first ⟨by omega, hne⟩)
    have hfirst : x.first = e.first := by
      by_contra hne'
      exact hbefore (h.value_eq_some.mpr ⟨x, hx, ⟨by omega, by omega⟩, hval⟩)
    have hlast : x.last = e.last := by
      rcases Int.lt_trichotomy x.last e.last with hlt | heq | hgt
      · have hin := hconst x.last ⟨by omega, hlt⟩
        rw [← hval] at hin
        exact absurd hin (h.value_last hx)
      · exact heq
      · exact absurd (h.value_eq_some.mpr ⟨x, hx, ⟨by omega, hgt⟩, hval⟩) hafter
    have hxe : x = e := by
      cases x
      cases e
      simp_all
    exact hxe ▸ hx

theorem Ordered.join (h : Ordered (e :: e' :: es)) : Ordered ({ e with last := e'.last } :: es) := by
  obtain ⟨he, hes, hbefore⟩ := ordered_cons.mp h
  obtain ⟨he', hes', hbefore'⟩ := ordered_cons.mp hes
  exact ordered_cons.mpr ⟨Int.le_trans (Int.le_trans he (hbefore e' List.mem_cons_self)) he', hes', hbefore'⟩

/-- An interval and those after it, where neighbours that touch and have one value are joined. -/
def joinFrom [DecidableEq α] (p : Interval α) : List (Interval α) → List (Interval α)
  | [] => [p]
  | e :: es => if p.last = e.first ∧ p.val = e.val then joinFrom { p with last := e.last } es else p :: joinFrom e es

section

variable [DecidableEq α] {p' : Interval α}

theorem head?_joinFrom (p' : Interval α) (es : List (Interval α)) :
    ∃ e, (joinFrom p' es).head? = some e ∧ e.first = p'.first ∧ e.val = p'.val := by
  induction es generalizing p' with
  | nil => exact ⟨p', rfl, rfl, rfl⟩
  | cons e es ih =>
    rw [joinFrom]
    split_ifs
    · exact ih { p' with last := e.last }
    · exact ⟨p', rfl, rfl, rfl⟩

theorem le_first_of_mem_joinFrom (h : Ordered (p' :: es)) (he : e ∈ joinFrom p' es) : p'.first ≤ e.first := by
  induction es generalizing p' with
  | nil =>
    obtain rfl := List.mem_singleton.mp he
    exact Int.le_refl _
  | cons x es ih =>
    rw [joinFrom] at he
    split_ifs at he
    · exact @ih { p' with last := x.last } h.join he
    · obtain ⟨hp', hes, hbefore⟩ := ordered_cons.mp h
      rcases List.mem_cons.mp he with rfl | he
      · exact Int.le_refl _
      · exact Int.le_trans (Int.le_trans hp' (hbefore x List.mem_cons_self)) (ih hes he)

/-- Joining makes an ordered list of intervals that are not empty canonical. -/
theorem canonical_joinFrom (h : Ordered (p' :: es)) (hne : ∀ e ∈ p' :: es, e.first < e.last) :
    Canonical (joinFrom p' es) := by
  induction es generalizing p' with
  | nil => exact ⟨h, hne, .singleton _⟩
  | cons x es ih =>
    obtain ⟨hp', hes, hbefore⟩ := ordered_cons.mp h
    have hle := hbefore x List.mem_cons_self
    obtain ⟨hnep, hnes⟩ := List.forall_mem_cons.mp hne
    rw [joinFrom]
    split_ifs with hjoin
    · refine ih h.join (List.forall_mem_cons.mpr ⟨?_, fun e he => hnes e (List.mem_cons_of_mem _ he)⟩)
      exact Int.lt_of_lt_of_le hnep (Int.le_trans hle (Int.le_of_lt (hnes x List.mem_cons_self)))
    · refine (ih hes hnes).cons hnep (fun e he => Int.le_trans hle (le_first_of_mem_joinFrom hes he)) fun e he htouch hval => ?_
      obtain ⟨e', he', hfirst, hval'⟩ := head?_joinFrom x es
      obtain rfl := Option.some.inj (he'.symm.trans he)
      exact hjoin ⟨htouch.trans hfirst, hval.trans hval'⟩

theorem contains_joinFrom (h : Ordered (p' :: es)) :
    (∃ e ∈ joinFrom p' es, e.Contains p ∧ e.val = v) ↔ ∃ e ∈ p' :: es, e.Contains p ∧ e.val = v := by
  induction es generalizing p' with
  | nil => rfl
  | cons x es ih =>
    obtain ⟨hp', hes, hbefore⟩ := ordered_cons.mp h
    rw [joinFrom]
    split_ifs with hjoin
    · have hle := hbefore x List.mem_cons_self
      have hx := (ordered_cons.mp hes).1
      have hcontains : Interval.Contains { p' with last := x.last } p ↔ p'.Contains p ∨ x.Contains p := by
        simp only [Contains]
        omega
      rw [@ih { p' with last := x.last } h.join]
      simp only [List.exists_mem_cons_iff, hcontains, ← hjoin.2]
      rw [or_and_right, or_assoc]
    · have hrest := ih hes
      simp only [List.exists_mem_cons_iff] at hrest ⊢
      rw [hrest]

end

end Interval

end XEmacs.Lib
