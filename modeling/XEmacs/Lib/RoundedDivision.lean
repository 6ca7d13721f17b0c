import Mathlib.Algebra.Order.Field.Rat
import Mathlib.Algebra.Order.Ring.Abs
import Mathlib.Algebra.Order.Ring.Int
import Mathlib.Algebra.Ring.Int.Parity
import Mathlib.Tactic.FieldSimp
import Mathlib.Tactic.Linarith
import Mathlib.Tactic.LinearCombination
import Mathlib.Tactic.Ring

/-! Division with a remainder, for each way of rounding the quotient. The law of a rounding fixes
the quotient and the remainder, whatever the arithmetic that finds them. -/

namespace XEmacs.Lib

/-- The ways of rounding a quotient: to the integer below, to the integer above, toward zero, or
to the nearest integer and on ties to the even one. -/
inductive Rounding where
  | floor
  | ceiling
  | truncate
  | round
  deriving DecidableEq, Repr

section Law

variable {α : Type} [CommRing α] [LinearOrder α] {a b c n d r r' : α} {q q' : ℤ}

/-- Two numbers neither of which is positive, or neither negative. -/
def SameSide (a b : α) : Prop := 0 ≤ a ∧ 0 ≤ b ∨ a ≤ 0 ∧ b ≤ 0

instance : Decidable (SameSide a b) := inferInstanceAs (Decidable (_ ∨ _))

namespace Rounding

def Side : Rounding → α → α → ℤ → α → Prop
  | floor, _, d, _, r => SameSide r d
  | ceiling, _, d, _, r => SameSide r (-d)
  | truncate, n, _, _, r => SameSide r n
  | round, _, d, q, r => |2 * r| ≤ |d| ∧ (|2 * r| = |d| → Even q)

/-- The quotient and the remainder of `n` by `d`. -/
structure Law (m : Rounding) (n d : α) (q : ℤ) (r : α) : Prop where
  division : n = q * d + r
  smaller : |r| < |d|
  side : m.Side n d q r

variable [IsStrictOrderedRing α] {m : Rounding}

theorem Law.ne_zero (h : m.Law n d q r) : d ≠ 0 := by
  rintro rfl
  exact absurd h.smaller (by simp)

theorem quotient_eq (h : n = q * d + r) (h' : n = q' * d + r') (hlt : |r' - r| < |d|) :
    q = q' := by
  have hmul : ((q - q' : ℤ) : α) * d = r' - r := by
    push_cast
    linear_combination h' - h
  rw [← hmul, abs_mul] at hlt
  have hd : 0 < |d| := by
    by_contra hd
    rw [le_antisymm (not_lt.mp hd) (abs_nonneg d), mul_zero] at hlt
    exact lt_irrefl _ hlt
  have hone : |((q - q' : ℤ) : α)| < 1 := by
    by_contra hone
    exact absurd hlt (not_lt.mpr (le_mul_of_one_le_left hd.le (not_lt.mp hone)))
  rw [← Int.cast_abs] at hone
  have hzero : |q - q'| < 1 := by exact_mod_cast hone
  exact sub_eq_zero.mp (Int.abs_lt_one_iff.mp hzero)

theorem remainder_eq_zero_iff_mul (h : n = q * d + r) (hlt : |r| < |d|) :
    r = 0 ↔ ∃ k : ℤ, n = k * d := by
  constructor
  · rintro rfl
    exact ⟨q, by rw [h, add_zero]⟩
  · rintro ⟨k, hk⟩
    have hq : q = k := quotient_eq h (hk.trans (add_zero _).symm) (by rwa [zero_sub, abs_neg])
    subst hq
    linear_combination hk - h

theorem abs_sub_lt_of_sameSide (hr : |r| < |d|) (hr' : |r'| < |d|)
    (h : SameSide r c) (h' : SameSide r' c) (hc : c ≠ 0) : |r' - r| < |d| := by
  obtain ⟨h₁, h₂⟩ | ⟨h₁, h₂⟩ := h
  · have hpos : 0 < c := lt_of_le_of_ne h₂ hc.symm
    have hnonneg : 0 ≤ r' := h'.elim And.left fun h => absurd hpos (not_lt.mpr h.2)
    rw [abs_of_nonneg h₁] at hr
    rw [abs_of_nonneg hnonneg] at hr'
    rw [abs_lt]
    constructor <;> linarith
  · have hneg : c < 0 := lt_of_le_of_ne h₂ hc
    have hnonpos : r' ≤ 0 := h'.elim (fun h => absurd hneg (not_lt.mpr h.2)) And.left
    rw [abs_of_nonpos h₁] at hr
    rw [abs_of_nonpos hnonpos] at hr'
    rw [abs_lt]
    constructor <;> linarith

theorem Law.quotient_eq_zero (h : m.Law 0 d q r) : q = 0 := by
  have hzero : (0 : α) = (0 : ℤ) * d + 0 := by simp
  refine quotient_eq h.division hzero ?_
  rw [zero_sub, abs_neg]
  exact h.smaller

/-- Remainders of halves: they are a whole divisor apart only when both quotients are ties. -/
theorem Law.quotient_eq_of_round (h : round.Law n d q r) (h' : round.Law n d q' r') : q = q' := by
  have hr := h.side.1
  have hr' := h'.side.1
  rw [abs_mul, abs_two] at hr hr'
  have hle : |r' - r| ≤ |r'| + |r| := abs_sub _ _
  obtain hlt | heq := lt_or_eq_of_le (hle.trans (by linarith : |r'| + |r| ≤ |d|))
  · exact quotient_eq h.division h'.division hlt
  · have heven : Even q := h.side.2 (by rw [abs_mul, abs_two]; linarith)
    have heven' : Even q' := h'.side.2 (by rw [abs_mul, abs_two]; linarith)
    have hmul : ((q - q' : ℤ) : α) * d = r' - r := by
      push_cast
      linear_combination h'.division - h.division
    rw [← hmul, abs_mul] at heq
    have hone : |((q - q' : ℤ) : α)| = 1 :=
      mul_right_cancel₀ (abs_pos.mpr h.ne_zero).ne' (heq.trans (one_mul _).symm)
    rw [← Int.cast_abs] at hone
    have hodd : |q - q'| = 1 := by exact_mod_cast hone
    obtain ⟨k, hk⟩ := heven.sub heven'
    rw [hk] at hodd
    exfalso
    rcases abs_eq (by decide : (0 : ℤ) ≤ 1) |>.mp hodd with h | h <;> omega

/-- The law of a rounding determines the quotient and the remainder. -/
theorem Law.unique (h : m.Law n d q r) (h' : m.Law n d q' r') : q = q' ∧ r = r' := by
  have hq : q = q' := by
    cases m with
    | floor =>
      exact quotient_eq h.division h'.division
        (abs_sub_lt_of_sameSide h.smaller h'.smaller h.side h'.side h.ne_zero)
    | ceiling =>
      exact quotient_eq h.division h'.division
        (abs_sub_lt_of_sameSide h.smaller h'.smaller h.side h'.side (neg_ne_zero.mpr h.ne_zero))
    | truncate =>
      by_cases hn : n = 0
      · subst hn
        exact h.quotient_eq_zero.trans h'.quotient_eq_zero.symm
      · exact quotient_eq h.division h'.division
          (abs_sub_lt_of_sameSide h.smaller h'.smaller h.side h'.side hn)
    | round => exact h.quotient_eq_of_round h'
  subst hq
  exact ⟨rfl, by linear_combination h'.division - h.division⟩

theorem Law.mul_right (h : m.Law n d q r) (hc : c ≠ 0) : m.Law (n * c) (d * c) q (r * c) := by
  have hpos : 0 < |c| := abs_pos.mpr hc
  have hside : ∀ {a b : α}, SameSide a b → SameSide (a * c) (b * c) := fun hab => by
    obtain hc | hc := lt_or_gt_of_ne hc
    · exact hab.symm.imp (fun h => ⟨mul_nonneg_of_nonpos_of_nonpos h.1 hc.le,
        mul_nonneg_of_nonpos_of_nonpos h.2 hc.le⟩) fun h => ⟨mul_nonpos_of_nonneg_of_nonpos h.1 hc.le,
        mul_nonpos_of_nonneg_of_nonpos h.2 hc.le⟩
    · exact hab.imp (fun h => ⟨mul_nonneg h.1 hc.le, mul_nonneg h.2 hc.le⟩) fun h =>
        ⟨mul_nonpos_of_nonpos_of_nonneg h.1 hc.le, mul_nonpos_of_nonpos_of_nonneg h.2 hc.le⟩
  refine ⟨by rw [h.division]; ring, ?_, ?_⟩
  · rw [abs_mul, abs_mul]
    exact mul_lt_mul_of_pos_right h.smaller hpos
  · cases m with
    | floor => exact hside h.side
    | ceiling =>
      have := hside h.side
      rwa [neg_mul] at this
    | truncate => exact hside h.side
    | round =>
      have hscale : |2 * (r * c)| = |2 * r| * |c| := by rw [← mul_assoc, abs_mul]
      refine ⟨?_, fun htie => h.side.2 ?_⟩
      · rw [hscale, abs_mul d]
        exact mul_le_mul_of_nonneg_right h.side.1 hpos.le
      · rw [hscale, abs_mul d] at htie
        exact mul_right_cancel₀ hpos.ne' htie

end Rounding

end Law

namespace Rounding

variable {m : Rounding} {n d q r s : ℤ}

theorem Law.ratCast (h : m.Law n d q r) : m.Law (n : ℚ) d q r := by
  refine ⟨by rw [h.division]; push_cast; ring, by exact_mod_cast h.smaller, ?_⟩
  have hside := h.side
  cases m <;> simp only [Side, SameSide] at hside ⊢ <;> exact_mod_cast hside

theorem Law.remainder_eq_zero_iff (h : m.Law n d q r) : r = 0 ↔ d ∣ n := by
  have hdivision := h.division
  rw [Int.cast_id] at hdivision
  constructor
  · rintro rfl
    exact ⟨q, by rw [hdivision]; ring⟩
  · intro hdvd
    have hr : d ∣ r := (Int.dvd_add_right (Dvd.intro_left q rfl)).mp (hdivision ▸ hdvd)
    exact Int.eq_zero_of_abs_lt_dvd ((abs_dvd d r).mpr hr) h.smaller

theorem fmod_nonpos (hd : d < 0) (n : ℤ) : n.fmod d ≤ 0 := by
  have h := Int.fmod_nonneg_of_pos (-n) (neg_pos.mpr hd)
  rw [Int.neg_fmod_neg] at h
  exact neg_nonneg.mp h

theorem floor_fdiv (hd : d ≠ 0) : floor.Law n d (n.fdiv d) (n - n.fdiv d * d) := by
  have hmod : n - n.fdiv d * d = n.fmod d := by
    rw [Int.fmod_def]
    ring
  rw [hmod]
  refine ⟨by rw [Int.cast_id]; linear_combination hmod, ?_, ?_⟩
  · obtain hneg | hpos := lt_or_gt_of_ne hd
    · rw [abs_of_neg hneg, abs_of_nonpos (fmod_nonpos hneg n)]
      have h := Int.fmod_lt_of_pos (-n) (neg_pos.mpr hneg)
      rwa [Int.neg_fmod_neg] at h
    · rw [abs_of_pos hpos, abs_of_nonneg (Int.fmod_nonneg_of_pos n hpos)]
      exact Int.fmod_lt_of_pos n hpos
  · obtain hneg | hpos := lt_or_gt_of_ne hd
    · exact .inr ⟨fmod_nonpos hneg n, hneg.le⟩
    · exact .inl ⟨Int.fmod_nonneg_of_pos n hpos, hpos.le⟩

theorem Law.ceiling_neg (h : floor.Law (-n) d q r) : ceiling.Law n d (-q) (-r) := by
  refine ⟨by push_cast; linear_combination -h.division, by rw [abs_neg]; exact h.smaller, ?_⟩
  exact h.side.symm.imp (fun h => ⟨neg_nonneg.mpr h.1, neg_nonneg.mpr h.2⟩) fun h =>
    ⟨neg_nonpos.mpr h.1, neg_nonpos.mpr h.2⟩

theorem truncate_tdiv (hd : d ≠ 0) : truncate.Law n d (n.tdiv d) (n - n.tdiv d * d) := by
  have hmod : n - n.tdiv d * d = n.tmod d := by
    rw [Int.tmod_def]
    ring
  rw [hmod]
  refine ⟨by rw [Int.cast_id]; linear_combination hmod, ?_, ?_⟩
  · rw [Int.abs_eq_natAbs, Int.abs_eq_natAbs, Int.natAbs_tmod]
    exact_mod_cast Nat.mod_lt _ (Int.natAbs_pos.mpr hd)
  · obtain hn | hn := le_total 0 n
    · exact .inl ⟨Int.tmod_nonneg d hn, hn⟩
    · have h := Int.tmod_nonneg d (neg_nonneg.mpr hn)
      rw [Int.neg_tmod] at h
      exact .inr ⟨neg_nonneg.mp h, hn⟩

theorem truncate_tmod (hd : d ≠ 0) : truncate.Law n d (n.tdiv d) (n.tmod d) := by
  have h := truncate_tdiv (n := n) hd
  rwa [show n - n.tdiv d * d = n.tmod d by rw [Int.tmod_def]; ring] at h

theorem tdiv_bounds (hn : 0 ≤ n) (hd : 0 < d) : 0 ≤ n - n.tdiv d * d ∧ n - n.tdiv d * d < d := by
  have hmod : n - n.tdiv d * d = n.tmod d := by
    rw [Int.tmod_def]
    ring
  rw [hmod]
  exact ⟨Int.tmod_nonneg d hn, Int.tmod_lt_of_pos n hd⟩

theorem floor_of_pos (hd : 0 < d) (h₀ : 0 ≤ n - q * d) (h₁ : n - q * d < d) :
    floor.Law n d q (n - q * d) :=
  ⟨by rw [Int.cast_id]; ring, by rwa [abs_of_nonneg h₀, abs_of_pos hd], .inl ⟨h₀, hd.le⟩⟩

theorem floor_of_neg (hd : d < 0) (h₀ : n - q * d ≤ 0) (h₁ : d < n - q * d) :
    floor.Law n d q (n - q * d) :=
  ⟨by rw [Int.cast_id]; ring, by rw [abs_of_nonpos h₀, abs_of_neg hd]; omega, .inr ⟨h₀, hd.le⟩⟩

theorem ceiling_of_pos (hd : 0 < d) (h₀ : n - q * d ≤ 0) (h₁ : -d < n - q * d) :
    ceiling.Law n d q (n - q * d) :=
  ⟨by rw [Int.cast_id]; ring, by rw [abs_of_nonpos h₀, abs_of_pos hd]; omega,
    .inr ⟨h₀, neg_nonpos.mpr hd.le⟩⟩

theorem ceiling_of_neg (hd : d < 0) (h₀ : 0 ≤ n - q * d) (h₁ : n - q * d < -d) :
    ceiling.Law n d q (n - q * d) :=
  ⟨by rw [Int.cast_id]; ring, by rwa [abs_of_nonneg h₀, abs_of_neg hd],
    .inl ⟨h₀, neg_nonneg.mpr hd.le⟩⟩

theorem tdiv_le (hn : 0 ≤ n) (hd : 0 < d) : 0 ≤ n.tdiv d ∧ n.tdiv d ≤ n :=
  ⟨Int.tdiv_nonneg hn hd.le, by rw [Int.tdiv_eq_ediv_of_nonneg hn]; exact Int.ediv_le_self d hn⟩

theorem tdiv_lt_of_tmod (hn : 0 ≤ n) (hd : 0 < d) (h : n.tmod d ≠ 0) : n.tdiv d < n := by
  have hmod := Int.tmod_nonneg d hn
  have hle : n.tdiv d * 1 ≤ n.tdiv d * d :=
    mul_le_mul_of_nonneg_left hd (tdiv_le hn hd).1
  have := Int.tdiv_mul_add_tmod n d
  omega

theorem tdiv_two (d : ℤ) : 0 ≤ d ∧ (d = 2 * d.tdiv 2 ∨ d = 2 * d.tdiv 2 + 1) ∨
    d ≤ 0 ∧ (d = 2 * d.tdiv 2 ∨ d = 2 * d.tdiv 2 - 1) := by
  obtain hd | hd := le_total 0 d
  · rw [Int.tdiv_eq_ediv_of_nonneg hd]
    omega
  · rw [← neg_neg d, Int.neg_tdiv, Int.tdiv_eq_ediv_of_nonneg (neg_nonneg.mpr hd)]
    omega

/-- Half of the divisor is added before the quotient is rounded down; an odd quotient that this
made out of a tie is stepped back. -/
theorem Law.round_of_floor (h : floor.Law (d.tdiv 2 + n) d q s) :
    round.Law n d (if s = 0 ∧ d = 2 * d.tdiv 2 ∧ ¬Even q then q - 1 else q)
      (if s = 0 ∧ d = 2 * d.tdiv 2 ∧ ¬Even q then d.tdiv 2 else s - d.tdiv 2) := by
  have hsmaller := h.smaller
  have hdivision := h.division
  have hside : SameSide s d := h.side
  have hne := h.ne_zero
  have hhalf := tdiv_two d
  rw [Int.cast_id] at hdivision
  generalize d.tdiv 2 = half at *
  split
  · rename_i htie
    obtain ⟨rfl, hd, hodd⟩ := htie
    have heven : Even (q - 1) := (Int.not_even_iff_odd.mp hodd).sub_odd odd_one
    refine ⟨by rw [Int.cast_id]; linear_combination hdivision + hd, ?_, ?_, fun _ => heven⟩
    · rw [hd, abs_mul, abs_two]
      have : 0 < |half| := abs_pos.mpr (by omega)
      omega
    · rw [hd]
  · rename_i htie
    refine ⟨by rw [Int.cast_id]; linear_combination hdivision, ?_, ?_, fun hhalves => ?_⟩
    · obtain ⟨hs, hd⟩ | ⟨hs, hd⟩ := hside
      · rw [abs_of_nonneg hs, abs_of_nonneg hd] at hsmaller
        rw [abs_of_nonneg hd, abs_lt]
        omega
      · rw [abs_of_nonpos hs, abs_of_nonpos hd] at hsmaller
        rw [abs_of_nonpos hd, abs_lt]
        omega
    · obtain ⟨hs, hd⟩ | ⟨hs, hd⟩ := hside
      · rw [abs_of_nonneg hs, abs_of_nonneg hd] at hsmaller
        rw [abs_of_nonneg hd, abs_le]
        omega
      · rw [abs_of_nonpos hs, abs_of_nonpos hd] at hsmaller
        rw [abs_of_nonpos hd, abs_le]
        omega
    · by_contra hodd
      rw [abs_eq_abs] at hhalves
      obtain ⟨hs, hd⟩ | ⟨hs, hd⟩ := hside
      · rw [abs_of_nonneg hs, abs_of_nonneg hd] at hsmaller
        exact htie ⟨by omega, by omega, hodd⟩
      · rw [abs_of_nonpos hs, abs_of_nonpos hd] at hsmaller
        exact htie ⟨by omega, by omega, hodd⟩

end Rounding

end XEmacs.Lib
