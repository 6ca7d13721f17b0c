import XEmacs.Number.RoundingFunctions

/-! The law of division for the rounding functions. Each path obeys it, so that they agree; only
the quotient that no fixnum holds is lost on the path for fixnums. -/

namespace XEmacs.Number

open Lib (Rounding SameSide)
open Lib.Words (Fits)

variable {v : ℕ}

section Words

variable {x y i1 i2 : EmacsInt v} {a b : ℤ}

theorem one_toInt (hbits : 0 < v) : (1 : EmacsInt v).toInt = 1 :=
  BitVec.toInt_one (Nat.succ_lt_succ hbits)

theorem fits_of_le (h : Fits (v + 1) b) (ha : 0 ≤ a) (hab : a ≤ b) :
    Fits (v + 1) a := by
  have := Lib.Words.two_pow_pos (v + 1 - 1)
  exact ⟨by omega, by have := h.2; omega⟩

theorem fits_neg_of_nonneg (h : Fits (v + 1) a) (ha : 0 ≤ a) : Fits (v + 1) (-a) := by
  have := h.2
  exact ⟨by omega, by omega⟩

theorem fits_neg_one_sub (h : Fits (v + 1) a) (ha : 0 ≤ a) : Fits (v + 1) (-1 - a) := by
  have := h.2
  exact ⟨by omega, by omega⟩

theorem fits_sdiv (hx : x.toInt = a) (ha : 0 ≤ a) (hb : 0 < b) :
    Fits (v + 1) (a.tdiv b) :=
  fits_of_le (hx ▸ Lib.Words.fits_toInt x) (Rounding.tdiv_le ha hb).1 (Rounding.tdiv_le ha hb).2

theorem sdiv_toInt (hx : x.toInt = a) (hy : y.toInt = b) (ha : 0 ≤ a) (hb : 0 < b) :
    (x.sdiv y).toInt = a.tdiv b :=
  Lib.Words.toInt_sdiv (Nat.succ_pos v) hx hy (fits_sdiv hx ha hb)

theorem neg_toInt (hx : x.toInt = a) (h : Fits (v + 1) (-a)) : (-x).toInt = -a :=
  Lib.Words.toInt_neg (Nat.succ_pos v) hx h

theorem floorQuotient_law (hbits : 0 < v) (h₁ : Fits (v + 1) (-i1.toInt))
    (h₂ : Fits (v + 1) (-i2.toInt)) (hne : i2.toInt ≠ 0) :
    Rounding.floor.Law i1.toInt i2.toInt (floorQuotient i1 i2).toInt
      (i1.toInt - (floorQuotient i1 i2).toInt * i2.toInt) := by
  have hw : 0 < v + 1 := Nat.succ_pos v
  have hfits₁ := Lib.Words.fits_toInt i1
  have hnegOne : (-1 : EmacsInt v).toInt = -1 :=
    neg_toInt (one_toInt hbits) (fits_neg_of_nonneg (one_toInt hbits ▸ Lib.Words.fits_toInt _)
      (by decide))
  rw [floorQuotient]
  split
  · rename_i hneg
    have hdivisor := neg_toInt rfl h₂
    split
    · rename_i hnonpos
      rw [sdiv_toInt (neg_toInt rfl h₁) hdivisor (by omega) (by omega)]
      have hbounds := Rounding.tdiv_bounds (by omega : 0 ≤ -i1.toInt) (by omega : 0 < -i2.toInt)
      apply Rounding.floor_of_neg hneg
      · linarith
      · linarith
    · rename_i hpos
      have hdividend : (i1 - 1).toInt = i1.toInt - 1 :=
        Lib.Words.toInt_sub hw rfl (one_toInt hbits) (fits_of_le hfits₁ (by omega) (by omega))
      have hle := Rounding.tdiv_le (by omega : 0 ≤ i1.toInt - 1) (by omega : 0 < -i2.toInt)
      have hquotient := sdiv_toInt hdividend hdivisor (by omega) (by omega)
      rw [Lib.Words.toInt_sub hw hnegOne hquotient
        (fits_neg_one_sub (fits_sdiv hdividend (by omega) (by omega)) hle.1)]
      have hbounds := Rounding.tdiv_bounds (by omega : 0 ≤ i1.toInt - 1) (by omega : 0 < -i2.toInt)
      apply Rounding.floor_of_neg hneg
      · linarith
      · linarith
  · rename_i hnonneg
    split
    · rename_i hneg
      have hdividend : (-1 - i1).toInt = -1 - i1.toInt :=
        Lib.Words.toInt_sub hw hnegOne rfl (fits_of_le h₁ (by omega) (by omega))
      have hle := Rounding.tdiv_le (by omega : 0 ≤ -1 - i1.toInt) (by omega : 0 < i2.toInt)
      have hquotient := sdiv_toInt hdividend (rfl : i2.toInt = _) (by omega) (by omega)
      rw [Lib.Words.toInt_sub hw hnegOne hquotient
        (fits_neg_one_sub (fits_sdiv hdividend (by omega) (by omega)) hle.1)]
      have hbounds := Rounding.tdiv_bounds (by omega : 0 ≤ -1 - i1.toInt) (by omega : 0 < i2.toInt)
      apply Rounding.floor_of_pos (by omega)
      · linarith
      · linarith
    · rename_i hpos
      rw [sdiv_toInt rfl rfl (by omega) (by omega)]
      have hbounds := Rounding.tdiv_bounds (by omega : 0 ≤ i1.toInt) (by omega : 0 < i2.toInt)
      exact Rounding.floor_of_pos (by omega) hbounds.1 hbounds.2

theorem truncateQuotient_toInt (h₁ : Fits (v + 1) (-i1.toInt))
    (h₂ : Fits (v + 1) (-i2.toInt)) (hne : i2.toInt ≠ 0) :
    (truncateQuotient i1 i2).toInt = i1.toInt.tdiv i2.toInt := by
  rw [truncateQuotient]
  split
  · have hdivisor := neg_toInt rfl h₂
    split
    · rw [sdiv_toInt (neg_toInt rfl h₁) hdivisor (by omega) (by omega), Int.neg_tdiv, Int.tdiv_neg,
        neg_neg]
    · have hquotient := sdiv_toInt (rfl : i1.toInt = _) hdivisor (by omega) (by omega)
      rw [neg_toInt hquotient (fits_neg_of_nonneg (fits_sdiv rfl (by omega) (by omega))
        (Rounding.tdiv_le (by omega) (by omega)).1), Int.tdiv_neg, neg_neg]
  · split
    · have hquotient := sdiv_toInt (neg_toInt rfl h₁) (rfl : i2.toInt = _) (by omega) (by omega)
      rw [neg_toInt hquotient (fits_neg_of_nonneg (fits_sdiv (neg_toInt rfl h₁) (by omega) (by omega))
        (Rounding.tdiv_le (by omega) (by omega)).1), Int.neg_tdiv, neg_neg]
    · exact sdiv_toInt rfl rfl (by omega) (by omega)

theorem truncateQuotient_law (h₁ : Fits (v + 1) (-i1.toInt))
    (h₂ : Fits (v + 1) (-i2.toInt)) (hne : i2.toInt ≠ 0) :
    Rounding.truncate.Law i1.toInt i2.toInt (truncateQuotient i1 i2).toInt
      (i1.toInt - (truncateQuotient i1 i2).toInt * i2.toInt) := by
  rw [truncateQuotient_toInt h₁ h₂ hne]
  exact Rounding.truncate_tdiv hne

theorem zero_eq_iff : 0 = x ↔ x.toInt = 0 := by
  rw [eq_comm, ← BitVec.toInt_zero (w := v + 1), BitVec.toInt_inj]
  rfl

theorem zero_ne_iff : 0 ≠ x ↔ x.toInt ≠ 0 := not_congr zero_eq_iff

theorem sdiv_up_toInt (hbits : 0 < v) (hx : x.toInt = a) (hy : y.toInt = b) (ha : 0 ≤ a)
    (hb : 0 < b) : (if 0 ≠ x.srem y then x.sdiv y + 1 else x.sdiv y).toInt =
      if a - a.tdiv b * b ≠ 0 then a.tdiv b + 1 else a.tdiv b := by
  have hmod : (x.srem y).toInt = a - a.tdiv b * b := by
    rw [Lib.Words.toInt_srem hx hy, Int.tmod_def, mul_comm]
  rw [← hmod]
  by_cases h : 0 ≠ x.srem y
  · have hlt := Rounding.tdiv_lt_of_tmod ha hb (by
      rw [← Lib.Words.toInt_srem hx hy]
      exact zero_ne_iff.mp h)
    have hle := Rounding.tdiv_le ha hb
    rw [if_pos h, if_pos (zero_ne_iff.mp h), Lib.Words.toInt_add (Nat.succ_pos v)
      (sdiv_toInt hx hy ha hb) (one_toInt hbits)]
    exact fits_of_le (hx ▸ Lib.Words.fits_toInt x) (by omega) (by omega)
  · rw [if_neg h, if_neg (mt zero_ne_iff.mpr h), sdiv_toInt hx hy ha hb]

theorem ceilingQuotient_law (hbits : 0 < v) (h₁ : Fits (v + 1) (-i1.toInt))
    (h₂ : Fits (v + 1) (-i2.toInt)) (hne : i2.toInt ≠ 0) :
    Rounding.ceiling.Law i1.toInt i2.toInt (ceilingQuotient i1 i2).toInt
      (i1.toInt - (ceilingQuotient i1 i2).toInt * i2.toInt) := by
  rw [ceilingQuotient]
  by_cases hneg : i2.toInt < 0
  · have hdivisor := neg_toInt rfl h₂
    rw [if_pos hneg]
    by_cases hnonpos : i1.toInt ≤ 0
    · rw [if_pos hnonpos, sdiv_up_toInt hbits (neg_toInt rfl h₁) hdivisor (by omega) (by omega)]
      have hbounds := Rounding.tdiv_bounds (by omega : 0 ≤ -i1.toInt) (by omega : 0 < -i2.toInt)
      split
      · rename_i hmod
        have hpos := lt_of_le_of_ne hbounds.1 hmod.symm
        apply Rounding.ceiling_of_neg hneg
        · linarith
        · linarith
      · rename_i hmod
        have hzero := of_not_not hmod
        apply Rounding.ceiling_of_neg hneg
        · linarith
        · linarith
    · have hquotient := sdiv_toInt (rfl : i1.toInt = _) hdivisor (by omega) (by omega)
      have hbounds := Rounding.tdiv_bounds (by omega : 0 ≤ i1.toInt) (by omega : 0 < -i2.toInt)
      rw [if_neg hnonpos, neg_toInt hquotient (fits_neg_of_nonneg
        (fits_sdiv rfl (by omega) (by omega)) (Rounding.tdiv_le (by omega) (by omega)).1)]
      apply Rounding.ceiling_of_neg hneg
      · linarith
      · linarith
  · rw [if_neg hneg]
    by_cases hnegative : i1.toInt < 0
    · have hquotient := sdiv_toInt (neg_toInt rfl h₁) (rfl : i2.toInt = _) (by omega) (by omega)
      have hbounds := Rounding.tdiv_bounds (by omega : 0 ≤ -i1.toInt) (by omega : 0 < i2.toInt)
      rw [if_pos hnegative, neg_toInt hquotient (fits_neg_of_nonneg
        (fits_sdiv (neg_toInt rfl h₁) (by omega) (by omega))
        (Rounding.tdiv_le (by omega) (by omega)).1)]
      apply Rounding.ceiling_of_pos (by omega)
      · linarith
      · linarith
    · rw [if_neg hnegative, sdiv_up_toInt hbits rfl rfl (by omega) (by omega)]
      have hbounds := Rounding.tdiv_bounds (by omega : 0 ≤ i1.toInt) (by omega : 0 < i2.toInt)
      split
      · rename_i hmod
        have hpos := lt_of_le_of_ne hbounds.1 hmod.symm
        apply Rounding.ceiling_of_pos (by omega)
        · linarith
        · linarith
      · rename_i hmod
        have hzero := of_not_not hmod
        apply Rounding.ceiling_of_pos (by omega)
        · linarith
        · linarith

end Words

section Fixnums

variable {n d : BitVec v} {x : EmacsInt v}

def Computes (m : Rounding) (n d : BitVec v)
    (result : Except (LispError v) (Values v)) : Prop :=
  ∃ q r : EmacsInt v, m.Law n.toInt d.toInt q.toInt r.toInt ∧
    result = .ok (makeFixnum q, makeFixnum r)

theorem two_pow_succ_sub_one (hbits : 0 < v) :
    (2 : ℤ) ^ (v + 1 - 1) = 2 * 2 ^ (v - 1) := Lib.Words.two_pow_eq hbits

theorem fits_neg (hbits : 0 < v) (n : BitVec v) : Fits (v + 1) (-n.toInt) := by
  have := (fits_value n).1
  have := (fits_value n).2
  have := two_pow_succ_sub_one hbits
  have := Lib.Words.two_pow_pos (v - 1)
  exact ⟨by omega, by omega⟩

theorem Law.fits_remainder {m : Rounding} {a q r : ℤ} (h : m.Law a d.toInt q r) :
    Fits v r := by
  have hd := fits_value d
  have hlt := h.smaller
  rw [abs_lt] at hlt
  obtain hneg | hnonneg := lt_or_ge d.toInt 0
  · rw [abs_of_neg hneg] at hlt
    exact ⟨by have := hd.1; omega, by have := hd.1; omega⟩
  · rw [abs_of_nonneg hnonneg] at hlt
    exact ⟨by have := hd.2; omega, by have := hd.2; omega⟩

theorem twoFixnum_computes {m : Rounding} {operator : String}
    {quotient : EmacsInt v → EmacsInt v → EmacsInt v} (hd : d.toInt ≠ 0)
    (h : m.Law n.toInt d.toInt (quotient (xrealfixnum n) (xrealfixnum d)).toInt
      (n.toInt - (quotient (xrealfixnum n) (xrealfixnum d)).toInt * d.toInt)) :
    Computes m n d (twoFixnum operator quotient n d) := by
  refine ⟨quotient (xrealfixnum n) (xrealfixnum d),
    xrealfixnum n - quotient (xrealfixnum n) (xrealfixnum d) * xrealfixnum d, ?_, ?_⟩
  · rwa [Lib.Words.toInt_sub_mul (Nat.succ_pos v) (xrealfixnum_toInt n) rfl
      (xrealfixnum_toInt d) ((Law.fits_remainder h).mono (Nat.le_succ v))]
  · rw [twoFixnum]
    dsimp only
    rw [if_neg (by rwa [xrealfixnum_toInt])]

theorem two_toInt (hbits : 1 < v) : (2 : EmacsInt v).toInt = 2 := by
  have hfits : Fits (v + 1) 2 := by
    have h : (2 : ℤ) ^ 2 ≤ 2 ^ (v + 1 - 1) := by
      exact_mod_cast Nat.pow_le_pow_right (by decide : 0 < 2) hbits
    exact ⟨by omega, by omega⟩
  exact Lib.Words.ofInt_eq_of_fits (Nat.succ_pos v) hfits

theorem fits_tdiv_two (n : BitVec v) : Fits v (n.toInt.tdiv 2) := by
  have hhalf := Rounding.tdiv_two n.toInt
  have hn := fits_value n
  have hpos := Lib.Words.two_pow_pos (v - 1)
  exact ⟨by have := hn.1; omega, by have := hn.2; omega⟩

theorem halfDivisor_toInt (hbits : 1 < v) (d : BitVec v) :
    (halfDivisor (xrealfixnum d)).toInt = d.toInt.tdiv 2 := by
  rw [halfDivisor, xrealfixnum_toInt]
  split
  · have hquotient := sdiv_toInt (neg_toInt (xrealfixnum_toInt d) (fits_neg (by omega) d))
      (two_toInt hbits) (by omega) (by decide)
    rw [neg_toInt hquotient, Int.neg_tdiv, neg_neg]
    rw [Int.neg_tdiv, neg_neg]
    exact (fits_tdiv_two d).mono (Nat.le_succ v)
  · exact sdiv_toInt (xrealfixnum_toInt d) (two_toInt hbits) (by omega) (by decide)

theorem srem_two_iff (hbits : 1 < v) {x : EmacsInt v} :
    0 ≠ x.srem 2 ↔ ¬Even x.toInt := by
  rw [zero_ne_iff, Lib.Words.toInt_srem rfl (two_toInt hbits), even_iff_two_dvd,
    Int.dvd_iff_tmod_eq_zero]

theorem fits_half_add (n d : BitVec v) (hbits : 0 < v) :
    Fits (v + 1) (d.toInt.tdiv 2 + n.toInt) ∧
      Fits (v + 1) (-(d.toInt.tdiv 2 + n.toInt)) := by
  have hpow := two_pow_succ_sub_one hbits
  have hhalves := Rounding.tdiv_two d.toInt
  have := fits_value n
  have := fits_value d
  unfold Fits at *
  omega

theorem halfDivisor_twice (hbits : 1 < v) (d : BitVec v) :
    (halfDivisor (xrealfixnum d) + halfDivisor (xrealfixnum d)).toInt = 2 * d.toInt.tdiv 2 := by
  have hw : 0 < v + 1 := Nat.succ_pos v
  have hhalf := halfDivisor_toInt hbits d
  have hpow := two_pow_succ_sub_one (by omega : 0 < v)
  have hhalves := fits_tdiv_two d
  rw [Lib.Words.toInt_add hw hhalf hhalf, two_mul]
  unfold Fits at *
  omega

theorem pred_toInt (hbits : 0 < v) (h : ¬Even x.toInt) : (x - 1).toInt = x.toInt - 1 := by
  refine Lib.Words.toInt_sub (Nat.succ_pos v) rfl (one_toInt hbits) ?_
  have hpow := two_pow_succ_sub_one hbits
  have hfits := Lib.Words.fits_toInt x
  obtain ⟨k, hk⟩ := Int.not_even_iff_odd.mp h
  unfold Fits at *
  omega

theorem roundTwoFixnum_computes (hbits : 1 < v) (hd : d.toInt ≠ 0) :
    Computes .round n d (roundTwoFixnum n d) := by
  have hw : 0 < v + 1 := Nat.succ_pos v
  have hhalf := halfDivisor_toInt hbits d
  have hsum := fits_half_add n d (by omega)
  have hflooring := Lib.Words.toInt_add hw hhalf (xrealfixnum_toInt n) hsum.1
  have hlaw := floorQuotient_law (by omega) (hflooring.symm ▸ hsum.2)
    ((xrealfixnum_toInt d).symm ▸ fits_neg (by omega) d) ((xrealfixnum_toInt d).symm ▸ hd)
  rw [hflooring, xrealfixnum_toInt] at hlaw
  have hsecond := Lib.Words.toInt_sub_mul hw hflooring rfl (xrealfixnum_toInt d)
    ((Law.fits_remainder hlaw).mono (Nat.le_succ v))
  have hround := Rounding.Law.round_of_floor hlaw
  rw [← hsecond] at hround
  rw [roundTwoFixnum]
  dsimp only
  rw [if_neg (by rwa [xrealfixnum_toInt])]
  generalize floorQuotient (halfDivisor (xrealfixnum d) + xrealfixnum n) (xrealfixnum d) =
    floored at *
  generalize halfDivisor (xrealfixnum d) + xrealfixnum n - floored * xrealfixnum d =
    flsecond at *
  have htie : (0 = flsecond ∧
      xrealfixnum d = halfDivisor (xrealfixnum d) + halfDivisor (xrealfixnum d) ∧
      0 ≠ floored.srem 2) ↔
      flsecond.toInt = 0 ∧ d.toInt = 2 * d.toInt.tdiv 2 ∧ ¬Even floored.toInt := by
    rw [srem_two_iff hbits, ← BitVec.toInt_inj (x := xrealfixnum d), xrealfixnum_toInt,
      halfDivisor_twice hbits, zero_eq_iff]
  by_cases h : flsecond.toInt = 0 ∧ d.toInt = 2 * d.toInt.tdiv 2 ∧ ¬Even floored.toInt
  · rw [if_pos h, if_pos h] at hround
    rw [if_pos (htie.mpr h)]
    exact ⟨_, _, by rwa [pred_toInt (by omega) h.2.2, hhalf], rfl⟩
  · rw [if_neg h, if_neg h] at hround
    rw [if_neg (mt htie.mp h)]
    refine ⟨_, _, ?_, rfl⟩
    rwa [Lib.Words.toInt_sub hw rfl hhalf ((Law.fits_remainder hround).mono (Nat.le_succ v))]

theorem fixnums_computes (hbits : 1 < v) (hd : d.toInt ≠ 0) (m : Rounding) :
    Computes m n d ((conversion m).fixnums n d) := by
  have h₁ : Fits (v + 1) (-(xrealfixnum n).toInt) :=
    (xrealfixnum_toInt n).symm ▸ fits_neg (by omega) n
  have h₂ : Fits (v + 1) (-(xrealfixnum d).toInt) :=
    (xrealfixnum_toInt d).symm ▸ fits_neg (by omega) d
  have hne : (xrealfixnum d).toInt ≠ 0 := (xrealfixnum_toInt d).symm ▸ hd
  cases m with
  | floor =>
    have h := floorQuotient_law (by omega) h₁ h₂ hne
    rw [xrealfixnum_toInt, xrealfixnum_toInt] at h
    exact twoFixnum_computes hd h
  | ceiling =>
    have h := ceilingQuotient_law (by omega) h₁ h₂ hne
    rw [xrealfixnum_toInt, xrealfixnum_toInt] at h
    exact twoFixnum_computes hd h
  | truncate =>
    have h := truncateQuotient_law h₁ h₂ hne
    rw [xrealfixnum_toInt, xrealfixnum_toInt] at h
    exact twoFixnum_computes hd h
  | round => exact roundTwoFixnum_computes hbits hd

end Fixnums

end XEmacs.Number
