import XEmacs.Number.Remainder

/-! The laws of `/`, `%` and `mod`. `%` is the remainder of the truncated quotient whatever the
types of the integers; `mod` lies between zero and the divisor on the arguments that the branch of
their type is right for. -/

namespace XEmacs.Number

open Lib (Rounding SameSide)
open Lib.Words (Fits)

variable {v : ℕ}

section Rem

variable {a b : BitVec v}

theorem abs_toNat (hbits : 0 < v) (a : BitVec v) :
    ((if a.toInt < 0 then -xrealfixnum a else xrealfixnum a).toNat : ℤ) = |a.toInt| := by
  split
  · rename_i hneg
    have h := neg_toInt (xrealfixnum_toInt a) (fits_neg hbits a)
    rw [Lib.Words.toNat_of_nonneg (by omega), h, abs_of_neg hneg]
  · rename_i hnonneg
    have h := xrealfixnum_toInt a
    rw [Lib.Words.toNat_of_nonneg (by omega), h, abs_of_nonneg (by omega)]

theorem tmod_eq_sign_mul (n d : ℤ) :
    n.tmod d = |n| % |d| * if n < 0 then -1 else 1 := by
  split
  · rename_i hneg
    have h := Int.neg_tmod (-n) d
    rw [neg_neg] at h
    rw [h, Int.tmod_eq_emod_of_nonneg (by omega), abs_of_neg hneg, Int.emod_abs, mul_neg_one]
  · rw [Int.tmod_eq_emod_of_nonneg (by omega), abs_of_nonneg (by omega), Int.emod_abs, mul_one]

theorem abs_le_bound (a : BitVec v) : |a.toInt| ≤ 2 ^ (v - 1) :=
  abs_le.mpr ⟨(fits_value a).1, (fits_value a).2.le⟩

theorem remTwoFixnum_eq (hbits : 1 < v) (hb : b.toInt ≠ 0) :
    remTwoFixnum (xrealfixnum a) (xrealfixnum b) =
      .ok (.fixnum (BitVec.ofInt v (a.toInt.tmod b.toInt))) := by
  have hpow := two_pow_succ_sub_one (by omega : 0 < v)
  have hbound := abs_le_bound a
  have hpos := Lib.Words.two_pow_pos (v - 1)
  rw [remTwoFixnum, if_neg (by rwa [xrealfixnum_toInt])]
  dsimp only
  rw [xrealfixnum_toInt, xrealfixnum_toInt, makeFixnum_eq]
  generalize hval₁ : (if a.toInt < 0 then -xrealfixnum a else xrealfixnum a) = val1
  generalize hval₂ : (if b.toInt < 0 then -xrealfixnum b else xrealfixnum b) = val2
  have hleft : (val1.toNat : ℤ) = |a.toInt| := hval₁ ▸ abs_toNat (by omega) a
  have hright : (val2.toNat : ℤ) = |b.toInt| := hval₂ ▸ abs_toNat (by omega) b
  have hmod : ((val1.umod val2).toNat : ℤ) = |a.toInt| % |b.toInt| := by
    rw [← hleft, ← hright]
    exact Int.natCast_mod val1.toNat val2.toNat
  have hle : ((val1.umod val2).toNat : ℤ) ≤ |a.toInt| := by
    rw [← hleft]
    exact_mod_cast Nat.mod_le val1.toNat val2.toNat
  have hword : (val1.umod val2).toInt = |a.toInt| % |b.toInt| := by
    rw [BitVec.toInt_eq_toNat_of_lt, hmod]
    have htwice := Lib.Words.two_pow_eq (Nat.succ_pos v)
    have : (2 * (val1.umod val2).toNat : ℤ) < 2 ^ (v + 1) := by
      rw [htwice, Nat.succ_sub_one]
      rw [Nat.add_sub_cancel] at hpow
      omega
    exact_mod_cast this
  have hsign : (if a.toInt < 0 then -1 else 1 : EmacsInt v).toInt = if a.toInt < 0 then -1 else 1 := by
    split
    · exact toInt_neg_one (Nat.succ_pos v)
    · exact one_toInt (by omega)
  rw [Lib.Words.toInt_mul (Nat.succ_pos v) hword hsign, ← tmod_eq_sign_mul]
  rw [← hmod]
  unfold Fits
  rw [hpow]
  split <;> omega

end Rem

section Laws

variable {x y : LispNumber v}

theorem exists_value_eq (hinteger : x.integerp) : ∃ n : ℤ, x.value = n := by
  cases x with
  | fixnum val => exact ⟨val.toInt, rfl⟩
  | bignum data => exact ⟨data, rfl⟩
  | ratio data => exact absurd hinteger Bool.false_ne_true

theorem promoteNumbers_integers {n d : ℤ} (hx : x.integerp) (hy : y.integerp) (hn : x.value = n)
    (hd : y.value = d) :
    (∃ a b : BitVec v, promoteNumbers x y = .fixnums a b ∧ a.toInt = n ∧ b.toInt = d) ∨
      promoteNumbers x y = .bignums n d := by
  have hof := promoteNumbers_of x y
  cases hpromoted : promoteNumbers x y with
  | fixnums a b =>
    rw [hpromoted] at hof
    obtain ⟨rfl, rfl⟩ := hof
    rw [LispNumber.value] at hn hd
    exact .inl ⟨a, b, rfl, by exact_mod_cast hn, by exact_mod_cast hd⟩
  | bignums a b =>
    rw [hpromoted] at hof
    have ha : a = n := by exact_mod_cast hof.1.symm.trans hn
    have hb : b = d := by exact_mod_cast hof.2.symm.trans hd
    exact .inr (by rw [ha, hb])
  | ratios a b =>
    cases x <;> cases y <;> simp_all [promoteNumbers, LispNumber.integerp]

theorem frem_eq (hbits : 1 < v) {n d : ℤ} (hx : x.integerp) (hy : y.integerp) (hn : x.value = n)
    (hd : y.value = d) (hne : d ≠ 0) :
    frem (.number x) (.number y) = .ok (.canonicalizeBignum (n.tmod d)) := by
  simp only [frem, integerCharOrMarkerP, hx, hy, Bool.not_true, Bool.false_eq_true, if_false,
    promoteArgs, LispObject.toNumber]
  obtain ⟨a, b, hpromoted, rfl, rfl⟩ | hpromoted := promoteNumbers_integers hx hy hn hd
  · rw [hpromoted]
    dsimp only
    rw [remTwoFixnum_eq hbits hne, LispNumber.canonicalizeBignum_of_fits]
    exact Law.fits_remainder (Rounding.truncate_tmod hne)
  · rw [hpromoted]
    dsimp only
    rw [if_neg hne]
    by_cases hsign : 0 ≤ n
    · rw [if_pos hsign, bignumMod, ← Int.tmod_eq_emod_of_nonneg hsign]
      rfl
    · rw [if_neg hsign, bignumMod, ← Int.tmod_eq_emod_of_nonneg (by omega), Int.neg_tmod, neg_neg]
      rfl

theorem fits_tdiv (hbits : 0 < v) (a b : BitVec v) : Fits (v + 1) (a.toInt.tdiv b.toInt) := by
  have hpow := two_pow_succ_sub_one hbits
  have hpos := Lib.Words.two_pow_pos (v - 1)
  have hbound := abs_le_bound a
  have hle : |a.toInt.tdiv b.toInt| ≤ |a.toInt| := by
    rw [Int.abs_eq_natAbs, Int.abs_eq_natAbs]
    exact_mod_cast Int.natAbs_tdiv_le_natAbs a.toInt b.toInt
  have habs := abs_le.mp (hle.trans hbound)
  exact ⟨by omega, by omega⟩

theorem fquo_eq (hbits : 0 < v) {n d : ℤ} (hx : x.integerp) (hy : y.integerp) (hn : x.value = n)
    (hd : y.value = d) (hne : d ≠ 0) :
    fquo (.number x) [.number y] = .ok (.canonicalizeBignum (n.tdiv d)) := by
  have hstep : ∃ q, quoStep (.number x) (.number y) = .ok (.number q) ∧
      q.canonicalizeNumber = .canonicalizeBignum (n.tdiv d) := by
    simp only [quoStep, promoteArgs, LispObject.toNumber]
    obtain ⟨a, b, hpromoted, rfl, rfl⟩ | hpromoted := promoteNumbers_integers hx hy hn hd
    · rw [hpromoted]
      refine ⟨_, if_neg (by rwa [xrealfixnum_toInt]), ?_⟩
      rw [makeInteger_eq, Lib.Words.toInt_sdiv (Nat.succ_pos v) (xrealfixnum_toInt a)
        (xrealfixnum_toInt b) (fits_tdiv hbits a b)]
      exact canonicalizeNumber_of_canonical (LispNumber.canonicalizeBignum_canonical _)
    · rw [hpromoted]
      exact ⟨_, if_neg hne, rfl⟩
  obtain ⟨q, hq, hcanonical⟩ := hstep
  rw [fquo, if_neg (List.cons_ne_nil _ _), quoLoop, hq, ← hcanonical]
  rfl

end Laws

section Promotion

variable {x y x' y' : LispNumber v}

def PromotedTo (x x' : LispNumber v) : Prop :=
  x'.value = x.value ∧ x.getNumberType.rank ≤ x'.getNumberType.rank

/-- What `mod` is to return, canonical. -/
def ModHolds (x y : LispNumber v) (result : Except (LispError v) (LispNumber v)) : Prop :=
  ∃ r, result = .ok r ∧ r.Canonical ∧ ModLaw x.value y.value r.value

theorem ModHolds.unique {result result' : Except (LispError v) (LispNumber v)} (hy : y.value ≠ 0)
    (h : ModHolds x y result) (h' : ModHolds x y result') : result = result' := by
  obtain ⟨r, rfl, hcanonical, hlaw⟩ := h
  obtain ⟨r', rfl, hcanonical', hlaw'⟩ := h'
  rw [hcanonical.eq_of_value hcanonical' (hlaw.unique hy hlaw')]

theorem promotedType_rank (x y : LispNumber v) :
    (promotedType x y).rank = max x.getNumberType.rank y.getNumberType.rank := by
  cases x <;> cases y <;> rfl

theorem modHolds_iff (hbits : 0 < v) (hy : y.value ≠ 0) (hx' : x'.value = x.value)
    (hy' : y'.value = y.value) :
    ModHolds x y (fmod (.number x') (.number y')) ↔
      ModCondition x.value y.value (promotedType x' y') := by
  obtain ⟨r, hr, hcanonical, hbranch⟩ := fmod_branch (x := x') hbits (hy' ▸ hy)
  rw [hx', hy'] at hbranch
  rw [← hbranch.modLaw_iff hy, hr]
  constructor
  · rintro ⟨r', hr', -, hlaw⟩
    obtain rfl := Except.ok.inj hr'
    exact hlaw
  · exact fun hlaw => ⟨r, rfl, hcanonical, hlaw⟩

def coerceTo (x : LispNumber v) : NumberType → LispNumber v
  | .fixnumT => x
  | .bignumT => x.coerceToBignum
  | .ratioT => x.coerceToRatio

theorem coerceTo_promoted {t : NumberType} (h : x.getNumberType.rank ≤ t.rank) :
    PromotedTo x (coerceTo x t) ∧ (coerceTo x t).getNumberType = t := by
  cases t <;> cases x <;>
    simp_all [coerceTo, PromotedTo, LispNumber.getNumberType, NumberType.rank, LispNumber.value,
      LispNumber.coerceToBignum, LispNumber.coerceToRatio]

theorem promotedType_coerceTo {t : NumberType} (h : (promotedType x y).rank ≤ t.rank) :
    promotedType (coerceTo x t) (coerceTo y t) = t := by
  cases t <;> cases x <;> cases y <;> simp_all [coerceTo, promotedType, promoteNumbers,
    NumberType.rank, LispNumber.coerceToBignum, LispNumber.coerceToRatio]

theorem modHolds_promoted_iff (hbits : 0 < v) (hy : y.value ≠ 0) :
    (∀ x' y', PromotedTo x x' → PromotedTo y y' → ModHolds x y (fmod (.number x') (.number y')) ∧
        fmod (.number x') (.number y') = fmod (.number x) (.number y)) ↔
      ∀ t : NumberType, (promotedType x y).rank ≤ t.rank → ModCondition x.value y.value t := by
  constructor
  · intro h t ht
    have hrank := promotedType_rank x y
    obtain ⟨hx', -⟩ := coerceTo_promoted (x := x) (t := t) (by omega)
    obtain ⟨hy', -⟩ := coerceTo_promoted (x := y) (t := t) (by omega)
    have hholds := (modHolds_iff hbits hy hx'.1 hy'.1).mp (h _ _ hx' hy').1
    rwa [promotedType_coerceTo ht] at hholds
  · intro h x' y' hx' hy'
    have hrank := promotedType_rank x y
    have hrank' := promotedType_rank x' y'
    have hle : (promotedType x y).rank ≤ (promotedType x' y').rank := by
      have := hx'.2
      have := hy'.2
      omega
    have hholds := (modHolds_iff hbits hy hx'.1 hy'.1).mpr (h _ hle)
    exact ⟨hholds, hholds.unique hy ((modHolds_iff hbits hy rfl rfl).mpr (h _ le_rfl))⟩

end Promotion

/-- `mod` is right, and the same for promoted arguments, just where each branch that can be taken
is; `%` and `/` are right for all integers. -/
theorem remainder_laws (hbits : 1 < v) (x y : LispNumber v) (hy : y.value ≠ 0) :
    (ModHolds x y (fmod (.number x) (.number y)) ↔
      ModCondition x.value y.value (promotedType x y)) ∧
    ((∀ x' y', PromotedTo x x' → PromotedTo y y' → ModHolds x y (fmod (.number x') (.number y')) ∧
        fmod (.number x') (.number y') = fmod (.number x) (.number y)) ↔
      ∀ t : NumberType, (promotedType x y).rank ≤ t.rank → ModCondition x.value y.value t) ∧
    (x.integerp → y.integerp → ∃ q r : LispNumber v, q.Canonical ∧ r.Canonical ∧
      (∃ k : ℤ, q.value = k ∧ Rounding.truncate.Law x.value y.value k r.value) ∧
      r.value = x.value - q.value * y.value ∧
      ∀ x' y', PromotedTo x x' → PromotedTo y y' → x'.integerp → y'.integerp →
        fquo (.number x') [.number y'] = .ok q ∧ frem (.number x') (.number y') = .ok r) := by
  refine ⟨modHolds_iff (by omega) hy rfl rfl, modHolds_promoted_iff (by omega) hy,
    fun hinteger hinteger' => ?_⟩
  obtain ⟨n, hn⟩ := exists_value_eq hinteger
  obtain ⟨d, hd⟩ := exists_value_eq hinteger'
  have hne : d ≠ 0 := by
    rw [hd] at hy
    exact_mod_cast hy
  have hlaw := (Rounding.truncate_tmod (n := n) hne).ratCast
  refine ⟨.canonicalizeBignum (n.tdiv d), .canonicalizeBignum (n.tmod d),
    LispNumber.canonicalizeBignum_canonical _, LispNumber.canonicalizeBignum_canonical _, ?_, ?_, ?_⟩
  · rw [LispNumber.canonicalizeBignum_value (by omega), LispNumber.canonicalizeBignum_value (by omega),
      hn, hd]
    exact ⟨n.tdiv d, rfl, hlaw⟩
  · rw [LispNumber.canonicalizeBignum_value (by omega), LispNumber.canonicalizeBignum_value (by omega),
      hn, hd]
    linear_combination -hlaw.division
  · intro x' y' hx' hy' hi hi'
    have hn' := hx'.1.trans hn
    have hd' := hy'.1.trans hd
    exact ⟨fquo_eq (by omega) hi hi' hn' hd' hne, frem_eq hbits hi hi' hn' hd' hne⟩

theorem remainder_laws_seven :
    ∃ q r : LispNumber 63, q.Canonical ∧ r.Canonical ∧
      (∃ k : ℤ, q.value = k ∧ Rounding.truncate.Law (-7 : ℚ) 2 k r.value) ∧
      r.value = -7 - q.value * 2 ∧
      ∀ x' y', PromotedTo (.bignum (-7)) x' → PromotedTo (.bignum 2) y' → x'.integerp → y'.integerp →
        fquo (.number x') [.number y'] = .ok q ∧ frem (.number x') (.number y') = .ok r := by
  have h := (remainder_laws (v := 63) (by decide) (.bignum (-7)) (.bignum 2)
    (by rw [LispNumber.value]; norm_num)).2.2 rfl rfl
  simpa [LispNumber.value] using h

/-- One modulo a negative bignum, and minus one half modulo three. -/
theorem fmod_wrong_sign :
    fmod (v := 63) (.number (.fixnum 1)) (.number (.bignum (-2 ^ 70))) = .ok (.fixnum 1) ∧
      fmod (v := 63) (.number (.ratio (-1 / 2))) (.number (.fixnum 3)) = .ok (.ratio (-1 / 2)) ∧
      ¬∀ x y : LispNumber 63, y.value ≠ 0 → ModHolds x y (fmod (.number x) (.number y)) := by
  have hvalue : fmod (v := 63) (.number (.fixnum 1)) (.number (.bignum (-2 ^ 70))) =
      .ok (.fixnum 1) := by decide +kernel
  refine ⟨hvalue, by decide +kernel, fun h => ?_⟩
  obtain ⟨r, hr, -, hlaw⟩ := h (.fixnum 1) (.bignum (-2 ^ 70)) (by decide +kernel)
  obtain rfl := Except.ok.inj (hvalue.symm.trans hr)
  exact absurd (hlaw.2.2 (by decide +kernel)).2 (by decide +kernel)

end XEmacs.Number
