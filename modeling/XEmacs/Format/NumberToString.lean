import Mathlib.Data.Nat.Digits.Lemmas
import XEmacs.Format.IntegerFields
import XEmacs.Number.DigitMapsInverse
import XEmacs.Number.StringToNumberExact

/-! `number-to-string` of exact numbers. The text is read as the number by `string-to-number` and, unless it is
an integer too negative for that, by `parse_integer`. -/

namespace XEmacs.Format

open Number Table

variable {B : CharBuild} {v : ℕ}

/-- `ratio_size_in_base`, up to the greatest base of the number library. -/
structure NumberSizes (lengths : IcharLengths) extends BignumSizes lengths where
  ratioSize : ℕ → ℚ → ℕ
  ratioRoom : ∀ base ≤ 62, ∀ q : ℚ, ((Nat.digits base q.num.natAbs).length + 2 +
    (Nat.digits base q.den).length) * lengths.maxIcharLen ≤ ratioSize base q

section Functions

variable (lengths : IcharLengths) (table : ℕ → ℕ) (sizes : NumberSizes lengths)

/-- How often a radix is shifted until it is one. -/
def countShifts : ℕ → ℕ → ℕ → ℕ
  | 0, _, powof2 => powof2
  | fuel + 1, radix, powof2 => if radix = 1 then powof2 else countShifts fuel (radix >>> 1) (powof2 + 1)

def fixnumToString (number : EmacsInt v) (radix : ℕ) : List ℕ :=
  if radix = 10 then fixnumToStringBase10 table number
  else
    let uval := if number.toInt < 0 then -number else number
    let text :=
      if radix &&& (radix - 1) = 0 then emacsUintToStringRshift1 table uval (countShifts 16 radix 0)
      else orZero table (generalLoop table radix (v + 1) uval.toNat [])
    if number.toInt < 0 then minus :: text else text

/-- `ratio_to_string_1`, in a buffer of some bytes. -/
def ratioToString1 (size radix : ℕ) (rat : ℚ) : Option (List ℕ) :=
  (bignumToString1 lengths table size radix rat.den).bind fun denominator =>
    (bignumToString1 lengths table (size - textLength lengths (slash :: denominator)) radix rat.num).map
      (· ++ slash :: denominator)

/-- What `Fnumber_to_string` prints. None is where a buffer is too small. -/
def printNumber (radix : ℕ) : LispNumber v → Option (List ℕ)
  | .fixnum val => some (fixnumToString table (xrealfixnum val) radix)
  | .bignum data => bignumToString1 lengths table (sizes.size 2 data) radix data
  | .ratio data => ratioToString1 lengths table (sizes.ratioSize radix data) radix data

/-- `check_integer_range` from two on. -/
def checkRadixing (radix : LispNumber v) (greatest : ℕ) : Except (RadixFailure v) ℕ :=
  if !radix.integerp then .error (.lispError (.notInteger radix))
  else if 2 ≤ radix.value ∧ radix.value ≤ greatest then .ok radix.value.num.toNat
  else .error (.lispError (.argsOutOfRange3 radix 2 greatest))

def majusculeOf (maps : RadixMaps) (weight : ℕ) : ℕ := maps.majuscule[weight]?.getD 0

def fnumberToString (R : CharRounding B) (cases : LetterCases) (number : LispNumber v) (radix : Option (LispNumber v))
    (radixTable : Option ℕ) (s : DigitState) : Except (RadixFailure v) (Option (List ℕ) × DigitState) :=
  match getRadixTableMaps R cases (s.tableOf radixTable) s with
  | .error e => .error e
  | .ok (maps, s) =>
    match checkRadixing (radix.getD (makeFixnum 10)) maps.greatestRadix with
    | .error e => .error e
    | .ok radixing => .ok (printNumber lengths (majusculeOf maps) sizes radixing number, s)

def printed (radix : ℕ) (q : ℚ) : List ℕ :=
  (if q.num < 0 then [minus] else []) ++ (numeral table radix q.num.natAbs ++
    if q.den = 1 then [] else slash :: numeral table radix q.den)

end Functions

variable {lengths : IcharLengths} {table : ℕ → ℕ} {sizes : NumberSizes lengths} {radix r : ℕ} {q : ℚ}

theorem countShifts_eq {k fuel : ℕ} (hk : k ≤ fuel) (n : ℕ) : countShifts fuel (2 ^ k) n = n + k := by
  induction k generalizing fuel n with
  | zero => cases fuel <;> rfl
  | succ k ih =>
    obtain ⟨fuel, rfl⟩ := Nat.exists_eq_add_of_le' (show 1 ≤ fuel by omega)
    have hpow : 2 ^ (k + 1) >>> 1 = 2 ^ k := by rw [Nat.shiftRight_eq_div_pow, pow_succ, pow_one, Nat.mul_div_cancel _ Nat.two_pos]
    rw [countShifts, if_neg (Nat.one_lt_two_pow (Nat.succ_ne_zero k)).ne', hpow, ih (by omega)]
    omega

theorem fixnumToString_eq (hv : v = 31 ∨ v = 63) (hradix : 1 < radix) (hle : radix ≤ 0xFFFF) (val : BitVec v) :
    fixnumToString table (xrealfixnum val) radix =
      (if val.toInt < 0 then [minus] else []) ++ numeral table radix val.toInt.natAbs := by
  have htext (uval : EmacsInt v) : (if radix &&& (radix - 1) = 0 then
      emacsUintToStringRshift1 table uval (countShifts 16 radix 0)
      else orZero table (generalLoop table radix (v + 1) uval.toNat [])) = numeral table radix uval.toNat := by
    split_ifs with hpow
    · obtain ⟨k, rfl⟩ := Nat.ne_zero_and_sub_one_eq_zero_iff_isPowerOfTwo.mp ⟨by omega, hpow⟩
      have hk : k < 16 := (Nat.pow_lt_pow_iff_right Nat.one_lt_two).mp (show 2 ^ k < 2 ^ 16 by omega)
      have hpos : 0 < k := Nat.pos_of_ne_zero fun h => by simp [h] at hradix
      rw [countShifts_eq (by omega), zero_add, emacsUintToStringRshift1_eq hpos (by omega)]
    · rw [generalLoop_eq hradix _ _ uval.isLt, List.append_nil, numeral]
  unfold fixnumToString
  dsimp only
  rw [xrealfixnum_toInt, htext, uval_toNat (show 0 < v by omega)]
  by_cases hten : radix = 10
  · rw [if_pos hten, fixnumToStringBase10_eq hv, hten]
  · rw [if_neg hten]
    split_ifs <;> rfl

theorem printNumber_eq (hv : v = 31 ∨ v = 63) (hlengths : lengths.icharLen slash + lengths.icharLen minus < lengths.maxIcharLen)
    (hradix : 1 < radix) (hle : radix ≤ 0xFFFF) (hden : q.den = 1 ∨ radix ≤ 62) :
    printNumber lengths table sizes radix (LispNumber.canonicalizeNumber (v := v) (.ratio q)) =
      some (printed table radix q) := by
  have hslash := lengths.one_le slash
  unfold printed
  by_cases hone : q.den = 1
  · rw [LispNumber.canonicalizeNumber, if_pos hone, if_pos hone, List.append_nil]
    by_cases hfits : Lib.Words.Fits v q.num
    · rw [LispNumber.canonicalizeBignum_of_fits hfits, printNumber, fixnumToString_eq hv hradix hle,
        Lib.Words.ofInt_eq_of_fits (show 0 < v by omega) hfits]
    · have hroom := sizes.room 2 q.num
      have hdigits : (Nat.digits radix q.num.natAbs).length ≤ (Nat.digits 2 q.num.natAbs).length := by
        by_cases hzero : q.num.natAbs = 0
        · simp [hzero]
        · rw [Nat.length_digits _ _ hradix hzero, Nat.length_digits _ _ Nat.one_lt_two hzero]
          exact Nat.succ_le_succ (Nat.log_anti_left Nat.one_lt_two hradix)
      have hmul := Nat.mul_le_mul_right lengths.maxIcharLen hdigits
      rw [LispNumber.canonicalizeBignum_of_not_fits hfits, printNumber,
        bignumToString1_of_room hradix (by rw [add_mul] at hroom ⊢; split_ifs <;> omega)]
  · have hroom := sizes.ratioRoom radix (hden.resolve_left hone) q
    have hlength := (@length_le_textLength lengths (numeral table radix q.den)).2
    rw [numeral_of_pos q.den_pos, List.length_map, List.length_reverse, mul_comm, ← numeral_of_pos q.den_pos] at hlength
    have hdenominator : bignumToString1 lengths table (sizes.ratioSize radix q) radix q.den = some (numeral table radix q.den) := by
      have hnonneg : ¬(q.den : ℤ) < 0 := not_lt.mpr (Int.natCast_nonneg _)
      rw [bignumToString1_of_room hradix, if_neg hnonneg]
      · rfl
      · rw [if_neg hnonneg, Int.natAbs_natCast]
        rw [add_mul, add_mul] at hroom
        rw [add_mul]
        omega
    rw [LispNumber.canonicalizeNumber, if_neg hone, if_neg hone, printNumber, ratioToString1, hdenominator, Option.bind_some,
      bignumToString1_of_room hradix, Option.map_some, List.append_assoc]
    rw [textLength, List.map_cons, List.sum_cons, ← textLength]
    rw [add_mul, add_mul] at hroom
    rw [add_mul]
    split_ifs <;> omega

variable {R : CharRounding B} {cases : LetterCases} {s s' : DigitState} {maps : RadixMaps}
variable {arg : Option (LispNumber v)} {radixTable : Option ℕ}

theorem checkRadixing_ok {x : LispNumber v} {greatest : ℕ} (hx : x.Canonical) (hr : x.value = r) (hradix : 1 < r)
    (hle : r ≤ greatest) : checkRadixing x greatest = .ok r := by
  rw [checkRadixing, integerp_of_value hx hr, hr, if_neg (by decide),
    if_pos ⟨by exact_mod_cast hradix, by exact_mod_cast hle⟩]
  rfl

theorem isfloatString_of_digits {p : List ℕ} (h : ∀ c ∈ p, c ≠ 46 ∧ c ≠ 101 ∧ c ≠ 69) : isfloatString p = false := by
  have hlead : ∃ state rest, scanDigits leadInt (0, dropSign p) = (state, rest) ∧ (state = 0 ∨ state = leadInt) ∧
      ∀ c ∈ rest.head?, decimalP c = false ∧ c ∈ p := by
    have hmem : ∀ c ∈ dropSign p, c ∈ p := fun c hc => by
      cases p with
      | nil => exact hc
      | cons d p =>
        rw [dropSign] at hc
        split_ifs at hc
        · exact List.mem_cons_of_mem d hc
        · exact hc
    rw [scanDigits]
    split_ifs with hdigit
    · refine ⟨_, _, rfl, .inr rfl, fun c hc => ⟨?_, hmem c ((List.dropWhile_sublist _).subset (List.mem_of_mem_head? hc))⟩⟩
      have hnot := List.head?_dropWhile_not decimalP (dropSign p)
      rw [hc] at hnot
      simpa using hnot
    · refine ⟨_, _, rfl, .inl rfl, fun c hc => ⟨?_, hmem c (List.mem_of_mem_head? hc)⟩⟩
      rw [hc] at hdigit
      simpa using hdigit
  obtain ⟨state, rest, hlead, hstate, hhead⟩ := hlead
  have hscan : isfloatScan p = (state, rest) := by
    rw [isfloatScan, hlead]
    cases rest with
    | nil => rfl
    | cons c rest =>
      obtain ⟨hdecimal, hc⟩ := hhead c rfl
      simp [scanChar, scanDigits, hdecimal, h c hc]
  rw [isfloatString, hscan]
  obtain rfl | rfl := hstate <;> simp [leadInt, dotChar, trailInt, eChar, expInt]

/-- A text begins with a numeral, as `string-to-number` takes it apart. -/
structure Begins (r : ℕ) (p : List ℕ) (n : ℤ) (rest : List ℕ) : Prop where
  noPlus : dropPlus p = p
  noSigns : plusMinusP p = false
  good : GoodRun r (digitRun r p)
  after : afterRun r p = rest
  value : signed (minusP p) (digitsValue r (digitRun r p)) = n

theorem begins_numeral (hweight : ∀ d < r, digitToNumber (table d) r = some d) (hradix : 1 < r) (n : ℤ) {rest : List ℕ}
    (hrest : ∀ c ∈ rest.head?, c = slash) :
    Begins r ((if n < 0 then [minus] else []) ++ (numeral table r n.natAbs ++ rest)) n rest := by
  have hdigit : ∀ c ∈ numeral table r n.natAbs, digitP r c := fun c hc => by
    obtain ⟨d, hd, rfl⟩ := mem_numeral hradix hc
    rw [digitP, hweight d hd]
    rfl
  have hloop : ∀ c ∈ numeral table r n.natAbs, loopByte r c := fun c hc => loopByte_of_digitP (hdigit c hc)
  have hnone : ∀ c ∈ rest.head?, loopByte r c = false := fun c hc => by
    rw [hrest c hc]
    simp [loopByte, decimalP, slash]
  have htake : (numeral table r n.natAbs ++ rest).takeWhile (loopByte r) = numeral table r n.natAbs ∧
      (numeral table r n.natAbs ++ rest).dropWhile (loopByte r) = rest := by
    rw [List.takeWhile_append_of_pos hloop, List.dropWhile_append_of_pos hloop]
    cases rest with
    | nil => simp
    | cons c rest => simp [hnone c rfl]
  have hvalue : digitsValue r (numeral table r n.natAbs) = n.natAbs := by
    have hcast (k : ℕ) (digits : List ℕ) : digits.foldl (fun (n : ℤ) c => n * r + (digitToNumber c r).getD 0) k =
        (digits.foldl (fun n c => n * r + (digitToNumber c r).getD 0) k : ℕ) := by
      induction digits generalizing k with
      | nil => rfl
      | cons c digits ih => exact_mod_cast ih (k * r + (digitToNumber c r).getD 0)
    rw [digitsValue, ← Int.natCast_zero, hcast, foldl_numeral hradix fun d hd => by rw [hweight d hd, Option.getD_some]]
  obtain ⟨c, digits, hc⟩ := List.exists_cons_of_ne_nil (show numeral table r n.natAbs ≠ [] from
    List.length_pos_iff.mp numeral_length_pos)
  have hfirst : c ≠ plus ∧ c ≠ minus := by
    have hdash := hdigit c (hc ▸ List.mem_cons_self)
    constructor <;> rintro rfl <;> simp [digitP, digitToNumber, plus, minus] at hdash
  generalize hp : (if n < 0 then [minus] else []) ++ (numeral table r n.natAbs ++ rest) = p
  have hminus : minusP p = decide (n < 0) ∧ afterMinus p = numeral table r n.natAbs ++ rest := by
    rw [afterMinus]
    by_cases hneg : n < 0 <;> simp [← hp, minusP, hneg, hc, hfirst.2]
  have hplus : p.head? ≠ some plus := by
    have hsigns : minus ≠ plus := by decide
    by_cases hneg : n < 0 <;> simp [← hp, hneg, hc, hfirst.1, hsigns]
  refine ⟨?_, by simp [plusMinusP, hplus], ?_, ?_, ?_⟩
  · cases p with
    | nil => rfl
    | cons d p => exact if_neg fun hd => hplus (congrArg some hd)
  · rw [digitRun, hminus.2, htake.1]
    exact ⟨by rw [hc]; exact List.cons_ne_nil c digits, List.all_eq_true.mpr hdigit⟩
  · rw [afterRun, hminus.2, htake.2]
  · rw [digitRun, hminus.2, htake.1, hvalue, hminus.1, signed]
    simp only [decide_eq_true_eq]
    split_ifs <;> omega

theorem fixnumBase_ofNat (hv : v = 31 ∨ v = 63) (hradix : 1 < r) (hle : r ≤ 0xFFFF) :
    FixnumBase (BitVec.ofNat (v + 1) r) ∧ (BitVec.ofNat (v + 1) r).toNat = r := by
  have hnat : (BitVec.ofNat (v + 1) r).toNat = r := by
    obtain rfl | rfl := hv <;> exact Nat.mod_eq_of_lt (by omega)
  have hint : (BitVec.ofNat (v + 1) r).toInt = r := by
    rw [BitVec.toInt_eq_toNat_cond, hnat]
    obtain rfl | rfl := hv <;> exact if_pos (by omega)
  refine ⟨⟨?_, ?_⟩, hnat⟩ <;> rw [hint]
  · omega
  · obtain rfl | rfl := hv <;> norm_num <;> omega

theorem digitToNumber_ascii {c d : ℕ} (hweight : fixnumWeight vdigitFixnumAscii c = some (d : ℤ)) (hd : d < r) :
    digitToNumber c r = some d := by
  rw [fixnumWeight_vdigitFixnumAscii] at hweight
  unfold digitToNumber
  split_ifs at hweight ⊢ <;> simp at hweight ⊢ <;> omega

theorem checkBase_ok (hv : 17 ≤ v) (harg : (arg.getD (makeFixnum 10)).Canonical)
    (hr : (arg.getD (makeFixnum 10)).value = r) (hradix : 1 < r) (hsixteen : r ≤ 16) : checkBase arg = .ok r := by
  cases arg with
  | none =>
    have hten : 10 = r := by exact_mod_cast (makeFixnum_ten hv).symm.trans hr
    exact congrArg Except.ok hten
  | some base =>
    have hvalue : base.value = r := hr
    rw [checkBase, integerp_of_value (x := base) harg hvalue, hvalue, if_neg (by decide),
      if_pos ⟨by exact_mod_cast hradix, by exact_mod_cast hsixteen⟩]
    rfl

theorem fstringToNumber_printed (hv : v = 31 ∨ v = 63) {F G : Type} (readers : NumberReaders F G)
    (hweight : ∀ d < r, digitToNumber (table d) r = some d) (hradix : 1 < r) (hbase : checkBase arg = .ok r) (prec : ℕ)
    (scratch : Scratch G) (q : ℚ) : ∃ scratch', fstringToNumber readers prec (printed table r q) arg scratch =
      .ok (.exact (LispNumber.canonicalizeNumber (.ratio q)), scratch') := by
  have hp : Begins r (printed table r q) q.num (if q.den = 1 then [] else slash :: numeral table r q.den) :=
    begins_numeral hweight hradix q.num fun c hc => by
      split_ifs at hc
      · exact absurd hc (Option.not_mem_none c)
      · exact (Option.some.inj hc).symm
  have hmem : ∀ c ∈ printed table r q, c = minus ∨ q.den ≠ 1 ∧ c = slash ∨ loopByte r c := fun c hc => by
    have hdigit {n : ℕ} (hc : c ∈ numeral table r n) : loopByte r c := by
      obtain ⟨d, hd, rfl⟩ := mem_numeral hradix hc
      exact loopByte_of_digitP (by rw [digitP, hweight d hd]; rfl)
    unfold printed at hc
    split_ifs at hc with hneg hone hone <;> simp at hc <;> grind
  have hplain : ∀ c ∈ printed table r q, c ≠ 0 ∧ c ≠ 32 ∧ c ≠ 9 ∧ (r = 10 → c ≠ 46 ∧ c ≠ 101 ∧ c ≠ 69) := fun c hc => by
    rcases hmem c hc with rfl | ⟨-, rfl⟩ | hloop
    · exact ⟨by decide, by decide, by decide, fun _ => by decide⟩
    · exact ⟨by decide, by decide, by decide, fun _ => by decide⟩
    · simp only [loopByte, decimalP, decide_eq_true_eq] at hloop
      omega
  generalize printed table r q = p at *
  have hskip : skipBlanks (cString p) = p := by
    rw [cString, List.takeWhile_eq_self_iff.mpr fun c hc => by simpa using (hplain c hc).1, skipBlanks]
    cases p with
    | nil => rfl
    | cons c p => simp [hplain c List.mem_cons_self]
  have hfloat : ¬(isfloatString p ∧ r = 10) := fun h =>
    Bool.false_ne_true ((isfloatString_of_digits fun c hc => (hplain c hc).2.2.2 h.2).symm.trans h.1)
  have hsigns {P : Prop} (h : plusMinusP p) : P := absurd (hp.noSigns.symm.trans h) Bool.false_ne_true
  have hreads : ReadsInteger r p := ⟨hp.noPlus.symm ▸ hp.good, hsigns⟩
  have hafter := hp.after
  rw [fstringToNumber, hbase]
  dsimp only
  rw [hskip, if_neg hfloat]
  by_cases hone : q.den = 1
  · rw [if_pos hone] at hafter
    have hslash : slash ∉ p := fun h => by
      rcases hmem slash h with h | h | h
      · exact absurd h (by decide)
      · exact h.1 hone
      · simp [loopByte, decimalP, slash] at h
    have hnumeral := leadingNumeral_of_readsInteger hreads (by rw [hp.noPlus, hafter]; exact (Option.some_ne_none slash).symm)
    rw [hp.noPlus, hp.value, Rat.coe_int_num_of_den_eq_one hone] at hnumeral
    have hread := (readInteger_iff (v := v) readers (by omega) hslash).mpr (.inr hreads) scratch
    rw [hnumeral] at hread
    exact ⟨_, by rw [if_neg hslash, ← hread]⟩
  · rw [if_neg hone] at hafter
    have hden : Begins r (_ ++ (_ ++ [])) q.den [] := begins_numeral hweight hradix q.den fun c hc => absurd hc (Option.not_mem_none c)
    rw [if_neg (not_lt.mpr (Int.natCast_nonneg _)), List.append_nil, List.nil_append, Int.natAbs_natCast] at hden
    have hslash : slash ∈ p := mem_of_mem_afterRun (b := r) (by rw [hp.noPlus, hafter]; exact List.mem_cons_self)
    have hsigned := (leadingSigned_good hreads).resolve_left fun h => hsigns h.1
    rw [hp.noPlus, hp.value, hafter] at hsigned
    have hnumeral := leadingNumeral_ratio hsigned
    rw [leadingInteger_good hden.good, hden.value] at hnumeral
    dsimp only at hnumeral
    rw [if_neg (Int.natCast_ne_zero.mpr q.den_ne_zero), Int.cast_natCast, Rat.num_div_den] at hnumeral
    have hratio : ReadsRatio r p := ⟨hreads, fun rest hrest => by
      rw [hp.noPlus, hafter] at hrest
      obtain ⟨-, rfl⟩ := List.cons.inj hrest
      rw [if_pos hden.good]
      intro hzero
      have hvalue := hden.value
      rw [hzero, signed_eq_zero.mpr rfl] at hvalue
      exact q.den_ne_zero (by omega)⟩
    have hread := (readRatio_iff (v := v) readers (by omega)).mpr hratio scratch
    rw [hnumeral] at hread
    rwa [if_pos hslash]

section Reading

variable (hright : RightlyMapped B s (s.tableOf radixTable))
  (hmaps : getRadixTableMaps (v := v) R cases (s.tableOf radixTable) s = .ok (maps, s')) (hle : r ≤ maps.greatestRadix)

include hright hmaps hle

theorem fixnumWeight_majuscule (d : ℕ) (hd : d < r) :
    fixnumWeight (s.tables (s.tableOf radixTable)).val (majusculeOf maps d) = some (d : ℤ) := by
  have hchar : maps.majuscule[d]? = some _ := Vector.getElem?_eq_getElem (hd.trans_le hle)
  rw [majusculeOf, hchar, Option.getD_some, fixnumWeight, (hright.accurate hmaps d _ hchar).2]

variable (hv : v = 31 ∨ v = 63) (hlengths : lengths.icharLen slash + lengths.icharLen minus < lengths.maxIcharLen)
  (harg : (arg.getD (makeFixnum 10)).Canonical) (hr : (arg.getD (makeFixnum 10)).value = r) (hradix : 1 < r)

include hv hlengths harg hr hradix

omit hright in
theorem fnumberToString_eq (hden : q.den = 1 ∨ r ≤ 62) :
    fnumberToString lengths sizes R cases (LispNumber.canonicalizeNumber (.ratio q)) arg radixTable s =
      .ok (some (printed (majusculeOf maps) r q), s') := by
  rw [fnumberToString, hmaps]
  dsimp only
  rw [checkRadixing_ok harg hr hradix hle]
  dsimp only
  rw [printNumber_eq hv hlengths hradix (hle.trans maps.greatestRadix_le) hden]

/-- In any radix, `number-to-string` prints an integer, and `parse-integer` reads it back unless it
is too negative for the word that its digits fit in. -/
theorem fnumberToString_parses_iff (sizes : NumberSizes lengths) (chars : StandardSyntax)
    (hdash : digitWeight (BitVec.ofNat (v + 1) r) (s.tables (s.tableOf radixTable)).val minus = none) (n : ℤ) :
    ∃ text, fnumberToString lengths sizes R cases (LispNumber.canonicalizeBignum n) arg radixTable s =
        .ok (some text, s') ∧
      (fparseInteger chars (some maps.greatestRadix) text 0 (some text.length) (arg.getD (makeFixnum 10)) false
          (s.tables (s.tableOf radixTable)).val = .ok (some (LispNumber.canonicalizeBignum n), text.length) ↔
        ¬(n < 0 ∧ 2 ^ v < n.natAbs ∧ n.natAbs / r ≤ (intLimit (BitVec.ofNat (v + 1) r)).toNat)) := by
  obtain ⟨hbase, hnat⟩ := fixnumBase_ofNat hv hradix (hle.trans maps.greatestRadix_le)
  have hprinted : fnumberToString lengths sizes R cases (LispNumber.canonicalizeNumber (.ratio (n : ℚ))) arg radixTable s = _ :=
    fnumberToString_eq hmaps hle hv hlengths harg hr hradix (.inl (Rat.den_intCast n))
  rw [LispNumber.canonicalizeNumber_intCast] at hprinted
  refine ⟨_, hprinted, ?_⟩
  have hcheck : checkRadix (arg.getD (makeFixnum 10)) ((some maps.greatestRadix).getD 0xFFFF) = .ok r :=
    checkRadix_ok harg hr hradix.le hle
  rw [fparseInteger_eq hcheck (Nat.zero_le _) le_rfl, List.take_length, List.drop_zero]
  generalize BitVec.ofNat (v + 1) r = base at *
  subst hnat
  have hinverse : Inverse base (s.tables (s.tableOf radixTable)).val (majusculeOf maps) := fun d hd => by
    rw [digitWeight, fixnumWeight_majuscule hright hmaps hle d hd, Option.filter_some, if_pos, Option.map_some,
      Int.toNat_natCast]
    rw [decide_eq_true_eq, hbase.toInt_eq]
    omega
  have htext : printed (majusculeOf maps) base.toNat n =
      (if n < 0 then [minus] else []) ++ numeral (majusculeOf maps) base.toNat n.natAbs := by
    rw [printed, Rat.num_intCast, Rat.den_intCast, if_pos rfl, List.append_nil]
  rw [← parseInteger_signed_iff chars hbase hradix hinverse
    (fun d hd h => Option.some_ne_none d (((hinverse d hd).symm.trans (congrArg _ h)).trans hdash)) htext]
  cases parseInteger chars base false _ (printed (majusculeOf maps) base.toNat n) <;> simp [parsedFrom]

/-- With the digits of ASCII, `number-to-string` prints a number as a text that `string-to-number`
reads back. -/
theorem fnumberToString_reads (sizes : NumberSizes lengths) {F G : Type} (readers : NumberReaders F G)
    (hascii : (s.tables (s.tableOf radixTable)).val = vdigitFixnumAscii) (hsixteen : r ≤ 16) (prec : ℕ) (scratch : Scratch G) (q : ℚ) :
    ∃ text scratch', fnumberToString lengths sizes R cases (LispNumber.canonicalizeNumber (.ratio q)) arg radixTable s =
        .ok (some text, s') ∧
      fstringToNumber readers prec text arg scratch =
        .ok (.exact (LispNumber.canonicalizeNumber (.ratio q)), scratch') := by
  have hweight : ∀ d < r, digitToNumber (majusculeOf maps d) r = some d := fun d hd =>
    digitToNumber_ascii (hascii ▸ fixnumWeight_majuscule hright hmaps hle d hd) hd
  obtain ⟨scratch', hread⟩ := fstringToNumber_printed hv readers hweight hradix
    (checkBase_ok (by omega) harg hr hradix hsixteen) prec scratch q
  exact ⟨_, scratch', fnumberToString_eq hmaps hle hv hlengths harg hr hradix (.inr (by omega)), hread⟩

end Reading

def exactNumberSizes : NumberSizes fourByteLengths where
  toBignumSizes := exactSizes
  ratioSize base q := ((Nat.digits base q.num.natAbs).length + 2 + (Nat.digits base q.den).length) * 4
  ratioRoom _ _ _ := le_refl _

def asciiMaps : RadixMaps := ⟨36, Vector.ofFn fun d => if d.val < 10 then 48 + d.val else 55 + d.val,
  Vector.ofFn fun d => if d.val < 10 then 48 + d.val else 87 + d.val, by decide⟩

def asciiState : DigitState := ⟨fun _ => ⟨vdigitFixnumAscii, le_refl 1, Nat.le_of_ble_eq_true rfl⟩, [(0, asciiMaps)], 0⟩

theorem rightlyMapped_asciiState : RightlyMapped CharBuild.unicodeInternal asciiState 0 := by
  intro w c hc
  obtain ⟨hw, rfl⟩ := Vector.getElem?_eq_some_iff.mp hc
  exact (show ∀ d : Fin 36, CharBuild.unicodeInternal.validIcharP asciiMaps.majuscule[d] ∧
    CharBuild.getCharTable asciiMaps.majuscule[d] vdigitFixnumAscii = .fixnum d by decide +kernel) ⟨w, hw⟩

def sixteen : Option (LispNumber 63) := some (.fixnum 16)

theorem canonical_sixteen : (sixteen.getD (makeFixnum 10)).Canonical := trivial

theorem fnumberToString_parses_iff_hex : ∃ text, fnumberToString fourByteLengths exactNumberSizes CharBuild.unicodeRounding
    asciiCases (LispNumber.canonicalizeBignum (-500)) sixteen none asciiState = .ok (some text, asciiState) ∧
      (fparseInteger spaces (some asciiMaps.greatestRadix) text 0 (some text.length) (sixteen.getD (makeFixnum 10)) false
          vdigitFixnumAscii = .ok (some (LispNumber.canonicalizeBignum (-500)), text.length) ↔
        ¬((-500 : ℤ) < 0 ∧ 2 ^ 63 < (-500 : ℤ).natAbs ∧ (-500 : ℤ).natAbs / 16 ≤ (intLimit (BitVec.ofNat 64 16)).toNat)) :=
  fnumberToString_parses_iff rightlyMapped_asciiState (getRadixTableMaps_of_lookup rfl) (by decide) (.inr rfl) (by decide)
    canonical_sixteen rfl (by decide) exactNumberSizes spaces (by decide +kernel) (-500)

theorem fnumberToString_reads_hex : ∃ text scratch', fnumberToString fourByteLengths exactNumberSizes
    CharBuild.unicodeRounding asciiCases (LispNumber.canonicalizeNumber (.ratio (-500 / 3))) sixteen none asciiState =
      .ok (some text, asciiState) ∧ fstringToNumber plainReaders 0 text sixteen ⟨7, 0, true⟩ =
        .ok (.exact (LispNumber.canonicalizeNumber (.ratio (-500 / 3))), scratch') :=
  fnumberToString_reads rightlyMapped_asciiState (getRadixTableMaps_of_lookup rfl) (by decide) (.inr rfl) (by decide)
    canonical_sixteen rfl (by decide) exactNumberSizes plainReaders rfl (by decide) 0 ⟨7, 0, true⟩ (-500 / 3)

end XEmacs.Format
