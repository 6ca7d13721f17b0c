import XEmacs.Format.StringFields
import XEmacs.Number.RemainderExact
import Mathlib.Data.Nat.Digits.Defs

/-! Integers as text (doprnt.c). A fixnum is printed with shifts or in decimal and a bignum with divisions,
and each of them prints the digits of the absolute value. A map from weights to characters is a function. -/

namespace XEmacs.Format

open Number Table

variable {v : ℕ}

section Functions

variable (lengths : IcharLengths) (table : ℕ → ℕ)

/-- The zero where no digit has been written. -/
def orZero (text : List ℕ) : List ℕ := if text = [] then [table 0] else text

/-- The loop of `emacs_uint_to_string_rshift_1`; each turn takes at least one bit. -/
def rshiftLoop (powof2 : ℕ) : ℕ → EmacsInt v → List ℕ → List ℕ
  | 0, _, text => text
  | fuel + 1, number, text =>
    if number = 0 then text
    else rshiftLoop powof2 fuel (number >>> powof2) (table (number &&& BitVec.ofNat _ ((1 <<< powof2) - 1)).toNat :: text)

/-- The loop of `emacs_uint_to_string_general_1`. -/
def generalLoop (radix : ℕ) : ℕ → ℕ → List ℕ → List ℕ
  | 0, _, text => text
  | fuel + 1, number, text =>
    if number = 0 then text else generalLoop radix fuel (number / radix) (table (number % radix) :: text)

def emacsUintToStringRshift1 (number : EmacsInt v) (powof2 : ℕ) : List ℕ :=
  orZero table (rshiftLoop table powof2 (v + 1) number [])

/-- `DIGITS_1` and those after it, on a figure and what is left of the number. -/
def digitsMacro : ℕ → ℕ → ℕ → List ℕ
  | 0, _, _ => []
  | k + 1, figure, n => table (n / figure) :: digitsMacro k (figure / 10) (n % figure)

/-- The first of some tests that holds, from that of `k` digits on. -/
def chooseDigits (n k : ℕ) : ℕ → ℕ
  | 0 => k
  | tests + 1 => if n < 10 ^ k then k else chooseDigits n (k + 1) tests

/-- `fixnum_to_string_base_10`; the last test is one of ten digits if an `EMACS_INT` has four bytes. -/
def fixnumToStringBase10 (number : EmacsInt v) : List ℕ :=
  let n := (if number.toInt < 0 then -number else number).toNat
  let k := chooseDigits n 1 (if v + 1 = 32 then 9 else 18)
  let text := digitsMacro table k (10 ^ (k - 1)) n
  if number.toInt < 0 then minus :: text else text

/-- The loop of `bignum_to_string_1`; each turn takes at least one bit. None is where the buffer is full and
would have to be reallocated. -/
def bignumLoop (size reserved radix : ℕ) : ℕ → ℕ → List ℕ → Option (List ℕ)
  | 0, _, text => some text
  | fuel + 1, n, text =>
    if n = 0 then some text
    else
      let text := table (n % radix) :: text
      if size ≤ textLength lengths text + lengths.maxIcharLen + reserved then none
      else bignumLoop size reserved radix fuel (n / radix) text

/-- `bignum_to_string_1`, in a buffer of some bytes. -/
def bignumToString1 (size radix : ℕ) (bn : ℤ) : Option (List ℕ) :=
  let reserved := if bn < 0 then lengths.icharLen minus else 0
  (bignumLoop lengths table size reserved radix (bn.natAbs.log2 + 1) bn.natAbs []).map fun text =>
    if bn < 0 then minus :: orZero table text else orZero table text

/-- The shortest digits of a number. -/
def numeral (radix n : ℕ) : List ℕ := orZero table ((Nat.digits radix n).reverse.map table)

end Functions

variable {lengths : IcharLengths} {table : ℕ → ℕ} {radix n : ℕ}

theorem numeral_of_pos (h : 0 < n) : numeral table radix n = (Nat.digits radix n).reverse.map table := by
  refine if_neg fun hnil => ?_
  rw [List.map_eq_nil_iff, List.reverse_eq_nil_iff] at hnil
  exact Nat.digits_ne_nil_iff_ne_zero.mpr (by omega) hnil

theorem numeral_of_lt (h : n < radix) : numeral table radix n = [table n] := by
  cases n with
  | zero => simp [numeral, orZero]
  | succ n => simp [numeral_of_pos, Nat.digits_of_lt radix (n + 1) (Nat.succ_ne_zero n) h]

theorem numeral_of_le (hradix : 1 < radix) (h : radix ≤ n) :
    numeral table radix n = numeral table radix (n / radix) ++ [table (n % radix)] := by
  have hquotient : 0 < n / radix := Nat.div_pos h (by omega)
  rw [numeral_of_pos (by omega), numeral_of_pos hquotient, Nat.digits_def' hradix (by omega)]
  simp

theorem numeral_length_pos : 0 < (numeral table radix n).length := by
  unfold numeral orZero
  split_ifs with hnil
  · exact Nat.one_pos
  · exact List.length_pos_iff.mpr hnil

theorem mask_toNat (number : EmacsInt v) {powof2 : ℕ} (h : powof2 < v + 1) :
    (number &&& BitVec.ofNat _ ((1 <<< powof2) - 1)).toNat = number.toNat % 2 ^ powof2 := by
  have hlt : 2 ^ powof2 < 2 ^ (v + 1) := Nat.pow_lt_pow_right (by decide) h
  have hpos : 0 < 2 ^ powof2 := Nat.two_pow_pos powof2
  rw [BitVec.toNat_and, BitVec.toNat_ofNat, Nat.one_shiftLeft, Nat.mod_eq_of_lt (by omega),
    Nat.and_two_pow_sub_one_eq_mod]

theorem generalLoop_eq (hradix : 1 < radix) (fuel : ℕ) (text : List ℕ) (hfuel : n < 2 ^ fuel) :
    generalLoop table radix fuel n text = (Nat.digits radix n).reverse.map table ++ text := by
  induction fuel generalizing n text with
  | zero =>
    rw [show n = 0 by omega]
    simp [generalLoop]
  | succ fuel ih =>
    rw [generalLoop]
    split_ifs with hzero
    · simp [hzero]
    · have hhalf : n / radix ≤ n / 2 := Nat.div_le_div_left hradix Nat.two_pos
      have hdigits := Nat.digits_def' hradix (Nat.pos_of_ne_zero hzero)
      rw [ih _ (hhalf.trans_lt (by rw [pow_succ] at hfuel; omega)), hdigits]
      simp

theorem rshiftLoop_eq {powof2 : ℕ} (hlt : powof2 < v + 1) (fuel : ℕ) (number : EmacsInt v) (text : List ℕ) :
    rshiftLoop table powof2 fuel number text = generalLoop table (2 ^ powof2) fuel number.toNat text := by
  induction fuel generalizing number text with
  | zero => rfl
  | succ fuel ih =>
    have hshift : (number >>> powof2).toNat = number.toNat / 2 ^ powof2 := by
      rw [BitVec.toNat_ushiftRight, Nat.shiftRight_eq_div_pow]
    have hzero : number = 0 ↔ number.toNat = 0 := BitVec.toNat_inj.symm
    rw [rshiftLoop, generalLoop, ih, hshift, mask_toNat _ hlt]
    simp only [hzero]

theorem emacsUintToStringRshift1_eq {powof2 : ℕ} (hpos : 0 < powof2) (hlt : powof2 < v + 1) (number : EmacsInt v) :
    emacsUintToStringRshift1 table number powof2 = numeral table (2 ^ powof2) number.toNat := by
  rw [emacsUintToStringRshift1, rshiftLoop_eq hlt, generalLoop_eq (Nat.one_lt_two_pow (by omega)) _ _ number.isLt,
    List.append_nil, numeral]

theorem digitsMacro_succ (k n : ℕ) : digitsMacro table (k + 2) (10 ^ (k + 1)) n =
    digitsMacro table (k + 1) (10 ^ k) (n / 10) ++ [table (n % 10)] := by
  induction k generalizing n with
  | zero => simp [digitsMacro]
  | succ k ih =>
    have hpow : 10 ^ (k + 2) = 10 * 10 ^ (k + 1) := pow_succ' 10 (k + 1)
    have hfigure : 10 ^ (k + 2) / 10 = 10 ^ (k + 1) := by rw [hpow, Nat.mul_div_cancel_left _ (by decide)]
    have hfigure' : 10 ^ (k + 1) / 10 = 10 ^ k := by rw [pow_succ', Nat.mul_div_cancel_left _ (by decide)]
    have hstep (figure m : ℕ) : digitsMacro table (k + 2) figure m =
        table (m / figure) :: digitsMacro table (k + 1) (figure / 10) (m % figure) := rfl
    rw [digitsMacro, hfigure, ih, hstep, hfigure', hpow, Nat.mod_mul_right_div_self, Nat.mod_mul_right_mod,
      ← Nat.div_div_eq_div_mul, List.cons_append]

theorem digitsMacro_eq (k : ℕ) (hle : k = 0 ∨ 10 ^ k ≤ n) (hlt : n < 10 ^ (k + 1)) :
    digitsMacro table (k + 1) (10 ^ k) n = numeral table 10 n := by
  induction k generalizing n with
  | zero => simp [digitsMacro, numeral_of_lt (show n < 10 from hlt)]
  | succ k ih =>
    have hlow : 10 ^ (k + 1) ≤ n := hle.resolve_left (Nat.succ_ne_zero k)
    rw [pow_succ] at hlow hlt
    have hten : 10 ≤ n := (Nat.le_mul_of_pos_left 10 (Nat.pow_pos (by decide))).trans hlow
    rw [digitsMacro_succ, numeral_of_le (by decide) hten, ih (.inr (by omega)) (by omega)]

theorem chooseDigits_spec (k tests : ℕ) (hlt : n < 10 ^ (k + tests)) : ∃ j, chooseDigits n k tests = k + j ∧
    n < 10 ^ (k + j) ∧ (j = 0 ∨ 10 ^ (k + j - 1) ≤ n) := by
  induction tests generalizing k with
  | zero => exact ⟨0, rfl, hlt, .inl rfl⟩
  | succ tests ih =>
    rw [chooseDigits]
    split_ifs with hk
    · exact ⟨0, rfl, hk, .inl rfl⟩
    · obtain ⟨j, hchoose, hj, hlow⟩ := ih (k + 1) (by rwa [add_assoc, add_comm 1])
      refine ⟨j + 1, by rw [hchoose]; omega, by rwa [show k + (j + 1) = k + 1 + j by omega], .inr ?_⟩
      obtain rfl | hlow := hlow
      · exact not_lt.mp hk
      · rwa [show k + (j + 1) - 1 = k + 1 + j - 1 by omega]

theorem uval_toNat (hpos : 0 < v) (val : BitVec v) :
    (if val.toInt < 0 then -xrealfixnum val else xrealfixnum val).toNat = val.toInt.natAbs := by
  have habs := abs_toNat hpos val
  rw [Int.abs_eq_natAbs] at habs
  exact_mod_cast habs

theorem fixnumToStringBase10_eq (hv : v = 31 ∨ v = 63) (val : BitVec v) : fixnumToStringBase10 table (xrealfixnum val) =
    (if val.toInt < 0 then [minus] else []) ++ numeral table 10 val.toInt.natAbs := by
  have hlt : val.toInt.natAbs < 10 ^ (1 + (if v + 1 = 32 then 9 else 18)) := by
    have hlow := BitVec.le_toInt val
    have hhigh := BitVec.toInt_lt (x := val)
    obtain rfl | rfl := hv
    · norm_num at hlow hhigh ⊢
      omega
    · norm_num at hlow hhigh ⊢
      omega
  obtain ⟨j, hchoose, hj, hlow⟩ := chooseDigits_spec 1 _ hlt
  have hdigits : digitsMacro table (1 + j) (10 ^ j) val.toInt.natAbs = numeral table 10 val.toInt.natAbs := by
    rw [add_comm 1 j] at hj ⊢
    exact digitsMacro_eq j (hlow.imp_right fun h => by rwa [show 1 + j - 1 = j by omega] at h) hj
  have hnat := uval_toNat (show 0 < v by omega) val
  unfold fixnumToStringBase10
  simp only [xrealfixnum_toInt, hnat, hchoose, Nat.add_sub_cancel_left, hdigits]
  split_ifs <;> rfl

theorem textLength_append (xs ys : List ℕ) :
    textLength lengths (xs ++ ys) = textLength lengths xs + textLength lengths ys := by
  rw [textLength, List.map_append, List.sum_append, textLength, textLength]

theorem bignumLoop_eq (hradix : 1 < radix) (size reserved fuel : ℕ) (text : List ℕ) (hpos : 0 < n)
    (hfuel : n < 2 ^ fuel) : bignumLoop lengths table size reserved radix fuel n text =
      if size ≤ textLength lengths (numeral table radix n ++ text) + lengths.maxIcharLen + reserved then none
      else some (numeral table radix n ++ text) := by
  induction fuel generalizing n text with
  | zero =>
    rw [pow_zero] at hfuel
    omega
  | succ fuel ih =>
    rw [bignumLoop, if_neg (by omega)]
    dsimp only
    by_cases hlt : n < radix
    · rw [numeral_of_lt hlt, Nat.div_eq_of_lt hlt, Nat.mod_eq_of_lt hlt, List.singleton_append]
      split_ifs
      · rfl
      · cases fuel <;> rfl
    · have hdiv : n / radix ≤ n / 2 := Nat.div_le_div_left hradix Nat.two_pos
      rw [numeral_of_le hradix (not_lt.mp hlt), List.append_assoc, List.singleton_append,
        ih _ (Nat.div_pos (not_lt.mp hlt) (by omega)) (by rw [pow_succ] at hfuel; omega)]
      refine ite_eq_right_iff.mpr fun hfull => (if_pos ?_).symm
      rw [textLength_append]
      omega

theorem bignumToString1_eq (hradix : 1 < radix) (size : ℕ) (bn : ℤ) : bignumToString1 lengths table size radix bn =
    if bn ≠ 0 ∧ size ≤ textLength lengths (numeral table radix bn.natAbs) + lengths.maxIcharLen +
        (if bn < 0 then lengths.icharLen minus else 0) then none
    else some ((if bn < 0 then [minus] else []) ++ numeral table radix bn.natAbs) := by
  unfold bignumToString1
  dsimp only
  by_cases hzero : bn = 0
  · subst hzero
    simp [bignumLoop, numeral]
  · have hpos : 0 < bn.natAbs := Int.natAbs_pos.mpr hzero
    rw [bignumLoop_eq hradix _ _ _ [] hpos Nat.lt_log2_self, List.append_nil]
    simp only [ne_eq, hzero, not_false_eq_true, true_and]
    have hkept : orZero table (numeral table radix bn.natAbs) = numeral table radix bn.natAbs :=
      if_neg (List.length_pos_iff.mp numeral_length_pos)
    split_ifs
    · rfl
    · rw [Option.map_some, hkept]
      rfl
    · rfl
    · rw [Option.map_some, hkept]
      rfl

theorem bignumToString1_of_room (hradix : 1 < radix) {size : ℕ} {bn : ℤ}
    (hroom : ((Nat.digits radix bn.natAbs).length + 1) * lengths.maxIcharLen +
      (if bn < 0 then lengths.icharLen minus else 0) < size) :
    bignumToString1 lengths table size radix bn =
      some ((if bn < 0 then [minus] else []) ++ numeral table radix bn.natAbs) := by
  rw [bignumToString1_eq hradix, if_neg]
  rintro ⟨hzero, hfull⟩
  have hlength := (@length_le_textLength lengths (numeral table radix bn.natAbs)).2
  rw [numeral_of_pos (Int.natAbs_pos.mpr hzero), List.length_map, List.length_reverse, mul_comm] at hlength
  rw [numeral_of_pos (Int.natAbs_pos.mpr hzero)] at hfull
  rw [add_mul] at hroom
  omega

variable {base : EmacsInt v} {radixTable : CharTable}

/-- The digits are characters that the radix table gives the weights. -/
def Inverse (base : EmacsInt v) (radixTable : CharTable) (table : ℕ → ℕ) : Prop :=
  ∀ d < base.toNat, digitWeight base radixTable (table d) = some d

theorem mem_numeral {c : ℕ} (hradix : 1 < radix) (hc : c ∈ numeral table radix n) : ∃ d < radix, table d = c := by
  unfold numeral orZero at hc
  split_ifs at hc
  · exact ⟨0, by omega, (List.mem_singleton.mp hc).symm⟩
  · obtain ⟨d, hd, rfl⟩ := List.mem_map.mp hc
    exact ⟨d, Nat.digits_lt_base hradix (List.mem_reverse.mp hd), rfl⟩

theorem foldl_numeral {weight : ℕ → ℕ} (hradix : 1 < radix) (hweight : ∀ d < radix, weight (table d) = d) (n : ℕ) :
    (numeral table radix n).foldl (fun m c => m * radix + weight c) 0 = n := by
  induction n using Nat.strong_induction_on with
  | h n ih =>
    by_cases hlt : n < radix
    · rw [numeral_of_lt hlt, List.foldl_cons, List.foldl_nil, hweight n hlt, zero_mul, zero_add]
    · rw [numeral_of_le hradix (not_lt.mp hlt), List.foldl_append, ih _ (Nat.div_lt_self (by omega) hradix),
        List.foldl_cons, List.foldl_nil, hweight _ (Nat.mod_lt n (by omega)), mul_comm]
      exact Nat.div_add_mod n radix

theorem valueFrom_numeral (hinverse : Inverse base radixTable table) (hbase : 1 < base.toNat) (n : ℕ) :
    valueFrom base radixTable 0 (numeral table base.toNat n) = n :=
  foldl_numeral hbase (fun d hd => by rw [hinverse d hd, Option.getD_some]) n

theorem parseInteger_signed_iff (chars : StandardSyntax) (hbase : FixnumBase base) (hone : 1 < base.toNat)
    (hinverse : Inverse base radixTable table) (hminus : ∀ d < base.toNat, table d ≠ minus) {text : List ℕ} {n : ℤ}
    (htext : text = (if n < 0 then [minus] else []) ++ numeral table base.toNat n.natAbs) :
    parseInteger chars base false radixTable text = .ok (some (LispNumber.canonicalizeBignum n), text.length) ↔
      ¬(n < 0 ∧ 2 ^ v < n.natAbs ∧ n.natAbs / base.toNat ≤ (intLimit base).toNat) := by
  have hne : numeral table base.toNat n.natAbs ≠ [] := List.length_pos_iff.mp numeral_length_pos
  have hdigit : ∀ c ∈ numeral table base.toNat n.natAbs, (digitWeight base radixTable c).isSome := fun c hc => by
    obtain ⟨d, hd, rfl⟩ := mem_numeral hone hc
    rw [hinverse d hd]
    rfl
  have hnumeral : Numeral chars base radixTable text [] (if n < 0 then [minus] else []) (numeral table base.toNat n.natAbs) [] := by
    refine ⟨by rw [htext, List.append_nil]; rfl, fun c hc => absurd hc List.not_mem_nil, ?_, hne, hdigit,
      fun c hc => absurd hc (Option.not_mem_none c)⟩
    split_ifs
    · exact .inr (.inl rfl)
    · refine .inl ⟨rfl, fun hhead => ?_⟩
      obtain ⟨d, hd, hdash⟩ := mem_numeral hone (List.mem_of_mem_head? hhead)
      exact hminus d hd hdash
  have hdropLast : valueFrom base radixTable 0 (numeral table base.toNat n.natAbs).dropLast = n.natAbs / base.toNat := by
    by_cases hlt : n.natAbs < base.toNat
    · rw [numeral_of_lt hlt, Nat.div_eq_of_lt hlt]
      rfl
    · rw [numeral_of_le hone (not_lt.mp hlt), List.dropLast_concat, valueFrom_numeral hinverse hone]
  have hsign : decide ((if n < 0 then [minus] else []) = [minus]) = decide (n < 0) := by split_ifs with h <;> simp [h]
  have hvalue : negated (decide (n < 0)) (n.natAbs : ℕ) = n := by
    simp only [negated, decide_eq_true_eq]
    split_ifs <;> omega
  obtain ⟨-, -, hreads⟩ := hbase.read_digits hne hdigit (decide (n < 0))
  rw [valueFrom_numeral hinverse hone, hdropLast, decide_eq_true_eq, hvalue] at hreads
  rw [hnumeral.parseInteger_eq fun c hc => absurd hc List.not_mem_nil, hsign,
    (parseDigits_append hbase hne hdigit hnumeral.ends).1 (.inr fun c hc => absurd hc List.not_mem_nil), ← hreads]
  simp [consumed]

theorem parseInteger_numeral (chars : StandardSyntax) (hbase : FixnumBase base) (hone : 1 < base.toNat)
    (hinverse : Inverse base radixTable table) (hminus : ∀ d < base.toNat, table d ≠ minus) (n : ℕ) :
    parseInteger chars base false radixTable (numeral table base.toNat n) =
      .ok (some (LispNumber.canonicalizeBignum (n : ℤ)), (numeral table base.toNat n).length) := by
  refine (parseInteger_signed_iff chars hbase hone hinverse hminus (n := (n : ℤ)) ?_).mpr fun h => absurd h.1 (by omega)
  rw [if_neg (by omega), List.nil_append, Int.natAbs_natCast]

end XEmacs.Format
