import XEmacs.Number.StringToNumber
import Mathlib.Data.List.TakeWhile

/-! `string-to-number` after any history of arithmetic. Its result is the number that the string
begins with, whatever the scratch numbers hold, just for the strings whose text the number library
reads. -/

namespace XEmacs.Number

variable {v b : ℕ} {p q : List ℕ}

section Numerals

def leadingDigits (b : ℕ) (p : List ℕ) : Option ℤ × List ℕ :=
  (if p.takeWhile (digitP b) = [] then none else some (digitsValue b (p.takeWhile (digitP b))),
    p.dropWhile (digitP b))

def leadingInteger (b : ℕ) : List ℕ → Option ℤ × List ℕ
  | [] => (none, [])
  | c :: p =>
    if c = minus then ((leadingDigits b p).1.map Neg.neg, (leadingDigits b p).2)
    else leadingDigits b (c :: p)

def leadingSigned (b : ℕ) : List ℕ → Option ℤ × List ℕ
  | [] => (none, [])
  | c :: p => if c = plus then leadingDigits b p else leadingInteger b (c :: p)

/-- The value of the longest numeral, of an integer or a ratio, that a text begins with; zero when
it begins with none. -/
def leadingNumeral (b : ℕ) (p : List ℕ) : ℚ :=
  match leadingSigned b p with
  | (none, _) => 0
  | (some n, []) => n
  | (some n, c :: rest) =>
    if c = slash then
      match (leadingInteger b rest).1 with
      | none => n
      | some d => if d = 0 then n else n / d
    else n

end Numerals

section Runs

def minusP (q : List ℕ) : Bool := q.head? = some minus

def afterMinus (q : List ℕ) : List ℕ := if minusP q then q.tail else q

/-- The digits of `integerText`. -/
def digitRun (b : ℕ) (q : List ℕ) : List ℕ := (afterMinus q).takeWhile (loopByte b)

def afterRun (b : ℕ) (q : List ℕ) : List ℕ := (afterMinus q).dropWhile (loopByte b)

def GoodRun (b : ℕ) (run : List ℕ) : Prop := run ≠ [] ∧ run.all (digitP b)

instance : Decidable (GoodRun b p) := inferInstanceAs (Decidable (_ ∧ _))

def signed (negative : Bool) (n : ℤ) : ℤ := if negative then -n else n

theorem integerText_eq (b : ℕ) (q : List ℕ) :
    integerText b q = (if minusP q then minus :: digitRun b q else digitRun b q, afterRun b q) := by
  cases q with
  | nil => rfl
  | cons c q =>
    by_cases hc : c = minus
    · subst hc
      simp [integerText, minusP, digitRun, afterRun, afterMinus]
    · simp [integerText, minusP, digitRun, afterRun, afterMinus, hc]

theorem loopByte_minus : loopByte b minus = false := by
  simp [loopByte, decimalP, minus]

theorem digitRun_loop {c : ℕ} (h : c ∈ digitRun b q) : loopByte b c = true :=
  List.mem_takeWhile_imp h

theorem readsAs_integerText (b : ℕ) (q : List ℕ) : readsAs b (integerText b q).1 =
    if GoodRun b (digitRun b q) then some (signed (minusP q) (digitsValue b (digitRun b q)))
    else none := by
  rw [integerText_eq]
  dsimp only
  by_cases hminus : minusP q
  · simp [hminus, readsAs, GoodRun, signed]
  · rw [if_neg hminus]
    cases hrun : digitRun b q with
    | nil => simp [readsAs, GoodRun]
    | cons c run =>
      have hc : c ≠ minus := by
        rintro rfl
        have := digitRun_loop (b := b) (q := q) (c := minus) (by simp [hrun])
        rw [loopByte_minus] at this
        exact Bool.false_ne_true this
      simp [readsAs, GoodRun, signed, hminus, hc]

theorem integerText_loop {c : ℕ} (h : c ∈ (integerText b q).1) : c = minus ∨ loopByte b c := by
  rw [integerText_eq] at h
  dsimp only at h
  split at h
  · obtain rfl | h := List.mem_cons.mp h
    · exact .inl rfl
    · exact .inr (digitRun_loop h)
  · exact .inr (digitRun_loop h)

theorem loopByte_of_digitP {c : ℕ} (h : digitP b c) : loopByte b c := by
  simp only [digitP, digitToNumber, Option.isSome_filter] at h
  simp only [loopByte, decimalP, decide_eq_true_eq]
  split at h
  · left
    simpa using ‹_›
  · split at h
    · simp at h
      omega
    · split at h
      · simp at h
        omega
      · simp at h

theorem takeWhile_digitP (h : (p.takeWhile (loopByte b)).all (digitP b)) :
    p.takeWhile (digitP b) = p.takeWhile (loopByte b) ∧
      p.dropWhile (digitP b) = p.dropWhile (loopByte b) := by
  induction p with
  | nil => exact ⟨rfl, rfl⟩
  | cons c p ih =>
    by_cases hloop : loopByte b c
    · simp only [List.takeWhile_cons, hloop, if_true, List.all_cons, Bool.and_eq_true] at h
      simp [hloop, h.1, ih h.2]
    · have hdigit : digitP b c ≠ true := mt loopByte_of_digitP hloop
      simp [hloop, hdigit]

theorem takeWhile_digitP_nil (h : p.takeWhile (loopByte b) = []) : p.takeWhile (digitP b) = [] := by
  rw [(takeWhile_digitP (by rw [h]; rfl)).1, h]

theorem leadingDigits_good (h : GoodRun b (p.takeWhile (loopByte b))) : leadingDigits b p =
    (some (digitsValue b (p.takeWhile (loopByte b))), p.dropWhile (loopByte b)) := by
  obtain ⟨htake, hdrop⟩ := takeWhile_digitP h.2
  rw [leadingDigits, htake, hdrop, if_neg h.1]

theorem leadingDigits_nil (h : p.takeWhile (loopByte b) = []) : (leadingDigits b p).1 = none := by
  rw [leadingDigits, if_pos (takeWhile_digitP_nil h)]

@[simp] theorem map_signed_false (n : Option ℤ) : n.map (signed false) = n := by
  cases n <;> rfl

theorem leadingInteger_eq (b : ℕ) (q : List ℕ) : leadingInteger b q =
    ((leadingDigits b (afterMinus q)).1.map (signed (minusP q)),
      (leadingDigits b (afterMinus q)).2) := by
  cases q with
  | nil => rfl
  | cons c q =>
    by_cases hc : c = minus
    · subst hc
      simp [leadingInteger, minusP, afterMinus]
      rfl
    · simp [leadingInteger, minusP, afterMinus, hc]

theorem leadingInteger_good (h : GoodRun b (digitRun b q)) : leadingInteger b q =
    (some (signed (minusP q) (digitsValue b (digitRun b q))), afterRun b q) := by
  rw [leadingInteger_eq, leadingDigits_good h]
  rfl

theorem leadingInteger_nil (h : digitRun b q = []) : (leadingInteger b q).1 = none := by
  rw [leadingInteger_eq, leadingDigits_nil h]
  rfl

def plusMinusP (p : List ℕ) : Bool := p.head? = some plus ∧ minusP (dropPlus p)

theorem leadingSigned_eq (b : ℕ) (p : List ℕ) :
    if plusMinusP p then (leadingSigned b p).1 = none
    else leadingSigned b p = leadingInteger b (dropPlus p) := by
  cases p with
  | nil => rfl
  | cons c p =>
    by_cases hc : c = plus
    · subst hc
      by_cases hminus : minusP p
      · have hnil : p.takeWhile (loopByte b) = [] := by
          cases p with
          | nil => rfl
          | cons c p =>
            obtain rfl : c = minus := by simpa [minusP] using hminus
            simp [loopByte_minus]
        simp [plusMinusP, dropPlus, hminus, leadingSigned, leadingDigits_nil hnil]
      · rw [leadingSigned, if_pos rfl, dropPlus, if_pos rfl, leadingInteger_eq, afterMinus]
        simp [plusMinusP, dropPlus, hminus]
    · simp [plusMinusP, dropPlus, hc, leadingSigned]

end Runs

section Conditions

def ReadsInteger (b : ℕ) (p : List ℕ) : Prop :=
  GoodRun b (digitRun b (dropPlus p)) ∧
    (plusMinusP p → digitsValue b (digitRun b (dropPlus p)) = 0)

/-- So is that of a ratio, whose denominator matters unless the numerator is zero. -/
def ReadsRatio (b : ℕ) (p : List ℕ) : Prop :=
  ReadsInteger b p ∧ ∀ rest, afterRun b (dropPlus p) = slash :: rest →
    if GoodRun b (digitRun b rest) then digitsValue b (digitRun b rest) ≠ 0
    else digitsValue b (digitRun b (dropPlus p)) = 0

theorem signed_eq_zero {negative : Bool} {n : ℤ} : signed negative n = 0 ↔ n = 0 := by
  cases negative <;> simp [signed]

theorem leadingSigned_good (h : ReadsInteger b p) :
    (plusMinusP p = true ∧ (leadingSigned b p).1 = none) ∨
      leadingSigned b p = (some (signed (minusP (dropPlus p))
        (digitsValue b (digitRun b (dropPlus p)))), afterRun b (dropPlus p)) := by
  have heq := leadingSigned_eq b p
  by_cases hsigns : plusMinusP p
  · rw [if_pos hsigns] at heq
    exact .inl ⟨hsigns, heq⟩
  · rw [if_neg hsigns, leadingInteger_good h.1] at heq
    exact .inr heq

theorem leadingNumeral_none (h : (leadingSigned b p).1 = none) : leadingNumeral b p = 0 := by
  rw [leadingNumeral]
  split
  · rfl
  · simp_all
  · simp_all

theorem leadingNumeral_integer {n : ℤ} {rest : List ℕ} (h : leadingSigned b p = (some n, rest))
    (hrest : rest.head? ≠ some slash) : leadingNumeral b p = n := by
  rw [leadingNumeral, h]
  cases rest with
  | nil => rfl
  | cons c rest =>
    have hc : c ≠ slash := by simpa using hrest
    dsimp only
    rw [if_neg hc]

theorem leadingNumeral_ratio {n : ℤ} {rest : List ℕ}
    (h : leadingSigned b p = (some n, slash :: rest)) : leadingNumeral b p =
      match (leadingInteger b rest).1 with
      | none => (n : ℚ)
      | some d => if d = 0 then n else n / d := by
  rw [leadingNumeral, h]
  dsimp only
  rw [if_pos rfl]

end Conditions

section Integers

variable {F B : Type} (readers : NumberReaders F B)

theorem canonicalize_zero : LispNumber.canonicalizeNumber (v := v) (.ratio 0) = .fixnum 0 := by
  have hpos := Lib.Words.two_pow_pos (v - 1)
  have h := LispNumber.canonicalizeNumber_intCast (v := v) 0
  rw [Int.cast_zero, LispNumber.canonicalizeBignum_of_fits ⟨by omega, hpos⟩] at h
  exact h

theorem readInteger_eq (scratch : Scratch B) (h : (integerText b (dropPlus p)).1 ≠ []) :
    (readInteger (v := v) readers b p scratch).1 = .exact (LispNumber.canonicalizeBignum
      (if GoodRun b (digitRun b (dropPlus p)) then
        signed (minusP (dropPlus p)) (digitsValue b (digitRun b (dropPlus p)))
      else scratch.bignum)) := by
  rw [readInteger]
  dsimp only
  rw [if_neg h, readers.bignum_reads b _ fun c hc => integerText_loop hc, readsAs_integerText]
  split <;> rfl

theorem canonicalizeNumber_inj (hbits : 0 < v) {x y : ℚ}
    (h : LispNumber.canonicalizeNumber (v := v) (.ratio x) = .canonicalizeNumber (.ratio y)) :
    x = y := by
  have hx := LispNumber.canonicalizeNumber_value hbits (.ratio x)
  rw [h, LispNumber.canonicalizeNumber_value hbits] at hx
  exact hx.symm

theorem mem_of_mem_afterRun {c : ℕ} (h : c ∈ afterRun b (dropPlus p)) : c ∈ p := by
  have hq : c ∈ dropPlus p := by
    have htail := (List.dropWhile_sublist _).subset h
    rw [afterMinus] at htail
    split at htail
    · exact List.mem_of_mem_tail htail
    · exact htail
  cases p with
  | nil => exact hq
  | cons d p =>
    rw [dropPlus] at hq
    split at hq
    · exact List.mem_cons_of_mem d hq
    · exact hq

theorem leadingNumeral_of_text_nil (h : (integerText b (dropPlus p)).1 = []) :
    leadingNumeral b p = 0 := by
  rw [integerText_eq] at h
  by_cases hminus : minusP (dropPlus p)
  · simp [hminus] at h
  · have hsigned := leadingSigned_eq b p
    rw [if_neg (by simp [plusMinusP, hminus])] at hsigned
    rw [if_neg hminus] at h
    exact leadingNumeral_none (by rw [hsigned, leadingInteger_nil h])

theorem leadingNumeral_of_readsInteger (h : ReadsInteger b p)
    (hslash : (afterRun b (dropPlus p)).head? ≠ some slash) : leadingNumeral b p =
      signed (minusP (dropPlus p)) (digitsValue b (digitRun b (dropPlus p))) := by
  obtain ⟨hsigns, hnone⟩ | hsome := leadingSigned_good h
  · rw [leadingNumeral_none hnone, signed_eq_zero.mpr (h.2 hsigns), Int.cast_zero]
  · exact leadingNumeral_integer hsome hslash

theorem readInteger_iff (hbits : 0 < v) (hslash : slash ∉ p) :
    (∀ scratch, (readInteger (v := v) readers b p scratch).1 =
        .exact (LispNumber.canonicalizeNumber (.ratio (leadingNumeral b p)))) ↔
      (integerText b (dropPlus p)).1 = [] ∨ ReadsInteger b p := by
  have hafter : (afterRun b (dropPlus p)).head? ≠ some slash := fun h =>
    hslash (mem_of_mem_afterRun (List.mem_of_head? h))
  by_cases htext : (integerText b (dropPlus p)).1 = []
  · refine iff_of_true (fun scratch => ?_) (.inl htext)
    rw [leadingNumeral_of_text_nil htext, canonicalize_zero, readInteger]
    dsimp only
    rw [if_pos htext]
  · rw [or_iff_right htext]
    constructor
    · intro h
      obtain ⟨f, -⟩ := readers.setPrec_apart 0
      have hread : ∀ n : ℤ, (if GoodRun b (digitRun b (dropPlus p)) then
          signed (minusP (dropPlus p)) (digitsValue b (digitRun b (dropPlus p))) else n) =
          leadingNumeral b p := fun n => by
        have hn := h ⟨n, 0, f⟩
        rw [readInteger_eq readers _ htext, ← LispNumber.canonicalizeNumber_intCast] at hn
        exact canonicalizeNumber_inj hbits (NumberRead.exact.inj hn)
      have hgood : GoodRun b (digitRun b (dropPlus p)) := by
        by_contra hbad
        have hzero := hread 0
        have hone := hread 1
        rw [if_neg hbad] at hzero hone
        rw [← hone] at hzero
        exact absurd hzero (by decide)
      have hvalue := hread 0
      rw [if_pos hgood] at hvalue
      refine ⟨hgood, fun hsigns => ?_⟩
      have hsigned := leadingSigned_eq b p
      rw [if_pos hsigns] at hsigned
      rw [leadingNumeral_none hsigned] at hvalue
      exact signed_eq_zero.mp (by exact_mod_cast hvalue)
    · intro h scratch
      rw [readInteger_eq readers scratch htext, if_pos h.1, leadingNumeral_of_readsInteger h hafter,
        LispNumber.canonicalizeNumber_intCast]

end Integers

section Ratios

variable {F B : Type} (readers : NumberReaders F B)

/-- The numerator and the denominator that `readRatio` makes a ratio of. -/
def ratioParts (b : ℕ) (p : List ℕ) (ratio : ℚ) : ℤ × ℤ :=
  readers.ratioSetString b (ratioText b (dropPlus p)) (ratio.num, ratio.den)

theorem readRatio_ok_iff (hbits : 0 < v) {x : ℚ} {scratch : Scratch B} :
    (∃ scratch', readRatio (v := v) readers b p scratch =
        .ok (.exact (LispNumber.canonicalizeNumber (.ratio x)), scratch')) ↔
      (ratioParts readers b p scratch.ratio).2 ≠ 0 ∧
        ((ratioParts readers b p scratch.ratio).1 : ℚ) / (ratioParts readers b p scratch.ratio).2 = x := by
  rw [readRatio, ← ratioParts]
  dsimp only
  constructor
  · rintro ⟨scratch', h⟩
    split at h
    · exact absurd h (by simp)
    · rename_i hden
      have hvalues := Prod.mk.inj (Except.ok.inj h)
      exact ⟨hden, canonicalizeNumber_inj hbits (NumberRead.exact.inj hvalues.1)⟩
  · rintro ⟨hden, rfl⟩
    rw [if_neg hden]
    exact ⟨_, rfl⟩

def numeratorOf (b : ℕ) (p : List ℕ) : ℤ :=
  signed (minusP (dropPlus p)) (digitsValue b (digitRun b (dropPlus p)))

theorem ratioText_slash {rest : List ℕ} (h : afterRun b q = slash :: rest) :
    ratioText b q = (integerText b q).1 ++ slash :: (integerText b rest).1 := by
  rw [ratioText, integerText_eq b q, h]
  simp

theorem ratioText_of_ne (h : (afterRun b q).head? ≠ some slash) :
    ratioText b q = (integerText b q).1 := by
  rw [ratioText, integerText_eq b q]
  dsimp only
  split
  · rfl
  · rename_i c rest hrest
    rw [hrest] at h
    have hc : c ≠ slash := by simpa using h
    rw [if_neg hc]

theorem ratioParts_unread (h : ¬GoodRun b (digitRun b (dropPlus p))) (ratio : ℚ) :
    (ratioParts readers b p ratio).1 = ratio.num := by
  have hread : readsAs b (integerText b (dropPlus p)).1 = none := by
    rw [readsAs_integerText, if_neg h]
  rw [ratioParts]
  by_cases hslash : (afterRun b (dropPlus p)).head? = some slash
  · obtain ⟨rest, hrest⟩ := List.head?_eq_some_iff.mp hslash
    rw [ratioText_slash hrest]
    exact readers.ratio_unread b _ _ _ (fun c hc => integerText_loop hc) hread (by simp)
  · have hunread := readers.ratio_unread b _ [] (ratio.num, (ratio.den : ℤ))
      (fun c hc => integerText_loop hc) hread rfl
    rwa [List.append_nil, ← ratioText_of_ne hslash] at hunread

theorem ratioParts_integer (h : GoodRun b (digitRun b (dropPlus p)))
    (hslash : (afterRun b (dropPlus p)).head? ≠ some slash) (ratio : ℚ) :
    ratioParts readers b p ratio = (numeratorOf b p, 1) := by
  rw [ratioParts, ratioText_of_ne hslash]
  exact readers.ratio_integer b _ _ (fun c hc => integerText_loop hc) _
    (by rw [readsAs_integerText, if_pos h]; rfl)

theorem ratioParts_fraction {rest : List ℕ} (h : GoodRun b (digitRun b (dropPlus p)))
    (hrest : afterRun b (dropPlus p) = slash :: rest) (ratio : ℚ) :
    ratioParts readers b p ratio = (numeratorOf b p,
      if GoodRun b (digitRun b rest) then signed (minusP rest) (digitsValue b (digitRun b rest))
      else ratio.den) := by
  have hread : readsAs b (integerText b (dropPlus p)).1 = some (numeratorOf b p) := by
    rw [readsAs_integerText, if_pos h]
    rfl
  rw [ratioParts, ratioText_slash hrest, readers.ratio_fraction b _ _ _
    (fun c hc => integerText_loop hc) (fun c hc => integerText_loop hc) _ hread,
    readsAs_integerText]
  split <;> rfl

/-- The parts are right for every ratio that the scratch number may hold. -/
def PartsRight (b : ℕ) (p : List ℕ) : Prop :=
  ∀ ratio : ℚ, (ratioParts readers b p ratio).2 ≠ 0 ∧
    ((ratioParts readers b p ratio).1 : ℚ) / (ratioParts readers b p ratio).2 = leadingNumeral b p

theorem PartsRight.goodRun (h : PartsRight readers b p) : GoodRun b (digitRun b (dropPlus p)) := by
  by_contra hbad
  have hzero := (h 0).2
  have hone := h 1
  rw [ratioParts_unread readers hbad] at hzero
  rw [ratioParts_unread readers hbad, ← hzero] at hone
  simp at hone

theorem numeratorOf_eq_zero : numeratorOf b p = 0 ↔ digitsValue b (digitRun b (dropPlus p)) = 0 :=
  signed_eq_zero

theorem leadingNumeral_plusMinus (h : plusMinusP p) : leadingNumeral b p = 0 := by
  have hsigned := leadingSigned_eq b p
  rw [if_pos h] at hsigned
  exact leadingNumeral_none hsigned

theorem leadingSigned_numerator (h : GoodRun b (digitRun b (dropPlus p)))
    (hsigns : ¬plusMinusP p = true) :
    leadingSigned b p = (some (numeratorOf b p), afterRun b (dropPlus p)) := by
  have hsigned := leadingSigned_eq b p
  rwa [if_neg hsigns, leadingInteger_good h] at hsigned

theorem partsRight_integer_iff (h : GoodRun b (digitRun b (dropPlus p)))
    (hslash : (afterRun b (dropPlus p)).head? ≠ some slash) :
    PartsRight readers b p ↔ (plusMinusP p → numeratorOf b p = 0) := by
  have hparts : PartsRight readers b p ↔ (numeratorOf b p : ℚ) = leadingNumeral b p := by
    simp [PartsRight, ratioParts_integer readers h hslash]
  rw [hparts]
  by_cases hsigns : plusMinusP p
  · rw [leadingNumeral_plusMinus hsigns]
    simp [hsigns]
  · rw [leadingNumeral_integer (leadingSigned_numerator h hsigns) hslash]
    simp [hsigns]

theorem partsRight_fraction_iff {rest : List ℕ} (h : GoodRun b (digitRun b (dropPlus p)))
    (hrest : afterRun b (dropPlus p) = slash :: rest) (hgood : GoodRun b (digitRun b rest)) :
    PartsRight readers b p ↔
      digitsValue b (digitRun b rest) ≠ 0 ∧ (plusMinusP p → numeratorOf b p = 0) := by
  generalize hden : signed (minusP rest) (digitsValue b (digitRun b rest)) = den
  have hparts : PartsRight readers b p ↔
      den ≠ 0 ∧ (numeratorOf b p : ℚ) / den = leadingNumeral b p := by
    simp [PartsRight, ratioParts_fraction readers h hrest, hgood, hden]
  have hzero : den ≠ 0 ↔ digitsValue b (digitRun b rest) ≠ 0 := hden ▸ signed_eq_zero.not
  rw [hparts, ← hzero]
  refine and_congr_right fun hne => ?_
  by_cases hsigns : plusMinusP p
  · rw [leadingNumeral_plusMinus hsigns]
    simp [hsigns, hne]
  · have hsigned := leadingSigned_numerator h hsigns
    rw [hrest] at hsigned
    rw [leadingNumeral_ratio hsigned, leadingInteger_good hgood, hden]
    simp [hsigns, hne]

theorem partsRight_unread_iff {rest : List ℕ} (h : GoodRun b (digitRun b (dropPlus p)))
    (hrest : afterRun b (dropPlus p) = slash :: rest) (hbad : ¬GoodRun b (digitRun b rest)) :
    PartsRight readers b p ↔ numeratorOf b p = 0 := by
  have hparts : ∀ ratio : ℚ, ratioParts readers b p ratio = (numeratorOf b p, (ratio.den : ℤ)) :=
    fun ratio => by rw [ratioParts_fraction readers h hrest, if_neg hbad]
  constructor
  · intro hright
    have hone := (hright 1).2
    have hhalf := (hright (1 / 2)).2
    rw [hparts, ← hone, hparts] at hhalf
    have hden : (1 / 2 : ℚ).den = 2 := by decide +kernel
    rw [hden] at hhalf
    have hzero : (numeratorOf b p : ℚ) = 0 := by
      norm_num at hhalf
      linarith
    exact_mod_cast hzero
  · intro hzero ratio
    have hleading : leadingNumeral b p = 0 := by
      by_cases hsigns : plusMinusP p
      · exact leadingNumeral_plusMinus hsigns
      · have hsigned := leadingSigned_numerator h hsigns
        rw [hrest] at hsigned
        rw [leadingNumeral_ratio hsigned, hzero]
        split
        · exact Int.cast_zero
        · simp
    rw [hparts, hleading, hzero]
    exact ⟨Int.natCast_ne_zero.mpr ratio.den_ne_zero, by simp⟩

theorem partsRight_iff : PartsRight readers b p ↔ ReadsRatio b p := by
  by_cases hgood : GoodRun b (digitRun b (dropPlus p))
  · have hinteger : ReadsInteger b p ↔ (plusMinusP p → numeratorOf b p = 0) := by
      rw [numeratorOf_eq_zero, ReadsInteger, and_iff_right hgood]
    rw [ReadsRatio, hinteger]
    by_cases hslash : (afterRun b (dropPlus p)).head? = some slash
    · obtain ⟨rest, hrest⟩ := List.head?_eq_some_iff.mp hslash
      have hdenominator : (∀ rest', afterRun b (dropPlus p) = slash :: rest' →
          if GoodRun b (digitRun b rest') then digitsValue b (digitRun b rest') ≠ 0
          else digitsValue b (digitRun b (dropPlus p)) = 0) ↔
          if GoodRun b (digitRun b rest) then digitsValue b (digitRun b rest) ≠ 0
          else digitsValue b (digitRun b (dropPlus p)) = 0 := by
        constructor
        · exact fun h => h rest hrest
        · intro h rest' hrest'
          obtain rfl : rest = rest' := by simpa [hrest] using hrest'
          exact h
      rw [hdenominator]
      by_cases hden : GoodRun b (digitRun b rest)
      · rw [partsRight_fraction_iff readers hgood hrest hden, if_pos hden, and_comm]
      · rw [partsRight_unread_iff readers hgood hrest hden, if_neg hden, ← numeratorOf_eq_zero]
        exact ⟨fun h => ⟨fun _ => h, h⟩, And.right⟩
    · rw [partsRight_integer_iff readers hgood hslash, iff_self_and]
      intro _ rest hrest
      exact absurd (by rw [hrest]; rfl) hslash
  · exact iff_of_false (mt (PartsRight.goodRun readers) hgood) fun h => hgood h.1.1

theorem readRatio_iff (hbits : 0 < v) :
    (∀ scratch, ∃ scratch', readRatio (v := v) readers b p scratch =
        .ok (.exact (LispNumber.canonicalizeNumber (.ratio (leadingNumeral b p))), scratch')) ↔
      ReadsRatio b p := by
  rw [← partsRight_iff readers]
  simp only [readRatio_ok_iff readers hbits]
  constructor
  · intro h ratio
    obtain ⟨f, -⟩ := readers.setPrec_apart 0
    exact h ⟨0, ratio, f⟩
  · exact fun h scratch => h scratch.ratio

end Ratios

section Histories

variable {F B : Type} (readers : NumberReaders F B)

/-- A call of `string-to-number`, or any other arithmetic, which leaves the scratch numbers that it
likes. -/
inductive Operation (v : ℕ) (B : Type) where
  | stringToNumber (prec : ℕ) (string : List ℕ) (base : Option (LispNumber v))
  | arithmetic (scratch : Scratch B)

/-- The scratch numbers after an operation. A division by zero ends everything. -/
def step (scratch : Scratch B) : Operation v B → Option (Scratch B)
  | .arithmetic scratch' => some scratch'
  | .stringToNumber prec string base =>
    match fstringToNumber readers prec string base scratch with
    | .ok (_, scratch') => some scratch'
    | .error (.lispError _) => some scratch
    | .error .zeroDenominator => none

def run (scratch : Scratch B) : List (Operation v B) → Option (Scratch B)
  | [] => some scratch
  | operation :: history => (step readers scratch operation).bind fun scratch => run scratch history

/-- What is read of a text: the float that it begins with, else the longest numeral. -/
def Expected (prec b : ℕ) (p : List ℕ) (read : NumberRead v F B) : Prop :=
  if isfloatString p ∧ b = 10 then
    if prec = 0 then read = .float (readers.atof (floatNumeral p))
    else ∃ f, readers.bigfloatSetString prec (dropPlus (floatNumeral p)) = some f ∧
      read = .bigfloat f
  else read = .exact (LispNumber.canonicalizeNumber (.ratio (leadingNumeral b p)))

/-- The libraries read the text as what it begins with. -/
def ReadsNumeral (prec b : ℕ) (p : List ℕ) : Prop :=
  if isfloatString p ∧ b = 10 then
    prec = 0 ∨ readers.bigfloatSetString prec (dropPlus p) =
      readers.bigfloatSetString prec (dropPlus (floatNumeral p))
  else if slash ∈ p then ReadsRatio b p
  else (integerText b (dropPlus p)).1 = [] ∨ ReadsInteger b p

variable {prec : ℕ}

theorem readFloat_iff (hfloat : isfloatString p) :
    (∀ scratch, if prec = 0 then (readFloat (v := v) readers prec p scratch).1 =
          .float (readers.atof (floatNumeral p))
        else ∃ f, readers.bigfloatSetString prec (dropPlus (floatNumeral p)) = some f ∧
          (readFloat (v := v) readers prec p scratch).1 = .bigfloat f) ↔
      (prec = 0 ∨ readers.bigfloatSetString prec (dropPlus p) =
        readers.bigfloatSetString prec (dropPlus (floatNumeral p))) := by
  by_cases hprec : prec = 0
  · refine iff_of_true (fun scratch => ?_) (.inl hprec)
    rw [if_pos hprec, readFloat, if_pos hprec, readers.atof_numeral p hfloat]
  · obtain ⟨f, hf⟩ := Option.isSome_iff_exists.mp (readers.bigfloat_numeral prec p hfloat)
    simp only [hprec, false_or, if_false, readFloat, hf, Option.some.injEq,
      NumberRead.bigfloat.injEq, exists_eq_left']
    constructor
    · intro h
      cases hread : readers.bigfloatSetString prec (dropPlus p) with
      | none =>
        obtain ⟨g, g', hne⟩ := readers.setPrec_apart prec
        have hg := h ⟨0, 0, g⟩
        have hg' := h ⟨0, 0, g'⟩
        rw [hread] at hg hg'
        exact absurd (hg.trans hg'.symm) hne
      | some g =>
        have hg := h ⟨0, 0, (readers.setPrec_apart prec).choose⟩
        rw [hread] at hg
        exact congrArg some hg
    · intro h scratch
      rw [h]
      rfl

end Histories

section Plain

/-- Integers and ratios read by the letter. -/
def plainRatio (b : ℕ) (text : List ℕ) (old : ℤ × ℤ) : ℤ × ℤ :=
  match text.dropWhile (· ≠ slash) with
  | [] => match readsAs b text with
    | some n => (n, 1)
    | none => old
  | _ :: rest => match readsAs b (text.takeWhile (· ≠ slash)) with
    | some n => (n, (readsAs b rest).getD old.2)
    | none => old

variable {text text' rest : List ℕ} {old : ℤ × ℤ}

theorem ne_slash (htext : ∀ c ∈ text, c = minus ∨ loopByte b c) :
    ∀ c ∈ text, decide (c ≠ slash) = true := by
  intro c hc
  rw [decide_eq_true_iff]
  rintro rfl
  have := htext slash hc
  simp [loopByte, decimalP, minus, slash] at this

theorem plainRatio_integer (htext : ∀ c ∈ text, c = minus ∨ loopByte b c) (n : ℤ)
    (hn : readsAs b text = some n) : plainRatio b text old = (n, 1) := by
  rw [plainRatio, List.dropWhile_eq_nil_iff.mpr (ne_slash htext)]
  simp only [hn]

theorem plainRatio_fraction (htext : ∀ c ∈ text, c = minus ∨ loopByte b c) :
    plainRatio b (text ++ slash :: text') old = match readsAs b text with
      | some n => (n, (readsAs b text').getD old.2)
      | none => old := by
  have hdrop : (text ++ slash :: text').dropWhile (· ≠ slash) = slash :: text' := by
    rw [List.dropWhile_append_of_pos (ne_slash htext)]
    simp
  have htake : (text ++ slash :: text').takeWhile (· ≠ slash) = text := by
    rw [List.takeWhile_append_of_pos (ne_slash htext)]
    simp
  rw [plainRatio, hdrop, htake]

theorem plainRatio_unread (htext : ∀ c ∈ text, c = minus ∨ loopByte b c)
    (hnone : readsAs b text = none) (hrest : rest.head?.all (· = slash)) :
    (plainRatio b (text ++ rest) old).1 = old.1 := by
  cases rest with
  | nil =>
    rw [List.append_nil, plainRatio, List.dropWhile_eq_nil_iff.mpr (ne_slash htext)]
    simp only [hnone]
  | cons c rest =>
    obtain rfl : c = slash := by simpa using hrest
    rw [plainRatio_fraction htext, hnone]

theorem plainRatio_read {text' : List ℕ} {n : ℤ} (htext : ∀ c ∈ text, c = minus ∨ loopByte b c)
    (_htext' : ∀ c ∈ text', c = minus ∨ loopByte b c) (hn : readsAs b text = some n) :
    plainRatio b (text ++ slash :: text') old = (n, (readsAs b text').getD old.2) := by
  rw [plainRatio_fraction htext, hn]

theorem not_apart (_prec : ℕ) : ∃ f g : Bool, f ≠ g := ⟨true, false, Bool.noConfusion⟩

theorem isSome_true (_prec : ℕ) (p : List ℕ) (_h : isfloatString p = true) :
    (some true).isSome = true := rfl

/-- Readers for which no float differs from another. -/
def plainReaders : NumberReaders Unit Bool where
  bignumSetString := readsAs
  ratioSetString := plainRatio
  atof _ := ()
  setPrec _ f := f
  bigfloatSetString _ _ := some true
  bignum_reads _ _ _ := rfl
  ratio_integer _ _ _ htext := plainRatio_integer htext
  ratio_fraction _ _ _ _ htext htext' _ hn := plainRatio_read htext htext' hn
  ratio_unread _ _ _ _ := plainRatio_unread
  atof_numeral _ _ := rfl
  bigfloat_numeral := isSome_true
  setPrec_apart := not_apart

end Plain

end XEmacs.Number
