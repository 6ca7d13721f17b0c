import XEmacs.Format.Doprnt
import XEmacs.Number.ParseIntegerExact

/-! String fields: what `format` prints for `%W.Ps`, where the width and the precision are numbers in the
format or arguments. A string that is truncated is padded as if it were not. -/

namespace XEmacs.Format

open Number Table

variable {v : ℕ} {chars : StandardSyntax} {format rest : List ℕ}

def IsDigit (c : ℕ) : Prop := 48 ≤ c ∧ c ≤ 57

def decimalValue (digits : List ℕ) : ℕ := digits.foldl (fun n c => n * 10 + (c - '0'.toNat)) 0

theorem fixnumWeight_vdigitFixnumAscii (c : ℕ) : fixnumWeight vdigitFixnumAscii c =
    if 48 ≤ c ∧ c ≤ 57 then some ((c : ℤ) - 48) else if 97 ≤ c ∧ c ≤ 122 then some ((c : ℤ) - 87)
    else if 65 ≤ c ∧ c ≤ 90 then some ((c : ℤ) - 55) else some (-1) := by
  rw [fixnumWeight, CharBuild.getCharTable, CharBuild.getCharTableRaw]
  by_cases hlarge : vdigitFixnumAscii.levels < charLevels c
  · have hpow := CharBuild.pow_le_of_lt_charLevels (le_refl 1) hlarge
    rw [if_pos hlarge, if_neg (by omega), if_neg (by omega), if_neg (by omega)]
    rfl
  · have hlt : c < 256 := by
      by_contra hge
      refine hlarge ?_
      show 1 < charLevels c
      unfold charLevels
      split_ifs <;> omega
    have hindex : (CharBuild.index 0 c).val = c := Nat.mod_eq_of_lt hlt
    rw [if_neg hlarge, show vdigitFixnumAscii.levels = 0 + 1 from rfl, vdigitFixnumAscii, CharBuild.walk_subtab, hindex]
    split_ifs <;> rfl

theorem ten_toNat (hv : 5 ≤ v) : (10 : EmacsInt v).toNat = 10 := by
  have hpow : 2 ^ 6 ≤ 2 ^ (v + 1) := Nat.pow_le_pow_right Nat.two_pos (by omega)
  show 10 % 2 ^ (v + 1) = 10
  exact Nat.mod_eq_of_lt (by omega)

theorem ten_toInt (hv : 5 ≤ v) : (10 : EmacsInt v).toInt = 10 := by
  have hpow : 2 ^ 6 ≤ 2 ^ (v + 1) := Nat.pow_le_pow_right Nat.two_pos (by omega)
  rw [BitVec.toInt_eq_toNat_cond, ten_toNat hv, if_pos (by omega)]
  rfl

theorem fixnumBase_ten (hv : 5 ≤ v) : FixnumBase (10 : EmacsInt v) := by
  have hpow : (2 : ℤ) ^ 4 ≤ 2 ^ (v - 1) := pow_le_pow_right₀ (by decide) (by omega)
  exact ⟨by rw [ten_toInt hv]; decide, by rw [ten_toInt hv]; omega⟩

theorem digitWeight_ten (hv : 5 ≤ v) (c : ℕ) : digitWeight (10 : EmacsInt v) vdigitFixnumAscii c =
    if 48 ≤ c ∧ c ≤ 57 then some (c - 48) else none := by
  rw [digitWeight, fixnumWeight_vdigitFixnumAscii, ten_toInt hv]
  split_ifs with hdigit <;> simp only [Option.filter_some, decide_eq_true_eq] <;> split_ifs <;>
    simp <;> omega

theorem valueFrom_ten (hv : 5 ≤ v) {digits : List ℕ} (hdigit : ∀ c ∈ digits, IsDigit c) :
    valueFrom (10 : EmacsInt v) vdigitFixnumAscii 0 digits = decimalValue digits := by
  rw [valueFrom, decimalValue, ten_toNat hv]
  refine List.foldl_ext _ _ _ fun n c hc => ?_
  obtain ⟨hlow, hhigh⟩ := hdigit c hc
  rw [digitWeight_ten hv, if_pos ⟨hlow, hhigh⟩, Option.getD_some]
  rfl

theorem parseDecimal_digits (hv : 5 ≤ v) {digits : List ℕ} (hne : digits ≠ []) (hdigit : ∀ c ∈ digits, IsDigit c)
    (hrest : ∀ c ∈ rest.head?, ¬IsDigit c) : parseDecimal chars (digits ++ rest) =
      (some (LispNumber.canonicalizeBignum (v := v) (decimalValue digits : ℕ)), rest) := by
  have hbase := fixnumBase_ten hv
  have hweight : ∀ c ∈ digits, (digitWeight (10 : EmacsInt v) vdigitFixnumAscii c).isSome := fun c hc => by
    obtain ⟨hlow, hhigh⟩ := hdigit c hc
    rw [digitWeight_ten hv, if_pos ⟨hlow, hhigh⟩]
    rfl
  have hminus : digits.head? ≠ some minus := fun hminus => by
    have hdash := hdigit minus (List.mem_of_mem_head? hminus)
    exact absurd hdash.1 (by decide)
  have hends : ∀ c ∈ rest.head?, digitWeight (10 : EmacsInt v) vdigitFixnumAscii c = none := fun c hc => by
    rw [digitWeight_ten hv]
    exact if_neg (hrest c hc)
  unfold parseDecimal
  rw [parseInteger_unsigned hbase hne hweight hminus hends (.inl rfl)]
  simp only [consumed, if_true, List.length_append, Nat.add_sub_cancel, List.drop_left]
  rw [valueFrom_ten hv hdigit]

/-- A `-`, or a `!` with a pad character. -/
inductive FieldFlag where
  | leftJustify
  | pad (c : ℕ)
  deriving DecidableEq

/-- A width or a precision: none, digits, or a `*` with an argument. -/
inductive FieldCount where
  | none
  | digits (ds : List ℕ)
  | star (n : ℤ)
  deriving DecidableEq

def FieldFlag.text : FieldFlag → List ℕ
  | leftJustify => ['-'.toNat]
  | pad c => ['!'.toNat, c]

def FieldFlag.padChar (old : ℕ) : FieldFlag → ℕ
  | leftJustify => old
  | pad c => c

namespace FieldCount

def isStar : FieldCount → Bool
  | star _ => true
  | _ => false

def text : FieldCount → List ℕ
  | none => []
  | digits ds => ds
  | star _ => ['*'.toNat]

def args (v : ℕ) : FieldCount → List (FormatArg v)
  | star n => [.number (LispNumber.canonicalizeBignum n)]
  | _ => []

def InRange : FieldCount → Prop
  | none => True
  | digits ds => decimalValue ds ≤ 65535
  | star n => -65535 ≤ n ∧ n ≤ 65535

def Parsed (p : FieldCount) : Prop := p.isStar = false → p.InRange

def Read (p : FieldCount) : Prop := p.isStar = true → p.InRange

theorem inRange_iff (p : FieldCount) : p.InRange ↔ p.Parsed ∧ p.Read := by
  unfold Parsed Read
  cases p.isStar <;> simp

def number : FieldCount → ℤ
  | none => -1
  | digits ds => decimalValue ds
  | star n => n

end FieldCount

/-- The field `%W.Ps`. -/
structure StringField where
  flags : List FieldFlag
  width : FieldCount
  precision : FieldCount
  /-- A `0` would be a flag. -/
  width_digits : ∀ ds, width = .digits ds → startsNumber ds ∧ ∀ c ∈ ds, IsDigit c
  precision_digits : ∀ ds, precision = .digits ds → ds ≠ [] ∧ ∀ c ∈ ds, IsDigit c

namespace StringField

variable (field : StringField)

/-- The dot and the precision. -/
def precisionText : List ℕ := if field.precision = .none then [] else '.'.toNat :: field.precision.text

def countsText : List ℕ := field.width.text ++ (field.precisionText ++ ['s'.toNat])

def body : List ℕ := field.flags.flatMap FieldFlag.text ++ field.countsText

def text : List ℕ := '%'.toNat :: field.body

def args (v : ℕ) (str : List ℕ) : List (FormatArg v) :=
  field.width.args v ++ (field.precision.args v ++ [.string str])

def padChar : ℕ := field.flags.foldl FieldFlag.padChar ' '.toNat

def leftJustify : Bool :=
  .leftJustify ∈ field.flags ||
    match field.width with
    | .star n => n < 0
    | _ => false

def minwidth : ℕ :=
  match field.width with
  | .none => 0
  | .digits ds => decimalValue ds
  | .star n => n.natAbs

def maxChars : Option ℕ :=
  match field.precision with
  | .none => none
  | .digits ds => some (decimalValue ds)
  | .star n => if n < 0 then none else some n.toNat

/-- The string, truncated and then padded. -/
def Prints (str out : List ℕ) : Prop :=
  let shown := (field.maxChars.map fun n => str.take n).getD str
  let fill := List.replicate (field.minwidth - shown.length) field.padChar
  out = if field.leftJustify then shown ++ fill else fill ++ shown

end StringField

def plainSpec (argnum converter : ℕ) (minwidth precision : ℤ) (padChar : ℕ) (leftJustify forwardingPrecisionp : Bool) :
    PrintfSpec :=
  { PrintfSpec.zero padChar argnum with
    converter := converter, minwidth := minwidth, precision := precision, leftJustify := leftJustify,
    forwardingPrecisionp := forwardingPrecisionp }

abbrev Parsing.plain (specs : List PrintfSpec) (argnum : ℕ) (minwidth precision : ℤ) (padChar : ℕ) (leftJustify : Bool)
    (fmt : List ℕ) : Parsing :=
  ⟨specs, plainSpec argnum 0 minwidth precision padChar leftJustify false, argnum, argnum, fmt⟩

section Printing

variable {lengths : IcharLengths}

theorem length_le_textLength (str : List ℕ) : str.length ≤ textLength lengths str ∧
    textLength lengths str ≤ lengths.maxIcharLen * str.length := by
  induction str with
  | nil => exact ⟨le_refl 0, Nat.zero_le _⟩
  | cons c str ih =>
    have hone := lengths.one_le c
    have hmax := lengths.le_max c
    rw [textLength] at ih ⊢
    rw [List.map_cons, List.sum_cons, List.length_cons, Nat.mul_succ]
    omega

theorem textLength_div_le (str : List ℕ) : 0 ≤ (textLength lengths str : ℤ) / lengths.maxIcharLen ∧
    (textLength lengths str : ℤ) / lengths.maxIcharLen ≤ str.length := by
  have hhigh := (@length_le_textLength lengths str).2
  have hpos := (lengths.one_le 0).trans (lengths.le_max 0)
  refine ⟨Int.ediv_nonneg (Int.natCast_nonneg _) (Int.natCast_nonneg _), Int.ediv_le_of_le_mul (by omega) ?_⟩
  rw [mul_comm]
  exact_mod_cast hhigh

theorem doprnt1_plain {argnum converter padChar : ℕ} {minwidth precision : ℤ} {left fwd : Bool} (str : List ℕ) :
    doprnt1 lengths (plainSpec argnum converter minwidth precision padChar left fwd) str =
      let shown := if 0 ≤ precision then str.take precision.toNat else str
      let fill := List.replicate (minwidth - str.length).toNat padChar
      if left then shown ++ fill else fill ++ shown := by
  obtain ⟨hlow, -⟩ := @length_le_textLength lengths str
  have hdiv := @textLength_div_le lengths str
  have hmeasure : ∃ zeros padding, measure lengths (plainSpec argnum converter minwidth precision padChar left fwd) str =
      (zeros, padding, if 0 ≤ precision then str.take precision.toNat else str) ∧
        zeros ≤ 0 ∧ padding.toNat = (minwidth - str.length).toNat := by
    unfold measure
    simp only [plainSpec, PrintfSpec.zero, if_true, reduceCtorEq, if_false, ne_eq, not_true_eq_false, add_zero, zero_mul]
    split_ifs with hcount htake hprecision hprecision hprecision
    · refine ⟨_, _, congrArg (fun n => (_, _, str.take n)) ?_, by omega, by omega⟩
      omega
    · exact absurd htake.1 hprecision
    · refine ⟨_, _, congrArg (fun s => (_, _, s)) (List.take_of_length_le ?_).symm, by omega, by omega⟩
      omega
    · exact ⟨_, _, rfl, by omega, by omega⟩
    · refine ⟨_, _, congrArg (fun s => (_, _, s)) (List.take_of_length_le ?_).symm, by omega, by omega⟩
      omega
    · exact ⟨_, _, rfl, by omega, by omega⟩
  obtain ⟨zeros, padding, hmeasure, hzeros, hpadding⟩ := hmeasure
  have hnone : List.replicate zeros.toNat '0'.toNat = [] := by
    rw [Int.toNat_of_nonpos hzeros]
    rfl
  unfold doprnt1
  simp only [hmeasure, hpadding, hnone]
  cases left with
  | true => simp [plainSpec, PrintfSpec.zero, handleSignAndNumber, handleSignFlag]
  | false => simp [plainSpec, PrintfSpec.zero, handleSignAndNumber, handleSignFlag]

end Printing

/-! ### Parsing a field -/

section Parsing

variable {argnum converter padChar c : ℕ} {minwidth precision : ℤ} {left fwd : Bool} {specs : List PrintfSpec}

def EndsFlags (c : ℕ) : Prop := c < 0x80 ∧ c ≠ '!'.toNat ∧ ∀ spec, setFlag c spec = none

theorem endsFlags_of_mem (h : c ∈ '*'.toNat :: '.'.toNat :: 's'.toNat :: (List.range 9).map (· + 49)) : EndsFlags c := by
  have hsmall : ∀ c ∈ '*'.toNat :: '.'.toNat :: 's'.toNat :: (List.range 9).map (· + 49), c < 0x80 ∧ c ≠ '!'.toNat ∧
      c ∉ ['-', '+', ' ', '#', '&', '~', '0'].map Char.toNat := by decide
  obtain ⟨hlt, hpad, hnot⟩ := hsmall c h
  refine ⟨hlt, hpad, fun spec => ?_⟩
  simp only [List.map_cons, List.map_nil, List.mem_cons, not_or] at hnot
  obtain ⟨h1, h2, h3, h4, h5, h6, h7, -⟩ := hnot
  rw [setFlag, if_neg h1, if_neg h2, if_neg h3, if_neg h4, if_neg h5, if_neg h6, if_neg h7]

theorem parseFlags_text (flags : List FieldFlag) (hc : EndsFlags c) :
    parseFlags (v := v) format (plainSpec argnum converter minwidth precision padChar left fwd)
      (flags.flatMap FieldFlag.text ++ c :: rest) =
      .ok (plainSpec argnum converter minwidth precision
        (flags.foldl FieldFlag.padChar padChar) (left || decide (.leftJustify ∈ flags)) fwd, c :: rest) := by
  induction flags generalizing padChar left with
  | nil =>
    obtain ⟨hlt, hpad, hflag⟩ := hc
    rw [List.flatMap_nil, List.nil_append, parseFlags.eq_def]
    simp only [if_pos hlt, if_neg hpad, hflag]
    simp
  | cons flag flags ih =>
    cases flag with
    | leftJustify =>
      have hset : setFlag '-'.toNat (plainSpec argnum converter minwidth precision padChar left fwd) =
          some (plainSpec argnum converter minwidth precision padChar true fwd) := rfl
      rw [List.flatMap_cons, FieldFlag.text, List.singleton_append, List.cons_append, parseFlags.eq_def]
      simp only [if_pos (show '-'.toNat < 0x80 by decide), if_neg (show '-'.toNat ≠ '!'.toNat by decide), hset, ih]
      simp [FieldFlag.padChar]
    | pad d =>
      rw [List.flatMap_cons, FieldFlag.text, List.cons_append, List.singleton_append, List.cons_append, List.cons_append,
        parseFlags.eq_def]
      simp only [if_pos (show '!'.toNat < 0x80 by decide), if_true]
      refine ih.trans ?_
      simp [FieldFlag.padChar, plainSpec]

theorem isDigit_of_startsNumber (h : startsNumber (c :: rest) = true) : IsDigit c := by
  rw [startsNumber, Bool.and_eq_true, decide_eq_true_eq, decide_eq_true_eq] at h
  exact ⟨le_of_lt h.1, h.2⟩

theorem checkRange_integer (hv : 5 ≤ v) (low high n : ℤ) :
    checkRange low high (LispNumber.canonicalizeBignum (v := v) n) =
      if low ≤ n ∧ n ≤ high then .ok n
      else .error (.argsOutOfRange (LispNumber.canonicalizeBignum (v := v) n) low high) := by
  have hvalue := LispNumber.canonicalizeBignum_value (v := v) (by omega) n
  simp only [checkRange, hvalue, Int.cast_le, Rat.num_intCast]

/-- What is parsed of a width; of a `*` the argument is not known yet. -/
def widthParsed (v argnum padChar : ℕ) (left : Bool) (rest : List ℕ) : FieldCount → Except (FormatError v) Parsing
  | .none => .ok (.plain [] argnum (-1) (-1) padChar left rest)
  | .digits ds =>
    if decimalValue ds ≤ 65535 then
      .ok (.plain [] argnum (decimalValue ds) (-1) padChar left rest)
    else .error (.argsOutOfRange (LispNumber.canonicalizeBignum (decimalValue ds : ℕ)) 0 65535)
  | .star _ => .ok (.plain [plainSpec argnum '*'.toNat 0 (-1) padChar left false] (argnum + 1) 0 0 padChar false rest)

theorem parseWidth_text (hv : 5 ≤ v) (w : FieldCount)
    (hdigits : ∀ ds, w = .digits ds → startsNumber ds ∧ ∀ c ∈ ds, IsDigit c)
    (hrest : ∀ c ∈ rest.head?, ¬IsDigit c ∧ c ≠ '*'.toNat) :
    parseWidth chars (.plain [] argnum 0 (-1) padChar left (w.text ++ rest)) =
      widthParsed v argnum padChar left rest w := by
  cases w with
  | none =>
    rw [FieldCount.text, List.nil_append, parseWidth.eq_def]
    cases rest with
    | nil => rfl
    | cons c rest =>
      obtain ⟨hdigit, hstar⟩ := hrest c rfl
      simp only [if_neg hstar, if_neg fun h => hdigit (isDigit_of_startsNumber h)]
      rfl
  | digits ds =>
    obtain ⟨hstarts, hdigit⟩ := hdigits ds rfl
    obtain ⟨c, ds', rfl⟩ : ∃ c ds', ds = c :: ds' := List.exists_cons_of_ne_nil fun h => by
      rw [h] at hstarts
      exact Bool.false_ne_true hstarts
    have hparse := @parseDecimal_digits v chars rest hv (c :: ds') (List.cons_ne_nil c ds') hdigit fun c hc => (hrest c hc).1
    have hstar : c ≠ '*'.toNat := fun h => absurd (h ▸ hdigit c List.mem_cons_self).1 (by decide)
    rw [List.cons_append] at hparse
    rw [FieldCount.text, List.cons_append, parseWidth.eq_def]
    simp only [if_neg hstar, if_pos (show startsNumber (c :: (ds' ++ rest)) = true from hstarts), hparse,
      checkRange_integer hv, widthParsed]
    by_cases hle : decimalValue (c :: ds') ≤ 65535
    · rw [if_pos hle, if_pos (by omega)]
      rfl
    · rw [if_neg hle, if_neg (by omega)]
      rfl
  | star n => exact congrArg (fun mx => Except.ok (Parsing.mk _ _ _ mx _)) (max_eq_right (Nat.le_succ argnum))

def precisionParsed (v : ℕ) (specs : List PrintfSpec) (argnum : ℕ) (minwidth precision : ℤ) (padChar : ℕ)
    (left : Bool) : FieldCount → Except (FormatError v) (ℕ × Parsing)
  | .none => .ok ('s'.toNat, .plain specs argnum minwidth (-1) padChar left [])
  | .digits ds =>
    if decimalValue ds ≤ 65535 then
      .ok ('s'.toNat, (.plain specs argnum minwidth (decimalValue ds) padChar left []))
    else .error (.argsOutOfRange (LispNumber.canonicalizeBignum (decimalValue ds : ℕ)) (-65535) 65535)
  | .star _ => .ok ('s'.toNat, .plain (specs ++ [plainSpec argnum '*'.toNat minwidth precision padChar left true])
      (argnum + 1) 0 0 padChar false [])

theorem parseDot_text (hv : 5 ≤ v) (p : FieldCount) (hdigits : ∀ ds, p = .digits ds → ds ≠ [] ∧ ∀ c ∈ ds, IsDigit c) :
    parseDot chars format (.plain specs argnum minwidth precision padChar left
      ((if p = .none then [] else '.'.toNat :: p.text) ++ ['s'.toNat])) =
      precisionParsed v specs argnum minwidth precision padChar left p := by
  cases p with
  | none => rfl
  | digits ds =>
    obtain ⟨hne, hdigit⟩ := hdigits ds rfl
    have hparse := @parseDecimal_digits v chars ['s'.toNat] hv ds hne hdigit fun c hc => by
      rw [← Option.some.inj hc]
      exact fun hs => absurd hs.2 (by decide)
    have hstar : ¬(ds ++ ['s'.toNat]).head? = some '*'.toNat := fun h => by
      obtain ⟨c, ds', rfl⟩ := List.exists_cons_of_ne_nil hne
      obtain rfl := Option.some.inj h
      exact absurd (hdigit _ List.mem_cons_self).1 (by decide)
    have hprecision : parsePrecision (v := v) chars
        (.plain specs argnum minwidth precision padChar left (ds ++ ['s'.toNat])) =
          if decimalValue ds ≤ 65535 then
            .ok (.plain specs argnum minwidth (decimalValue ds) padChar left ['s'.toNat])
          else .error (.argsOutOfRange (LispNumber.canonicalizeBignum (decimalValue ds : ℕ)) (-65535) 65535) := by
      rw [parsePrecision, if_neg hstar]
      simp only [hparse, checkRange_integer hv]
      by_cases hle : decimalValue ds ≤ 65535
      · rw [if_pos hle, if_pos (by omega)]
        have hmax : max (decimalValue ds : ℤ) (-1) = decimalValue ds := max_eq_left (by omega)
        show Except.ok _ = Except.ok _
        rw [hmax]
        rfl
      · rw [if_neg hle, if_neg (by omega)]
        rfl
    have hdot : parseDot (v := v) chars format (.plain specs argnum minwidth precision padChar left
        ('.'.toNat :: (ds ++ ['s'.toNat]))) = (parsePrecision (v := v) chars
          (.plain specs argnum minwidth precision padChar left (ds ++ ['s'.toNat]))).bind fun s =>
            (nextAscbyte format s.fmt).bind fun r => .ok (r.1, { s with fmt := r.2 }) := rfl
    have htext : (if FieldCount.digits ds = .none then [] else '.'.toNat :: (FieldCount.digits ds).text) =
        '.'.toNat :: ds := if_neg fun h => by cases h
    rw [htext]
    refine hdot.trans ?_
    rw [hprecision, precisionParsed]
    split_ifs <;> rfl
  | star n => exact congrArg (fun mx => Except.ok (_, Parsing.mk _ _ _ mx _)) (max_eq_right (Nat.le_succ argnum))

def parseRest (chars : StandardSyntax) (format : List ℕ) (s : Parsing) : Except (FormatError v) Parsing :=
  (parseDot chars format s).bind fun r => (parseHlFlag format r.1 r.2).bind fun r =>
    (parseUnsigned format r.1 r.2).bind fun r =>
      if r.1 = 0 then .error .invalidConverter
      else .ok { r.2 with specs := r.2.specs ++ [resolveFlagConflicts { r.2.spec with converter := r.1 }] }

end Parsing

namespace StringField

variable (field : StringField)

theorem exists_countsText : ∃ c rest, field.countsText = c :: rest ∧
    c ∈ '*'.toNat :: '.'.toNat :: 's'.toNat :: (List.range 9).map (· + 49) := by
  have hprecision : ∃ c rest, field.precisionText ++ ['s'.toNat] = c :: rest ∧
      c ∈ '*'.toNat :: '.'.toNat :: 's'.toNat :: (List.range 9).map (· + 49) := by
    rw [precisionText]
    split_ifs
    · exact ⟨_, _, rfl, by decide⟩
    · exact ⟨_, _, rfl, by decide⟩
  rw [countsText]
  cases hwidth : field.width with
  | none => exact hprecision
  | star n => exact ⟨_, _, rfl, by decide⟩
  | digits ds =>
    obtain ⟨hstarts, hdigit⟩ := field.width_digits ds hwidth
    cases ds with
    | nil => exact absurd hstarts Bool.false_ne_true
    | cons c ds =>
      rw [startsNumber, Bool.and_eq_true, decide_eq_true_eq, decide_eq_true_eq] at hstarts
      have hlow : 48 < c := hstarts.1
      have hhigh : c ≤ 57 := hstarts.2
      refine ⟨c, _, rfl, ?_⟩
      simp only [List.mem_cons, List.mem_map, List.mem_range]
      exact .inr (.inr (.inr ⟨c - 49, by omega, by omega⟩))

theorem precisionText_head (c : ℕ) (h : c ∈ (field.precisionText ++ ['s'.toNat]).head?) :
    c ∈ ['.'.toNat, 's'.toNat] := by
  rw [precisionText] at h
  split_ifs at h <;> rw [← Option.some.inj h] <;> decide

theorem text_head (c : ℕ) (h : c ∈ field.body.head?) : c ≠ '%'.toNat ∧ (startsNumber [c] → field.flags = []) := by
  rw [body] at h
  cases hflags : field.flags with
  | nil =>
    obtain ⟨d, rest, hcounts, hmem⟩ := field.exists_countsText
    rw [hflags, List.flatMap_nil, List.nil_append, hcounts] at h
    rw [← Option.some.inj h]
    exact ⟨(show ∀ d ∈ '*'.toNat :: '.'.toNat :: 's'.toNat :: (List.range 9).map (· + 49), d ≠ '%'.toNat by decide) d hmem,
      fun _ => rfl⟩
  | cons flag flags =>
    rw [hflags] at h
    cases flag with
    | leftJustify =>
      rw [← Option.some.inj h]
      exact ⟨by decide, fun hstarts => absurd hstarts (by decide)⟩
    | pad d =>
      rw [← Option.some.inj h]
      exact ⟨by decide, fun hstarts => absurd hstarts (by decide)⟩

theorem parseRepositioning_text (hv : 5 ≤ v) :
    parseRepositioning chars v 0 field.body = (1, field.body) := by
  rw [parseRepositioning]
  split_ifs with hstarts
  · obtain ⟨c, rest, hbody⟩ : ∃ c rest, field.body = c :: rest :=
      List.exists_cons_of_ne_nil fun h => by
        rw [h] at hstarts
        exact Bool.false_ne_true hstarts
    have hflags := (field.text_head c (by rw [hbody]; rfl)).2 (by rw [hbody] at hstarts; exact hstarts)
    rw [body, hflags, List.flatMap_nil, List.nil_append, countsText] at hstarts hbody ⊢
    have hend : ∀ c ∈ (field.precisionText ++ ['s'.toNat]).head?, ¬IsDigit c ∧ c ≠ '$'.toNat := fun c hc => by
      unfold IsDigit
      exact (show ∀ c ∈ ['.'.toNat, 's'.toNat], ¬(48 ≤ c ∧ c ≤ 57) ∧ c ≠ '$'.toNat by decide) c
        (field.precisionText_head c hc)
    have hdigit : IsDigit c := @isDigit_of_startsNumber rest c (by rw [← hbody]; exact hstarts)
    cases hwidth : field.width with
    | star n =>
      rw [hwidth] at hbody
      rw [← (List.cons.inj hbody).1] at hdigit
      exact absurd hdigit.1 (by decide)
    | none =>
      rw [hwidth] at hbody
      exact absurd hdigit (hend c (by rw [show field.precisionText ++ ['s'.toNat] = c :: rest from hbody]; rfl)).1
    | digits ds =>
      obtain ⟨hdstarts, hds⟩ := field.width_digits ds hwidth
      have hne : ds ≠ [] := fun h => by
        rw [h] at hdstarts
        exact Bool.false_ne_true hdstarts
      have hparse := @parseDecimal_digits v chars (field.precisionText ++ ['s'.toNat]) hv ds hne hds fun c hc =>
        (hend c hc).1
      rw [FieldCount.text, hparse]
      cases hrest : field.precisionText ++ ['s'.toNat] with
      | nil => rw [List.append_eq_nil_iff] at hrest; exact absurd hrest.2 (List.cons_ne_nil _ _)
      | cons d rest =>
        have hdollar := (hend d (by rw [hrest]; rfl)).2
        cases LispNumber.canonicalizeBignum (v := v) (decimalValue ds : ℕ) with
        | fixnum val => exact if_neg fun h => hdollar h.2
        | bignum data => rfl
        | ratio data => rfl
  · rfl

theorem parseSpec_text (hv : 5 ≤ v) :
    parseSpec (v := v) chars format (.plain [] 0 0 (-1) ' '.toNat false field.body) =
      (parseWidth chars (.plain [] 1 0 (-1) field.padChar (decide (.leftJustify ∈ field.flags)) field.countsText)).bind
        (parseRest chars format) := by
  obtain ⟨c, rest, hcounts, hmem⟩ := field.exists_countsText
  have hflags := @parseFlags_text v format rest 1 0 ' '.toNat c 0 (-1) false false field.flags (endsFlags_of_mem hmem)
  rw [← hcounts, Bool.false_or] at hflags
  have hbind : parseSpec (v := v) chars format (.plain [] 0 0 (-1) ' '.toNat false field.body) =
        let r := parseRepositioning chars v 0 field.body
        (parseFlags format (plainSpec r.1 0 0 (-1) ' '.toNat false false) r.2).bind fun q =>
          (parseWidth chars ⟨[], q.1, r.1, max 0 r.1, q.2⟩).bind (parseRest chars format) := rfl
  rw [hbind, field.parseRepositioning_text hv]
  dsimp only
  rw [body, hflags]
  rfl

theorem parseDoprntSpec_text : parseDoprntSpec (v := v) chars field.text =
    (parseSpec chars field.text (.plain [] 0 0 (-1) ' '.toNat false field.body)).bind
      (parseLoop chars field.text field.body.length) := by
  have hhead : ¬field.body.head? = some '%'.toNat := fun h => (field.text_head _ (Option.mem_def.mpr h)).1 rfl
  have hfmt : ¬field.text = [] := List.cons_ne_nil _ _
  rw [parseDoprntSpec, show field.text.length = field.body.length + 1 from rfl, parseLoop, if_neg hfmt]
  show (if field.body.head? = some '%'.toNat then _ else _) = _
  rw [if_neg hhead]
  rfl

end StringField

structure OkIf {ε α : Type} (p : Prop) (x : Except ε α) (a : α) : Prop where
  ok : p → x = .ok a
  error : ¬p → ∃ e, x = .error e

namespace OkIf

variable {ε α β : Type} {p q : Prop} {x : Except ε α} {a : α}

theorem of_pos (hp : p) (h : x = .ok a) : OkIf p x a := ⟨fun _ => h, fun hn => absurd hp hn⟩

theorem of_neg {e : ε} (hp : ¬p) (h : x = .error e) : OkIf p x a := ⟨fun hn => absurd hn hp, fun _ => ⟨e, h⟩⟩

theorem and (h : OkIf q x a) (hp : p) : OkIf (p ∧ q) x a :=
  ⟨fun hand => h.ok hand.2, fun hn => h.error fun hq => hn ⟨hp, hq⟩⟩

theorem bind {f : α → Except ε β} {b : β} (h : OkIf p x a) (hf : f a = .ok b) : OkIf p (x.bind f) b := by
  by_cases hp : p
  · exact of_pos hp (by rw [h.ok hp]; exact hf)
  · obtain ⟨e, he⟩ := h.error hp
    exact of_neg hp (by rw [he]; rfl)

end OkIf

/-! ### Printing a field -/

section Formatting

variable {lengths : IcharLengths} {princ : FormatArg v → List ℕ}
  {others : PrintfSpec → Option (FormatArg v) → Except (FormatError v) (List ℕ)} {largs : List (FormatArg v)}
  {argnum padChar : ℕ} {minwidth precision : ℤ} {left fwd : Bool} {str : List ℕ}

theorem emacsDoprnt_string (harg : largs[argnum]? = some (.string str)) :
    emacsDoprnt lengths princ others largs [plainSpec (argnum + 1) 's'.toNat minwidth precision padChar left fwd] =
      .ok (doprnt1 lengths (plainSpec 0 's'.toNat minwidth precision padChar left false) str) := by
  rw [emacsDoprnt, emacsDoprnt]
  simp only [plainSpec, PrintfSpec.zero, Nat.add_sub_cancel, harg]
  rw [if_neg (by decide), if_neg (by decide), if_neg (by decide), if_pos trivial, if_neg (Nat.succ_ne_zero argnum)]
  show Except.ok _ = Except.ok _
  rw [List.append_nil, List.nil_append]
  rfl

theorem emacsDoprnt_star (hv : 5 ≤ v) {n : ℤ} (harg : largs[argnum]? = some (.number (LispNumber.canonicalizeBignum n)))
    (next : PrintfSpec) (specs : List PrintfSpec) :
    emacsDoprnt lengths princ others largs
      (plainSpec (argnum + 1) '*'.toNat minwidth precision padChar left fwd :: next :: specs) =
      if -65535 ≤ n ∧ n ≤ 65535 then
        emacsDoprnt lengths princ others largs
          (forward (plainSpec (argnum + 1) '*'.toNat minwidth precision padChar left fwd) next n :: specs)
      else .error (.argsOutOfRange (LispNumber.canonicalizeBignum (v := v) n) (-65535) 65535) := by
  have hinteger : (LispNumber.canonicalizeBignum (v := v) n).integerp = true := by
    by_cases hfits : Lib.Words.Fits v n
    · rw [LispNumber.canonicalizeBignum_of_fits hfits]
      rfl
    · rw [LispNumber.canonicalizeBignum_of_not_fits hfits]
      rfl
  have hcheck : checkStar (some (.number (LispNumber.canonicalizeBignum (v := v) n))) =
      if -65535 ≤ n ∧ n ≤ 65535 then .ok n
      else .error (.argsOutOfRange (LispNumber.canonicalizeBignum (v := v) n) (-65535) 65535) := by
    rw [checkStar, if_pos hinteger, checkRange_integer hv]
  rw [emacsDoprnt]
  simp only [plainSpec, PrintfSpec.zero, Nat.add_sub_cancel, harg]
  rw [if_neg (by decide), if_neg (by decide), if_pos trivial, if_neg (Nat.succ_ne_zero argnum), hcheck]
  split_ifs with hrange
  · show (emacsDoprnt lengths princ others largs _).bind _ = _
    cases emacsDoprnt lengths princ others largs _ with
    | error e => rfl
    | ok out => rfl
  · rfl

def precisionSpecs (argnum : ℕ) (minwidth precision : ℤ) (padChar : ℕ) (left : Bool) : FieldCount → List PrintfSpec
  | .none => [plainSpec argnum 's'.toNat minwidth (-1) padChar left false]
  | .digits ds => [plainSpec argnum 's'.toNat minwidth (decimalValue ds) padChar left false]
  | .star _ => [plainSpec argnum '*'.toNat minwidth precision padChar left true,
      plainSpec (argnum + 1) 's'.toNat 0 0 padChar false false]

theorem parseRest_text (hv : 5 ≤ v) (field : StringField) (specs : List PrintfSpec) :
    ∃ s : Parsing, s.fmt = [] ∧ s.specs = specs ++ precisionSpecs argnum minwidth precision padChar left field.precision ∧
      s.maxArgnum = argnum + (field.precision.args v).length ∧
      OkIf field.precision.Parsed (parseRest (v := v) chars format
        (.plain specs argnum minwidth precision padChar left (field.precisionText ++ ['s'.toNat]))) s := by
  have hdot := @parseDot_text v chars format argnum padChar minwidth precision left specs hv field.precision
    field.precision_digits
  rw [StringField.precisionText, parseRest, hdot]
  cases field.precision with
  | none => exact ⟨_, rfl, rfl, rfl, .of_pos (fun _ => trivial) rfl⟩
  | digits ds =>
    rw [precisionParsed]
    split_ifs with hle
    · exact ⟨_, rfl, rfl, rfl, .of_pos (fun _ => hle) rfl⟩
    · exact ⟨⟨_, plainSpec 0 0 0 0 0 false false, 0, _, []⟩, rfl, rfl, rfl, .of_neg (fun h => hle (h rfl)) rfl⟩
  | star n => exact ⟨_, rfl, List.append_assoc .., rfl, .of_pos (fun h => by cases h) rfl⟩

theorem emacsDoprnt_precision (hv : 5 ≤ v) (p : FieldCount) (harg : largs.drop argnum = p.args v ++ [.string str]) :
    OkIf p.Read
      (emacsDoprnt lengths princ others largs (precisionSpecs (argnum + 1) minwidth precision padChar left p))
      (doprnt1 lengths (plainSpec 0 's'.toNat minwidth p.number padChar left false) str) := by
  have hfirst (i : ℕ) : largs[argnum + i]? = (p.args v ++ [.string str])[i]? := by rw [← harg, List.getElem?_drop]
  cases p with
  | none => exact .of_pos (fun h => by cases h) (emacsDoprnt_string (hfirst 0))
  | digits ds => exact .of_pos (fun h => by cases h) (emacsDoprnt_string (hfirst 0))
  | star n =>
    rw [precisionSpecs, emacsDoprnt_star hv (hfirst 0)]
    split_ifs with hrange
    · exact .of_pos (fun _ => hrange) (emacsDoprnt_string (hfirst 1))
    · exact .of_neg (fun h => hrange (h rfl)) rfl

theorem forward_precision (hv : 5 ≤ v) {n : ℤ} {p : FieldCount}
    (harg : largs[0]? = some (.number (LispNumber.canonicalizeBignum n))) :
    emacsDoprnt lengths princ others largs
        (plainSpec 1 '*'.toNat 0 (-1) padChar left false :: precisionSpecs 2 0 0 padChar false p) =
      if -65535 ≤ n ∧ n ≤ 65535 then
        emacsDoprnt lengths princ others largs (precisionSpecs 2 n.natAbs 0 padChar (left || decide (n < 0)) p)
      else .error (.argsOutOfRange (LispNumber.canonicalizeBignum (v := v) n) (-65535) 65535) := by
  have hforward (converter : ℕ) (precision : ℤ) (fwd : Bool) :
      forward (plainSpec 1 '*'.toNat 0 (-1) padChar left false) (plainSpec 2 converter 0 precision padChar false fwd) n =
        plainSpec 2 converter n.natAbs precision padChar (left || decide (n < 0)) fwd := by
    by_cases hneg : n < 0
    · have habs : (n.natAbs : ℤ) = -n := by omega
      simp [forward, plainSpec, PrintfSpec.zero, hneg, habs]
    · have habs : (n.natAbs : ℤ) = n := by omega
      simp [forward, plainSpec, PrintfSpec.zero, hneg, habs]
  cases p with
  | none => rw [precisionSpecs, emacsDoprnt_star hv harg, hforward, precisionSpecs]
  | digits ds => rw [precisionSpecs, emacsDoprnt_star hv harg, hforward, precisionSpecs]
  | star m => rw [precisionSpecs, emacsDoprnt_star hv harg, hforward, precisionSpecs]

def StringField.specs (field : StringField) : List PrintfSpec :=
  let left := decide (.leftJustify ∈ field.flags)
  match field.width with
  | .none => precisionSpecs 1 (-1) (-1) field.padChar left field.precision
  | .digits ds => precisionSpecs 1 (decimalValue ds) (-1) field.padChar left field.precision
  | .star _ =>
    plainSpec 1 '*'.toNat 0 (-1) field.padChar left false :: precisionSpecs 2 0 0 field.padChar false field.precision

theorem StringField.parse (hv : 5 ≤ v) (field : StringField) (str : List ℕ) :
    OkIf (field.width.Parsed ∧ field.precision.Parsed) (parseDoprntSpec (v := v) chars field.text)
      (field.specs, (field.args v str).length) := by
  have hend : ∀ c ∈ (field.precisionText ++ ['s'.toNat]).head?, ¬IsDigit c ∧ c ≠ '*'.toNat := fun c hc => by
    unfold IsDigit
    exact (show ∀ c ∈ ['.'.toNat, 's'.toNat], ¬(48 ≤ c ∧ c ≤ 57) ∧ c ≠ '*'.toNat by decide) c
      (field.precisionText_head c hc)
  have hwidth := @parseWidth_text v chars (field.precisionText ++ ['s'.toNat]) 1 field.padChar
    (decide (.leftJustify ∈ field.flags)) hv field.width field.width_digits hend
  have hdone (fuel : ℕ) (s : Parsing) (hfmt : s.fmt = []) :
      parseLoop (v := v) chars field.text fuel s = .ok (s.specs, s.maxArgnum) := by
    cases fuel with
    | zero => rfl
    | succ fuel => rw [parseLoop, if_pos hfmt]
  have hlast (specs : List PrintfSpec) (argnum : ℕ) (minwidth precision : ℤ) (left : Bool) (fuel : ℕ)
      (hspecs : field.specs = specs ++ precisionSpecs argnum minwidth precision field.padChar left field.precision)
      (hargnum : (field.args v str).length = argnum + (field.precision.args v).length) (hparsed : field.width.Parsed) :
      OkIf (field.width.Parsed ∧ field.precision.Parsed)
        ((parseRest (v := v) chars field.text (.plain specs argnum minwidth precision field.padChar left
          (field.precisionText ++ ['s'.toNat]))).bind (parseLoop chars field.text fuel))
        (field.specs, (field.args v str).length) := by
    obtain ⟨s, hfmt, hs, hmax, hrest⟩ :=
      @parseRest_text v chars field.text argnum field.padChar minwidth precision left hv field specs
    rw [hspecs, hargnum, ← hs, ← hmax]
    exact (hrest.bind (hdone fuel s hfmt)).and hparsed
  rw [field.parseDoprntSpec_text, field.parseSpec_text hv, countsText, hwidth]
  have hlength : (field.args v str).length =
      (field.width.args v).length + 1 + (field.precision.args v).length := by
    rw [args, List.length_append, List.length_append, List.length_singleton]
    omega
  cases hw : field.width with
  | none =>
    rw [hw] at hlast hlength
    exact hlast [] 1 (-1) (-1) _ _ (by rw [specs, hw]; rfl) hlength fun _ => trivial
  | digits ds =>
    rw [hw] at hlast hlength
    rw [widthParsed]
    split_ifs with hle
    · exact hlast [] 1 _ (-1) _ _ (by rw [specs, hw]; rfl) hlength fun _ => hle
    · exact .of_neg (fun h => hle (h.1 rfl)) rfl
  | star n =>
    rw [hw] at hlast hlength
    exact hlast _ 2 0 0 _ _ (by rw [specs, hw]; rfl) hlength fun h => by cases h

def StringField.printed (lengths : IcharLengths) (field : StringField) (str : List ℕ) : List ℕ :=
  doprnt1 lengths (plainSpec 0 's'.toNat field.minwidth field.precision.number field.padChar field.leftJustify false) str

theorem StringField.print (hv : 5 ≤ v) (field : StringField) (str : List ℕ) :
    OkIf (field.width.Read ∧ field.precision.Read)
      (emacsDoprnt lengths princ others (field.args v str) field.specs) (field.printed lengths str) := by
  have hfirst (minwidth : ℤ) (hw : field.width.args v = []) (hleft : field.leftJustify = decide (.leftJustify ∈ field.flags))
      (hread : field.width.Read) (hspecs : field.specs = precisionSpecs 1 minwidth (-1) field.padChar
        (decide (.leftJustify ∈ field.flags)) field.precision) (hminwidth : minwidth.toNat = field.minwidth) :
      OkIf (field.width.Read ∧ field.precision.Read)
        (emacsDoprnt lengths princ others (field.args v str) field.specs) (field.printed lengths str) := by
    have hprint := @emacsDoprnt_precision v lengths princ others (field.args v str) 0 field.padChar minwidth (-1)
      (decide (.leftJustify ∈ field.flags)) str hv field.precision (by rw [args, hw]; rfl)
    rw [hspecs, printed, hleft, doprnt1_plain,
      ← show (minwidth - str.length).toNat = (field.minwidth - str.length : ℤ).toNat by omega]
    rw [doprnt1_plain] at hprint
    exact hprint.and hread
  cases hw : field.width with
  | none =>
    rw [hw] at hfirst
    exact hfirst (-1) rfl (by rw [leftJustify, hw, Bool.or_false]) (fun h => by cases h) (by rw [specs, hw])
      (by rw [minwidth, hw]; rfl)
  | digits ds =>
    rw [hw] at hfirst
    exact hfirst (decimalValue ds) rfl (by rw [leftJustify, hw, Bool.or_false]) (fun h => by cases h) (by rw [specs, hw])
      (by rw [minwidth, hw]; rfl)
  | star n =>
    have hargs : field.args v str = .number (LispNumber.canonicalizeBignum n) :: (field.precision.args v ++ [.string str]) := by
      rw [args, hw]
      rfl
    have hspecs : field.specs = plainSpec 1 '*'.toNat 0 (-1) field.padChar (decide (.leftJustify ∈ field.flags)) false ::
        precisionSpecs 2 0 0 field.padChar false field.precision := by rw [specs, hw]
    have hprinted : field.printed lengths str = doprnt1 lengths (plainSpec 0 's'.toNat n.natAbs field.precision.number
        field.padChar (decide (.leftJustify ∈ field.flags) || decide (n < 0)) false) str := by
      rw [printed, leftJustify, minwidth, hw]
    rw [hspecs, hprinted, forward_precision hv (by rw [hargs]; rfl)]
    split_ifs with hrange
    · exact (emacsDoprnt_precision hv field.precision (by rw [hargs]; rfl)).and fun _ => hrange
    · exact .of_neg (fun h => hrange (h.1 rfl)) rfl

theorem fformat_text (hv : 5 ≤ v) (field : StringField) (str : List ℕ) :
    OkIf (field.width.InRange ∧ field.precision.InRange)
      (fformat lengths chars princ others field.text (field.args v str)) (field.printed lengths str) := by
  have hparse := @StringField.parse v chars hv field str
  have hprint := @StringField.print v lengths princ others hv field str
  rw [field.width.inRange_iff, field.precision.inRange_iff, and_and_and_comm]
  by_cases hparsed : field.width.Parsed ∧ field.precision.Parsed
  · have hformat : fformat lengths chars princ others field.text (field.args v str) =
        emacsDoprnt lengths princ others (field.args v str) field.specs := by
      rw [fformat, hparse.ok hparsed]
      exact if_neg (lt_irrefl _)
    rw [hformat]
    exact hprint.and hparsed
  · obtain ⟨e, herror⟩ := hparse.error hparsed
    rw [fformat, herror]
    exact .of_neg (fun h => hparsed h.1) rfl

theorem StringField.prints_printed (field : StringField) (str : List ℕ) :
    field.Prints str (field.printed lengths str) ↔
      ∀ p, field.maxChars = some p → p < str.length → field.minwidth ≤ p := by
  have hshown : (if 0 ≤ field.precision.number then str.take field.precision.number.toNat else str) =
      (field.maxChars.map fun n => str.take n).getD str := by
    rw [maxChars]
    cases field.precision with
    | none => rfl
    | digits ds => exact if_pos (Int.natCast_nonneg _)
    | star n =>
      by_cases hneg : n < 0
      · simp [FieldCount.number, hneg, not_le.mpr hneg]
      · simp [FieldCount.number, hneg, not_lt.mp hneg]
  have hfill (shown : List ℕ) (m n : ℕ) :
      ((if field.leftJustify then shown ++ List.replicate m field.padChar else List.replicate m field.padChar ++ shown) =
        if field.leftJustify then shown ++ List.replicate n field.padChar else List.replicate n field.padChar ++ shown) ↔
        m = n := by
    split_ifs
    · rw [List.append_cancel_left_eq, List.replicate_inj]
      simp
    · rw [List.append_cancel_right_eq, List.replicate_inj]
      simp
  rw [Prints, printed, doprnt1_plain]
  simp only [hshown]
  rw [hfill]
  cases field.maxChars with
  | none => simp
  | some p =>
    rw [Option.map_some, Option.getD_some, List.length_take]
    refine ⟨fun h q hq hlt => ?_, fun h => ?_⟩
    · obtain rfl := Option.some.inj hq
      omega
    · have hp := h p rfl
      omega

/-- A string field is truncated and then padded exactly if its numbers are in range and a string that is truncated
needs no padding. -/
theorem StringField.truncates_and_pads (hv : 5 ≤ v) (lengths : IcharLengths) (chars : StandardSyntax)
    (princ : FormatArg v → List ℕ) (others : PrintfSpec → Option (FormatArg v) → Except (FormatError v) (List ℕ))
    (field : StringField) (str : List ℕ) :
    (∃ out, fformat lengths chars princ others field.text (field.args v str) = .ok out ∧ field.Prints str out) ↔
      field.width.InRange ∧ field.precision.InRange ∧
        ∀ p, field.maxChars = some p → p < str.length → field.minwidth ≤ p := by
  have hformat := @fformat_text v chars lengths princ others hv field str
  by_cases hrange : field.width.InRange ∧ field.precision.InRange
  · rw [hformat.ok hrange]
    constructor
    · rintro ⟨out, hout, hprints⟩
      rw [← Except.ok.inj hout] at hprints
      exact ⟨hrange.1, hrange.2, (field.prints_printed str).mp hprints⟩
    · intro h
      exact ⟨_, rfl, (field.prints_printed str).mpr h.2.2⟩
  · obtain ⟨e, he⟩ := hformat.error hrange
    rw [he]
    constructor
    · rintro ⟨out, hout, -⟩
      cases hout
    · intro h
      exact absurd ⟨h.1, h.2.1⟩ hrange

end Formatting

/-! ### `%-7.3s` and `%8.2s` -/

/-- A field whose flags are `-` or none, and whose width and precision are digits. -/
def digitsField (left : Bool) (width precision : ℕ) (hwidth : width < 9) (hprecision : precision < 10) : StringField where
  flags := if left then [.leftJustify] else []
  width := .digits [49 + width]
  precision := .digits [48 + precision]
  width_digits ds h := by
    obtain rfl := FieldCount.digits.inj h
    refine ⟨?_, fun c hc => ?_⟩
    · rw [startsNumber, Bool.and_eq_true, decide_eq_true_eq, decide_eq_true_eq]
      exact ⟨show 48 < 49 + width by omega, show 49 + width ≤ 57 by omega⟩
    · rw [List.mem_singleton.mp hc, IsDigit]
      omega
  precision_digits ds h := by
    obtain rfl := FieldCount.digits.inj h
    refine ⟨List.cons_ne_nil _ _, fun c hc => ?_⟩
    rw [List.mem_singleton.mp hc, IsDigit]
    omega

def fourByteLengths : IcharLengths where
  icharLen c := if c < 0x80 then 1 else 4
  maxIcharLen := 4
  one_le c := by split_ifs <;> decide
  le_max c := by split_ifs <;> decide

theorem StringField.truncates_and_pads_threeChars : ∃ out, fformat fourByteLengths spaces (fun _ : FormatArg 63 => [])
    (fun _ _ => .ok []) (digitsField true 6 3 (by decide) (by decide)).text
      ((digitsField true 6 3 (by decide) (by decide)).args 63 [97, 0x3042, 98]) = .ok out ∧
        (digitsField true 6 3 (by decide) (by decide)).Prints [97, 0x3042, 98] out :=
  (StringField.truncates_and_pads (by decide) _ _ _ _ _ _).mpr
    ⟨by show 7 ≤ 65535; decide, by show 3 ≤ 65535; decide, fun p hp hlt => by
      obtain rfl := Option.some.inj hp
      exact absurd hlt (by decide)⟩

/-- `%8.2s` prints `abcdef` as four characters, where eight are due. -/
theorem StringField.truncated_shortPadding :
    fformat fourByteLengths spaces (fun _ : FormatArg 63 => []) (fun _ _ => .ok []) ("%8.2s".toList.map Char.toNat)
      [.string ("abcdef".toList.map Char.toNat)] = .ok ("  ab".toList.map Char.toNat) ∧
      ¬(digitsField false 7 2 (by decide) (by decide)).Prints ("abcdef".toList.map Char.toNat)
        ("  ab".toList.map Char.toNat) := by
  have hformat := (@fformat_text 63 spaces fourByteLengths (fun _ => []) (fun _ _ => .ok []) (by decide)
    (digitsField false 7 2 (by decide) (by decide)) ("abcdef".toList.map Char.toNat)).ok
    ⟨by show 8 ≤ 65535; decide, by show 2 ≤ 65535; decide⟩
  exact ⟨hformat, by unfold StringField.Prints; decide⟩

end XEmacs.Format
