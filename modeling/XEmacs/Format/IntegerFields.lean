import XEmacs.Format.IntegerText

/-! Integer fields: what `format` prints for `%d`, `%x`, `%X`, `%o` and `%b` with flags, a width and a
precision. Fixnums and bignums are printed by different cases of `emacs_doprnt`. -/

namespace XEmacs.Format

open Number Table

variable {v : ℕ}

/-- A radix table, with the maps that `get_radix_table_fixnum_majuscule_map` and its counterpart give for it. -/
structure RadixCharacters where
  radixTable : CharTable
  majuscule : ℕ → ℕ
  minuscule : ℕ → ℕ
  weight : ∀ d < 16, ∀ c ∈ [majuscule d, minuscule d], fixnumWeight radixTable c = some d ∧ c ≠ minus

/-- `bignum_size_decimal` and its counterparts: room for the digits and two characters more. -/
structure BignumSizes (lengths : IcharLengths) where
  size : ℕ → ℤ → ℕ
  room : ∀ radix n, ((Nat.digits radix n.natAbs).length + 2) * lengths.maxIcharLen ≤ size radix n

/-- `NUMBER_FLAG_C_LIKEP`. -/
def cLikep : NumberFlag → Bool
  | .nothing => false
  | .lispSyntax => false
  | .cSyntax => true
  | .masochism => true

section Conversion

variable (lengths : IcharLengths)

/-- `FIXNUM_SPEC_PREAMBLE_1`, on the spec. -/
def fixnumSpecPreamble (spec : PrintfSpec) : PrintfSpec :=
  if spec.precision > -1 then { spec with precisionDetails := .minTotalDigits, zeroFlag := false }
  else if spec.leftJustify then { spec with zeroFlag := false }
  else spec

/-- What the cases for bignums have in its place. -/
def bignumSpecPreamble (spec : PrintfSpec) : PrintfSpec :=
  if spec.precision > -1 then { spec with precisionDetails := .minTotalDigits, zeroFlag := false } else spec

/-- No prefix for decimal digits. -/
def finishDecimal (spec : PrintfSpec) (text : List ℕ) : List ℕ :=
  doprnt1 lengths { spec with numberFlag := .nothing } text

/-- No prefix for a zero in C syntax. -/
def finishHex (zero : Bool) (spec : PrintfSpec) (text : List ℕ) : List ℕ :=
  doprnt1 lengths (if cLikep spec.numberFlag ∧ zero then { spec with numberFlag := .nothing } else spec) text

/-- In C syntax a `0` may come before the digits. -/
def finishOctal (prefixed : Bool) (spec : PrintfSpec) (text : List ℕ) : List ℕ :=
  if cLikep spec.numberFlag then
    doprnt1 lengths { spec with numberFlag := .nothing } (if prefixed then '0'.toNat :: text else text)
  else doprnt1 lengths spec text

/-- No prefix in C syntax. -/
def finishBinary (spec : PrintfSpec) (text : List ℕ) : List ℕ :=
  doprnt1 lengths (if cLikep spec.numberFlag then { spec with numberFlag := .nothing } else spec) text

variable (maps : RadixCharacters)

/-- `%d` of a fixnum; the minus sign of the text is left out. -/
def decimalFixnum (spec : PrintfSpec) (l : EmacsInt v) : List ℕ :=
  let text := fixnumToStringBase10 maps.majuscule l
  if l.toInt < 0 then finishDecimal lengths { fixnumSpecPreamble spec with signFlag := .minus } text.tail
  else finishDecimal lengths (fixnumSpecPreamble spec) text

/-- The cases for fixnums that are printed with shifts; `finish` is told whether the value is zero. -/
def shiftedFixnum (finish : Bool → PrintfSpec → List ℕ → List ℕ) (table : ℕ → ℕ) (powof2 : ℕ) (spec : PrintfSpec)
    (l : EmacsInt v) : List ℕ :=
  let spec := fixnumSpecPreamble spec
  if l.toInt < 0 then
    finish false { spec with signFlag := .minus } (emacsUintToStringRshift1 table (-l) powof2)
  else finish (l = 0) spec (emacsUintToStringRshift1 table l powof2)

/-- `%d`, `%x`, `%X`, `%o` and `%b` of a fixnum. -/
def printFixnum (spec : PrintfSpec) (l : EmacsInt v) : Option (List ℕ) :=
  match Char.ofNat spec.converter with
  | 'd' | 'i' => some (decimalFixnum lengths maps spec l)
  | 'x' => some (shiftedFixnum (finishHex lengths) maps.minuscule 4 spec l)
  | 'X' => some (shiftedFixnum (finishHex lengths) maps.majuscule 4 spec l)
  | 'o' => some (shiftedFixnum (fun zero => finishOctal lengths !zero) maps.majuscule 3 spec l)
  | 'b' => some (shiftedFixnum (fun _ => finishBinary lengths) maps.majuscule 1 spec l)
  | _ => none

variable (sizes : BignumSizes lengths)

/-- The cases for bignums. None is where the buffer is too small. -/
def bignumCase (finish : Bool → PrintfSpec → List ℕ → List ℕ) (table : ℕ → ℕ) (radix : ℕ) (spec : PrintfSpec)
    (bn : ℤ) : Option (List ℕ) :=
  (bignumToString1 lengths table (sizes.size radix bn) radix bn).map fun text =>
    if bn < 0 then finish false { bignumSpecPreamble spec with signFlag := .minus } text.tail
    else finish (bn = 0) (bignumSpecPreamble spec) text

/-- The cases that `rewrite_rational_spec` names for a bignum: `n`, `y`, `Y`, `P` and `B`. -/
def printBignum (spec : PrintfSpec) (bn : ℤ) : Option (List ℕ) :=
  match Char.ofNat spec.converter with
  | 'd' | 'i' => bignumCase lengths sizes (fun _ => finishDecimal lengths) maps.majuscule 10 spec bn
  | 'x' => bignumCase lengths sizes (finishHex lengths) maps.minuscule 16 spec bn
  | 'X' => bignumCase lengths sizes (finishHex lengths) maps.majuscule 16 spec bn
  | 'o' => bignumCase lengths sizes (finishOctal lengths) maps.majuscule 8 spec bn
  | 'b' => bignumCase lengths sizes (fun _ => finishBinary lengths) maps.majuscule 2 spec bn
  | _ => none

/-- The converters of integers without length modifiers and `u`; what the others print is given. -/
def convertInteger (others : PrintfSpec → Option (FormatArg v) → Except (FormatError v) (List ℕ)) (spec : PrintfSpec)
    (obj : Option (FormatArg v)) : Except (FormatError v) (List ℕ) :=
  let printed :=
    match obj with
    | some (.number (.fixnum val)) => printFixnum lengths maps spec (xrealfixnum val)
    | some (.number (.bignum bn)) => printBignum lengths maps sizes spec bn
    | _ => none
  if spec.hlFlag = .nothing ∧ spec.unsignedFlag = false then (printed.map .ok).getD (others spec obj)
  else others spec obj

end Conversion

inductive IntegerConverter where
  | d
  | x
  | X
  | o
  | b
  deriving DecidableEq

def IntegerConverter.char : IntegerConverter → ℕ
  | d => 'd'.toNat
  | x => 'x'.toNat
  | X => 'X'.toNat
  | o => 'o'.toNat
  | b => 'b'.toNat

def IntegerConverter.radix : IntegerConverter → ℕ
  | d => 10
  | x => 16
  | X => 16
  | o => 8
  | b => 2

def IntegerConverter.table (maps : RadixCharacters) : IntegerConverter → ℕ → ℕ
  | x => maps.minuscule
  | _ => maps.majuscule

/-- A field with some of the flags `-+ 0#`, in any order. -/
structure IntegerField where
  flags : List Char
  flags_mem : ∀ c ∈ flags, c ∈ ['-', '+', ' ', '0', '#']
  width : Option ℕ
  precision : Option ℕ
  converter : IntegerConverter

namespace IntegerField

variable (field : IntegerField) (maps : RadixCharacters) (big : Bool) (n : ℤ)

/-- The spec that is parsed: what the flags set, one after the other, and the numbers. -/
def spec : PrintfSpec :=
  resolveFlagConflicts { field.flags.foldl (fun spec c => (setFlag c.toNat spec).getD spec) (.zero ' '.toNat 1) with
    minwidth := (field.width.map Int.ofNat).getD (-1)
    precision := (field.precision.map Int.ofNat).getD (-1)
    converter := field.converter.char }

/-- Of `+` and a space the first counts. -/
def sign : List ℕ :=
  if n < 0 then ['-'.toNat]
  else if '+' ∈ field.flags then ['+'.toNat]
  else if ' ' ∈ field.flags then [' '.toNat]
  else []

def radixPrefix : List ℕ :=
  if '#' ∈ field.flags ∧ n ≠ 0 ∧ field.converter.radix = 16 then ['0'.toNat, field.converter.char] else []

def digits : List ℕ := numeral (field.converter.table maps) field.converter.radix n.natAbs

/-- The digits, the first of which is a zero in octal with `#`, and the zeros up to the precision. A bignum does
not get that zero. -/
def number : List ℕ :=
  let text := (if '#' ∈ field.flags ∧ n ≠ 0 ∧ field.converter = .o ∧ ¬big then ['0'.toNat] else []) ++ field.digits maps n
  List.replicate (field.precision.getD 0 - text.length) '0'.toNat ++ text

/-- Where zeros are to fill the width; a space that is to come for a sign turns them off. -/
def zeroPads : Bool := '0' ∈ field.flags ∧ ('+' ∈ field.flags ∨ ' ' ∉ field.flags) ∧ field.precision = none

/-- What is printed. Zeros on the right of a bignum fill the width, too. -/
def layout : List ℕ :=
  let start := field.sign n ++ field.radixPrefix n
  let fill := List.replicate (field.width.getD 0 - (start ++ field.number maps big n).length)
  if '-' ∈ field.flags then
    start ++ field.number maps big n ++ fill (if big ∧ field.zeroPads then '0'.toNat else ' '.toNat)
  else if field.zeroPads then start ++ fill '0'.toNat ++ field.number maps big n
  else fill ' '.toNat ++ start ++ field.number maps big n

end IntegerField

section Printing

variable {lengths : IcharLengths}

theorem doprnt1_number {spec : PrintfSpec} (text : List ℕ)
    (hprecision : spec.precisionDetails = .minTotalDigits ∨ spec.precision = -1) : doprnt1 lengths spec text =
      let number := List.replicate (spec.precision.toNat - text.length) '0'.toNat ++ text
      let fill := List.replicate (spec.minwidth.toNat - (handleSignAndNumber spec ++ number).length)
      if spec.leftJustify then
        handleSignAndNumber spec ++ number ++ fill (if spec.zeroFlag then '0'.toNat else spec.padChar)
      else if spec.zeroFlag then handleSignAndNumber spec ++ fill '0'.toNat ++ number
      else fill spec.padChar ++ handleSignAndNumber spec ++ number := by
  have hdiv := @textLength_div_le lengths text
  have hsigns : (text.length : ℤ) + (if spec.signFlag ≠ .nothing then 1 else 0) +
      (if spec.numberFlag ≠ .nothing then 1 else 0) * 2 = text.length + (handleSignAndNumber spec).length := by
    rw [add_assoc]
    unfold handleSignAndNumber handleSignFlag
    cases spec.numberFlag <;> cases spec.signFlag <;> rfl
  have hmeasure : ∃ zeros padding, measure lengths spec text = (zeros, padding, text) ∧
      zeros.toNat = spec.precision.toNat - text.length ∧ padding.toNat =
        spec.minwidth.toNat - ((handleSignAndNumber spec).length + (spec.precision.toNat - text.length + text.length)) := by
    have hmaxlen : (if spec.precisionDetails = .maxCharacters then spec.precision else -1) = -1 := by
      obtain h | h := hprecision
      · rw [h, if_neg (by decide)]
      · rw [h, ite_self]
    obtain ⟨m, hm, htoNat⟩ : ∃ m, (if spec.precisionDetails = .minTotalDigits then spec.precision else -1) = m ∧
        m.toNat = spec.precision.toNat := by
      obtain h | h := hprecision
      · exact ⟨_, if_pos h, rfl⟩
      · exact ⟨_, by rw [h, ite_self], by rw [h]⟩
    unfold measure
    simp only [hmaxlen, hm, hsigns]
    split_ifs with hcount
    all_goals first | exact ⟨_, _, rfl, by omega, by omega⟩ | omega
  obtain ⟨zeros, padding, hmeasure, hzeros, hpadding⟩ := hmeasure
  unfold doprnt1
  simp only [hmeasure, hzeros, hpadding, List.length_append, List.length_replicate, List.append_assoc]

end Printing

def flagged (flags : List Char) : PrintfSpec :=
  { PrintfSpec.zero ' '.toNat 1 with
    leftJustify := '-' ∈ flags
    signFlag := if '+' ∈ flags then .plus else if ' ' ∈ flags then .padchar else .nothing
    numberFlag := if '#' ∈ flags then .cSyntax else .nothing
    zeroFlag := '0' ∈ flags }

theorem setFlag_flagged {c : Char} (hc : c ∈ ['-', '+', ' ', '0', '#']) (flags : List Char) :
    setFlag c.toNat (flagged flags) = some (flagged (flags ++ [c])) := by
  have hmem (d : Char) : d ∈ flags ++ [c] ↔ d ∈ flags ∨ d = c := by
    rw [List.mem_append, List.mem_singleton]
  simp only [List.mem_cons, List.not_mem_nil, or_false] at hc
  rcases hc with rfl | rfl | rfl | rfl | rfl
  · simp [setFlag, flagged, hmem]
  · simp [setFlag, flagged, hmem]
  · by_cases hplus : '+' ∈ flags <;> by_cases hspace : ' ' ∈ flags <;> simp [setFlag, flagged, hmem, hplus, hspace]
  · simp [setFlag, flagged, hmem]
  · by_cases hnumber : '#' ∈ flags <;> simp [setFlag, flagged, hmem, hnumber]

theorem foldl_setFlag {flags : List Char} (hflags : ∀ c ∈ flags, c ∈ ['-', '+', ' ', '0', '#']) :
    flags.foldl (fun spec c => (setFlag c.toNat spec).getD spec) (.zero ' '.toNat 1) = flagged flags := by
  induction flags using List.reverseRecOn with
  | nil => rfl
  | append_singleton flags c ih =>
    rw [List.foldl_append, ih fun d hd => hflags d (List.mem_append_left [c] hd), List.foldl_cons, List.foldl_nil,
      setFlag_flagged (hflags c (List.mem_append_right flags (List.mem_singleton_self c))), Option.getD_some]

namespace IntegerField

variable {lengths : IcharLengths} {n : ℤ}

theorem spec_eq (field : IntegerField) : field.spec = { flagged field.flags with
    minwidth := (field.width.map Int.ofNat).getD (-1)
    precision := (field.precision.map Int.ofNat).getD (-1)
    converter := field.converter.char
    zeroFlag := '0' ∈ field.flags ∧ ('+' ∈ field.flags ∨ ' ' ∉ field.flags) } := by
  have hnumber : ¬((flagged field.flags).numberFlag = .lispSyntax ∧ (flagged field.flags).signFlag = .padchar) := by
    unfold flagged
    rintro ⟨h, -⟩
    split_ifs at h
  unfold spec resolveFlagConflicts
  rw [foldl_setFlag field.flags_mem]
  dsimp only
  rw [if_neg hnumber]
  by_cases hplus : '+' ∈ field.flags
  · simp [flagged, hplus]
  · by_cases hspace : ' ' ∈ field.flags <;> by_cases hzero : '0' ∈ field.flags <;>
      simp [flagged, hplus, hspace, hzero]

def printSpec (field : IntegerField) (big : Bool) (n : ℤ) : PrintfSpec :=
  { field.spec with
    precisionDetails := if field.precision = none then .maxCharacters else .minTotalDigits
    zeroFlag := field.zeroPads && (big || '-' ∉ field.flags)
    signFlag := if n < 0 then .minus else field.spec.signFlag }

theorem fixnumSpecPreamble_spec (field : IntegerField) (n : ℤ) : (if n < 0 then
    { fixnumSpecPreamble field.spec with signFlag := .minus } else fixnumSpecPreamble field.spec) =
      field.printSpec false n := by
  unfold fixnumSpecPreamble printSpec zeroPads
  rw [spec_eq]
  cases field.precision with
  | none =>
    by_cases hleft : '-' ∈ field.flags <;> by_cases hneg : n < 0 <;> simp [flagged, PrintfSpec.zero, hleft, hneg]
  | some p =>
    have hp : (-1 : ℤ) < p := by omega
    by_cases hneg : n < 0 <;> simp [flagged, PrintfSpec.zero, hneg, hp]

theorem bignumSpecPreamble_spec (field : IntegerField) (n : ℤ) : (if n < 0 then
    { bignumSpecPreamble field.spec with signFlag := .minus } else bignumSpecPreamble field.spec) =
      field.printSpec true n := by
  unfold bignumSpecPreamble printSpec zeroPads
  rw [spec_eq]
  cases field.precision with
  | none => by_cases hneg : n < 0 <;> simp [flagged, PrintfSpec.zero, hneg]
  | some p =>
    have hp : (-1 : ℤ) < p := by omega
    by_cases hneg : n < 0 <;> simp [flagged, PrintfSpec.zero, hneg, hp]

def finish (lengths : IcharLengths) (big zero : Bool) : IntegerConverter → PrintfSpec → List ℕ → List ℕ
  | .d => finishDecimal lengths
  | .x | .X => finishHex lengths zero
  | .o => finishOctal lengths (if big then zero else !zero)
  | .b => finishBinary lengths

def prefixSpec (field : IntegerField) (big : Bool) (n : ℤ) : PrintfSpec :=
  { field.printSpec big n with
    numberFlag := if '#' ∈ field.flags ∧ n ≠ 0 ∧ field.converter.radix = 16 then .cSyntax else .nothing }

theorem finish_eq (field : IntegerField) {big : Bool} (hbig : big → n ≠ 0) (text : List ℕ) :
    finish lengths big (n = 0) field.converter (field.printSpec big n) text = doprnt1 lengths (field.prefixSpec big n)
      ((if '#' ∈ field.flags ∧ n ≠ 0 ∧ field.converter = .o ∧ ¬big then ['0'.toNat] else []) ++ text) := by
  have hnumber : (field.printSpec big n).numberFlag = if '#' ∈ field.flags then .cSyntax else .nothing := by
    rw [printSpec, spec_eq]
    rfl
  unfold prefixSpec
  generalize field.printSpec big n = spec at hnumber ⊢
  obtain ⟨_, _, _, _, _, _, _, numberFlag, _, _, _, _, _, _⟩ := spec
  dsimp only at hnumber
  by_cases hzero : n = 0
  · obtain rfl : big = false := Bool.eq_false_iff.mpr fun h => hbig h hzero
    cases field.converter <;> by_cases hflag : '#' ∈ field.flags <;>
      simp [hnumber, finish, finishDecimal, finishHex, finishOctal, finishBinary, cLikep, IntegerConverter.radix, hflag, hzero]
  · cases field.converter <;> by_cases hflag : '#' ∈ field.flags <;> cases big <;>
      simp [hnumber, finish, finishDecimal, finishHex, finishOctal, finishBinary, cLikep, IntegerConverter.radix, hflag, hzero]

theorem handleSignAndNumber_prefixSpec (field : IntegerField) (big : Bool) (n : ℤ) :
    handleSignAndNumber (field.prefixSpec big n) = field.sign n ++ field.radixPrefix n := by
  have hsign : handleSignFlag (field.prefixSpec big n) = field.sign n := by
    unfold handleSignFlag prefixSpec printSpec sign
    rw [spec_eq]
    by_cases hneg : n < 0 <;> by_cases hplus : '+' ∈ field.flags <;> by_cases hspace : ' ' ∈ field.flags <;>
      simp [flagged, PrintfSpec.zero, hneg, hplus, hspace]
  have hconverter : (field.prefixSpec big n).converter = field.converter.char := by
    rw [prefixSpec, printSpec, spec_eq]
  unfold handleSignAndNumber radixPrefix
  rw [hsign, hconverter, prefixSpec]
  dsimp only
  split_ifs with hprefix
  · rfl
  · exact (List.append_nil _).symm

theorem finish_layout (field : IntegerField) (maps : RadixCharacters) {big : Bool} (hbig : big → n ≠ 0) :
    finish lengths big (n = 0) field.converter (field.printSpec big n) (field.digits maps n) =
      field.layout maps big n := by
  have hprecision : (field.prefixSpec big n).precisionDetails = .minTotalDigits ∨
      (field.prefixSpec big n).precision = -1 := by
    rw [prefixSpec, printSpec, spec_eq]
    cases field.precision with
    | none => exact .inr rfl
    | some p => exact .inl rfl
  have htoNat (p : Option ℕ) : ((p.map Int.ofNat).getD (-1)).toNat = p.getD 0 := by cases p <;> rfl
  rw [finish_eq field hbig, doprnt1_number _ hprecision, handleSignAndNumber_prefixSpec]
  unfold layout number
  rw [prefixSpec, printSpec, spec_eq]
  dsimp only [flagged, PrintfSpec.zero]
  rw [htoNat, htoNat]
  by_cases hleft : '-' ∈ field.flags
  · simp [hleft, and_comm]
  · simp [hleft, List.append_assoc]

theorem layout_length (field : IntegerField) (maps : RadixCharacters) (big : Bool) (n : ℤ) :
    (field.layout maps big n).length =
      max (field.width.getD 0) (field.sign n ++ field.radixPrefix n ++ field.number maps big n).length := by
  unfold layout
  dsimp only
  split_ifs <;> simp only [List.length_append, List.length_replicate] <;> omega

theorem printFixnum_spec (hv : v = 31 ∨ v = 63) (field : IntegerField) (maps : RadixCharacters) (val : BitVec v) :
    printFixnum lengths maps field.spec (xrealfixnum val) = some (field.layout maps false val.toInt) := by
  have hconverter : field.spec.converter = field.converter.char := by rw [spec_eq]
  have hzero : decide (xrealfixnum val = 0) = decide (val.toInt = 0) := by
    rw [decide_eq_decide, ← BitVec.toInt_inj, xrealfixnum_toInt]
    simp
  have habs := uval_toNat (show 0 < v by omega) val
  -- Of a negative number the absolute value is printed, with the sign in the spec.
  have hshifted (f : Bool → PrintfSpec → List ℕ → List ℕ) (table : ℕ → ℕ) (powof2 : ℕ) (hpos : 0 < powof2)
      (hlt : powof2 ≤ 4) : shiftedFixnum f table powof2 field.spec (xrealfixnum val) =
        f (val.toInt = 0) (field.printSpec false val.toInt) (numeral table (2 ^ powof2) val.toInt.natAbs) := by
    have hwidth : powof2 < v + 1 := by omega
    rw [shiftedFixnum, ← fixnumSpecPreamble_spec, ← habs, xrealfixnum_toInt, hzero]
    dsimp only
    split_ifs with hneg
    · rw [emacsUintToStringRshift1_eq hpos hwidth, show decide (val.toInt = 0) = false from decide_eq_false (by omega)]
    · rw [emacsUintToStringRshift1_eq hpos hwidth]
  have hdecimal : decimalFixnum lengths maps field.spec (xrealfixnum val) =
      finishDecimal lengths (field.printSpec false val.toInt) (numeral maps.majuscule 10 val.toInt.natAbs) := by
    rw [decimalFixnum, ← fixnumSpecPreamble_spec, xrealfixnum_toInt, fixnumToStringBase10_eq hv]
    dsimp only
    split_ifs <;> rfl
  rw [← finish_layout field maps fun h => absurd h Bool.false_ne_true, digits, printFixnum, hconverter]
  cases field.converter with
  | d => exact congrArg some hdecimal
  | x => exact congrArg some (hshifted _ _ 4 (by decide) (by decide))
  | X => exact congrArg some (hshifted _ _ 4 (by decide) (by decide))
  | o => exact congrArg some (hshifted _ _ 3 (by decide) (by decide))
  | b => exact congrArg some (hshifted _ _ 1 (by decide) (by decide))

theorem printBignum_spec (hminus : lengths.icharLen minus < lengths.maxIcharLen) (sizes : BignumSizes lengths)
    (field : IntegerField) (maps : RadixCharacters) (hzero : n ≠ 0) :
    printBignum lengths maps sizes field.spec n = some (field.layout maps true n) := by
  have hconverter : field.spec.converter = field.converter.char := by rw [spec_eq]
  have hcase (f : Bool → PrintfSpec → List ℕ → List ℕ) (table : ℕ → ℕ) (radix : ℕ) (hradix : 1 < radix) :
      bignumCase lengths sizes f table radix field.spec n =
        some (f (n = 0) (field.printSpec true n) (numeral table radix n.natAbs)) := by
    have hroom := sizes.room radix n
    rw [bignumCase, bignumToString1_of_room hradix (by rw [add_mul] at hroom ⊢; split_ifs <;> omega), Option.map_some,
      ← bignumSpecPreamble_spec, show decide (n = 0) = false from decide_eq_false hzero]
    split_ifs <;> rfl
  rw [← finish_layout field maps fun _ => hzero, digits, printBignum, hconverter]
  cases field.converter with
  | d => exact hcase _ _ 10 (by decide)
  | x => exact hcase _ _ 16 (by decide)
  | X => exact hcase _ _ 16 (by decide)
  | o => exact hcase _ _ 8 (by decide)
  | b => exact hcase _ _ 2 (by decide)

/-- The radix, as `parse_integer` takes it. -/
def base (v : ℕ) (field : IntegerField) : EmacsInt v := BitVec.ofNat _ field.converter.radix

theorem base_spec (hv : v = 31 ∨ v = 63) (field : IntegerField) :
    FixnumBase (field.base v) ∧ (field.base v).toNat = field.converter.radix := by
  unfold base
  obtain rfl | rfl := hv
  · cases field.converter <;> exact ⟨⟨by decide, by decide⟩, by decide⟩
  · cases field.converter <;> exact ⟨⟨by decide, by decide⟩, by decide⟩

theorem radix_bounds (converter : IntegerConverter) : 1 < converter.radix ∧ converter.radix ≤ 16 := by
  cases converter <;> decide

theorem parseInteger_digits (hv : v = 31 ∨ v = 63) (chars : StandardSyntax) (field : IntegerField)
    (maps : RadixCharacters) (n : ℤ) :
    parseInteger chars (field.base v) false maps.radixTable (field.digits maps n) =
      .ok (some (LispNumber.canonicalizeBignum n.natAbs), (field.digits maps n).length) := by
  obtain ⟨hbase, hradix⟩ := field.base_spec hv
  obtain ⟨hone, hle⟩ := radix_bounds field.converter
  have hweight (d : ℕ) (hd : d < field.converter.radix) :
      fixnumWeight maps.radixTable (field.converter.table maps d) = some (d : ℤ) ∧
        field.converter.table maps d ≠ minus := by
    refine maps.weight d (by omega) _ ?_
    cases field.converter <;> simp [IntegerConverter.table]
  have hinverse : Inverse (field.base v) maps.radixTable (field.converter.table maps) := fun d hd => by
    rw [digitWeight, (hweight d (by omega)).1, Option.filter_some, if_pos, Option.map_some, Int.toNat_natCast]
    rw [decide_eq_true_eq, hbase.toInt_eq]
    omega
  rw [digits, ← hradix]
  exact parseInteger_numeral chars hbase (by omega) hinverse (fun d hd => (hweight d (by omega)).2) n.natAbs

end IntegerField

def asciiCharacters : RadixCharacters where
  radixTable := vdigitFixnumAscii
  majuscule d := if d < 10 then 48 + d else 55 + d
  minuscule d := if d < 10 then 48 + d else 87 + d
  weight := by decide +kernel

def exactSizes : BignumSizes fourByteLengths := ⟨fun radix n => ((Nat.digits radix n.natAbs).length + 2) * 4, fun _ _ => le_refl _⟩

/-- `%#+x` of a bignum. -/
def hexField : IntegerField := ⟨['#', '+'], by simp, none, none, .x⟩

end XEmacs.Format
