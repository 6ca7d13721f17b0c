import XEmacs.Number.LispNumber

/-! `string-to-number`. The number is read by the number library into scratch numbers that all the
arithmetic shares; a text that the library does not read leaves them as they were. -/

namespace XEmacs.Number

variable {v : ℕ}

section Bytes

def cString (data : List ℕ) : List ℕ := data.takeWhile (· ≠ 0)

def skipBlanks (p : List ℕ) : List ℕ := p.dropWhile fun c => c = 32 ∨ c = 9

def plus : ℕ := 43

def minus : ℕ := 45

def slash : ℕ := 47

def decimalP (c : ℕ) : Bool := 48 ≤ c ∧ c ≤ 57

def dropPlus : List ℕ → List ℕ
  | [] => []
  | c :: p => if c = plus then p else c :: p

def dropSign : List ℕ → List ℕ
  | [] => []
  | c :: p => if c = plus ∨ c = minus then p else c :: p

/-- The digits that the loops of `Fstring_to_number` go over. All ten decimal ones are among them
in every base. -/
def loopByte (b c : ℕ) : Bool :=
  decimalP c ∨ 10 < b ∧ 97 ≤ c ∧ c ≤ 97 + b - 11 ∨ 10 < b ∧ 65 ≤ c ∧ c ≤ 65 + b - 11

def digitToNumber (character base : ℕ) : Option ℕ :=
  let digit :=
    if 48 ≤ character ∧ character ≤ 57 then some (character - 48)
    else if 97 ≤ character ∧ character ≤ 122 then some (character - 97 + 10)
    else if 65 ≤ character ∧ character ≤ 90 then some (character - 65 + 10)
    else none
  digit.filter (· < base)

def digitP (b c : ℕ) : Bool := (digitToNumber c b).isSome

end Bytes

section Floats

def scanDigits (flag : ℕ) : ℕ × List ℕ → ℕ × List ℕ
  | (state, p) =>
    if (p.head?.any decimalP) then (state ||| flag, p.dropWhile decimalP) else (state, p)

def scanChar (flag : ℕ) (accept : ℕ → Bool) : ℕ × List ℕ → ℕ × List ℕ
  | (state, p) => if p.head?.any accept then (state ||| flag, p.tail) else (state, p)

def leadInt : ℕ := 1
def dotChar : ℕ := 2
def trailInt : ℕ := 4
def eChar : ℕ := 8
def expInt : ℕ := 16

/-- The state of `isfloat_string` and what follows. -/
def isfloatScan (p : List ℕ) : ℕ × List ℕ :=
  let (state, p) := scanDigits trailInt (scanChar dotChar (· = 46) (scanDigits leadInt (0, dropSign p)))
  let (state, p) :=
    if p.head?.any fun c => c = 101 ∨ c = 69 then (state ||| eChar, dropSign p.tail) else (state, p)
  scanDigits expInt (state, p)

def isfloatString (p : List ℕ) : Bool :=
  let (state, rest) := isfloatScan p
  rest.head?.all (fun c => c = 32 ∨ c = 9 ∨ c = 10 ∨ c = 13 ∨ c = 12) &&
    (state = leadInt ||| dotChar ||| trailInt ∨ state = dotChar ||| trailInt ∨
      state = leadInt ||| eChar ||| expInt ∨
      state = leadInt ||| dotChar ||| trailInt ||| eChar ||| expInt ∨
      state = dotChar ||| trailInt ||| eChar ||| expInt)

def floatNumeral (p : List ℕ) : List ℕ := p.take (p.length - (isfloatScan p).2.length)

end Floats

section Texts

/-- A minus sign and digits, up to where `Fstring_to_number` puts its null, and what follows. -/
def integerText (b : ℕ) : List ℕ → List ℕ × List ℕ
  | [] => ([], [])
  | c :: p =>
    if c = minus then (minus :: p.takeWhile (loopByte b), p.dropWhile (loopByte b))
    else ((c :: p).takeWhile (loopByte b), (c :: p).dropWhile (loopByte b))

def ratioText (b : ℕ) (p : List ℕ) : List ℕ :=
  let (text, rest) := integerText b p
  match rest with
  | [] => text
  | c :: rest => if c = slash then text ++ slash :: (integerText b rest).1 else text

end Texts

def digitsValue (b : ℕ) (digits : List ℕ) : ℤ :=
  digits.foldl (fun n c => n * b + (digitToNumber c b).getD 0) 0

/-- An integer numeral as the number library takes it: a minus sign or none, and digits. -/
def readsAs (b : ℕ) (text : List ℕ) : Option ℤ :=
  match text with
  | [] => none
  | c :: digits =>
    if c = minus then
      if digits ≠ [] ∧ digits.all (digitP b) then some (-digitsValue b digits) else none
    else if (c :: digits).all (digitP b) then some (digitsValue b (c :: digits))
    else none

/-- The readers of the number library, on texts without whitespace, and the C library's `atof`.
`F` and `B` are the floats and the bigfloats. -/
structure NumberReaders (F B : Type) where
  /-- What `mpz_set_str` sets its number to, if it does. -/
  bignumSetString : ℕ → List ℕ → Option ℤ
  /-- The numerator and the denominator after `mpq_set_str`. -/
  ratioSetString : ℕ → List ℕ → ℤ × ℤ → ℤ × ℤ
  atof : List ℕ → F
  setPrec : ℕ → B → B
  /-- What `mpf_set_str` sets a number of some precision to, if it does. -/
  bigfloatSetString : ℕ → List ℕ → Option B
  bignum_reads : ∀ b text, (∀ c ∈ text, c = minus ∨ loopByte b c) →
    bignumSetString b text = readsAs b text
  ratio_integer : ∀ b text old, (∀ c ∈ text, c = minus ∨ loopByte b c) → ∀ n,
    readsAs b text = some n → ratioSetString b text old = (n, 1)
  ratio_fraction : ∀ b text text' old, (∀ c ∈ text, c = minus ∨ loopByte b c) →
    (∀ c ∈ text', c = minus ∨ loopByte b c) → ∀ n, readsAs b text = some n →
    ratioSetString b (text ++ slash :: text') old = (n, (readsAs b text').getD old.2)
  ratio_unread : ∀ b text rest old, (∀ c ∈ text, c = minus ∨ loopByte b c) →
    readsAs b text = none → rest.head?.all (· = slash) →
    (ratioSetString b (text ++ rest) old).1 = old.1
  atof_numeral : ∀ p, isfloatString p → atof p = atof (floatNumeral p)
  bigfloat_numeral : ∀ prec p, isfloatString p →
    (bigfloatSetString prec (dropPlus (floatNumeral p))).isSome
  setPrec_apart : ∀ prec, ∃ f g, setPrec prec f ≠ setPrec prec g

variable {F B : Type}

/-- The scratch numbers. -/
structure Scratch (B : Type) where
  bignum : ℤ
  ratio : ℚ
  bigfloat : B

inductive NumberRead (v : ℕ) (F B : Type) where
  | exact (n : LispNumber v)
  | float (f : F)
  | bigfloat (f : B)

inductive ReadFailure (v : ℕ) where
  | lispError (e : LispError v)
  /-- `mpq_canonicalize` divides by zero. -/
  | zeroDenominator

/-- The base that an argument stands for; `none` is `nil`. -/
def checkBase : Option (LispNumber v) → Except (LispError v) ℕ
  | none => .ok 10
  | some base =>
    if !base.integerp then .error (.wrongTypeArgument .integerp (.number base))
    else if 2 ≤ base.value ∧ base.value ≤ 16 then .ok base.value.num.toNat
    else .error (.argsOutOfRange3 base (.fixnum 2) (.fixnum 16))

section Reading

variable (readers : NumberReaders F B)

def readRatio (b : ℕ) (p : List ℕ) (scratch : Scratch B) :
    Except (ReadFailure v) (NumberRead v F B × Scratch B) :=
  let (num, den) :=
    readers.ratioSetString b (ratioText b (dropPlus p)) (scratch.ratio.num, scratch.ratio.den)
  if den = 0 then .error .zeroDenominator
  else
    let ratio : ℚ := num / den
    .ok (.exact (LispNumber.canonicalizeNumber (.ratio ratio)), { scratch with ratio := ratio })

def readInteger (b : ℕ) (p : List ℕ) (scratch : Scratch B) : NumberRead v F B × Scratch B :=
  let text := (integerText b (dropPlus p)).1
  if text = [] then (.exact (.fixnum 0), scratch)
  else
    let bignum := (readers.bignumSetString b text).getD scratch.bignum
    (.exact (LispNumber.canonicalizeNumber (.bignum bignum)), { scratch with bignum := bignum })

/-- `default-float-precision` is `prec`. -/
def readFloat (prec : ℕ) (p : List ℕ) (scratch : Scratch B) : NumberRead v F B × Scratch B :=
  if prec = 0 then (.float (readers.atof p), scratch)
  else
    let bigfloat := (readers.bigfloatSetString prec (dropPlus p)).getD
      (readers.setPrec prec scratch.bigfloat)
    (.bigfloat bigfloat, { scratch with bigfloat := bigfloat })

def fstringToNumber (prec : ℕ) (string : List ℕ) (base : Option (LispNumber v))
    (scratch : Scratch B) : Except (ReadFailure v) (NumberRead v F B × Scratch B) :=
  match checkBase base with
  | .error e => .error (.lispError e)
  | .ok b =>
    let p := skipBlanks (cString string)
    if isfloatString p ∧ b = 10 then .ok (readFloat readers prec p scratch)
    else if slash ∈ p then readRatio readers b p scratch
    else .ok (readInteger readers b p scratch)

end Reading

end XEmacs.Number
