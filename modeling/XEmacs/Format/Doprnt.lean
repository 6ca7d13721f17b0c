import XEmacs.Number.ParseInteger

/-! `format` (doprnt.c): a format string is parsed into specs, which are printed one after the other. A text is
the list of its characters; of their bytes only the number is kept. Errors are signalled at once, as with
`ERROR_ME`. Left out are extents, the warning about arguments too many, the arguments of C callers, and the
converters that print numbers and characters. -/

namespace XEmacs.Format

open Number Table

variable {v : ℕ}

/-- `ichar_len`, and `MAX_ICHAR_LEN`. -/
structure IcharLengths where
  icharLen : ℕ → ℕ
  maxIcharLen : ℕ
  one_le : ∀ c, 1 ≤ icharLen c
  le_max : ∀ c, icharLen c ≤ maxIcharLen

/-- A Lisp object to be printed. -/
inductive FormatArg (v : ℕ) where
  | string (text : List ℕ)
  | number (n : LispNumber v)
  | other (address : ℕ)
  deriving DecidableEq

inductive FormatError (v : ℕ) where
  /-- With the format string. -/
  | prematureEnd (format : List ℕ)
  | notAscii (c : ℕ)
  | invalidConverter
  | argsOutOfRange (value : LispNumber v) (low high : ℤ)
  | notInteger (arg : FormatArg v)
  | wrongNumberOfArguments (nargs : ℕ) (format : List ℕ)
  deriving DecidableEq

inductive SignFlag where
  | nothing
  | padchar
  | plus
  | minus
  deriving DecidableEq

/-- `precision_details`, without those for floats, which are not printed here. -/
inductive PrecisionDetails where
  | maxCharacters
  | minTotalDigits
  deriving DecidableEq

inductive NumberFlag where
  | nothing
  | lispSyntax
  | cSyntax
  | masochism
  deriving DecidableEq

inductive HlFlag where
  | nothing
  | hh
  | h
  | l
  | ll
  | z
  deriving DecidableEq

/-- `printf_spec`, with the literal text before it itself; the converter of the text at the end is 0. -/
structure PrintfSpec where
  textBefore : List ℕ
  argnum : ℕ
  minwidth : ℤ
  precision : ℤ
  padChar : ℕ
  converter : ℕ
  hlFlag : HlFlag
  numberFlag : NumberFlag
  signFlag : SignFlag
  precisionDetails : PrecisionDetails
  leftJustify : Bool
  zeroFlag : Bool
  unsignedFlag : Bool
  forwardingPrecisionp : Bool
  deriving DecidableEq

def PrintfSpec.zero (padChar argnum : ℕ) : PrintfSpec where
  textBefore := []
  argnum := argnum
  minwidth := 0
  precision := 0
  padChar := padChar
  converter := 0
  hlFlag := .nothing
  numberFlag := .nothing
  signFlag := .nothing
  precisionDetails := .maxCharacters
  leftJustify := false
  zeroFlag := false
  unsignedFlag := false
  forwardingPrecisionp := false

/-- `Vdigit_fixnum_ascii`, as it is set up with `put_char_table`. -/
def vdigitFixnumAscii : CharTable where
  table := .subtab fun i =>
    if 48 ≤ i.val ∧ i.val ≤ 57 then .val (some (.fixnum (i.val - 48)))
    else if 97 ≤ i.val ∧ i.val ≤ 122 then .val (some (.fixnum (i.val - 87)))
    else if 65 ≤ i.val ∧ i.val ≤ 90 then .val (some (.fixnum (i.val - 55)))
    else .val none
  levels := 1
  default_ := .fixnum (-1)
  type := .generic

section Parsing

variable (chars : StandardSyntax) (format : List ℕ)

/-- `parse_integer` as it is called here, in base 10 with junk allowed, and the text it leaves. -/
def parseDecimal (fmt : List ℕ) : Option (LispNumber v) × List ℕ :=
  match parseInteger chars (10 : EmacsInt v) true vdigitFixnumAscii fmt with
  | .ok (n, stop) => (n, fmt.drop stop)
  | .error _ => (none, fmt)

def startsNumber : List ℕ → Bool
  | [] => false
  | cch :: _ => '0'.toNat < cch && cch ≤ '9'.toNat

def nextAscbyte : List ℕ → Except (FormatError v) (ℕ × List ℕ)
  | [] => .error (.prematureEnd format)
  | ch :: fmt => if ch < 0x80 then .ok (ch, fmt) else .error (.notAscii ch)

def resolveFlagConflicts (spec : PrintfSpec) : PrintfSpec :=
  let spec :=
    if spec.numberFlag = .lispSyntax ∧ spec.signFlag = .padchar then { spec with signFlag := .nothing } else spec
  if spec.zeroFlag ∧ spec.signFlag = .padchar then { spec with zeroFlag := false } else spec

/-- The repositioning specifier: the number of the argument, and the rest of the format. -/
def parseRepositioning (v : ℕ) (prevArgnum : ℕ) (fmt : List ℕ) : ℕ × List ℕ :=
  if startsNumber fmt then
    match parseDecimal (v := v) chars fmt with
    | (some (.fixnum posnum), dollar :: fmt1) =>
      if 0 < posnum.toInt ∧ dollar = '$'.toNat then (posnum.toInt.toNat, fmt1) else (prevArgnum + 1, fmt)
    | _ => (prevArgnum + 1, fmt)
  else (prevArgnum + 1, fmt)

/-- What a flag character other than `!` does; none is no flag. -/
def setFlag (ch : ℕ) (spec : PrintfSpec) : Option PrintfSpec :=
  if ch = '-'.toNat then some { spec with leftJustify := true }
  else if ch = '+'.toNat then some { spec with signFlag := .plus }
  else if ch = ' '.toNat then
    some (if spec.signFlag ≠ .plus then { spec with signFlag := .padchar } else spec)
  else if ch = '#'.toNat then
    some (if spec.numberFlag ≠ .masochism then { spec with numberFlag := .cSyntax } else spec)
  else if ch = '&'.toNat then some { spec with numberFlag := .lispSyntax }
  else if ch = '~'.toNat then
    some (if spec.numberFlag ≠ .lispSyntax then { spec with numberFlag := .masochism } else spec)
  else if ch = '0'.toNat then some { spec with zeroFlag := true }
  else none

def parseFlags (spec : PrintfSpec) : List ℕ → Except (FormatError v) (PrintfSpec × List ℕ)
  | [] => .error (.prematureEnd format)
  | ch :: fmt =>
    if ch < 0x80 then
      if ch = '!'.toNat then
        match fmt with
        | [] => .error (.prematureEnd format)
        | pad :: fmt => parseFlags { spec with padChar := pad } fmt
      else
        match setFlag ch spec with
        | some spec => parseFlags spec fmt
        | none => .ok (spec, ch :: fmt)
    else .error (.notAscii ch)

/-- The specs so far, the one that is parsed, the numbers of arguments, and the rest of the format. -/
structure Parsing where
  specs : List PrintfSpec
  spec : PrintfSpec
  prevArgnum : ℕ
  maxArgnum : ℕ
  fmt : List ℕ
  deriving DecidableEq

/-- A `*`: the spec so far takes an argument, and the next one goes on with its pad character. -/
def Parsing.star (s : Parsing) (forwardingPrecisionp : Bool) (fmt : List ℕ) : Parsing where
  specs := s.specs ++ [resolveFlagConflicts
    { s.spec with converter := '*'.toNat, forwardingPrecisionp := forwardingPrecisionp }]
  spec := .zero s.spec.padChar (s.prevArgnum + 1)
  prevArgnum := s.prevArgnum + 1
  maxArgnum := max s.maxArgnum (s.prevArgnum + 1)
  fmt := fmt

def checkRange (low high : ℤ) (n : LispNumber v) : Except (FormatError v) ℤ :=
  if low ≤ n.value ∧ n.value ≤ high then .ok n.value.num else .error (.argsOutOfRange n low high)

def parseWidth (s : Parsing) : Except (FormatError v) Parsing :=
  match s.fmt with
  | [] => .ok { s with spec.minwidth := -1 }
  | ch :: fmt =>
    if ch = '*'.toNat then .ok (s.star false fmt)
    else if startsNumber (ch :: fmt) then
      match parseDecimal chars (ch :: fmt) with
      | (none, fmt) => .ok { s with spec.minwidth := -1, fmt := fmt }
      | (some mwidth, fmt) => do
        let minwidth ← checkRange 0 65535 mwidth
        return { s with spec.minwidth := minwidth, fmt := fmt }
    else .ok { s with spec.minwidth := -1 }

def parsePrecision (s : Parsing) : Except (FormatError v) Parsing :=
  if s.fmt.head? = some '*'.toNat then .ok (s.star true s.fmt.tail)
  else
    match parseDecimal chars s.fmt with
    | (none, fmt) => .ok { s with spec.precision := 0, fmt := fmt }
    | (some precis, fmt) => do
      let precision ← checkRange (-65535) 65535 precis
      return { s with spec.precision := max precision (-1), fmt := fmt }

/-- The precision, if there is one, and the character after it. -/
def parseDot (s : Parsing) : Except (FormatError v) (ℕ × Parsing) := do
  let (ch, fmt) ← nextAscbyte format s.fmt
  if ch = '.'.toNat then
    let s ← parsePrecision chars { s with fmt := fmt }
    let (ch, fmt) ← nextAscbyte format s.fmt
    return (ch, { s with fmt := fmt })
  else return (ch, { s with spec.precision := -1, fmt := fmt })

/-- The `h`, `l` and `z` flags. -/
def parseHlFlag (ch : ℕ) (s : Parsing) : Except (FormatError v) (ℕ × Parsing) :=
  if ch = 'h'.toNat then do
    let (ch, fmt) ← nextAscbyte format s.fmt
    if ch = 'h'.toNat then
      let (ch, fmt) ← nextAscbyte format fmt
      return (ch, { s with spec.hlFlag := .hh, fmt := fmt })
    else return (ch, { s with spec.hlFlag := .h, fmt := fmt })
  else if ch = 'l'.toNat then do
    let (ch, fmt) ← nextAscbyte format s.fmt
    if ch = 'l'.toNat then
      let (ch, fmt) ← nextAscbyte format fmt
      return (ch, { s with spec.hlFlag := .ll, fmt := fmt })
    else return (ch, { s with spec.hlFlag := .l, fmt := fmt })
  else if ch = 'z'.toNat then do
    let (ch, fmt) ← nextAscbyte format s.fmt
    return (ch, { s with spec.hlFlag := .z, fmt := fmt })
  else .ok (ch, s)

def intConverters : List ℕ := ['d', 'i', 'c', 'o', 'x', 'X', 'b', 'p'].map Char.toNat

/-- The `u` modifier; without an integer converter after it, it is `ud`. -/
def parseUnsigned (ch : ℕ) (s : Parsing) : Except (FormatError v) (ℕ × Parsing) :=
  if ch = 'u'.toNat then
    let s := { s with spec.unsignedFlag := true }
    if s.fmt = [] then .ok ('d'.toNat, s)
    else do
      let (ch, fmt) ← nextAscbyte format s.fmt
      if ch ∈ intConverters ∨ ch = 0 then return (ch, { s with fmt := fmt }) else return ('d'.toNat, s)
  else .ok (ch, s)

/-- One spec after its percent sign, which is not followed by another. -/
def parseSpec (s : Parsing) : Except (FormatError v) Parsing := do
  let (argnum, fmt) := parseRepositioning chars v s.prevArgnum s.fmt
  let (spec, fmt) ← parseFlags format { s.spec with argnum := argnum } fmt
  let s ← parseWidth chars
    { s with spec := spec, prevArgnum := argnum, maxArgnum := max s.maxArgnum argnum, fmt := fmt }
  let (ch, s) ← parseDot chars format s
  let (ch, s) ← parseHlFlag format ch s
  let (ch, s) ← parseUnsigned format ch s
  if ch = 0 then .error .invalidConverter
  else return { s with specs := s.specs ++ [resolveFlagConflicts { s.spec with converter := ch }] }

/-- The loop of `parse_doprnt_spec`; each turn takes at least one character. -/
def parseLoop : ℕ → Parsing → Except (FormatError v) (List PrintfSpec × ℕ)
  | 0, s => .ok (s.specs, s.maxArgnum)
  | fuel + 1, s =>
    if s.fmt = [] then .ok (s.specs, s.maxArgnum)
    else
      let spec := { PrintfSpec.zero ' '.toNat 0 with
        textBefore := s.fmt.takeWhile (· ≠ '%'.toNat), precision := -1 }
      match s.fmt.dropWhile (· ≠ '%'.toNat) with
      | [] => parseLoop fuel { s with specs := s.specs ++ [spec], fmt := [] }
      | _ :: fmt =>
        if fmt.head? = some '%'.toNat then
          parseLoop fuel { s with specs := s.specs ++ [{ spec with converter := '%'.toNat }], fmt := fmt.tail }
        else do parseLoop fuel (← parseSpec chars format { s with spec := spec, fmt := fmt })

/-- `parse_doprnt_spec`: the specs, and the number of arguments that are needed. -/
def parseDoprntSpec : Except (FormatError v) (List PrintfSpec × ℕ) :=
  parseLoop chars format format.length ⟨[], .zero ' '.toNat 0, 0, 0, format⟩

end Parsing

section Printing

variable (lengths : IcharLengths)

def textLength (str : List ℕ) : ℕ := (str.map lengths.icharLen).sum

def handleSignFlag (spec : PrintfSpec) : List ℕ :=
  match spec.signFlag with
  | .padchar => [spec.padChar]
  | .plus => ['+'.toNat]
  | .minus => ['-'.toNat]
  | .nothing => []

def handleSignAndNumber (spec : PrintfSpec) : List ℕ :=
  match spec.numberFlag with
  | .nothing => handleSignFlag spec
  | .cSyntax => handleSignFlag spec ++ ['0'.toNat, spec.converter]
  | .lispSyntax => ['#'.toNat, spec.converter] ++ handleSignFlag spec
  | .masochism => ['0'.toNat, spec.converter] ++ handleSignFlag spec

/-- The computation of `doprnt_1` from the number of characters: the zeros and the padding to add,
and the text. -/
def measure (spec : PrintfSpec) (str : List ℕ) : ℤ × ℤ × List ℕ :=
  let len : ℤ := textLength lengths str
  let maxlen := if spec.precisionDetails = .maxCharacters then spec.precision else -1
  let insertZerosUntil := if spec.precisionDetails = .minTotalDigits then spec.precision else -1
  if spec.minwidth ≠ 0 ∧ spec.minwidth ≥ len / lengths.maxIcharLen ∨
      insertZerosUntil > -1 ∧ insertZerosUntil ≥ len / lengths.maxIcharLen ∨ 0 ≤ maxlen ∧ maxlen < len then
    let zerosToAdd := max (insertZerosUntil - str.length) 0
    let cclen : ℤ := str.length + (if spec.signFlag ≠ .nothing then 1 else 0) +
      (if spec.numberFlag ≠ .nothing then 1 else 0) * 2
    let maxlen' := min maxlen cclen
    (zerosToAdd, spec.minwidth - (cclen + zerosToAdd),
      if maxlen ≥ 0 ∧ maxlen' ≠ cclen then str.take maxlen'.toNat else str)
  else (-1, -1, str)

/-- `doprnt_1` on a text, with a spec. -/
def doprnt1 (spec : PrintfSpec) (str : List ℕ) : List ℕ :=
  let (zerosToAdd, paddingToAdd, str) := measure lengths spec str
  let fill := List.replicate paddingToAdd.toNat
  let zeros := List.replicate zerosToAdd.toNat '0'.toNat
  if spec.leftJustify then
    handleSignAndNumber spec ++ zeros ++ str ++ fill (if spec.zeroFlag then '0'.toNat else spec.padChar)
  else if spec.zeroFlag then handleSignAndNumber spec ++ fill '0'.toNat ++ zeros ++ str
  else fill spec.padChar ++ handleSignAndNumber spec ++ zeros ++ str

/-- What a `*` does to the next spec. -/
def forward (spec next : PrintfSpec) (n : ℤ) : PrintfSpec :=
  let (spec, next) :=
    if spec.forwardingPrecisionp then (spec, { next with precision := n, minwidth := spec.minwidth })
    else if n < 0 then
      ({ spec with leftJustify := true, zeroFlag := false }, { next with minwidth := -n })
    else (spec, { next with minwidth := n })
  { next with
    leftJustify := spec.leftJustify, signFlag := spec.signFlag, numberFlag := spec.numberFlag,
    zeroFlag := spec.zeroFlag }

/-- `check_integer_range` on the argument of a `*`. -/
def checkStar : Option (FormatArg v) → Except (FormatError v) ℤ
  | some (.number n) => if n.integerp then checkRange (-65535) 65535 n else .error (.notInteger (.number n))
  | some arg => .error (.notInteger arg)
  | none => .error .invalidConverter

/-- The loop of `emacs_doprnt`. The name of a symbol and what `princ` prints are given, and so is what the
converters print that are left out. -/
def emacsDoprnt (princ : FormatArg v → List ℕ)
    (others : PrintfSpec → Option (FormatArg v) → Except (FormatError v) (List ℕ)) (largs : List (FormatArg v)) :
    List PrintfSpec → Except (FormatError v) (List ℕ)
  | [] => .ok []
  | spec :: specs =>
    let obj := if spec.argnum = 0 then none else largs[spec.argnum - 1]?
    if spec.converter = 0 then do return spec.textBefore ++ (← emacsDoprnt princ others largs specs)
    else if spec.converter = '%'.toNat then do
      return spec.textBefore ++ '%'.toNat :: (← emacsDoprnt princ others largs specs)
    else if spec.converter = '*'.toNat then do
      let n ← checkStar obj
      match specs with
      | [] => return spec.textBefore
      | next :: specs => return spec.textBefore ++ (← emacsDoprnt princ others largs (forward spec next n :: specs))
    else if spec.converter = 's'.toNat then do
      let str := match obj with
        | some (.string str) => str
        | some arg => princ arg
        | none => []
      return spec.textBefore ++ doprnt1 lengths spec str ++ (← emacsDoprnt princ others largs specs)
    else do return spec.textBefore ++ (← others spec obj) ++ (← emacsDoprnt princ others largs specs)
termination_by specs => specs.length

def fformat (chars : StandardSyntax) (princ : FormatArg v → List ℕ)
    (others : PrintfSpec → Option (FormatArg v) → Except (FormatError v) (List ℕ)) (format : List ℕ)
    (largs : List (FormatArg v)) : Except (FormatError v) (List ℕ) := do
  let (specs, argsNeeded) ← parseDoprntSpec chars format
  if largs.length < argsNeeded then .error (.wrongNumberOfArguments largs.length format)
  else emacsDoprnt lengths princ others largs specs

end Printing

end XEmacs.Format
