import Mathlib.Tactic.Common
import Mathlib.Data.List.Basic

/-! The conversion of line ends, `convert_eol_decode` and `convert_eol_encode` of file-coding.c.
A text comes in pieces; what the decoder rejects of one is put before the next, and at the end of
the file it gets what it rejected last, alone. Runs without a line end are copied byte by byte. -/

namespace XEmacs.Coding.ConvertEol

/-- `enum eol_type`. -/
inductive EolType
  | autodetect
  | lf
  | cr
  | crlf
  deriving DecidableEq

/-- `'\n'`. -/
def lf : UInt8 := 10

/-- `'\r'`. -/
def cr : UInt8 := 13

/-- The loop that looks for the first line end: its type, and whether the last byte is rejected. -/
def detectLoop (eof : Bool) : List UInt8 → EolType × Bool
  | [] => (.autodetect, false)
  | c :: src =>
    if c = lf then (.lf, false)
    else if c = cr then
      match src.head? with
      | none => if eof then (.cr, false) else (.autodetect, true)
      | some next => (if next = lf then .crlf else .cr, false)
    else detectLoop eof src

def convertLoop (actual : EolType) : List UInt8 → List UInt8 × List UInt8
  | [] => ([], [])
  | c :: src =>
    let r := convertLoop actual src
    if c ≠ cr then (c :: r.1, r.2)
    else if actual = .cr then (lf :: r.1, r.2)
    else
      match src.head? with
      | none => ([], [cr])
      | some next => if next ≠ lf then (cr :: r.1, r.2) else r

/-- `convert_eol_decode`: the type that is known then, what is put out, and what is rejected. -/
def convertEolDecode (eof : Bool) (actual : EolType) (src : List UInt8) : EolType × List UInt8 × List UInt8 :=
  let detected := if actual = .autodetect then detectLoop eof src else (actual, false)
  let n := if detected.2 then src.length - 1 else src.length
  if detected.1 = .lf ∨ detected.1 = .autodetect ∨ eof then (detected.1, src.take n, src.drop n)
  else (detected.1, convertLoop detected.1 (src.take n))

/-- All that is put out for the pieces of a text. -/
def decodeRun (actual : EolType) (rejected : List UInt8) : List (List UInt8) → List UInt8
  | [] => (convertEolDecode true actual rejected).2.1
  | piece :: pieces =>
    let r := convertEolDecode false actual (rejected ++ piece)
    r.2.1 ++ decodeRun r.1 r.2.2 pieces

/-- What a byte is encoded as when line ends are not line feeds. -/
def encodeByte (subtype : EolType) (c : UInt8) : List UInt8 :=
  if c = lf then cr :: (if subtype = .crlf then [lf] else []) else [c]

def convertEolEncode (subtype : EolType) (src : List UInt8) : List UInt8 :=
  if subtype = .lf then src else src.flatMap (encodeByte subtype)

def crlfToLf : List UInt8 → List UInt8
  | [] => []
  | c :: text => if c = cr ∧ text.head? = some lf then crlfToLf text else c :: crlfToLf text

/-- The text with the line ends of a type converted. -/
def converted (text : List UInt8) : EolType → List UInt8
  | .crlf => crlfToLf text
  | .cr => text.map fun c => if c = cr then lf else c
  | .lf => text
  | .autodetect => text

/-- The type of the first line end, where a CR that is the last byte has a type of its own. -/
def firstEol (final : Option EolType) : List UInt8 → Option EolType
  | [] => none
  | c :: text =>
    if c = lf then some .lf
    else if c = cr then text.head?.elim final fun next => some (if next = lf then .crlf else .cr)
    else firstEol final text

def decoded (subtype : EolType) (text : List UInt8) : List UInt8 :=
  converted text (if subtype = .autodetect then (firstEol (some .cr) text).getD .lf else subtype)

/-- However the text is cut, it is decoded, and a text without CR is got back from its encoding. -/
def DecodesRight (subtype : EolType) (text : List UInt8) : Prop :=
  (∀ pieces, pieces.flatten = text → decodeRun subtype [] pieces = decoded subtype text) ∧
    (cr ∉ text → ∀ pieces, pieces.flatten = convertEolEncode subtype text → decodeRun subtype [] pieces = text)

def Clean (text : List UInt8) : Prop := ∀ c ∈ text, c ≠ lf ∧ c ≠ cr

def EndsOnlyLast (text : List UInt8) : Prop := ∃ w c, text = w ++ [c] ∧ Clean w ∧ (c = lf ∨ c = cr)

variable {text src w more : List UInt8} {c : UInt8} {final : Option EolType}

theorem clean_cons : Clean (c :: w) ↔ (c ≠ lf ∧ c ≠ cr) ∧ Clean w := List.forall_mem_cons

theorem clean_nil : Clean [] := fun _ h => absurd h List.not_mem_nil

/-! ### Pieces -/

theorem crlfToLf_append (h : Clean w) : crlfToLf (w ++ more) = w ++ crlfToLf more := by
  induction w with
  | nil => rfl
  | cons c w ih =>
    obtain ⟨hc, hw⟩ := clean_cons.mp h
    rw [List.cons_append, crlfToLf, if_neg fun h => hc.2 h.1, ih hw]
    rfl

theorem converted_append (h : Clean w) (type : EolType) : converted (w ++ more) type = w ++ converted more type := by
  cases type with
  | autodetect => rfl
  | lf => rfl
  | crlf => exact crlfToLf_append h
  | cr =>
    have hw : (w.map fun c => if c = cr then lf else c) = w :=
      (List.map_congr_left fun c hc => if_neg (h c hc).2).trans (List.map_id' w)
    rw [converted, List.map_append, hw]
    rfl

theorem firstEol_append (h : Clean w) : firstEol final (w ++ more) = firstEol final more := by
  induction w with
  | nil => rfl
  | cons c w ih =>
    obtain ⟨hc, hw⟩ := clean_cons.mp h
    rw [List.cons_append, firstEol, if_neg hc.1, if_neg hc.2, ih hw]

theorem convertLoop_cr (src : List UInt8) : convertLoop .cr src = (converted src .cr, []) := by
  induction src with
  | nil => rfl
  | cons c src ih =>
    rw [convertLoop, ih]
    by_cases hc : c = cr <;> simp [hc, converted]

theorem convertLoop_crlf (src : List UInt8) :
    ((convertLoop .crlf src).2 = [] ∨ (convertLoop .crlf src).2 = [cr]) ∧
      ∀ more, (convertLoop .crlf src).1 ++ crlfToLf ((convertLoop .crlf src).2 ++ more) = crlfToLf (src ++ more) := by
  induction src with
  | nil => exact ⟨.inl rfl, fun _ => rfl⟩
  | cons c src ih =>
    rw [convertLoop]
    by_cases hc : c = cr
    · cases src with
      | nil =>
        rw [hc]
        exact ⟨.inr rfl, fun _ => rfl⟩
      | cons next src =>
        by_cases hnext : next = lf
        · simp only [hc, hnext, crlfToLf, List.cons_append, List.head?_cons] at ih ⊢
          simpa using ih
        · simp only [hc, crlfToLf, List.cons_append, List.head?_cons] at ih ⊢
          simpa [hnext] using ih
    · simp only [if_pos hc, List.cons_append, crlfToLf, hc, false_and, if_false]
      exact ⟨ih.1, fun more => congrArg (c :: ·) (ih.2 more)⟩

theorem convertEolDecode_clean (h : detectLoop false src = (.autodetect, false)) :
    convertEolDecode false .autodetect src = (.autodetect, src, []) := by
  simp [convertEolDecode, h]

theorem convertEolDecode_known {actual : EolType} (detected : EolType) (h : actual ≠ .autodetect)
    (hdetected : (if detected = .autodetect then detectLoop false src else (detected, false)) = (actual, false)) :
    convertEolDecode false detected src = (actual, if actual = .lf then (src, []) else convertLoop actual src) := by
  simp only [convertEolDecode, hdetected, h, Bool.false_eq_true, or_false, if_false, List.take_length, List.drop_length]
  split <;> rfl

theorem decodeRun_lf (rejected : List UInt8) (pieces : List (List UInt8)) :
    decodeRun .lf rejected pieces = rejected ++ pieces.flatten := by
  induction pieces generalizing rejected with
  | nil => simp [decodeRun, convertEolDecode]
  | cons piece pieces ih =>
    rw [decodeRun, convertEolDecode_known .lf (by decide) rfl, if_pos rfl, ih, List.flatten_cons, List.append_assoc]
    rfl

def Rejected (rejected : List UInt8) : Prop := rejected = [] ∨ rejected = [cr]

theorem decodeRun_crlf {rejected : List UInt8} (h : Rejected rejected) (pieces : List (List UInt8)) :
    decodeRun .crlf rejected pieces = crlfToLf (rejected ++ pieces.flatten) := by
  induction pieces generalizing rejected with
  | nil => rcases h with rfl | rfl <;> rfl
  | cons piece pieces ih =>
    obtain ⟨hrejected, hout⟩ := convertLoop_crlf (rejected ++ piece)
    rw [decodeRun, convertEolDecode_known .crlf (by decide) rfl, if_neg (by decide)]
    simp only
    rw [ih hrejected, hout, List.flatten_cons, List.append_assoc]

theorem decodeRun_cr (pieces : List (List UInt8)) : decodeRun .cr [] pieces = converted pieces.flatten .cr := by
  induction pieces with
  | nil => rfl
  | cons piece pieces ih =>
    rw [decodeRun, convertEolDecode_known .cr (by decide) rfl, if_neg (by decide), List.nil_append, convertLoop_cr, ih,
      List.flatten_cons, converted, converted, converted, List.map_append]

theorem decodeRun_known {actual : EolType} (h : actual ≠ .autodetect) (pieces : List (List UInt8)) :
    (if actual = .lf then (src, []) else convertLoop actual src).1 ++
      decodeRun actual (if actual = .lf then (src, []) else convertLoop actual src).2 pieces =
        converted (src ++ pieces.flatten) actual := by
  cases actual with
  | autodetect => exact absurd rfl h
  | lf => rw [if_pos rfl, decodeRun_lf]; rfl
  | cr => rw [if_neg (by decide), convertLoop_cr, decodeRun_cr, converted, converted, converted, List.map_append]
  | crlf => rw [if_neg (by decide), decodeRun_crlf (convertLoop_crlf src).1, (convertLoop_crlf src).2]; rfl

theorem detectLoop_cases (src : List UInt8) :
    Clean src ∧ detectLoop false src = (.autodetect, false) ∨
      (∃ w, Clean w ∧ src = w ++ [cr] ∧ detectLoop false src = (.autodetect, true)) ∨
      ∃ actual, actual ≠ .autodetect ∧ detectLoop false src = (actual, false) ∧
        ∀ more, firstEol none (src ++ more) = some actual := by
  induction src with
  | nil => exact .inl ⟨clean_nil, rfl⟩
  | cons c src ih =>
    simp only [detectLoop, List.cons_append, firstEol]
    by_cases hlf : c = lf
    · exact .inr (.inr ⟨.lf, by decide, by rw [if_pos hlf], fun _ => if_pos hlf⟩)
    · simp only [if_neg hlf]
      by_cases hcr : c = cr
      · simp only [if_pos hcr]
        cases src with
        | nil => exact .inr (.inl ⟨[], clean_nil, hcr ▸ rfl, rfl⟩)
        | cons next src =>
          exact .inr (.inr ⟨if next = lf then .crlf else .cr, by split <;> decide, rfl, fun _ => rfl⟩)
      · simp only [if_neg hcr]
        rcases ih with ⟨hclean, hdetect⟩ | ⟨w, hclean, rfl, hdetect⟩ | ⟨actual, hne, hdetect, heol⟩
        · exact .inl ⟨clean_cons.mpr ⟨⟨hlf, hcr⟩, hclean⟩, hdetect⟩
        · exact .inr (.inl ⟨c :: w, clean_cons.mpr ⟨⟨hlf, hcr⟩, hclean⟩, rfl, hdetect⟩)
        · exact .inr (.inr ⟨actual, hne, hdetect, heol⟩)

theorem decodeRun_autodetect {rejected : List UInt8} (h : Rejected rejected) (pieces : List (List UInt8)) :
    decodeRun .autodetect rejected pieces = converted (rejected ++ pieces.flatten)
      ((firstEol none (rejected ++ pieces.flatten)).getD .lf) := by
  induction pieces generalizing rejected with
  | nil => rcases h with rfl | rfl <;> rfl
  | cons piece pieces ih =>
    rw [List.flatten_cons, ← List.append_assoc, decodeRun]
    rcases detectLoop_cases (rejected ++ piece) with
      ⟨hclean, hdetect⟩ | ⟨w, hclean, hsrc, hdetect⟩ | ⟨actual, hne, hdetect, heol⟩
    · rw [convertEolDecode_clean hdetect, ih (.inl rfl), firstEol_append hclean, converted_append hclean]
      rfl
    · have hdecode : convertEolDecode false .autodetect (w ++ [cr]) = (.autodetect, w, [cr]) := by
        rw [hsrc] at hdetect
        simp [convertEolDecode, hdetect]
      rw [hsrc, hdecode, ih (.inr rfl), List.append_assoc, firstEol_append hclean, converted_append hclean]
    · rw [convertEolDecode_known .autodetect hne hdetect, heol, Option.getD_some]
      exact decodeRun_known hne pieces

/-! ### Exactness -/

theorem decodeRun_eq (subtype : EolType) (pieces : List (List UInt8)) : decodeRun subtype [] pieces =
    converted pieces.flatten (if subtype = .autodetect then (firstEol none pieces.flatten).getD .lf else subtype) := by
  cases subtype with
  | autodetect => exact decodeRun_autodetect (.inl rfl) pieces
  | lf => exact decodeRun_lf [] pieces
  | cr => exact decodeRun_cr pieces
  | crlf => exact decodeRun_crlf (.inl rfl) pieces

theorem firstEol_cases (text : List UInt8) :
    firstEol none text = firstEol (some .cr) text ∨ ∃ w, Clean w ∧ text = w ++ [cr] := by
  induction text with
  | nil => exact .inl rfl
  | cons c text ih =>
    simp only [firstEol]
    by_cases hlf : c = lf
    · simp only [if_pos hlf, true_or]
    · by_cases hcr : c = cr
      · cases text with
        | nil => exact .inr ⟨[], clean_nil, hcr ▸ rfl⟩
        | cons next text =>
          simp only [if_neg hlf, if_pos hcr]
          exact .inl rfl
      · simp only [if_neg hlf, if_neg hcr]
        refine ih.imp_right ?_
        rintro ⟨w, hclean, rfl⟩
        exact ⟨c :: w, clean_cons.mpr ⟨⟨hlf, hcr⟩, hclean⟩, rfl⟩

theorem firstEol_final (h : Clean w) : firstEol final (w ++ [cr]) = final := by
  rw [firstEol_append h]
  rfl

theorem crlfToLf_encode (h : cr ∉ text) : crlfToLf (text.flatMap (encodeByte .crlf)) = text := by
  induction text with
  | nil => rfl
  | cons c text ih =>
    obtain ⟨hc, htext⟩ := not_or.mp fun hmem => h (List.mem_cons.mpr hmem)
    rw [List.flatMap_cons]
    by_cases hlf : c = lf
    · rw [encodeByte, if_pos hlf, if_pos rfl, hlf]
      exact congrArg (lf :: ·) (ih htext)
    · rw [encodeByte, if_neg hlf, List.singleton_append, crlfToLf, if_neg fun h => hc h.1.symm, ih htext]

theorem encode_eq_map {subtype : EolType} (hne : subtype ≠ .crlf) (text : List UInt8) :
    text.flatMap (encodeByte subtype) = text.map fun c => if c = lf then cr else c := by
  induction text with
  | nil => rfl
  | cons c text ih =>
    rw [List.flatMap_cons, List.map_cons, ih, encodeByte, if_neg hne]
    split <;> rfl

theorem converted_encode (h : cr ∉ text) : converted (text.map fun c => if c = lf then cr else c) .cr = text := by
  rw [converted, List.map_map]
  refine (List.map_congr_left fun c hc => ?_).trans (List.map_id text)
  have hcr : c ≠ cr := fun heq => h (heq ▸ hc)
  by_cases hlf : c = lf <;> simp [hlf, hcr]

theorem firstEol_encode (h : cr ∉ text) : Clean text ∨ (∃ w, Clean w ∧ text = w ++ [lf]) ∨
    firstEol none (text.map fun c => if c = lf then cr else c) = some .cr := by
  induction text with
  | nil => exact .inl clean_nil
  | cons c text ih =>
    obtain ⟨hc, htext⟩ := not_or.mp fun hmem => h (List.mem_cons.mpr hmem)
    by_cases hlf : c = lf
    · cases text with
      | nil => exact .inr (.inl ⟨[], clean_nil, hlf ▸ rfl⟩)
      | cons next text =>
        have hnext : (if next = lf then cr else next) ≠ lf := by
          split
          · decide
          · assumption
        refine .inr (.inr ?_)
        rw [List.map_cons, if_pos hlf, List.map_cons, firstEol, if_neg (by decide), if_pos rfl, List.head?_cons,
          Option.elim_some, if_neg hnext]
    · rw [List.map_cons, if_neg hlf, firstEol, if_neg hlf, if_neg (Ne.symm hc)]
      refine (ih htext).imp (fun hclean => clean_cons.mpr ⟨⟨hlf, Ne.symm hc⟩, hclean⟩) (Or.imp_left ?_)
      rintro ⟨w, hclean, rfl⟩
      exact ⟨c :: w, clean_cons.mpr ⟨⟨hlf, Ne.symm hc⟩, hclean⟩, rfl⟩

theorem encode_clean (h : Clean text) : (text.map fun c => if c = lf then cr else c) = text :=
  (List.map_congr_left fun c hc => if_neg (h c hc).1).trans (List.map_id' text)

/-- Line ends are converted as they should be exactly unless the type is to be detected and the only
line end is the last byte. -/
theorem decodesRight_iff (subtype : EolType) (text : List UInt8) :
    DecodesRight subtype text ↔ ¬(subtype = .autodetect ∧ EndsOnlyLast text) := by
  constructor
  · rintro ⟨hdecode, hround⟩ ⟨rfl, w, c, rfl, hclean, rfl | rfl⟩
    · have hmap : (w ++ [lf]).map (fun c => if c = lf then cr else c) = w ++ [cr] := by
        rw [List.map_append, encode_clean hclean]
        rfl
      have hnot : cr ∉ w ++ [lf] := by
        simp only [List.mem_append, List.mem_singleton, not_or]
        exact ⟨fun h => (hclean cr h).2 rfl, by decide⟩
      have hwrong := hround hnot [w ++ [cr]]
        (by rw [convertEolEncode, if_neg (by decide), encode_eq_map (by decide), hmap]; simp)
      rw [decodeRun_eq, if_pos rfl, List.flatten_cons, List.flatten_nil, List.append_nil, firstEol_final hclean] at hwrong
      exact absurd (List.append_cancel_left hwrong) (by decide)
    · have hwrong := hdecode [w ++ [cr]] (by simp)
      rw [decodeRun_eq, decoded, if_pos rfl, if_pos rfl, List.flatten_cons, List.flatten_nil, List.append_nil,
        firstEol_final hclean, firstEol_final hclean, Option.getD_some, Option.getD_none, converted_append hclean,
        converted_append hclean] at hwrong
      exact absurd (List.append_cancel_left hwrong) (by decide)
  · intro hsafe
    constructor
    · rintro pieces rfl
      rw [decodeRun_eq, decoded]
      by_cases hauto : subtype = .autodetect
      · rcases firstEol_cases pieces.flatten with heq | ⟨w, hclean, hfinal⟩
        · rw [heq]
        · exact absurd ⟨hauto, w, cr, hfinal, hclean, .inr rfl⟩ hsafe
      · rw [if_neg hauto, if_neg hauto]
    · intro hnot pieces hpieces
      rw [decodeRun_eq, hpieces, convertEolEncode]
      cases subtype with
      | lf => rfl
      | crlf => exact crlfToLf_encode hnot
      | cr =>
        rw [if_neg (by decide), if_neg (by decide), encode_eq_map (by decide)]
        exact converted_encode hnot
      | autodetect =>
        rw [if_neg (by decide), if_pos rfl, encode_eq_map (by decide)]
        rcases firstEol_encode hnot with hclean | ⟨w, hclean, hfinal⟩ | heq
        · have heol := @firstEol_append _ [] none hclean
          rw [List.append_nil] at heol
          rw [encode_clean hclean, heol]
          rfl
        · exact absurd ⟨rfl, w, lf, hfinal, hclean, .inl rfl⟩ hsafe
        · rw [heq, Option.getD_some]
          exact converted_encode hnot

/-- A CR at the end of the file stays when it is the first line end, and a line feed there becomes a CR. -/
theorem not_decodesRight_final : ¬DecodesRight .autodetect [97, cr] ∧ decodeRun .autodetect [] [[97, cr]] = [97, cr] ∧
    decoded .autodetect [97, cr] = [97, lf] ∧ convertEolEncode .autodetect [97, lf] = [97, cr] := by
  have hrun : decodeRun .autodetect [] [[97, cr]] = [97, cr] := by decide
  refine ⟨fun h => ?_, hrun, by decide, by decide⟩
  have hwrong := h.1 [[97, cr]] rfl
  rw [hrun] at hwrong
  exact absurd hwrong (by decide)

end XEmacs.Coding.ConvertEol
