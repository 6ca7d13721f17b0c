import Mathlib.Data.List.Infix
import Mathlib.Tactic.Common

/-! Splitting a string at a character (fns.c). Strings are lists of characters; extents of the
string are left out. With an escape character each substring takes two passes, one that finds
its end and one that drops escapes, and each keeps its own note of an escape before. The first
one keeps the note after an escaped separator, so that it gets wrong what directly follows. -/

namespace XEmacs.Text.SplitString

abbrev Ichar : Type := ℕ

section

variable (sepchar escapechar : Ichar)

/-- The loop that moves `p` to the end of a substring: what `p` has passed, `deleting_escapes`,
and what is left. -/
def findEnd : Bool → List Ichar → List Ichar × ℕ × List Ichar
  | _, [] => ([], 0, [])
  | previousEscaped, pchar :: string =>
    if pchar = sepchar then
      if !previousEscaped then ([], 0, pchar :: string)
      else
        let r := findEnd previousEscaped string
        (pchar :: r.1, r.2)
    else if pchar = escapechar ∧ !previousEscaped then
      let r := findEnd true string
      (pchar :: r.1, r.2.1 + 1, r.2.2)
    else
      let r := findEnd false string
      (pchar :: r.1, r.2)

def copyUnescaped : Bool → List Ichar → List Ichar
  | _, [] => []
  | previousEscaped, pchar :: cursor =>
    let rest := copyUnescaped (!previousEscaped && pchar = escapechar) cursor
    if pchar ≠ escapechar ∨ previousEscaped then pchar :: rest else rest

/-- The string that is made of what lies before `p`. -/
def makeString (substring : List Ichar) (deletingEscapes : ℕ) : List Ichar :=
  if deletingEscapes ≠ 0 then copyUnescaped escapechar false substring else substring

/-- The loop that finds the next separator, without an escape character. -/
def findSeparator : List Ichar → List Ichar × List Ichar
  | [] => ([], [])
  | pchar :: string =>
    if pchar = sepchar then ([], pchar :: string)
    else
      let r := findSeparator string
      (pchar :: r.1, r.2)

theorem findEnd_length (previousEscaped : Bool) (string : List Ichar) :
    (findEnd sepchar escapechar previousEscaped string).2.2.length ≤ string.length := by
  induction string generalizing previousEscaped with
  | nil => exact Nat.le_refl _
  | cons pchar string ih =>
    rw [findEnd]
    split_ifs
    · exact Nat.le_refl _
    all_goals exact Nat.le_succ_of_le (ih _)

theorem findSeparator_length (string : List Ichar) :
    (findSeparator sepchar string).2.length ≤ string.length := by
  induction string with
  | nil => exact Nat.le_refl _
  | cons pchar string ih =>
    rw [findSeparator]
    split_ifs
    · exact Nat.le_refl _
    · exact Nat.le_succ_of_le ih

set_option linter.unusedVariables false in
/-- The outer loop of `split_string_by_ichar_1`, with an escape character. -/
def splitUnescaping (string : List Ichar) : List (List Ichar) :=
  match h : findEnd sepchar escapechar false string with
  | (substring, deletingEscapes, []) => [makeString escapechar substring deletingEscapes]
  | (substring, deletingEscapes, _ :: rest) =>
    makeString escapechar substring deletingEscapes :: splitUnescaping rest
termination_by string.length
decreasing_by
  have hle := findEnd_length sepchar escapechar false string
  rw [h] at hle
  exact Nat.lt_of_succ_le hle

set_option linter.unusedVariables false in
/-- The outer loop of `split_string_by_ichar_1`, without an escape character. -/
def splitPlain (string : List Ichar) : List (List Ichar) :=
  match h : findSeparator sepchar string with
  | (substring, []) => [substring]
  | (substring, _ :: rest) => substring :: splitPlain rest
termination_by string.length
decreasing_by
  have hle := findSeparator_length sepchar string
  rw [h] at hle
  exact Nat.lt_of_succ_le hle

end

def splitStringByChar (string : List Ichar) (sepchar : Ichar) (escapeChar : Option Ichar) :
    List (List Ichar) :=
  match escapeChar with
  | none => splitPlain sepchar string
  | some escapechar => splitUnescaping sepchar escapechar string

section

variable (sep esc : Ichar)

/-- A string with the escape character before each separator and each escape character. -/
def encode (s : List Ichar) : List Ichar := s.flatMap fun c => if c = sep ∨ c = esc then [esc, c] else [c]

/-- Encoded strings, joined with the separator. -/
def join (l : List (List Ichar)) : List Ichar := [sep].intercalate (l.map (encode sep esc))

end

variable {sep esc c : Ichar} {s t string : List Ichar} {l : List (List Ichar)} {st : Bool}

theorem encode_cons : encode sep esc (c :: s) =
    (if c = sep ∨ c = esc then [esc, c] else [c]) ++ encode sep esc s := List.flatMap_cons

theorem encode_sep_cons : encode sep esc (sep :: s) = esc :: sep :: encode sep esc s := by
  rw [encode_cons, if_pos (Or.inl rfl)]
  rfl

theorem encode_esc_cons : encode sep esc (esc :: s) = esc :: esc :: encode sep esc s := by
  rw [encode_cons, if_pos (Or.inr rfl)]
  rfl

theorem encode_cons_of_ne (hsep : c ≠ sep) (hesc : c ≠ esc) :
    encode sep esc (c :: s) = c :: encode sep esc s := by
  rw [encode_cons, if_neg (not_or.mpr ⟨hsep, hesc⟩)]
  rfl

theorem join_singleton (s : List Ichar) : join sep esc [s] = encode sep esc s := by
  simp [join, List.intercalate]

theorem join_cons_cons (s t : List Ichar) (l : List (List Ichar)) :
    join sep esc (s :: t :: l) = encode sep esc s ++ sep :: join sep esc (t :: l) := by
  simp [join, List.intercalate]

theorem copyUnescaped_of_not_mem (h : esc ∉ s) : copyUnescaped esc false s = s := by
  induction s with
  | nil => rfl
  | cons c s ih =>
    rw [List.mem_cons, not_or] at h
    obtain ⟨hc, hs⟩ := h
    rw [copyUnescaped, if_pos (Or.inl (Ne.symm hc))]
    simp [Ne.symm hc, ih hs]

theorem copyUnescaped_encode (hne : sep ≠ esc) (s t : List Ichar) :
    copyUnescaped esc false (encode sep esc s ++ t) = s ++ copyUnescaped esc false t := by
  induction s with
  | nil => rfl
  | cons c s ih =>
    by_cases hsep : c = sep
    · subst hsep
      simp [encode_sep_cons, copyUnescaped, ih]
    · by_cases hesc : c = esc
      · subst hesc
        simp [encode_esc_cons, copyUnescaped, ih]
      · simp [encode_cons_of_ne hsep hesc, copyUnescaped, hesc, ih]

theorem makeString_findEnd (string : List Ichar) :
    makeString esc (findEnd sep esc false string).1 (findEnd sep esc false string).2.1 =
      copyUnescaped esc false (findEnd sep esc false string).1 := by
  rw [makeString]
  split_ifs with hcount
  · rfl
  · rw [not_not] at hcount
    refine (copyUnescaped_of_not_mem ?_).symm
    induction string with
    | nil => exact List.not_mem_nil
    | cons c string ih =>
      rw [findEnd] at hcount ⊢
      by_cases hsep : c = sep
      · rw [if_pos hsep]
        exact List.not_mem_nil
      rw [if_neg hsep] at hcount ⊢
      by_cases hesc : c = esc
      · rw [if_pos ⟨hesc, rfl⟩] at hcount
        exact absurd hcount (Nat.succ_ne_zero _)
      · rw [if_neg fun h => hesc h.1] at hcount ⊢
        rw [List.mem_cons, not_or]
        exact ⟨Ne.symm hesc, ih hcount⟩

/-- The note of the first pass after a string that is encoded, none where it stops in it. -/
def noteAfter (sep esc : Ichar) : Bool → List Ichar → Option Bool
  | st, [] => some st
  | false, c :: s => noteAfter sep esc (c = sep) s
  | true, c :: s => if c = sep then none else noteAfter sep esc (c = esc) s

theorem noteAfter_cons_sep : noteAfter sep esc false (sep :: s) = noteAfter sep esc true s := by
  simp [noteAfter]

theorem findEnd_encode_of_some (hne : sep ≠ esc) {st' : Bool} (h : noteAfter sep esc st s = some st')
    (t : List Ichar) : (findEnd sep esc st (encode sep esc s ++ t)).1 =
        encode sep esc s ++ (findEnd sep esc st' t).1 ∧
      (findEnd sep esc st (encode sep esc s ++ t)).2.2 = (findEnd sep esc st' t).2.2 := by
  induction s generalizing st with
  | nil =>
    obtain rfl := Option.some.inj h
    exact ⟨rfl, rfl⟩
  | cons c s ih =>
    by_cases hsep : c = sep
    · subst hsep
      cases st with
      | true => simp [noteAfter] at h
      | false =>
        obtain ⟨hfirst, hrest⟩ := ih (noteAfter_cons_sep ▸ h)
        simp [encode_sep_cons, findEnd, Ne.symm hne, hfirst, hrest]
    · by_cases hesc : c = esc
      · subst hesc
        cases st with
        | true =>
          obtain ⟨hfirst, hrest⟩ := @ih true (by simpa [noteAfter, hsep] using h)
          simp [encode_esc_cons, findEnd, hsep, hfirst, hrest]
        | false =>
          obtain ⟨hfirst, hrest⟩ := @ih false (by simpa [noteAfter, hsep] using h)
          simp [encode_esc_cons, findEnd, hsep, hfirst, hrest]
      · cases st with
        | true =>
          obtain ⟨hfirst, hrest⟩ := @ih false (by simpa [noteAfter, hsep, hesc] using h)
          simp [encode_cons_of_ne hsep hesc, findEnd, hsep, hesc, hfirst, hrest]
        | false =>
          obtain ⟨hfirst, hrest⟩ := @ih false (by simpa [noteAfter, hsep] using h)
          simp [encode_cons_of_ne hsep hesc, findEnd, hsep, hesc, hfirst, hrest]

theorem findEnd_encode_of_none (hne : sep ≠ esc) (h : noteAfter sep esc st s = none) (t : List Ichar) :
    ∃ pre post, s = pre ++ sep :: post ∧
      (findEnd sep esc st (encode sep esc s ++ t)).1 = encode sep esc pre ++ [esc] := by
  induction s generalizing st with
  | nil => cases h
  | cons c s ih =>
    by_cases hsep : c = sep
    · subst hsep
      cases st with
      | true => exact ⟨[], s, rfl, by simp [findEnd, Ne.symm hne, encode]⟩
      | false =>
        obtain ⟨pre, post, rfl, hfirst⟩ := ih (noteAfter_cons_sep ▸ h)
        refine ⟨c :: pre, post, rfl, ?_⟩
        simp only [encode_sep_cons, List.cons_append]
        simp [findEnd, Ne.symm hne, hfirst]
    · by_cases hesc : c = esc
      · subst hesc
        cases st with
        | true =>
          obtain ⟨pre, post, rfl, hfirst⟩ := @ih true (by simpa [noteAfter, hsep] using h)
          refine ⟨c :: pre, post, rfl, ?_⟩
          simp only [encode_esc_cons, List.cons_append]
          simp [findEnd, hsep, hfirst]
        | false =>
          obtain ⟨pre, post, rfl, hfirst⟩ := @ih false (by simpa [noteAfter, hsep] using h)
          refine ⟨c :: pre, post, rfl, ?_⟩
          simp only [encode_esc_cons, List.cons_append]
          simp [findEnd, hsep, hfirst]
      · have hstep : noteAfter sep esc false s = none := by
          cases st <;> simpa [noteAfter, hsep, hesc] using h
        obtain ⟨pre, post, rfl, hfirst⟩ := ih hstep
        refine ⟨c :: pre, post, rfl, ?_⟩
        simp only [encode_cons_of_ne hsep hesc, List.cons_append]
        simp [findEnd, hsep, hesc, hfirst]

theorem splitUnescaping_of_end (h : (findEnd sep esc false string).2.2 = []) :
    splitUnescaping sep esc string = [copyUnescaped esc false (findEnd sep esc false string).1] := by
  rw [splitUnescaping, ← makeString_findEnd]
  split
  · next hfind => rw [hfind]
  · next hfind =>
    rw [hfind] at h
    cases h

theorem splitUnescaping_of_sep (h : (findEnd sep esc false string).2.2 = c :: t) :
    splitUnescaping sep esc string =
      copyUnescaped esc false (findEnd sep esc false string).1 :: splitUnescaping sep esc t := by
  rw [splitUnescaping, ← makeString_findEnd]
  split
  · next hfind =>
    rw [hfind] at h
    cases h
  · next hfind =>
    rw [hfind] at h ⊢
    cases h
    rfl

theorem splitUnescaping_head (string : List Ichar) : (splitUnescaping sep esc string).head? =
    some (copyUnescaped esc false (findEnd sep esc false string).1) := by
  cases h : (findEnd sep esc false string).2.2 with
  | nil => rw [splitUnescaping_of_end h, List.head?_cons]
  | cons c t => rw [splitUnescaping_of_sep h, List.head?_cons]

theorem splitUnescaping_ne_of_none (hne : sep ≠ esc) (h : noteAfter sep esc false s = none) (t : List Ichar) :
    splitUnescaping sep esc (encode sep esc s ++ t) ≠ s :: l := by
  intro heq
  obtain ⟨pre, post, rfl, hfirst⟩ := findEnd_encode_of_none hne h t
  have hhead := @splitUnescaping_head sep esc (encode sep esc (pre ++ sep :: post) ++ t)
  rw [heq, List.head?_cons, hfirst, copyUnescaped_encode hne, copyUnescaped] at hhead
  simp [copyUnescaped] at hhead

theorem splitUnescaping_ne_of_true (hne : sep ≠ esc) (h : noteAfter sep esc false s = some true)
    (t : List Ichar) : splitUnescaping sep esc (encode sep esc s ++ sep :: t) ≠ s :: l := by
  intro heq
  have hfirst := (findEnd_encode_of_some hne h (sep :: t)).1
  have hhead := @splitUnescaping_head sep esc (encode sep esc s ++ sep :: t)
  rw [heq, List.head?_cons, hfirst, copyUnescaped_encode hne] at hhead
  simp [findEnd, copyUnescaped, hne] at hhead

/-- Whether the first pass finds the end of each string. -/
def EndsFound (sep esc : Ichar) : List (List Ichar) → Prop
  | [] => True
  | [s] => noteAfter sep esc false s ≠ none
  | s :: l => noteAfter sep esc false s = some false ∧ EndsFound sep esc l

theorem endsFound_cons_cons : EndsFound sep esc (s :: t :: l) ↔
    noteAfter sep esc false s = some false ∧ EndsFound sep esc (t :: l) := Iff.rfl

theorem splitUnescaping_join (hne : sep ≠ esc) (hl : l ≠ []) :
    splitUnescaping sep esc (join sep esc l) = l ↔ EndsFound sep esc l := by
  induction l with
  | nil => exact absurd rfl hl
  | cons s l ih =>
    cases l with
    | nil =>
      rw [join_singleton, EndsFound, ← List.append_nil (encode sep esc s)]
      cases h : noteAfter sep esc false s with
      | none => exact iff_of_false (splitUnescaping_ne_of_none hne h []) (not_not_intro rfl)
      | some st =>
        obtain ⟨hfirst, hrest⟩ := findEnd_encode_of_some hne h []
        refine iff_of_true ?_ (Option.some_ne_none st)
        rw [splitUnescaping_of_end hrest, hfirst, copyUnescaped_encode hne, findEnd, copyUnescaped,
          List.append_nil]
    | cons t l =>
      rw [join_cons_cons, endsFound_cons_cons]
      cases h : noteAfter sep esc false s with
      | none =>
        exact iff_of_false (splitUnescaping_ne_of_none hne h _) fun hends => by cases hends.1
      | some st =>
        cases st with
        | true => exact iff_of_false (splitUnescaping_ne_of_true hne h _) fun hends => by cases hends.1
        | false =>
          obtain ⟨hfirst, hrest⟩ := findEnd_encode_of_some hne h (sep :: join sep esc (t :: l))
          have hstop : findEnd sep esc false (sep :: join sep esc (t :: l)) =
              ([], 0, sep :: join sep esc (t :: l)) := by simp [findEnd]
          rw [hstop] at hfirst hrest
          rw [splitUnescaping_of_sep hrest, hfirst, copyUnescaped_encode hne, copyUnescaped,
            List.append_nil, List.cons.injEq, ih (List.cons_ne_nil t l)]
          exact and_congr_left fun _ => iff_of_true rfl rfl

/-- In `s` two separators have only escape characters between them. -/
def HasCloseSeparators (sep esc : Ichar) (s : List Ichar) : Prop :=
  ∃ n, sep :: (List.replicate n esc ++ [sep]) <:+: s

/-- After the last separator of `s` there are only escape characters. -/
def EndsEscaping (sep esc : Ichar) (s : List Ichar) : Prop := ∃ n, sep :: List.replicate n esc <:+ s

theorem replicate_cons_infix_iff : (∃ n, List.replicate n esc ++ [sep] <+: c :: s) ↔
    c = sep ∨ c = esc ∧ ∃ n, List.replicate n esc ++ [sep] <+: s := by
  constructor
  · rintro ⟨n, hn⟩
    cases n with
    | zero => exact Or.inl (List.cons_prefix_cons.mp hn).1.symm
    | succ n =>
      rw [List.replicate_succ, List.cons_append, List.cons_prefix_cons] at hn
      exact Or.inr ⟨hn.1.symm, n, hn.2⟩
  · rintro (rfl | ⟨rfl, n, hn⟩)
    · exact ⟨0, List.cons_prefix_cons.mpr ⟨rfl, List.nil_prefix⟩⟩
    · exact ⟨n + 1, by
        rw [List.replicate_succ, List.cons_append, List.cons_prefix_cons]
        exact ⟨rfl, hn⟩⟩

theorem hasCloseSeparators_cons : HasCloseSeparators sep esc (c :: s) ↔
    (c = sep ∧ ∃ n, List.replicate n esc ++ [sep] <+: s) ∨ HasCloseSeparators sep esc s := by
  simp only [HasCloseSeparators, List.infix_cons_iff, List.cons_prefix_cons, exists_or,
    exists_and_left, eq_comm (a := sep)]

theorem noteAfter_eq_none : noteAfter sep esc st s = none ↔
    (st = true ∧ ∃ n, List.replicate n esc ++ [sep] <+: s) ∨ HasCloseSeparators sep esc s := by
  induction s generalizing st with
  | nil => simp [noteAfter, HasCloseSeparators]
  | cons c s ih =>
    rw [hasCloseSeparators_cons, replicate_cons_infix_iff]
    cases st with
    | false =>
      rw [noteAfter, ih, decide_eq_true_eq]
      simp
    | true =>
      rw [noteAfter]
      by_cases hsep : c = sep
      · simp [hsep]
      · rw [if_neg hsep, ih, decide_eq_true_eq]
        simp [hsep]

theorem endsEscaping_cons : EndsEscaping sep esc (c :: s) ↔
    (c = sep ∧ ∃ n, s = List.replicate n esc) ∨ EndsEscaping sep esc s := by
  simp only [EndsEscaping, List.suffix_cons_iff, List.cons.injEq, exists_or, exists_and_left,
    eq_comm (a := sep), eq_comm (b := s)]

theorem noteAfter_eq_some (hne : sep ≠ esc) {st' : Bool} (h : noteAfter sep esc st s = some st') :
    st' = true ↔ (st = true ∧ ∃ n, s = List.replicate n esc) ∨ EndsEscaping sep esc s := by
  induction s generalizing st with
  | nil =>
    obtain rfl := Option.some.inj h
    simp [EndsEscaping]
  | cons c s ih =>
    have hreplicate : (∃ n, c :: s = List.replicate n esc) ↔ c = esc ∧ ∃ n, s = List.replicate n esc := by
      constructor
      · rintro ⟨n, hn⟩
        cases n with
        | zero => cases hn
        | succ n =>
          rw [List.replicate_succ, List.cons.injEq] at hn
          exact ⟨hn.1, n, hn.2⟩
      · rintro ⟨rfl, n, rfl⟩
        exact ⟨n + 1, List.replicate_succ.symm⟩
    rw [endsEscaping_cons, hreplicate]
    cases st with
    | false =>
      rw [noteAfter] at h
      rw [ih h, decide_eq_true_eq]
      simp
    | true =>
      rw [noteAfter] at h
      by_cases hsep : c = sep
      · rw [if_pos hsep] at h
        cases h
      · rw [if_neg hsep] at h
        rw [ih h, decide_eq_true_eq]
        simp [hsep]

/-- No string has two separators with only escape characters between them, and none but the last
one has only escape characters after its last separator. -/
def SeparatorsApart (sep esc : Ichar) (l : List (List Ichar)) : Prop :=
  (∀ s ∈ l, ¬ HasCloseSeparators sep esc s) ∧ ∀ s ∈ l.dropLast, ¬ EndsEscaping sep esc s

theorem endsFound_iff (hne : sep ≠ esc) (l : List (List Ichar)) :
    EndsFound sep esc l ↔ SeparatorsApart sep esc l := by
  induction l with
  | nil => simp [EndsFound, SeparatorsApart]
  | cons s l ih =>
    have hnone : noteAfter sep esc false s = none ↔ HasCloseSeparators sep esc s := by
      rw [noteAfter_eq_none]
      simp
    cases l with
    | nil =>
      rw [EndsFound, ne_eq, hnone]
      simp [SeparatorsApart]
    | cons t l =>
      have hfalse : noteAfter sep esc false s = some false ↔
          ¬ HasCloseSeparators sep esc s ∧ ¬ EndsEscaping sep esc s := by
        rw [← hnone]
        cases hnote : noteAfter sep esc false s with
        | none => simp
        | some st' =>
          have hiff := noteAfter_eq_some hne hnote
          cases st' <;> simp_all
      rw [endsFound_cons_cons, hfalse, ih, SeparatorsApart, SeparatorsApart, List.dropLast_cons_cons,
        List.forall_mem_cons (a := s) (l := t :: l),
        List.forall_mem_cons (a := s) (l := (t :: l).dropLast)]
      exact and_and_and_comm

/-- Splitting gives back the strings that were encoded and joined exactly if no two separators are
too close to each other. -/
theorem splitStringByChar_join (hne : sep ≠ esc) (hl : l ≠ []) :
    splitStringByChar (join sep esc l) sep (some esc) = l ↔ SeparatorsApart sep esc l := by
  rw [splitStringByChar, splitUnescaping_join hne hl, endsFound_iff hne]

theorem splitStringByChar_join_colon :
    splitStringByChar (join 58 92 [[97, 58, 98], [92]]) 58 (some 92) = [[97, 58, 98], [92]] := by
  refine (splitStringByChar_join (by decide) (by decide)).mpr ((endsFound_iff (by decide) _).mp ?_)
  simp [EndsFound, noteAfter]

/-- A colon and `b` are joined to `\::b`, which is split into `::b` alone. -/
theorem splitStringByChar_join_colon_b :
    splitStringByChar (join 58 92 [[58], [98]]) 58 (some 92) = [[58, 58, 98]] ∧
      splitStringByChar (join 58 92 [[58], [98]]) 58 (some 92) ≠ [[58], [98]] := by
  have hsplit : splitStringByChar (join 58 92 [[58], [98]]) 58 (some 92) = [[58, 58, 98]] := by
    rw [splitStringByChar, splitUnescaping_of_end (by decide)]
    decide
  refine ⟨hsplit, ?_⟩
  rw [hsplit]
  decide

end XEmacs.Text.SplitString
