import Mathlib.Data.List.GetD
import XEmacs.Completion.LongestCompletion

/-! `all-completions` and `test-completion` (minibuf.c): they have the candidates of `try-completion`, but that
`all-completions` leaves out those that begin with a space. -/

namespace XEmacs.Completion

/-- The loop of `qxetextcasecmp`; what is left at the end is counted in characters. -/
def qxetextcasecmp (canoncase : ℕ → ℕ) : List ℕ → List ℕ → ℤ
  | c1 :: s1, c2 :: s2 =>
    if canoncase c1 = canoncase c2 then qxetextcasecmp canoncase s1 s2 else canoncase c1 - canoncase c2
  | s1, s2 => s1.length - s2.length

/-- `xemacs-intern-soft-in-vector`, where the vector is not empty. -/
def Obarray.xemacsInternSoftInVector (obarray : Obarray) (string : List ℕ) : Option (List ℕ) :=
  (obarray.buckets.getD (obarray.equalHash string % obarray.buckets.length) []).find? (· = string)

/-- The input does not begin with a space, and the name does. -/
def Hidden (string elt : List ℕ) : Prop := string.head? ≠ some 32 ∧ elt.head? = some 32

instance (string elt : List ℕ) : Decidable (Hidden string elt) := instDecidableAnd

section Mappers

variable (S : Settings) (string : List ℕ) (predicate : Option Predicate) (hashTablep : Bool) (eltstring value : LispObject)

/-- The fields of the closure that do not change are arguments. -/
def allCompletionsMapper (allmatches : List (List ℕ)) : List (List ℕ) :=
  match nameOf eltstring with
  | none => allmatches
  | some elt =>
    if string.length ≤ elt.length ∧ ¬Hidden string elt ∧ 0 > scmp S elt string string.length then
      if ignoreCompletionP S elt predicate value hashTablep then allmatches else allmatches ++ [elt]
    else allmatches

/-- Once the result is `t` there are no more calls; here they change nothing. -/
def testCompletionMapper (result : Bool) : Bool :=
  match nameOf eltstring with
  | none => result
  | some elt =>
    if if S.ignoreCase then qxetextcasecmp S.canoncase string elt = 0 else string = elt then
      result || !ignoreCompletionP S elt predicate value hashTablep
    else result

end Mappers

section

variable (S : Settings) (string : List ℕ) (collection : Collection) (predicate : Option Predicate)

def fallCompletions : List (List ℕ) :=
  mapCompletion (allCompletionsMapper S string predicate collection.hashTablep) [] collection

/-- A name in a vector is looked up, which is an error where the vector is empty. -/
def ftestCompletion : Option Bool :=
  let mapped := mapCompletion (testCompletionMapper S string predicate collection.hashTablep) false collection
  match collection with
  | .vector obarray =>
    if S.ignoreCase then some mapped
    else if obarray.buckets.length = 0 then none
    else
      match obarray.xemacsInternSoftInVector string with
      | none => some false
      | some symbol => some !ignoreCompletionP S symbol predicate (.symbol symbol) false
  | _ => some mapped

end

variable {S : Settings} {string elt : List ℕ} {predicate : Option Predicate} {hashTablep : Bool}
  {elements : List (LispObject × LispObject)}

theorem starts_iff : string.length ≤ elt.length ∧ 0 > scmp S elt string string.length ↔ string.map S.key <+: elt.map S.key := by
  rw [List.prefix_iff_eq_take, List.length_map]
  have hneg (hlength : string.length ≤ elt.length) : 0 > scmp S elt string string.length ↔
      (elt.map S.key).take string.length = string.map S.key := by
    rw [scmp, scmp1_neg_iff S.ignoreCase hlength le_rfl, List.take_of_length_le (by simp : (List.map _ string).length ≤ _)]
    rfl
  constructor
  · rintro ⟨hlength, h⟩
    exact ((hneg hlength).mp h).symm
  · intro heq
    have hlength : string.length ≤ elt.length := by
      have hlen := congrArg List.length heq
      simp at hlen
      omega
    exact ⟨hlength, (hneg hlength).mpr heq.symm⟩

theorem qxetextcasecmp_eq_zero_iff (canoncase : ℕ → ℕ) (s1 s2 : List ℕ) :
    qxetextcasecmp canoncase s1 s2 = 0 ↔ s1.map canoncase = s2.map canoncase := by
  induction s1 generalizing s2 with
  | nil => cases s2 <;> simp [qxetextcasecmp]; omega
  | cons c1 s1 ih =>
    cases s2 with
    | nil => simp [qxetextcasecmp]; omega
    | cons c2 s2 =>
      rw [qxetextcasecmp, List.map_cons, List.map_cons, List.cons.injEq]
      split_ifs with heq
      · rw [ih, and_iff_right heq]
      · refine iff_of_false (fun h => heq ?_) fun h => heq h.1
        omega

theorem tested_iff : (if S.ignoreCase then qxetextcasecmp S.canoncase string elt = 0 else string = elt) ↔
    string.map S.key = elt.map S.key := by
  rw [Settings.key, keyOf]
  split_ifs
  · exact qxetextcasecmp_eq_zero_iff _ _ _
  · rw [List.map_id, List.map_id]

theorem allCompletionsMapper_eq (eltstring value : LispObject) (allmatches : List (List ℕ)) :
    allCompletionsMapper S string predicate hashTablep eltstring value allmatches =
      allmatches ++ (candidate S string predicate hashTablep eltstring value).toList.filter (¬Hidden string ·) := by
  rw [allCompletionsMapper, candidate]
  cases nameOf eltstring with
  | none => exact (List.append_nil _).symm
  | some elt =>
    rw [Option.bind_some]
    dsimp only
    by_cases hstart : string.map S.key <+: elt.map S.key
    · obtain ⟨hlength, hneg⟩ := starts_iff.mpr hstart
      by_cases hhidden : Hidden string elt
      · rw [if_neg fun h => h.2.1 hhidden]
        split_ifs <;> simp [hhidden]
      · rw [if_pos ⟨hlength, hhidden, hneg⟩]
        cases ignoreCompletionP S elt predicate value hashTablep with
        | true => simp
        | false => simp [hstart, hhidden]
    · rw [if_neg fun h => hstart (starts_iff.mp ⟨h.1, h.2.2⟩), if_neg fun h => hstart h.1]
      exact (List.append_nil _).symm

theorem foldl_allCompletionsMapper (allmatches : List (List ℕ)) :
    elements.foldl (fun found p => allCompletionsMapper S string predicate hashTablep p.1 p.2 found) allmatches =
      allmatches ++ (elements.filterMap fun p => candidate S string predicate hashTablep p.1 p.2).filter (¬Hidden string ·) := by
  induction elements generalizing allmatches with
  | nil => exact (List.append_nil _).symm
  | cons p elements ih =>
    rw [List.foldl_cons, ih, allCompletionsMapper_eq, List.append_assoc, ← List.filter_append, List.filterMap_cons]
    cases candidate S string predicate hashTablep p.1 p.2 <;> rfl

theorem testCompletionMapper_eq_true_iff (eltstring value : LispObject) (result : Bool) :
    testCompletionMapper S string predicate hashTablep eltstring value result = true ↔
      result = true ∨ ∃ elt ∈ candidate S string predicate hashTablep eltstring value, string.map S.key = elt.map S.key := by
  rw [testCompletionMapper, candidate]
  cases nameOf eltstring with
  | none => simp
  | some elt =>
    rw [Option.bind_some]
    dsimp only
    rw [if_congr tested_iff rfl rfl]
    split_ifs with hsame hcandidate hcandidate
    · simp [hcandidate.2, hsame]
    · have hignore : ignoreCompletionP S elt predicate value hashTablep = true :=
        Bool.not_eq_false _ |>.mp fun h => hcandidate ⟨hsame ▸ List.prefix_refl _, h⟩
      simp [hignore]
    · simp [hsame]
    · simp

theorem foldl_testCompletionMapper (result : Bool) :
    elements.foldl (fun result p => testCompletionMapper S string predicate hashTablep p.1 p.2 result) result = true ↔
      result = true ∨ ∃ elt ∈ elements.filterMap fun p => candidate S string predicate hashTablep p.1 p.2,
        string.map S.key = elt.map S.key := by
  induction elements generalizing result with
  | nil => simp
  | cons p elements ih =>
    rw [List.foldl_cons, ih, testCompletionMapper_eq_true_iff, List.filterMap_cons, or_assoc]
    cases candidate S string predicate hashTablep p.1 p.2 <;> simp

theorem xemacsInternSoftInVector_eq (obarray : Obarray) (string : List ℕ) :
    obarray.xemacsInternSoftInVector string = if string ∈ obarray.buckets.flatten then some string else none := by
  rw [Obarray.xemacsInternSoftInVector]
  set bucket := obarray.buckets.getD (obarray.equalHash string % obarray.buckets.length) [] with hbucket
  have hmem : string ∈ obarray.buckets.flatten ↔ string ∈ bucket := by
    rw [List.mem_flatten]
    constructor
    · rintro ⟨b, hb, hstring⟩
      obtain ⟨i, hi, rfl⟩ := List.mem_iff_getElem.mp hb
      rw [hbucket, obarray.bucket_eq i hi string hstring, List.getD_eq_getElem _ _ hi]
      exact hstring
    · intro hstring
      by_cases hi : obarray.equalHash string % obarray.buckets.length < obarray.buckets.length
      · rw [hbucket, List.getD_eq_getElem _ _ hi] at hstring
        exact ⟨_, List.getElem_mem hi, hstring⟩
      · rw [hbucket, List.getD_eq_default _ _ (not_lt.mp hi)] at hstring
        exact absurd hstring List.not_mem_nil
  rw [if_congr hmem rfl rfl]
  cases hfind : bucket.find? (· = string) with
  | none => exact (if_neg fun hstring => by simpa using List.find?_eq_none.mp hfind string hstring).symm
  | some symbol =>
    obtain rfl : symbol = string := by simpa using List.find?_some hfind
    exact (if_pos (List.mem_of_find?_eq_some hfind)).symm

theorem mem_candidates_vector {obarray : Obarray} (hcase : S.ignoreCase = false) :
    (∃ elt ∈ (Collection.vector obarray).candidates S string predicate, string.map S.key = elt.map S.key) ↔
      string ∈ obarray.buckets.flatten ∧ ignoreCompletionP S string predicate (.symbol string) false = false := by
  have hkey : S.key = id := by rw [Settings.key, keyOf, hcase, if_neg Bool.false_ne_true]
  simp only [hkey, List.map_id, Collection.candidates, Collection.elements, List.filterMap_map, List.mem_filterMap,
    Function.comp_apply, candidate, nameOf, Option.bind_some, Option.ite_none_right_eq_some, Collection.hashTablep]
  constructor
  · rintro ⟨elt, ⟨name, hname, ⟨-, hignore⟩, hsome⟩, rfl⟩
    obtain rfl := Option.some.inj hsome
    exact ⟨hname, hignore⟩
  · rintro ⟨hname, hignore⟩
    exact ⟨string, ⟨string, hname, ⟨List.prefix_refl _, hignore⟩, rfl⟩, rfl⟩

end XEmacs.Completion
