import Mathlib.Data.List.Nodup
import Mathlib.Order.Bounds.Basic
import Mathlib.Order.MinMax
import Mathlib.Tactic.SplitIfs
import XEmacs.Completion.TryCompletion

/-! `try-completion` returns the longest common completion, in whatever order the candidates are mapped. -/

namespace XEmacs.Completion

section Common

variable {α β : Type*} {key : α → β} {texts : List (List α)} {best elt : List α} {m n size : ℕ}

def Common (key : α → β) (texts : List (List α)) (n : ℕ) : Prop :=
  ∀ s ∈ texts, n ≤ s.length ∧ ∀ t ∈ texts, (s.map key).take n = (t.map key).take n

theorem common_append (hbest : best ∈ texts) : Common key (texts ++ [elt]) n ↔
    Common key texts n ∧ n ≤ elt.length ∧ (best.map key).take n = (elt.map key).take n := by
  have helt : elt ∈ texts ++ [elt] := List.mem_append_right _ (List.mem_singleton_self elt)
  constructor
  · intro h
    refine ⟨fun s hs => ?_, (h elt helt).1, (h best (List.mem_append_left _ hbest)).2 elt helt⟩
    have hs' := h s (List.mem_append_left _ hs)
    exact ⟨hs'.1, fun t ht => hs'.2 t (List.mem_append_left _ ht)⟩
  · rintro ⟨htexts, hlength, hagree⟩
    have hto : ∀ s ∈ texts ++ [elt], n ≤ s.length ∧ (s.map key).take n = (elt.map key).take n := by
      intro s hs
      rcases List.mem_append.mp hs with hs | hs
      · exact ⟨(htexts s hs).1, ((htexts s hs).2 best hbest).trans hagree⟩
      · rw [List.mem_singleton.mp hs]
        exact ⟨hlength, rfl⟩
    exact fun s hs => ⟨(hto s hs).1, fun t ht => (hto s hs).2.trans (hto t ht).2.symm⟩

theorem common_singleton : Common key [elt] n ↔ n ≤ elt.length := by
  simp [Common]

/-- One of the texts, the length of the longest common prefix, and that a text of that length is preferred. -/
structure Best (key : α → β) (prefers : Bool) (texts : List (List α)) (best : List α) (size : ℕ) : Prop where
  mem : best ∈ texts
  common : ∀ n, Common key texts n ↔ n ≤ size
  length_eq : prefers = true → (∃ s ∈ texts, s.length = size) → best.length = size

theorem Best.append {prefers : Bool} {best' : List α} (h : Best key prefers texts best size)
    (hm : ∀ n, n ≤ m ↔ n ≤ min size elt.length ∧ (best.map key).take n = (elt.map key).take n)
    (hmem : best' = best ∨ best' = elt)
    (hlonger : prefers = true → elt.length = m → best'.length = m)
    (hkept : prefers = true → best.length = m → best'.length = m) : Best key prefers (texts ++ [elt]) best' m where
  mem := by
    rcases hmem with rfl | rfl
    · exact List.mem_append_left _ h.mem
    · exact List.mem_append_right _ (List.mem_singleton_self _)
  common n := by
    rw [common_append h.mem, h.common, hm, le_min_iff, and_assoc]
  length_eq hprefers hexact := by
    obtain ⟨s, hs, hlength⟩ := hexact
    rcases List.mem_append.mp hs with hs | hs
    · -- a text is no shorter than the old prefix, so that one has not been shortened
      have hsize : size ≤ s.length := (((h.common size).mpr le_rfl) s hs).1
      have hle : m ≤ size := (((hm m).mp le_rfl).1).trans (min_le_left _ _)
      have heq : size = m := le_antisymm (hsize.trans_eq hlength) hle
      exact hkept hprefers ((h.length_eq hprefers ⟨s, hs, hlength.trans heq.symm⟩).trans heq)
    · rw [List.mem_singleton.mp hs] at hlength
      exact hlonger hprefers hlength

end Common

section Compare

variable {key canoncase : ℕ → ℕ} {s1 s2 : List ℕ} {len : ℕ}

theorem le_scmpLoop_iff (h1 : len ≤ s1.length) (h2 : len ≤ s2.length) (n : ℕ) :
    n + scmpLoop key s1 s2 len ≤ len ↔ n ≤ len ∧ (s1.map key).take n = (s2.map key).take n := by
  induction len generalizing s1 s2 n with
  | zero =>
    rw [show scmpLoop key s1 s2 0 = 0 by unfold scmpLoop; split <;> simp_all]
    constructor
    · intro hle
      obtain rfl : n = 0 := by omega
      exact ⟨le_rfl, rfl⟩
    · intro h
      exact h.1
  | succ len ih =>
    cases s1 with
    | nil => exact absurd h1 (Nat.not_succ_le_zero len)
    | cons c1 s1 =>
      cases s2 with
      | nil => exact absurd h2 (Nat.not_succ_le_zero len)
      | cons c2 s2 =>
        have ih' := ih (Nat.le_of_succ_le_succ h1) (Nat.le_of_succ_le_succ h2)
        rw [scmpLoop]
        cases n with
        | zero =>
          have hle := (ih' 0).mpr ⟨Nat.zero_le _, rfl⟩
          split_ifs <;> constructor <;> (simp; try omega)
        | succ n =>
          rw [List.map_cons, List.map_cons, List.take_succ_cons, List.take_succ_cons, List.cons.injEq]
          split_ifs with heq
          · have hn := ih' n
            constructor
            · intro hle
              obtain ⟨hlen, hagree⟩ := hn.mp (by omega)
              exact ⟨by omega, heq, hagree⟩
            · rintro ⟨hlen, -, hagree⟩
              have hle := hn.mpr ⟨by omega, hagree⟩
              omega
          · exact ⟨fun hle => by omega, fun h => absurd h.2.1 heq⟩

def keyOf (canoncase : ℕ → ℕ) (ignoreCase : Bool) : ℕ → ℕ := if ignoreCase then canoncase else id

theorem scmp1_eq (ignoreCase : Bool) : scmp1 canoncase s1 s2 len ignoreCase =
    if scmpLoop (keyOf canoncase ignoreCase) s1 s2 len = 0 then -1
    else (len - scmpLoop (keyOf canoncase ignoreCase) s1 s2 len : ℤ) := by
  cases ignoreCase <;> rfl

variable (ignoreCase : Bool) (h1 : len ≤ s1.length) (h2 : len ≤ s2.length)

include h1 h2

theorem scmp1_neg_iff : 0 > scmp1 canoncase s1 s2 len ignoreCase ↔
    (s1.map (keyOf canoncase ignoreCase)).take len = (s2.map (keyOf canoncase ignoreCase)).take len := by
  have hspec := @le_scmpLoop_iff (keyOf canoncase ignoreCase) s1 s2 len h1 h2
  have hzero := (hspec 0).mpr ⟨Nat.zero_le _, rfl⟩
  rw [scmp1_eq]
  constructor
  · intro hneg
    refine ((hspec len).mp ?_).2
    split_ifs at hneg <;> omega
  · intro hagree
    have hlen := (hspec len).mpr ⟨le_rfl, hagree⟩
    rw [if_pos (by omega)]
    decide

theorem le_scmp1_iff (n : ℕ) :
    (n ≤ if scmp1 canoncase s1 s2 len ignoreCase < 0 then len else (scmp1 canoncase s1 s2 len ignoreCase).toNat) ↔
      n ≤ len ∧ (s1.map (keyOf canoncase ignoreCase)).take n = (s2.map (keyOf canoncase ignoreCase)).take n := by
  have hspec := @le_scmpLoop_iff (keyOf canoncase ignoreCase) s1 s2 len h1 h2
  have hzero := (hspec 0).mpr ⟨Nat.zero_le _, rfl⟩
  rw [← hspec n, scmp1_eq]
  split_ifs <;> omega

end Compare

section Mapper

variable {S : Settings} {string elt : List ℕ} {pred : Option Predicate} {hashTablep : Bool} {seen : List (List ℕ)}
  {tcc : TryCompletionClosure}

def Settings.key (S : Settings) : ℕ → ℕ := keyOf S.canoncase S.ignoreCase

/-- A candidate: it starts with the text, as far as characters are told apart, and is not ignored. -/
def candidate (S : Settings) (string : List ℕ) (pred : Option Predicate) (hashTablep : Bool)
    (eltstring value : LispObject) : Option (List ℕ) :=
  (nameOf eltstring).bind fun elt =>
    if string.map S.key <+: elt.map S.key ∧ ignoreCompletionP S elt pred value hashTablep = false then some elt else none

structure Tracks (S : Settings) (string : List ℕ) (pred : Option Predicate) (hashTablep : Bool)
    (seen : List (List ℕ)) (tcc : TryCompletionClosure) : Prop where
  string_eq : tcc.string = string
  slength_eq : tcc.slength = string.length
  predicate_eq : tcc.predicate = pred
  hashTablep_eq : tcc.hashTablep = hashTablep
  matchcount_eq : tcc.matchcount = seen.length
  start : tcc.bestmatch = none → seen = []
  best : ∀ best, tcc.bestmatch = some best →
    tcc.blength = best.length ∧ Best S.key S.ignoreCase seen best tcc.bestmatchsize

theorem compareMatch_best {best : List ℕ} (h : Best S.key S.ignoreCase seen best tcc.bestmatchsize)
    (hsome : tcc.bestmatch = some best) (hblength : tcc.blength = best.length) :
    ∃ best' m, compareMatch S best elt tcc =
        { tcc with bestmatch := some best', blength := best'.length, bestmatchsize := m } ∧
      Best S.key S.ignoreCase (seen ++ [elt]) best' m := by
  have hsize : tcc.bestmatchsize ≤ best.length := (((h.common _).mpr le_rfl) best h.mem).1
  have hspec : ∀ n, n ≤ matchSize S best elt (min tcc.bestmatchsize elt.length) ↔
      n ≤ min tcc.bestmatchsize elt.length ∧ (best.map S.key).take n = (elt.map S.key).take n :=
    le_scmp1_iff S.ignoreCase ((min_le_left _ _).trans hsize) (min_le_right _ _)
  rw [compareMatch]
  generalize matchSize S best elt (min tcc.bestmatchsize elt.length) = m at hspec ⊢
  have hm := ((hspec m).mp le_rfl).1
  split_ifs with hreplace
  · refine ⟨elt, m, rfl, h.append hspec (.inr rfl) (fun _ => id) fun _ hbest => ?_⟩
    rcases hreplace.2 with hshorter | hsame
    · omega
    · exact (hsame.1.mpr (by omega)).symm
  · refine ⟨best, m, by rw [← hblength, ← hsome], h.append hspec (.inl rfl) (fun hcase helt => ?_) fun _ => id⟩
    by_contra hlonger
    exact hreplace ⟨hcase, .inl ⟨helt.symm, by omega⟩⟩

theorem Tracks.updateMatch (h : Tracks S string pred hashTablep seen tcc) (elt : List ℕ) :
    Tracks S string pred hashTablep (seen ++ [elt]) (updateMatch S elt tcc) := by
  have hcount : tcc.matchcount + 1 = (seen ++ [elt]).length := by
    rw [h.matchcount_eq, List.length_append, List.length_singleton]
  unfold Completion.updateMatch
  cases hbest : tcc.bestmatch with
  | none =>
    rw [h.start hbest, List.nil_append] at hcount ⊢
    refine ⟨h.string_eq, h.slength_eq, h.predicate_eq, h.hashTablep_eq, hcount,
      fun hnone => absurd hnone (Option.some_ne_none _), fun best hsome => ?_⟩
    obtain rfl := Option.some.inj hsome
    exact ⟨rfl, List.mem_singleton_self _, fun n => common_singleton, fun _ _ => rfl⟩
  | some bestmatch =>
    obtain ⟨hblength, hbestmatch⟩ := h.best bestmatch hbest
    obtain ⟨best', m, hcompare, hbest'⟩ :=
      @compareMatch_best S elt seen { tcc with matchcount := tcc.matchcount + 1 } bestmatch hbestmatch hbest hblength
    dsimp only
    rw [← hbest, hcompare]
    refine ⟨h.string_eq, h.slength_eq, h.predicate_eq, h.hashTablep_eq, hcount,
      fun hnone => absurd hnone (Option.some_ne_none _), fun best hsome => ?_⟩
    obtain rfl := Option.some.inj hsome
    exact ⟨rfl, hbest'⟩

theorem tryCompletionMapper_tracks (h : Tracks S string pred hashTablep seen tcc) (eltstring value : LispObject) :
    Tracks S string pred hashTablep (seen ++ (candidate S string pred hashTablep eltstring value).toList)
      (tryCompletionMapper S eltstring value tcc) := by
  rw [candidate, tryCompletionMapper]
  cases nameOf eltstring with
  | none => rwa [Option.bind_none, Option.toList_none, List.append_nil]
  | some elt =>
    have hstarts : (tcc.slength ≤ elt.length ∧ 0 > scmp S elt tcc.string tcc.slength) ↔
        string.map S.key <+: elt.map S.key := by
      rw [h.slength_eq, h.string_eq, List.prefix_iff_eq_take, List.length_map]
      constructor
      · rintro ⟨hlength, hneg⟩
        have htake := (scmp1_neg_iff S.ignoreCase hlength le_rfl).mp hneg
        rw [← show keyOf S.canoncase S.ignoreCase = S.key from rfl, htake, List.take_of_length_le (by simp)]
      · intro heq
        have hlength : string.length ≤ elt.length := by
          have hlen := congrArg List.length heq
          simp at hlen
          omega
        refine ⟨hlength, (scmp1_neg_iff S.ignoreCase hlength le_rfl).mpr ?_⟩
        rw [show keyOf S.canoncase S.ignoreCase = S.key from rfl, ← heq, List.take_of_length_le (by simp)]
    rw [Option.bind_some]
    dsimp only
    rw [h.predicate_eq, h.hashTablep_eq]
    by_cases hcandidate : string.map S.key <+: elt.map S.key
    · rw [if_pos (hstarts.mpr hcandidate)]
      cases hignore : ignoreCompletionP S elt pred value hashTablep with
      | true =>
        rw [if_neg fun hand => Bool.false_ne_true hand.2.symm, if_pos rfl]
        rwa [Option.toList_none, List.append_nil]
      | false =>
        rw [if_pos ⟨hcandidate, rfl⟩, if_neg Bool.false_ne_true, Option.toList_some]
        exact h.updateMatch elt
    · rw [if_neg (mt hstarts.mp hcandidate), if_neg fun hand => hcandidate hand.1]
      rwa [Option.toList_none, List.append_nil]

end Mapper

namespace Obarray

variable (obarray : Obarray)

theorem firstFrom_eq (bucket : ℕ) : obarray.firstFrom bucket = (obarray.buckets.drop bucket).flatten.head? :=
  List.head?_flatten.symm

theorem nodup_flatten : obarray.buckets.flatten.Nodup := by
  rw [List.nodup_flatten, List.pairwise_iff_getElem]
  refine ⟨obarray.nodup, fun i j hi hj hlt name hname hname' => ?_⟩
  have heq := (obarray.bucket_eq i hi name hname).symm.trans (obarray.bucket_eq j hj name hname')
  omega

theorem next_eq {before after : List (List ℕ)} {name : List ℕ} (h : obarray.buckets.flatten = before ++ name :: after) :
    obarray.xemacsNextIterationInVector (some name) = after.head? := by
  have hdrop {a b : List (List ℕ)} (ha : name ∉ a) : (a ++ name :: b).dropWhile (· ≠ name) = name :: b := by
    rw [List.dropWhile_append_of_pos fun s hs => decide_eq_true (ne_of_mem_of_not_mem hs ha)]
    exact List.dropWhile_cons_of_neg (by simp)
  have hnot {a b : List (List ℕ)} (hab : (a ++ name :: b).Nodup) : name ∉ a := fun ha =>
    (List.nodup_cons.mp (List.nodup_middle.mp hab)).1 (List.mem_append_left _ ha)
  have hmem : name ∈ obarray.buckets.flatten := by simp [h]
  obtain ⟨bucket, hbucket, hname⟩ := List.mem_flatten.mp hmem
  obtain ⟨i, hi, rfl⟩ := List.mem_iff_getElem.mp hbucket
  obtain ⟨front, back, hcut⟩ := List.append_of_mem hname
  have hfront : name ∉ front := hnot (hcut ▸ obarray.nodup _ hbucket)
  have hflatten : obarray.buckets.flatten =
      ((obarray.buckets.take i).flatten ++ front) ++ name :: (back ++ (obarray.buckets.drop (i + 1)).flatten) := by
    conv_lhs => rw [← List.take_append_drop i obarray.buckets, List.drop_eq_getElem_cons hi, hcut]
    simp
  have hafter : after = back ++ (obarray.buckets.drop (i + 1)).flatten := by
    have hdrops := @hdrop before after (hnot (h ▸ obarray.nodup_flatten))
    rw [← h, hflatten, hdrop (hnot (hflatten ▸ obarray.nodup_flatten))] at hdrops
    exact (List.cons.inj hdrops).2.symm
  have hsymbolNext : obarray.symbolNext name = back.head? := by
    rw [symbolNext, obarray.bucket_eq i hi name hname, List.getD_eq_getElem?_getD, List.getElem?_eq_getElem hi,
      Option.getD_some, hcut, hdrop hfront, List.tail_cons]
  rw [xemacsNextIterationInVector, hsymbolNext, hafter]
  cases back with
  | nil => rw [List.head?_nil, List.nil_append, ← firstFrom_eq, obarray.bucket_eq i hi name hname]
  | cons next back => rfl

theorem mapCompletionTradObarray_eq {τ : Type*} (function : LispObject → LispObject → τ → τ) (x : τ) :
    obarray.mapCompletionTradObarray function (obarray.buckets.flatten.length + 1)
      (obarray.xemacsNextIterationInVector none) x =
      obarray.buckets.flatten.foldl (fun x name => function (.string name) (.symbol name) x) x := by
  have hrun : ∀ (after before : List (List ℕ)) (fuel : ℕ) (x : τ), obarray.buckets.flatten = before ++ after →
      after.length < fuel → obarray.mapCompletionTradObarray function fuel after.head? x =
        after.foldl (fun x name => function (.string name) (.symbol name) x) x := by
    intro after
    induction after with
    | nil =>
      intro before fuel x _ _
      cases fuel <;> rfl
    | cons name after ih =>
      intro before fuel x hflatten hfuel
      cases fuel with
      | zero => exact absurd hfuel (Nat.not_lt_zero _)
      | succ fuel =>
        rw [List.head?_cons, mapCompletionTradObarray, obarray.next_eq hflatten, List.foldl_cons]
        exact ih (before ++ [name]) fuel _ (by rw [hflatten, List.append_assoc]; rfl) (Nat.lt_of_succ_lt_succ hfuel)
  have hfirst : obarray.xemacsNextIterationInVector none = obarray.buckets.flatten.head? := obarray.firstFrom_eq 0
  rw [hfirst]
  exact hrun _ [] _ x rfl (Nat.lt_succ_self _)

end Obarray

namespace Collection

/-- The strings or symbols of a collection, with what the predicate is asked about. -/
def elements : Collection → List (LispObject × LispObject)
  | list elts => elts.map fun elt => (eltstring elt, elt)
  | vector obarray => obarray.buckets.flatten.map fun name => (.string name, .symbol name)
  | hashTable entries => entries

def candidates (S : Settings) (string : List ℕ) (pred : Option Predicate) (collection : Collection) : List (List ℕ) :=
  collection.elements.filterMap fun p => candidate S string pred collection.hashTablep p.1 p.2

theorem mapCompletion_eq {τ : Type*} (function : LispObject → LispObject → τ → τ) (x : τ) (collection : Collection) :
    mapCompletion function x collection = collection.elements.foldl (fun x p => function p.1 p.2 x) x := by
  cases collection with
  | list elts =>
    rw [elements, List.foldl_map]
    rfl
  | vector obarray =>
    rw [elements, List.foldl_map]
    exact obarray.mapCompletionTradObarray_eq function x
  | hashTable entries => rfl

end Collection

theorem Tracks.foldl {S : Settings} {string : List ℕ} {pred : Option Predicate} {hashTablep : Bool} {seen : List (List ℕ)}
    {tcc : TryCompletionClosure} (elements : List (LispObject × LispObject)) (h : Tracks S string pred hashTablep seen tcc) :
    Tracks S string pred hashTablep (seen ++ elements.filterMap fun p => candidate S string pred hashTablep p.1 p.2)
      (elements.foldl (fun tcc p => tryCompletionMapper S p.1 p.2 tcc) tcc) := by
  induction elements generalizing seen tcc with
  | nil => rwa [List.filterMap_nil, List.append_nil]
  | cons p elements ih =>
    have hnext := ih (tryCompletionMapper_tracks h p.1 p.2)
    rw [List.append_assoc] at hnext
    rw [List.foldl_cons, List.filterMap_cons]
    cases hcandidate : candidate S string pred hashTablep p.1 p.2 with
    | none => rwa [hcandidate] at hnext
    | some elt => rwa [hcandidate] at hnext

/-- Case is told apart: nothing, an exact match, or the longest common prefix. -/
structure CompletesExactly (string : List ℕ) (C : List (List ℕ)) (r : Result) : Prop where
  nil_iff : r = .nil ↔ C = []
  t_iff : r = .t ↔ C = [string]
  longest : C ≠ [] → C ≠ [string] → ∃ out, r = .string out ∧ (∀ s ∈ C, out <+: s) ∧
    ∀ common, (∀ s ∈ C, common <+: s) → common <+: out

/-- What is returned where case is ignored: the text itself, only if nothing is added to it and no candidate is as
short, or part of a candidate. -/
structure LongestIgnoringCase (canoncase : ℕ → ℕ) (string : List ℕ) (C : List (List ℕ)) (out : List ℕ) : Prop where
  length_eq : IsGreatest {n | Common canoncase C n} out.length
  unchanged_or_prefix : (out = string ∧ ∀ s ∈ C, s.length ≠ out.length) ∨ ∃ s ∈ C, out <+: s
  whole : (∃ s ∈ C, s.length = out.length) → out ∈ C

structure CompletesIgnoringCase (canoncase : ℕ → ℕ) (string : List ℕ) (C : List (List ℕ)) (r : Result) : Prop where
  nil_iff : r = .nil ↔ C = []
  longest : ∀ out, r = .string out → LongestIgnoringCase canoncase string C out
  t_only : r = .t → C = [string]

section Completion

variable {S : Settings} {string best : List ℕ} {pred : Option Predicate} {hashTablep : Bool} {C : List (List ℕ)}
  {tcc : TryCompletionClosure}

theorem t_iff_of_best (h : Tracks S string pred hashTablep C tcc) (hbest : tcc.bestmatch = some best) :
    (tcc.matchcount = 1 ∧ tcc.bestmatchsize = tcc.slength ∧
      0 > scmp1 S.canoncase best tcc.string tcc.bestmatchsize false) ↔ C = [string] := by
  obtain ⟨-, hmem, hcommon, -⟩ := h.best best hbest
  have hsize : tcc.bestmatchsize ≤ best.length := (((hcommon _).mpr le_rfl) best hmem).1
  have hscmp (hslength : tcc.bestmatchsize = string.length) : 0 > scmp1 S.canoncase best string tcc.bestmatchsize false ↔
      best.take tcc.bestmatchsize = string := by
    rw [scmp1_neg_iff false hsize (le_of_eq hslength), keyOf, if_neg Bool.false_ne_true, List.map_id, List.map_id,
      List.take_of_length_le (le_of_eq hslength.symm)]
  rw [h.matchcount_eq, h.slength_eq, h.string_eq, List.length_eq_one_iff]
  constructor
  · rintro ⟨⟨elt, rfl⟩, hslength, hneg⟩
    obtain rfl := List.mem_singleton.mp hmem
    have hle := (hcommon best.length).mp (common_singleton.mpr le_rfl)
    have htake := (hscmp hslength).mp hneg
    rw [List.take_of_length_le hle] at htake
    rw [htake]
  · rintro rfl
    obtain rfl := List.mem_singleton.mp hmem
    have hslength : tcc.bestmatchsize = best.length :=
      le_antisymm hsize ((hcommon best.length).mp (common_singleton.mpr le_rfl))
    exact ⟨⟨best, rfl⟩, hslength, (hscmp hslength).mpr (List.take_of_length_le (le_of_eq hslength.symm))⟩

theorem completion_some (h : Tracks S string pred hashTablep C tcc) (hbest : tcc.bestmatch = some best) :
    completion S tcc =
      if S.ignoreCase ∧ tcc.bestmatchsize = string.length ∧ best.length > tcc.bestmatchsize then .string string
      else if C = [string] then .t else .string (best.take tcc.bestmatchsize) := by
  have hiff := t_iff_of_best h hbest
  rw [completion, hbest]
  dsimp only
  rw [if_congr hiff rfl rfl, h.slength_eq, h.string_eq, (h.best best hbest).1]

theorem completion_exactly (h : Tracks S string pred hashTablep C tcc) (hcase : S.ignoreCase = false) :
    CompletesExactly string C (completion S tcc) := by
  cases hbest : tcc.bestmatch with
  | none =>
    obtain rfl := h.start hbest
    rw [completion, hbest]
    exact ⟨by simp, by simp, fun hne => absurd rfl hne⟩
  | some best =>
    obtain ⟨-, hmem, hcommon, -⟩ := h.best best hbest
    have hkey : S.key = id := by rw [Settings.key, keyOf, hcase, if_neg Bool.false_ne_true]
    rw [completion_some h hbest, if_neg fun hand => Bool.false_ne_true (hcase.symm.trans hand.1)]
    split_ifs with hC
    · exact ⟨by simp [hC], by simp [hC], fun _ hne => absurd hC hne⟩
    · refine ⟨by simp [List.ne_nil_of_mem hmem], by simp [hC], fun _ _ =>
        ⟨_, rfl, fun s hs => ?_, fun common hall => ?_⟩⟩
      · have htake := (((hcommon _).mpr le_rfl) best hmem).2 s hs
        rw [hkey, List.map_id, List.map_id] at htake
        rw [htake]
        exact List.take_prefix _ _
      · -- a common prefix is no longer than what all agree on
        have hprefix : Common S.key C common.length := fun s hs => ⟨(hall s hs).length_le, fun t ht => by
          rw [hkey, List.map_id, List.map_id, ← List.prefix_iff_eq_take.mp (hall s hs),
            ← List.prefix_iff_eq_take.mp (hall t ht)]⟩
        exact List.prefix_take_iff.mpr ⟨hall best hmem, (hcommon _).mp hprefix⟩

theorem completion_ignoringCase (h : Tracks S string pred hashTablep C tcc) (hcase : S.ignoreCase = true) :
    CompletesIgnoringCase S.canoncase string C (completion S tcc) := by
  cases hbest : tcc.bestmatch with
  | none =>
    obtain rfl := h.start hbest
    rw [completion, hbest]
    exact ⟨by simp, fun _ hout => Result.noConfusion hout, fun ht => Result.noConfusion ht⟩
  | some best =>
    obtain ⟨-, hmem, hcommon, hexact⟩ := h.best best hbest
    have hkey : S.key = S.canoncase := by rw [Settings.key, keyOf, hcase, if_pos rfl]
    have hsize : tcc.bestmatchsize ≤ best.length := (((hcommon _).mpr le_rfl) best hmem).1
    have hgreatest : IsGreatest {n | Common S.canoncase C n} tcc.bestmatchsize := by
      rw [← hkey]
      exact ⟨(hcommon _).mpr le_rfl, fun n hn => (hcommon n).mp hn⟩
    rw [completion_some h hbest]
    split_ifs with hunchanged hC
    · obtain ⟨-, hlength, hlonger⟩ := hunchanged
      have hno : ∀ s ∈ C, s.length ≠ string.length := fun s hs heq =>
        absurd (hexact hcase ⟨s, hs, heq.trans hlength.symm⟩) (ne_of_gt hlonger)
      refine ⟨by simp [List.ne_nil_of_mem hmem], fun out hout => ?_, fun ht => Result.noConfusion ht⟩
      obtain rfl := Result.string.inj hout
      refine ⟨by rwa [← hlength], .inl ⟨rfl, hno⟩, fun hwhole => ?_⟩
      obtain ⟨s, hs, heq⟩ := hwhole
      exact absurd heq (hno s hs)
    · exact ⟨by simp [hC], fun _ hout => Result.noConfusion hout, fun _ => hC⟩
    · have hlength : (best.take tcc.bestmatchsize).length = tcc.bestmatchsize := List.length_take_of_le hsize
      refine ⟨by simp [List.ne_nil_of_mem hmem], fun out hout => ?_, fun ht => Result.noConfusion ht⟩
      rw [← Result.string.inj hout]
      refine ⟨by rwa [hlength], .inr ⟨best, hmem, List.take_prefix _ _⟩, fun hwhole => ?_⟩
      rw [hlength] at hwhole
      rwa [List.take_of_length_le (le_of_eq (hexact hcase hwhole))]

end Completion

end XEmacs.Completion
