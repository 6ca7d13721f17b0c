import Mathlib.Data.List.Flatten
import XEmacs.Lib.Firsts
import XEmacs.Lisp.PlistEntries

/-! `canonicalize-plist` and `canonicalize-lax-plist`, which edit a list while they walk over it. An
entry is kept and the later ones of its property are removed; an entry with a nil value that is not
to be present is passed over, which takes it out of the list only at the head. -/

namespace XEmacs.Plists

open Lib

variable {α : Type}

section

variable [DecidableEq α]

/-- `while (external_remprop (place, prop, laxp, ERROR_ME)) DO_NOTHING;`. -/
def Memory.removeAll (test : Obj α → Bool) (place : Place) : ℕ → Memory α → Option (Returned α Unit)
  | 0, _ => none
  | fuel + 1, m => (m.externalRemprop place fuel test .errorMe).bind fun
    | (m', .ok true) => removeAll test place fuel m'
    | (m', .ok false) => some (m', .ok ())
    | (m', .error e) => some (m', .error e)

namespace Heap

variable (same : Obj α → Obj α → Bool) (nilMeansNotPresent : Bool)

/-- The loop of `canonicalize-plist`; undefined where it takes the car or the cdr of no cons. -/
def canonicalizeLoop : ℕ → Heap α → (head plist : Obj α) → Option (Heap α × Except (PlistError α) (Obj α))
  | 0, _, _, _ => none
  | fuel + 1, h, head, plist =>
    if plist = nil then some (h, .ok head)
    else
      (h.xcar plist).bind fun prop => (h.xcdr plist).bind fun next => (h.xcar next).bind fun value =>
        if nilMeansNotPresent = true ∧ value = nil then
          (h.xcdr next).bind fun rest => canonicalizeLoop fuel h (if head = plist then rest else head) rest
        else
          match next with
          | .atom _ => none
          | .cons y => (Memory.removeAll (same · prop) (.cdr y) fuel ⟨h, nil⟩).bind fun
            | (m, .ok _) => canonicalizeLoop fuel m.heap head (m.heap.cdr y)
            | (m, .error e) => some (m.heap, .error e)

/-- `canonicalize-plist` with a test of properties. -/
def canonicalize (h : Heap α) (fuel : ℕ) (plist : Obj α) : Option (Heap α × Except (PlistError α) (Obj α)) :=
  (h.checkValidPlist fuel plist).bind fun
    | (m, .ok _) => canonicalizeLoop same nilMeansNotPresent fuel m.heap plist plist
    | (m, .error e) => some (m.heap, .error e)

def canonicalizePlist (h : Heap α) (fuel : ℕ) (plist : Obj α) : Option (Heap α × Except (PlistError α) (Obj α)) :=
  canonicalize (fun a b => decide (a = b)) nilMeansNotPresent h fuel plist

/-- `canonicalize-lax-plist`, where `same` is `equal`. -/
def canonicalizeLaxPlist (h : Heap α) (fuel : ℕ) (plist : Obj α) : Option (Heap α × Except (PlistError α) (Obj α)) :=
  canonicalize same nilMeansNotPresent h fuel plist

def sameProperty (h : Heap α) (e e' : Entry) : Bool := same (h.car e.1) (h.car e'.1)

def nilValue (h : Heap α) (e : Entry) : Bool := decide (h.car e.2 = nil)

/-- The first entries of the properties, without those that are not to be present. -/
def canonical (h : Heap α) (l : List Entry) : List Entry :=
  (firsts (h.sameProperty same) l).filter fun e => !(nilMeansNotPresent && h.nilValue e)

end Heap

end

namespace Heap

variable {h h' : Heap α} {o o' v head plist : Obj α} {l l' kept rest : List Entry} {e : Entry} {y fuel : ℕ}

theorem mem_cells_of_mem {x : ℕ} (he : e ∈ l) (hx : x = e.1 ∨ x = e.2) : x ∈ cells l :=
  List.mem_flatMap.mpr ⟨e, he, by simpa using hx⟩

theorem cells_sublist (h : l.Sublist l') : (cells l).Sublist (cells l') := h.flatMap _

theorem snd_mem_cells {x : ℕ} (hx : x ∈ l.map Prod.snd) : x ∈ cells l := by
  obtain ⟨e, he, rfl⟩ := List.mem_map.mp hx
  exact mem_cells_of_mem he (.inr rfl)

def setCdr (h : Heap α) (x : ℕ) (o : Obj α) : Heap α := { h with cdr := Function.update h.cdr x o }

theorem setCdr_cdr_of_ne {x z : ℕ} (hz : z ≠ x) (o : Obj α) : (h.setCdr x o).cdr z = h.cdr z := by
  show Function.update h.cdr x o z = h.cdr z
  exact Function.update_of_ne hz o h.cdr

theorem setCdr_cdr_self (h : Heap α) (x : ℕ) (o : Obj α) : (h.setCdr x o).cdr x = o := by
  show Function.update h.cdr x o x = o
  exact Function.update_self x o h.cdr

theorem findPlace_cdr (test : Obj α → Bool) (hl : h.Entries (h.cdr y) l nil) (hy : y ∉ cells l) :
    (Memory.findPlace ⟨h, v⟩ test (.cdr y) l = .ended ∧ ∀ e ∈ l, ¬ test (h.car e.1) = true) ∨
    ∃ z e, Memory.findPlace ⟨h, v⟩ test (.cdr y) l = .found (.cdr z) ∧ (z = y ∨ z ∈ l.map Prod.snd) ∧ e ∈ l ∧
      test (h.car e.1) = true ∧ h.cdr z = .cons e.1 ∧ h.cdr e.1 = .cons e.2 ∧
      (h.setCdr z (h.cdr e.2)).Entries ((h.setCdr z (h.cdr e.2)).cdr y) (l.eraseP fun e => test (h.car e.1)) nil := by
  have hnodup := hl.nodup
  induction l generalizing y with
  | nil => exact .inl ⟨rfl, fun e he => absurd he List.not_mem_nil⟩
  | cons e l ih =>
    obtain ⟨hfirst, hsecond, hrest⟩ := hl
    rw [cells_cons, List.nodup_cons, List.nodup_cons] at hnodup
    rw [cells_cons, List.mem_cons, List.mem_cons, not_or, not_or] at hy
    rw [Memory.findPlace]
    by_cases htest : test (h.car e.1) = true
    · rw [if_pos htest, @List.eraseP_cons_of_pos _ e l (fun e => test (h.car e.1)) htest]
      refine .inr ⟨y, e, rfl, .inl rfl, List.mem_cons_self, htest, hfirst, hsecond, ?_⟩
      rw [setCdr_cdr_self]
      exact Entries.congr hrest fun x hx => setCdr_cdr_of_ne (fun heq : x = y => hy.2.2 (heq ▸ hx)) _
    · rw [if_neg htest, @List.eraseP_cons_of_neg _ e l (fun e => test (h.car e.1)) htest]
      rcases ih hrest hnodup.2.1 hnodup.2.2 with ⟨hfind, hnone⟩ | ⟨z, e', hfind, hz, he', htest', hread, hnext, hl'⟩
      · refine .inl ⟨hfind, fun e' he' => ?_⟩
        rcases List.mem_cons.mp he' with rfl | he'
        · exact htest
        · exact hnone e' he'
      · have hplace : z ∈ e.2 :: cells l := by
          rcases hz with rfl | hz
          · exact List.mem_cons_self
          · exact List.mem_cons_of_mem _ (snd_mem_cells hz)
        have hzy : y ≠ z := fun heq => by
          rcases List.mem_cons.mp (heq ▸ hplace) with heq | hmem
          · exact hy.2.1 heq
          · exact hy.2.2 hmem
        have hze : e.1 ≠ z := fun heq => hnodup.1 (heq ▸ hplace)
        refine .inr ⟨z, e', hfind, .inr ?_, List.mem_cons_of_mem e he', htest', hread, hnext, ?_⟩
        · rcases hz with rfl | hz
          · exact List.mem_cons_self
          · exact List.mem_cons_of_mem _ hz
        · rw [entries_cons_iff, setCdr_cdr_of_ne hzy, setCdr_cdr_of_ne hze]
          exact ⟨hfirst, hsecond, hl'⟩

theorem not_mem_of_disjoint {x z : ℕ} (hnodup : (cells (kept ++ l)).Nodup) (hx : x ∈ cells kept) (hz : z ∈ cells l) : x ≠ z := by
  rw [cells, List.flatMap_append] at hnodup
  exact fun heq => (List.nodup_append.mp hnodup).2.2 x hx z hz heq

theorem head_eq_iff (hhead : h.Entries head kept plist) (hplist : h.Entries plist (e :: l) nil)
    (hnodup : (cells (kept ++ e :: l)).Nodup) : head = plist ↔ kept = [] := by
  cases kept with
  | nil => exact iff_of_true hhead rfl
  | cons k kept =>
    refine iff_of_false (fun heq => ?_) (List.cons_ne_nil k kept)
    have hk : k.1 = e.1 := Ref.cons.inj ((hhead.1.symm.trans heq).trans hplist.1)
    exact not_mem_of_disjoint hnodup List.mem_cons_self List.mem_cons_self hk

theorem entries_concat (hhead : h.Entries head kept (.cons e.1)) (hsecond : h.cdr e.1 = .cons e.2) :
    h.Entries head (kept ++ [e]) (h.cdr e.2) :=
  entries_append_iff.mpr ⟨_, hhead, rfl, hsecond, rfl⟩

variable [DecidableEq α]

theorem filter_eraseP {β : Type} (p : β → Bool) (l : List β) : ((l.eraseP p).filter fun b => !p b) = l.filter fun b => !p b := by
  induction l with
  | nil => rfl
  | cons b l ih =>
    by_cases hb : p b = true
    · rw [List.eraseP_cons_of_pos hb, List.filter_cons_of_neg (by simp [hb])]
    · rw [List.eraseP_cons_of_neg hb, List.filter_cons_of_pos (by simp [hb]), List.filter_cons_of_pos (by simp [hb]), ih]

theorem removeAll_spec (test : Obj α → Bool) (hl : h.Entries (h.cdr y) l nil) (hy : y ∉ cells l) (hfuel : l.length + 1 < fuel) :
    ∃ h', Memory.removeAll test (.cdr y) fuel ⟨h, v⟩ = some (⟨h', v⟩, .ok ()) ∧ h'.car = h.car ∧
      h'.Entries (h'.cdr y) (l.filter fun e => !test (h.car e.1)) nil ∧
      ∀ z, z ≠ y → z ∉ l.map Prod.snd → h'.cdr z = h.cdr z := by
  induction fuel generalizing h l with
  | zero => exact absurd hfuel (Nat.not_lt_zero _)
  | succ fuel ih =>
    have hloop := @Memory.plistLoop_eq _ ⟨h, v⟩ (.cdr y) l test fuel _ .errorMe hl (Nat.lt_of_succ_lt_succ hfuel)
    rw [Memory.removeAll]
    rcases findPlace_cdr (v := v) test hl hy with ⟨hfind, hnone⟩ | ⟨z, e, hfind, hz, he, htest, hread, hnext, hl'⟩
    · rw [hfind] at hloop
      rw [Memory.externalRemprop, hloop]
      refine ⟨h, rfl, rfl, ?_, fun _ _ _ => rfl⟩
      rwa [List.filter_eq_self.mpr fun e he => by simpa using hnone e he]
    · rw [hfind] at hloop
      rw [Memory.externalRemprop_found hloop hread hnext, Option.bind_some]
      have hsublist : (l.eraseP fun e => test (h.car e.1)).Sublist l := List.eraseP_sublist
      have hlength := @List.length_eraseP_of_mem _ l e (fun e => test (h.car e.1)) he htest
      have hpos := List.length_pos_of_mem he
      obtain ⟨h', hrun, hcar, hl'', hframe⟩ := ih hl' (fun hmem => hy ((cells_sublist hsublist).subset hmem)) (by omega)
      have hcar' : h'.car = h.car := hcar
      refine ⟨h', hrun, hcar', ?_, fun x hx hx' => ?_⟩
      · rwa [show (h.setCdr z (h.cdr e.2)).car = h.car from rfl, filter_eraseP] at hl''
      · rw [hframe x hx fun hmem => hx' ((hsublist.map _).subset hmem)]
        refine setCdr_cdr_of_ne (fun heq => ?_) _
        rcases hz with rfl | hz
        · exact hx heq
        · exact hx' (heq ▸ hz)

variable {same : Obj α → Obj α → Bool} {nilMeansNotPresent : Bool}

theorem canonicalizeLoop_spec (hhead : h.Entries head kept plist) (hplist : h.Entries plist l nil) (hfuel : l.length + 1 < fuel) :
    ∃ h' o, canonicalizeLoop same nilMeansNotPresent fuel h head plist = some (h', .ok o) ∧ h'.car = h.car ∧
      h'.Entries o (kept ++ firstsPassing (h.sameProperty same) (fun e => nilMeansNotPresent && h.nilValue e) kept.isEmpty l) nil := by
  induction fuel generalizing h head plist kept l with
  | zero => exact absurd hfuel (Nat.not_lt_zero _)
  | succ fuel ih =>
    have hnodup : (cells (kept ++ l)).Nodup := Entries.nodup (entries_append_iff.mpr ⟨plist, hhead, hplist⟩)
    rw [canonicalizeLoop]
    cases l with
    | nil =>
      have hnil : plist = nil := hplist
      rw [if_pos hnil, firstsPassing, List.append_nil]
      exact ⟨h, head, rfl, rfl, hnil ▸ hhead⟩
    | cons e l =>
      obtain ⟨hfirst, hsecond, hrest⟩ := id hplist
      have hheadIff := head_eq_iff hhead hplist hnodup
      have hlength : l.length + 1 < fuel := Nat.lt_of_succ_lt_succ hfuel
      have hconcat := entries_concat (hfirst ▸ hhead) hsecond
      rw [if_neg (hfirst ▸ (atom_ne_cons none e.1).symm), firstsPassing]
      simp only [hfirst, xcar, xcdr, hsecond, Option.bind_some]
      by_cases hpass : nilMeansNotPresent = true ∧ h.car e.2 = nil
      · have hvalue : (nilMeansNotPresent && h.nilValue e) = true := by simpa [nilValue] using hpass
        rw [if_pos hpass, if_pos hvalue]
        cases kept with
        | nil =>
          rw [if_pos (hfirst ▸ hheadIff.mpr rfl)]
          exact ih (show h.Entries (h.cdr e.2) [] (h.cdr e.2) from rfl) hrest hlength
        | cons k kept =>
          rw [if_neg (hfirst ▸ mt hheadIff.mp (List.cons_ne_nil k kept))]
          obtain ⟨h', o, hrun, hcar, hl'⟩ := ih hconcat hrest hlength
          refine ⟨h', o, hrun, hcar, ?_⟩
          rwa [List.append_assoc] at hl'
      · have hvalue : ¬ (nilMeansNotPresent && h.nilValue e) = true := by simpa [nilValue] using hpass
        rw [if_neg hpass, if_neg hvalue]
        have hcells := hplist.nodup
        rw [cells_cons, List.nodup_cons, List.nodup_cons] at hcells
        obtain ⟨h₁, hremove, hcar, hrest₁, hframe⟩ :=
          @removeAll_spec _ h nil l e.2 fuel _ (same · (h.car e.1)) hrest hcells.2.1 hlength
        simp only [hremove, Option.bind_some]
        have hother {x : ℕ} (hx : x ∈ cells kept ∨ x = e.1) : h₁.cdr x = h.cdr x := by
          rcases hx with hx | rfl
          · refine hframe x (not_mem_of_disjoint hnodup hx (mem_cells_of_mem List.mem_cons_self (.inr rfl))) fun hmem => ?_
            exact not_mem_of_disjoint hnodup hx (List.mem_cons_of_mem _ (List.mem_cons_of_mem _ (snd_mem_cells hmem))) rfl
          · refine hframe e.1 (fun heq => hcells.1 (heq ▸ List.mem_cons_self)) fun hmem => ?_
            exact hcells.1 (List.mem_cons_of_mem _ (snd_mem_cells hmem))
        have hhead₁ : h₁.Entries head (kept ++ [e]) (h₁.cdr e.2) :=
          entries_concat ((hfirst ▸ hhead).congr fun x hx => hother (.inl hx)) ((hother (.inr rfl)).trans hsecond)
        have hlength₁ : (others (h.sameProperty same) e l).length + 1 < fuel :=
          lt_of_le_of_lt (Nat.succ_le_succ (length_others_le _ _ _)) hlength
        obtain ⟨h', o, hrun, hcar', hl'⟩ := ih hhead₁ hrest₁ hlength₁
        have hproperty : h₁.sameProperty same = h.sameProperty same := by
          funext a b
          rw [sameProperty, sameProperty, hcar]
        have hnil : h₁.nilValue = h.nilValue := by
          funext a
          rw [nilValue, nilValue, hcar]
        rw [hproperty, hnil, List.append_assoc, List.isEmpty_eq_false_iff.mpr (by simp)] at hl'
        exact ⟨h', o, hrun, hcar'.trans hcar, hl'⟩

theorem canonicalize_spec (hl : h.Entries plist l nil) (hfuel : l.length + 1 < fuel) :
    ∃ h' o, canonicalize same nilMeansNotPresent h fuel plist = some (h', .ok o) ∧ h'.car = h.car ∧
      h'.Entries o (firstsPassing (h.sameProperty same) (fun e => nilMeansNotPresent && h.nilValue e) true l) nil := by
  rw [canonicalize, checkValidPlist_eq hl (Nat.lt_of_succ_lt hfuel)]
  exact canonicalizeLoop_spec (show h.Entries plist [] plist from rfl) hl hfuel

/-- No property that occurs after the leading nil values has nil as its first value. -/
def FirstsPresent (h : Heap α) (same : Obj α → Obj α → Bool) (l : List Entry) : Prop :=
  ∀ e ∈ l.dropWhile h.nilValue, ∀ e', l.find? (h.sameProperty same · e) = some e' → ¬ h.nilValue e' = true

theorem canonicalize_iff (hsame : Equivalent same) (hl : h.Entries plist l nil) (hfuel : l.length + 1 < fuel) :
    (∃ h' o, canonicalize same nilMeansNotPresent h fuel plist = some (h', .ok o) ∧ h'.car = h.car ∧
      h'.Entries o (h.canonical same nilMeansNotPresent l) nil) ↔
      nilMeansNotPresent = false ∨ h.FirstsPresent same l := by
  have hproperty : Equivalent (h.sameProperty same) :=
    ⟨fun e => hsame.refl _, fun hab => hsame.symm hab, fun hab hbc => hsame.trans hab hbc⟩
  have hiff := @firstsPassing_eq_iff _ _ (fun e => nilMeansNotPresent && h.nilValue e) hproperty l
  have hcond : (∀ e ∈ l.dropWhile (fun e => nilMeansNotPresent && h.nilValue e), ∀ e', l.find? (h.sameProperty same · e) = some e' →
      ¬ (nilMeansNotPresent && h.nilValue e') = true) ↔ nilMeansNotPresent = false ∨ h.FirstsPresent same l := by
    cases nilMeansNotPresent with
    | false => simp
    | true => simp [FirstsPresent]
  rw [← hcond, ← hiff]
  obtain ⟨h₁, o₁, hrun, hcar, hl₁⟩ := @canonicalize_spec _ h plist l fuel _ same nilMeansNotPresent hl hfuel
  constructor
  · rintro ⟨h', o, hrun', -, hl'⟩
    rw [hrun, Option.some.injEq, Prod.mk.injEq, Except.ok.injEq] at hrun'
    obtain ⟨rfl, rfl⟩ := hrun'
    exact Entries.unique hl₁ hl'
  · intro heq
    refine ⟨h₁, o₁, hrun, hcar, ?_⟩
    rw [canonical, ← heq]
    exact hl₁

/-- The list returned has just the first entries of the properties, unless nil values are dropped
and a property after the leading ones has one first. -/
theorem canonicalizePlist_iff {equal : Obj α → Obj α → Bool} (hequal : Equivalent equal) (hl : h.Entries plist l nil)
    (hfuel : l.length + 1 < fuel) (nilMeansNotPresent : Bool) :
    ((∃ h' o, h.canonicalizePlist nilMeansNotPresent fuel plist = some (h', .ok o) ∧ h'.car = h.car ∧
      h'.Entries o (h.canonical (fun a b => decide (a = b)) nilMeansNotPresent l) nil) ↔
        nilMeansNotPresent = false ∨ h.FirstsPresent (fun a b => decide (a = b)) l) ∧
    ((∃ h' o, h.canonicalizeLaxPlist equal nilMeansNotPresent fuel plist = some (h', .ok o) ∧ h'.car = h.car ∧
      h'.Entries o (h.canonical equal nilMeansNotPresent l) nil) ↔
        nilMeansNotPresent = false ∨ h.FirstsPresent equal l) := by
  refine ⟨canonicalize_iff ⟨fun a => ?_, fun hab => ?_, fun hab hbc => ?_⟩ hl hfuel, canonicalize_iff hequal hl hfuel⟩
  · exact decide_eq_true rfl
  · exact decide_eq_true (of_decide_eq_true hab).symm
  · exact decide_eq_true ((of_decide_eq_true hab).trans (of_decide_eq_true hbc))

def nilSecond : Heap ℕ where
  car x := ([.atom (some 97), .atom (some 1), .atom (some 98)] : List (Obj ℕ)).getD x nil
  cdr x := if x < 3 then .cons (x + 1) else nil
  next := 4

theorem canonicalizePlist_iff_nilSecond :
    let same : Obj ℕ → Obj ℕ → Bool := fun a b => decide (a = b)
    ((∃ h' o, nilSecond.canonicalizePlist false 4 (.cons 0) = some (h', .ok o) ∧ h'.car = nilSecond.car ∧
      h'.Entries o (nilSecond.canonical same false [(0, 1), (2, 3)]) nil) ↔
        false = false ∨ nilSecond.FirstsPresent same [(0, 1), (2, 3)]) ∧
    ((∃ h' o, nilSecond.canonicalizeLaxPlist same false 4 (.cons 0) = some (h', .ok o) ∧ h'.car = nilSecond.car ∧
      h'.Entries o (nilSecond.canonical same false [(0, 1), (2, 3)]) nil) ↔
        false = false ∨ nilSecond.FirstsPresent same [(0, 1), (2, 3)]) :=
  canonicalizePlist_iff ⟨by simp, by simp +contextual, by simp +contextual⟩ (by simp [Entries, cells, Leads, nilSecond]) (by decide) false

/-- A nil value after another entry stays. -/
theorem canonicalizePlist_nilSecond :
    ¬ ∃ h' o, nilSecond.canonicalizePlist true 4 (.cons 0) = some (h', .ok o) ∧ h'.car = nilSecond.car ∧
      h'.Entries o (nilSecond.canonical (fun a b => decide (a = b)) true [(0, 1), (2, 3)]) nil := by
  have hl : nilSecond.Entries (.cons 0) [(0, 1), (2, 3)] nil := by simp [Entries, cells, Leads, nilSecond]
  rw [canonicalizePlist, canonicalize_iff ⟨by simp, by simp +contextual, by simp +contextual⟩ hl (by decide)]
  rintro (hfalse | hpresent)
  · exact absurd hfalse.symm Bool.false_ne_true
  · exact hpresent (2, 3) (by decide) (2, 3) (by decide) (by decide)

end Heap

end XEmacs.Plists
