import Mathlib.Data.Option.Basic
import XEmacs.Lib.Firsts
import XEmacs.Lisp.PlistEntries

/-! `plists_differ`. Only the first entry of a property in the first list is ever marked as found,
so lists with the same values are taken to differ where a property comes twice there, or with two
values in the second. -/

namespace XEmacs.Plists

open Lib

variable {α : Type}

abbrev Pair (α : Type) : Type := Obj α × Obj α

def present [DecidableEq α] (nilMeansNotPresent : Bool) (value : Obj α) : Bool := !(nilMeansNotPresent && decide (value = nil))

/-- Find an entry of the second list among those of the first and mark it; none at a mismatch. -/
def markMatch (sameKey sameValue : Obj α → Obj α → Bool) (p : Pair α) : List (Pair α × Bool) → Option (List (Pair α × Bool))
  | [] => none
  | (q, flag) :: rest =>
    if sameKey p.1 q.1 then (if sameValue p.2 q.2 then some ((q, true) :: rest) else none)
    else (markMatch sameKey sameValue p rest).map ((q, flag) :: ·)

/-- The second loop of `plists_differ`. -/
def markMatches (sameKey sameValue : Obj α → Obj α → Bool) : List (Pair α) → List (Pair α × Bool) → Option (List (Pair α × Bool))
  | [], flags => some flags
  | p :: ps, flags => (markMatch sameKey sameValue p flags).bind (markMatches sameKey sameValue ps)

/-- The loops of `plists_differ` over the pairs. -/
def pairsDiffer (sameKey sameValue : Obj α → Obj α → Bool) (ps qs : List (Pair α)) : Bool :=
  match markMatches sameKey sameValue qs (ps.map (·, false)) with
  | none => true
  | some flags => flags.any fun f => !f.2

namespace Heap

section

variable [DecidableEq α]

/-- The pairs that a loop of `plists_differ` goes over; none where it takes the car or the cdr of no
cons. -/
def readPairs (h : Heap α) (nilMeansNotPresent : Bool) : ℕ → Obj α → Option (List (Pair α))
  | 0, _ => none
  | fuel + 1, rest =>
    if rest = nil then some []
    else
      (h.xcar rest).bind fun k => (h.xcdr rest).bind fun next => (h.xcar next).bind fun v =>
        ((h.xcdr next).bind (readPairs h nilMeansNotPresent fuel)).map fun ps =>
          if present nilMeansNotPresent v then (k, v) :: ps else ps

/-- `plists_differ`; what it allocates is left out. -/
def plistsDiffer (h : Heap α) (sameKey sameValue : Obj α → Obj α → Bool) (nilMeansNotPresent : Bool) (fuel : ℕ)
    (a b : Obj α) : Option (Except (PlistError α) Bool) :=
  if a = nil ∧ b = nil then some (.ok false)
  else (h.checkValidPlist fuel a).bind fun
    | (_, .error e) => some (.error e)
    | (_, .ok _) => (h.checkValidPlist fuel b).bind fun
      | (_, .error e) => some (.error e)
      | (_, .ok _) => (h.readPairs nilMeansNotPresent fuel a).bind fun ps =>
        (h.readPairs nilMeansNotPresent fuel b).map fun qs => .ok (pairsDiffer sameKey sameValue ps qs)

def plistsEq (h : Heap α) (nilMeansNotPresent : Bool) (fuel : ℕ) (a b : Obj α) : Option (Except (PlistError α) Bool) :=
  (h.plistsDiffer (fun k k' => decide (k = k')) (fun v v' => decide (v = v')) nilMeansNotPresent fuel a b).map (·.map (!·))

def plistsEqual (h : Heap α) (equal : Obj α → Obj α → Bool) (nilMeansNotPresent : Bool) (fuel : ℕ) (a b : Obj α) :
    Option (Except (PlistError α) Bool) :=
  (h.plistsDiffer (fun k k' => decide (k = k')) equal nilMeansNotPresent fuel a b).map (·.map (!·))

end

end Heap

/-! ### Marks -/

def markAll [DecidableEq α] (keys : Obj α → Bool) : List (Pair α × Bool) → List (Pair α × Bool)
  | [] => []
  | (q, flag) :: rest => (q, flag || keys q.1) :: markAll (fun k => keys k && decide (k ≠ q.1)) rest

def firstValue [DecidableEq α] (ps : List (Pair α)) (k : Obj α) : Option (Obj α) :=
  (ps.find? fun p => decide (p.1 = k)).map (·.2)

section

variable [DecidableEq α] {same : Obj α → Obj α → Bool} {keys keys' : Obj α → Bool} {ps qs : List (Pair α)} {p q : Pair α}
  {k v : Obj α} {flags flags' : List (Pair α × Bool)}

theorem markAll_none (h : ∀ k, keys k = false) : markAll keys flags = flags := by
  induction flags generalizing keys with
  | nil => rfl
  | cons f rest ih =>
    obtain ⟨q, flag⟩ := f
    rw [markAll, h q.1, Bool.or_false, ih fun k => by rw [h k, Bool.false_and]]

theorem markAll_markAll : markAll keys (markAll keys' flags) = markAll (fun k => keys' k || keys k) flags := by
  induction flags generalizing keys keys' with
  | nil => rfl
  | cons f rest ih =>
    obtain ⟨q, flag⟩ := f
    rw [markAll, markAll, markAll, ih, Bool.or_assoc]
    refine congrArg _ (congrArg (markAll · rest) (funext fun k => ?_))
    cases keys' k <;> cases keys k <;> simp

theorem map_fst_markAll : (markAll keys flags).map (·.1) = flags.map (·.1) := by
  induction flags generalizing keys with
  | nil => rfl
  | cons f rest ih =>
    rw [markAll, List.map_cons, List.map_cons, ih]

theorem all_markAll (ps : List (Pair α)) : ((markAll keys (ps.map (·, false))).all fun f => f.2) = true ↔
    (ps.map (·.1)).Nodup ∧ ∀ p ∈ ps, keys p.1 = true := by
  induction ps generalizing keys with
  | nil => simp [markAll]
  | cons p ps ih =>
    rw [List.map_cons, markAll, List.all_cons, Bool.and_eq_true, ih, List.map_cons, List.nodup_cons, List.forall_mem_cons,
      Bool.false_or]
    constructor
    · rintro ⟨hkey, hnodup, hrest⟩
      refine ⟨⟨fun hmem => ?_, hnodup⟩, hkey, fun q hq => ?_⟩
      · obtain ⟨q, hq, heq⟩ := List.mem_map.mp hmem
        have hne := hrest q hq
        rw [Bool.and_eq_true, decide_eq_true_eq] at hne
        exact hne.2 heq
      · have hkeys := hrest q hq
        rw [Bool.and_eq_true] at hkeys
        exact hkeys.1
    · rintro ⟨⟨hmem, hnodup⟩, hkey, hrest⟩
      refine ⟨hkey, hnodup, fun q hq => ?_⟩
      rw [Bool.and_eq_true, decide_eq_true_eq]
      exact ⟨hrest q hq, fun heq => hmem (heq ▸ List.mem_map_of_mem hq)⟩

theorem firstValue_cons (q : Pair α) (ps : List (Pair α)) (k : Obj α) :
    firstValue (q :: ps) k = if q.1 = k then some q.2 else firstValue ps k := by
  rw [firstValue, List.find?_cons]
  split_ifs with h
  · rw [decide_eq_true h]
    rfl
  · rw [decide_eq_false h]
    rfl

theorem markMatch_eq (p : Pair α) (flags : List (Pair α × Bool)) :
    markMatch (fun k k' => decide (k = k')) same p flags =
      if ∃ v, firstValue (flags.map (·.1)) p.1 = some v ∧ same p.2 v = true then
        some (markAll (fun k => decide (k = p.1)) flags) else none := by
  induction flags with
  | nil => simp [markMatch, firstValue]
  | cons f rest ih =>
    obtain ⟨q, flag⟩ := f
    rw [markMatch, List.map_cons]
    simp only [firstValue_cons, markAll]
    by_cases hkey : p.1 = q.1
    · have hnone : markAll (fun k => decide (k = p.1) && decide (k ≠ q.1)) rest = rest :=
        markAll_none fun k => by
          rw [hkey, Bool.and_eq_false_iff, decide_eq_false_iff_not, decide_eq_false_iff_not]
          exact (em (k = q.1)).symm.imp id not_not.mpr
      rw [decide_eq_true hkey, if_pos rfl, if_pos hkey.symm, hnone, decide_eq_true hkey.symm, Bool.or_true]
      simp
    · have hsame : (fun k => decide (k = p.1) && decide (k ≠ q.1)) = fun k => decide (k = p.1) := by
        funext k
        rw [Bool.and_eq_left_iff_imp, decide_eq_true_eq, decide_eq_true_eq]
        exact fun hk heq => hkey (hk.symm.trans heq)
      rw [decide_eq_false hkey, if_neg Bool.false_ne_true, if_neg (Ne.symm hkey), hsame,
        decide_eq_false (Ne.symm hkey), Bool.or_false, ih]
      split_ifs <;> rfl

theorem markMatches_eq (qs : List (Pair α)) (flags : List (Pair α × Bool)) :
    markMatches (fun k k' => decide (k = k')) same qs flags =
      if ∀ q ∈ qs, ∃ v, firstValue (flags.map (·.1)) q.1 = some v ∧ same q.2 v = true then
        some (markAll (fun k => decide (k ∈ qs.map (·.1))) flags) else none := by
  induction qs generalizing flags with
  | nil =>
    rw [markMatches, if_pos fun q hq => absurd hq List.not_mem_nil, markAll_none]
    exact fun k => decide_eq_false List.not_mem_nil
  | cons q qs ih =>
    rw [markMatches, markMatch_eq]
    by_cases hq : ∃ v, firstValue (flags.map (·.1)) q.1 = some v ∧ same q.2 v = true
    · have hkeys : (fun k => decide (k = q.1) || decide (k ∈ qs.map (·.1))) = fun k => decide (k ∈ (q :: qs).map (·.1)) := by
        funext k
        rw [List.map_cons, ← Bool.decide_or]
        exact decide_eq_decide.mpr List.mem_cons.symm
      rw [if_pos hq, Option.bind_some, ih, map_fst_markAll, markAll_markAll, hkeys]
      refine if_congr ⟨fun h => List.forall_mem_cons.mpr ⟨hq, h⟩, fun h => (List.forall_mem_cons.mp h).2⟩ rfl rfl
    · rw [if_neg hq, Option.bind_none, if_neg fun h => hq (h q List.mem_cons_self)]

/-- All pairs of a property have the same value as the first. -/
def Consistent (same : Obj α → Obj α → Bool) (ps : List (Pair α)) : Prop :=
  ∀ p ∈ ps, ∀ v, firstValue ps p.1 = some v → same p.2 v = true

def SameValues (same : Obj α → Obj α → Bool) (f g : Obj α → Option (Obj α)) : Prop :=
  ∀ k, Option.Rel (fun v w => same v w = true) (f k) (g k)

theorem pairsDiffer_iff (ps qs : List (Pair α)) : pairsDiffer (fun k k' => decide (k = k')) same ps qs = false ↔
    (∀ q ∈ qs, ∃ v, firstValue ps q.1 = some v ∧ same q.2 v = true) ∧ (ps.map (·.1)).Nodup ∧
      ∀ p ∈ ps, p.1 ∈ qs.map (·.1) := by
  have hfst : (ps.map fun p => (p, false)).map (·.1) = ps := by
    rw [List.map_map]
    exact List.map_id' ps
  rw [pairsDiffer, markMatches_eq, hfst]
  by_cases hmatch : ∀ q ∈ qs, ∃ v, firstValue ps q.1 = some v ∧ same q.2 v = true
  · rw [if_pos hmatch, and_iff_right hmatch]
    have hall := @all_markAll _ _ (fun k => decide (k ∈ qs.map (·.1))) ps
    simp only [decide_eq_true_eq] at hall
    rw [← hall]
    simp only [List.any_eq_false, List.all_eq_true]
    simp
  · rw [if_neg hmatch]
    exact iff_of_false Bool.true_eq_false.mp fun h => hmatch h.1

theorem exists_firstValue (hq : q ∈ qs) : ∃ w, firstValue qs q.1 = some w := by
  rw [← Option.isSome_iff_exists, firstValue, Option.isSome_map, List.find?_isSome]
  exact ⟨q, hq, decide_eq_true rfl⟩

theorem mem_of_firstValue (h : firstValue qs k = some v) : (k, v) ∈ qs := by
  obtain ⟨q, hq, rfl⟩ := Option.map_eq_some_iff.mp h
  have hk : decide (q.1 = k) = true := List.find?_some (p := fun q : Pair α => decide (q.1 = k)) hq
  rw [← of_decide_eq_true hk]
  exact List.mem_of_find?_eq_some hq

theorem pairsDiffer_eq_false_iff (hsame : Equivalent same) (ps qs : List (Pair α)) :
    pairsDiffer (fun k k' => decide (k = k')) same ps qs = false ↔
      (ps.map (·.1)).Nodup ∧ Consistent same qs ∧ SameValues same (firstValue ps) (firstValue qs) := by
  rw [pairsDiffer_iff]
  constructor
  · rintro ⟨hmatch, hnodup, hkeys⟩
    have hfound {k w : Obj α} (hw : firstValue qs k = some w) : ∃ v, firstValue ps k = some v ∧ same w v = true :=
      hmatch _ (mem_of_firstValue hw)
    refine ⟨hnodup, fun q hq w hw => ?_, fun k => ?_⟩
    · obtain ⟨v, hv, hqv⟩ := hmatch q hq
      obtain ⟨v', hv', hwv⟩ := hfound hw
      obtain rfl := Option.some.inj (hv.symm.trans hv')
      exact hsame.trans hqv (hsame.symm hwv)
    · cases hw : firstValue qs k with
      | some w =>
        obtain ⟨v, hv, hwv⟩ := hfound hw
        rw [hv]
        exact .some (hsame.symm hwv)
      | none =>
        cases hv : firstValue ps k with
        | none => exact .none
        | some v =>
          obtain ⟨q, hq, heq⟩ := List.mem_map.mp (hkeys _ (mem_of_firstValue hv))
          obtain ⟨w, hw'⟩ := exists_firstValue hq
          rw [show q.1 = k from heq, hw] at hw'
          exact absurd hw' (Option.some_ne_none w).symm
  · rintro ⟨hnodup, hconsistent, hvalues⟩
    refine ⟨fun q hq => ?_, hnodup, fun p hp => ?_⟩
    · obtain ⟨w, hw⟩ := exists_firstValue hq
      have hrel := hvalues q.1
      rw [hw] at hrel
      cases hv : firstValue ps q.1 with
      | none =>
        rw [hv] at hrel
        cases hrel
      | some v =>
        rw [hv] at hrel
        cases hrel with
        | some hvw => exact ⟨v, rfl, hsame.trans (hconsistent q hq w hw) (hsame.symm hvw)⟩
    · obtain ⟨v, hv⟩ := exists_firstValue hp
      have hrel := hvalues p.1
      rw [hv] at hrel
      cases hw : firstValue qs p.1 with
      | none =>
        rw [hw] at hrel
        cases hrel
      | some w => exact List.mem_map.mpr ⟨_, mem_of_firstValue hw, rfl⟩

end

namespace Heap

/-! ### Lists -/

section

variable [DecidableEq α] {h : Heap α} {a b o : Obj α} {l l' : List Entry} {fuel : ℕ} {same : Obj α → Obj α → Bool}
  {nilMeansNotPresent : Bool}

/-- The pairs of some entries, without those that are not present. -/
def presentPairs (h : Heap α) (nilMeansNotPresent : Bool) (l : List Entry) : List (Pair α) :=
  (l.map h.pair).filter fun p => present nilMeansNotPresent p.2

theorem readPairs_eq (hl : h.Entries o l nil) (hfuel : l.length < fuel) :
    h.readPairs nilMeansNotPresent fuel o = some (h.presentPairs nilMeansNotPresent l) := by
  induction l generalizing o fuel with
  | nil =>
    obtain ⟨fuel, rfl⟩ := Nat.exists_eq_add_one_of_ne_zero (Nat.ne_zero_of_lt hfuel)
    have hnil : o = nil := hl
    rw [readPairs, if_pos hnil]
    rfl
  | cons e l ih =>
    obtain ⟨fuel, rfl⟩ := Nat.exists_eq_add_one_of_ne_zero (Nat.ne_zero_of_lt hfuel)
    obtain ⟨rfl, hsecond, hrest⟩ := hl
    have hne : (.cons e.1 : Obj α) ≠ nil := (atom_ne_cons none e.1).symm
    rw [readPairs, if_neg hne]
    simp only [xcar, xcdr, hsecond, Option.bind_some, ih hrest (Nat.lt_of_succ_lt_succ hfuel), Option.map_some]
    rw [presentPairs, presentPairs, List.map_cons, List.filter_cons]
    rfl

/-- What `plist-get` reads for a property: its value, where nil may mean that there is none. -/
def Maps (h : Heap α) (nilMeansNotPresent : Bool) (fuel : ℕ) (plist k : Obj α) (value : Option (Obj α)) : Prop :=
  ∃ v, Memory.externalPlistGet ⟨h, plist⟩ .field fuel (fun o => decide (o = k)) .errorMe = some (⟨h, plist⟩, .ok v) ∧
    value = v.filter (present nilMeansNotPresent)

def SameMapping (h : Heap α) (same : Obj α → Obj α → Bool) (nilMeansNotPresent : Bool) (fuel : ℕ) (a b : Obj α) : Prop :=
  ∀ k, ∃ v w, h.Maps nilMeansNotPresent fuel a k v ∧ h.Maps nilMeansNotPresent fuel b k w ∧
    Option.Rel (fun v w => same v w = true) v w

theorem externalPlistGet_eq (hl : h.Entries o l nil) (hfuel : l.length < fuel) (k : Obj α) :
    Memory.externalPlistGet ⟨h, o⟩ .field fuel (fun o => decide (o = k)) .errorMe =
      some (⟨h, o⟩, .ok (firstValue (l.map h.pair) k)) := by
  have hloop := @Memory.plistLoop_eq _ ⟨h, o⟩ .field l (fun o => decide (o = k)) fuel _ .errorMe hl hfuel
  rw [firstValue, List.find?_map, Option.map_map]
  rcases @Memory.findPlace_spec _ ⟨h, o⟩ .field l (fun o => decide (o = k)) hl with ⟨hfind, hnone⟩ | ⟨place, e, hfind, hsome, hread, hnext⟩
  · rw [hfind] at hloop
    rw [Memory.externalPlistGet, hloop, show l.find? ((fun p => decide (p.1 = k)) ∘ h.pair) = none from hnone]
    rfl
  · rw [hfind] at hloop
    rw [Memory.externalPlistGet_found hloop hread hnext, show l.find? ((fun p => decide (p.1 = k)) ∘ h.pair) = some e from hsome]
    rfl

theorem sameMapping_iff (ha : h.Entries a l nil) (hb : h.Entries b l' nil) (hl : l.length < fuel) (hl' : l'.length < fuel) :
    h.SameMapping same nilMeansNotPresent fuel a b ↔
      SameValues same (fun k => (firstValue (l.map h.pair) k).filter (present nilMeansNotPresent))
        (fun k => (firstValue (l'.map h.pair) k).filter (present nilMeansNotPresent)) := by
  refine forall_congr' fun k => ⟨?_, fun hrel => ?_⟩
  · rintro ⟨v, w, ⟨v', hv, rfl⟩, ⟨w', hw, rfl⟩, hrel⟩
    rw [externalPlistGet_eq ha hl, Option.some.injEq, Prod.mk.injEq, Except.ok.injEq] at hv
    rw [externalPlistGet_eq hb hl', Option.some.injEq, Prod.mk.injEq, Except.ok.injEq] at hw
    rw [← hv.2, ← hw.2] at hrel
    exact hrel
  · exact ⟨_, _, ⟨_, externalPlistGet_eq ha hl k, rfl⟩, ⟨_, externalPlistGet_eq hb hl' k, rfl⟩, hrel⟩

theorem SameMapping.refl (hsame : Equivalent same) (ha : h.Entries a l nil) (hl : l.length < fuel) :
    h.SameMapping same nilMeansNotPresent fuel a a := by
  intro k
  refine ⟨_, _, ⟨_, externalPlistGet_eq ha hl k, rfl⟩, ⟨_, externalPlistGet_eq ha hl k, rfl⟩, ?_⟩
  cases (firstValue (l.map h.pair) k).filter (present nilMeansNotPresent) with
  | none => exact .none
  | some v => exact .some (hsame.refl v)

theorem plistsDiffer_eq (ha : h.Entries a l nil) (hb : h.Entries b l' nil) (hl : l.length < fuel) (hl' : l'.length < fuel)
    (sameKey : Obj α → Obj α → Bool) : h.plistsDiffer sameKey same nilMeansNotPresent fuel a b =
      some (.ok (pairsDiffer sameKey same (h.presentPairs nilMeansNotPresent l) (h.presentPairs nilMeansNotPresent l'))) := by
  rw [plistsDiffer]
  by_cases hnil : a = nil ∧ b = nil
  · have hempty : l = [] := Entries.unique ha hnil.1
    have hempty' : l' = [] := Entries.unique hb hnil.2
    rw [if_pos hnil, hempty, hempty']
    rfl
  · rw [if_neg hnil, checkValidPlist_eq ha hl, Option.bind_some]
    simp only [checkValidPlist_eq hb hl', Option.bind_some, readPairs_eq ha hl, readPairs_eq hb hl', Option.map_some]

/-- No property comes twice in what is present of one list, and none has two values in what is present
of the other. -/
structure Unambiguous (h : Heap α) (same : Obj α → Obj α → Bool) (nilMeansNotPresent : Bool) (l l' : List Entry) : Prop where
  nodup : ((h.presentPairs nilMeansNotPresent l).map (·.1)).Nodup
  consistent : Consistent same (h.presentPairs nilMeansNotPresent l')

/-- What is present of two lists gives the properties the same first values. -/
def SamePresent (h : Heap α) (same : Obj α → Obj α → Bool) (nilMeansNotPresent : Bool) (l l' : List Entry) : Prop :=
  SameValues same (firstValue (h.presentPairs nilMeansNotPresent l)) (firstValue (h.presentPairs nilMeansNotPresent l'))

theorem pairsDiffer_presentPairs (hsame : Equivalent same) (l l' : List Entry) :
    pairsDiffer (fun k k' => decide (k = k')) same (h.presentPairs nilMeansNotPresent l) (h.presentPairs nilMeansNotPresent l') =
      false ↔ h.Unambiguous same nilMeansNotPresent l l' ∧ h.SamePresent same nilMeansNotPresent l l' := by
  rw [pairsDiffer_eq_false_iff hsame]
  constructor
  · rintro ⟨hnodup, hconsistent, hvalues⟩
    exact ⟨⟨hnodup, hconsistent⟩, hvalues⟩
  · rintro ⟨hunambiguous, hvalues⟩
    exact ⟨hunambiguous.nodup, hunambiguous.consistent, hvalues⟩

theorem presentPairs_false (h : Heap α) (l : List Entry) : h.presentPairs false l = l.map h.pair :=
  List.filter_eq_self.mpr fun _ _ => rfl

theorem samePresent_iff_sameMapping (ha : h.Entries a l nil) (hb : h.Entries b l' nil) (hl : l.length < fuel)
    (hl' : l'.length < fuel) : h.SamePresent same false l l' ↔ h.SameMapping same false fuel a b := by
  have hfilter (ps : List (Pair α)) : (fun k => (firstValue ps k).filter (present false)) = firstValue ps := by
    funext k
    cases firstValue ps k <;> rfl
  rw [sameMapping_iff ha hb hl hl', hfilter, hfilter, SamePresent, presentPairs_false, presentPairs_false]

theorem plistsDiffer_iff (hsame : Equivalent same) (ha : h.Entries a l nil) (hb : h.Entries b l' nil) (hl : l.length < fuel)
    (hl' : l'.length < fuel) :
    (∃ d, (h.plistsDiffer (fun k k' => decide (k = k')) same nilMeansNotPresent fuel a b).map (·.map (!·)) = some (.ok d) ∧
      (d = true ↔ h.SameMapping same nilMeansNotPresent fuel a b)) ↔
    (h.SameMapping same nilMeansNotPresent fuel a b → h.Unambiguous same nilMeansNotPresent l l') ∧
      (nilMeansNotPresent = true → h.Unambiguous same nilMeansNotPresent l l' →
        (h.SamePresent same nilMeansNotPresent l l' ↔ h.SameMapping same nilMeansNotPresent fuel a b)) := by
  have hcode := @pairsDiffer_presentPairs _ _ h same nilMeansNotPresent hsame l l'
  have hplain (hnil : nilMeansNotPresent = false) :
      h.SamePresent same nilMeansNotPresent l l' ↔ h.SameMapping same nilMeansNotPresent fuel a b := by
    rw [hnil]
    exact samePresent_iff_sameMapping ha hb hl hl'
  rw [plistsDiffer_eq ha hb hl hl']
  constructor
  · rintro ⟨d, hd, hiff⟩
    have hd' := Except.ok.inj (Option.some.inj hd)
    rw [← hd', Bool.not_eq_true', hcode] at hiff
    exact ⟨fun hmapping => (hiff.mpr hmapping).1, fun _ hunambiguous => ⟨fun hpresent => hiff.mp ⟨hunambiguous, hpresent⟩,
      fun hmapping => (hiff.mpr hmapping).2⟩⟩
  · rintro ⟨hunambiguous, hhidden⟩
    refine ⟨_, rfl, ?_⟩
    have hpresent (h' : h.Unambiguous same nilMeansNotPresent l l') :
        h.SamePresent same nilMeansNotPresent l l' ↔ h.SameMapping same nilMeansNotPresent fuel a b := by
      cases hnil : nilMeansNotPresent with
      | false => exact hnil ▸ hplain hnil
      | true => exact hnil ▸ hhidden hnil h'
    rw [Bool.not_eq_true', hcode]
    exact ⟨fun h' => (hpresent h'.1).mp h'.2, fun hmapping => ⟨hunambiguous hmapping, (hpresent (hunambiguous hmapping)).mpr hmapping⟩⟩

theorem equivalent_eq : Equivalent fun a b : Obj α => decide (a = b) where
  refl _ := decide_eq_true rfl
  symm hab := decide_eq_true (of_decide_eq_true hab).symm
  trans hab hbc := decide_eq_true ((of_decide_eq_true hab).trans (of_decide_eq_true hbc))

end

def twice : Heap ℕ where
  car x := if x % 2 = 0 then .atom (some 97) else .atom (some 1)
  cdr x := if x < 3 then .cons (x + 1) else nil
  next := 4

theorem twice_entries : twice.Entries (.cons 0) [(0, 1), (2, 3)] nil := by
  simp [Entries, cells, Leads, twice]

end Heap

end XEmacs.Plists
