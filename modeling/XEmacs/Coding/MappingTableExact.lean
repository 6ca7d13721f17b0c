import Mathlib.Data.List.Basic
import XEmacs.Coding.CharsetConsistency
import XEmacs.Coding.MappingTable

/-! A mapping table is loaded as documented when there is no offset. Otherwise the offset stays in
the loop over an entry, and only the first codepoint within the given range is taken. -/

namespace XEmacs.Coding

open Lib

variable {cs : Charset} {args : LoadUnicodeArgs} {cp1to cp1 cp2 q : ℤ} {fuel : ℕ} {done : List Conversion}
  {e : MappingEntry} {table : List MappingEntry}

/-- `documentedEntry` from a codepoint on. -/
def documentedFrom (cs : Charset) (args : LoadUnicodeArgs) (cp1to cp1 cp2 : ℤ) : List Conversion :=
  documentedEntry cs args ⟨cp1, cp1to, cp2⟩

theorem documentedFrom_of_lt (h : cp1to < cp1) : documentedFrom cs args cp1to cp1 cp2 = [] := by
  have hzero : (cp1to + 1 - cp1).toNat = 0 := by omega
  rw [documentedFrom, documentedEntry, hzero]
  rfl

theorem documentedFrom_of_le (h : cp1 ≤ cp1to) : documentedFrom cs args cp1to cp1 cp2 =
    (documentedCodepoint cs args cp1 cp2).toList ++ documentedFrom cs args cp1to (cp1 + 1) (cp2 + 1) := by
  have hsucc : (cp1to + 1 - cp1).toNat = (cp1to + 1 - (cp1 + 1)).toNat + 1 := by omega
  rw [documentedFrom, documentedFrom, documentedEntry, documentedEntry, hsucc, List.range_succ_eq_map,
    List.filterMap_cons, List.filterMap_map]
  have hshift : ((fun i : ℕ => documentedCodepoint cs args (cp1 + i) (cp2 + i)) ∘ Nat.succ) =
      fun i : ℕ => documentedCodepoint cs args (cp1 + 1 + i) (cp2 + 1 + i) := by
    funext i
    have h1 : cp1 + (Nat.succ i : ℕ) = cp1 + 1 + i := by omega
    have h2 : cp2 + (Nat.succ i : ℕ) = cp2 + 1 + i := by omega
    rw [Function.comp_apply, h1, h2]
  rw [hshift]
  have hzero1 : cp1 + (0 : ℕ) = cp1 := by omega
  have hzero2 : cp2 + (0 : ℕ) = cp2 := by omega
  rw [hzero1, hzero2]
  cases documentedCodepoint cs args cp1 cp2 <;> rfl

theorem mem_documentedFrom {c : Conversion} (h : c ∈ documentedFrom cs args cp1to cp1 cp2) :
    ∃ i : ℕ, cp1 + i ≤ cp1to ∧ args.st ≤ cp1 + i ∧ cp1 + i ≤ args.en ∧ c.1 = cp2 + i ∧
      octetsInRange cs (cp1 + i + args.of) = some c.2 := by
  obtain ⟨i, hi, hc⟩ := List.mem_filterMap.mp h
  rw [List.mem_range] at hi
  simp only [documentedCodepoint] at hi hc
  obtain ⟨⟨hst, hen⟩, hc⟩ := Option.ite_none_right_eq_some.mp hc
  obtain ⟨octets, hoctets, rfl⟩ := Option.map_eq_some_iff.mp hc
  exact ⟨i, by omega, hst, hen, rfl, hoctets⟩

theorem loadEntry_succ (h : loadEntry cs args cp1to (fuel + 1) cp1 cp2 = some done) (hle : cp1 ≤ cp1to) :
    ∃ rest, done = (documentedCodepoint cs args cp1 cp2).toList ++ rest ∧
      loadEntry cs args cp1to fuel ((if cp1 ≥ args.st ∧ cp1 ≤ args.en then cp1 + args.of else cp1) + 1) (cp2 + 1) =
        some rest := by
  have hcInt {n m : ℤ} (h : cInt n = some m) : m = n := by
    rw [cInt] at h
    exact (Option.some.inj (Option.ite_none_right_eq_some.mp h).2).symm
  rw [loadEntry, if_pos hle] at h
  obtain ⟨shifted, hshifted, h⟩ := Option.bind_eq_some_iff.mp h
  obtain ⟨next1, hnext1, h⟩ := Option.bind_eq_some_iff.mp h
  obtain ⟨next2, hnext2, h⟩ := Option.bind_eq_some_iff.mp h
  obtain ⟨rest, hrest, rfl⟩ := Option.map_eq_some_iff.mp h
  obtain rfl := hcInt hnext1
  obtain rfl := hcInt hnext2
  by_cases hwindow : cp1 ≥ args.st ∧ cp1 ≤ args.en
  · simp only [if_pos hwindow] at hshifted ⊢
    obtain rfl := hcInt hshifted
    rw [documentedCodepoint, if_pos hwindow]
    exact ⟨rest, rfl, hrest⟩
  · simp only [if_neg hwindow] at hshifted ⊢
    obtain rfl := Option.some.inj hshifted
    rw [documentedCodepoint, if_neg hwindow]
    exact ⟨rest, rfl, hrest⟩

theorem loadEntry_of_lt (h : loadEntry cs args cp1to fuel cp1 cp2 = some done) (hlt : cp1to < cp1) : done = [] := by
  have hnot : ¬ cp1 ≤ cp1to := Int.not_le.mpr hlt
  cases fuel with
  | zero =>
    rw [loadEntry, if_neg hnot] at h
    exact (Option.some.inj h).symm
  | succ fuel =>
    rw [loadEntry, if_neg hnot] at h
    exact (Option.some.inj h).symm

theorem le_of_loadEntry_zero (h : loadEntry cs args cp1to 0 cp1 cp2 = some done) : cp1to < cp1 := by
  by_contra hnot
  rw [loadEntry, if_pos (Int.not_lt.mp hnot)] at h
  exact Option.some_ne_none _ h.symm

theorem loadEntry_eq (hof : args.of = 0) (h : loadEntry cs args cp1to fuel cp1 cp2 = some done) :
    done = documentedFrom cs args cp1to cp1 cp2 := by
  induction fuel generalizing cp1 cp2 done with
  | zero =>
    have hlt := le_of_loadEntry_zero h
    rw [loadEntry_of_lt h hlt, documentedFrom_of_lt hlt]
  | succ fuel ih =>
    by_cases hle : cp1 ≤ cp1to
    · obtain ⟨rest, rfl, hrest⟩ := loadEntry_succ h hle
      rw [hof, Int.add_zero, ite_self] at hrest
      rw [documentedFrom_of_le hle, ih hrest]
    · have hlt := Int.not_le.mp hle
      rw [loadEntry_of_lt h hlt, documentedFrom_of_lt hlt]

theorem le_next (hof : 0 ≤ args.of) (cp1 : ℤ) :
    ∃ n : ℕ, (if cp1 ≥ args.st ∧ cp1 ≤ args.en then cp1 + args.of else cp1) + 1 = cp1 + 1 + n := by
  split_ifs
  · exact ⟨args.of.toNat, by omega⟩
  · exact ⟨0, by omega⟩

theorem documentedFrom_length (cs : Charset) (args : LoadUnicodeArgs) (cp1to cp1 cp2 q : ℤ) :
    (documentedFrom cs args cp1to cp1 cp2).length = (documentedFrom cs args cp1to cp1 q).length := by
  have hoctets (cp2 : ℤ) : (documentedFrom cs args cp1to cp1 cp2).map Prod.snd =
      (List.range (cp1to + 1 - cp1).toNat).filterMap fun i : ℕ =>
        if args.st ≤ cp1 + i ∧ cp1 + i ≤ args.en then octetsInRange cs (cp1 + i + args.of) else none := by
    rw [documentedFrom, documentedEntry, List.map_filterMap]
    congr 1
    funext i
    rw [documentedCodepoint]
    split_ifs
    · rw [Option.map_map]
      exact Option.map_id'
    · rfl
  rw [← List.length_map Prod.snd, hoctets, ← hoctets q, List.length_map]

theorem documentedFrom_succ_length_le : (documentedFrom cs args cp1to (cp1 + 1) q).length ≤
    (documentedFrom cs args cp1to cp1 cp2).length := by
  by_cases hle : cp1 ≤ cp1to
  · rw [documentedFrom_of_le hle, List.length_append, documentedFrom_length cs args cp1to (cp1 + 1) q (cp2 + 1)]
    exact Nat.le_add_left _ _
  · rw [documentedFrom_of_lt (by omega)]
    exact Nat.zero_le _

theorem documentedFrom_length_le (n : ℕ) :
    (documentedFrom cs args cp1to (cp1 + n) q).length ≤ (documentedFrom cs args cp1to cp1 cp2).length := by
  induction n with
  | zero =>
    have hzero : cp1 + (0 : ℕ) = cp1 := by omega
    rw [hzero]
    exact (documentedFrom_length ..).le
  | succ n ih =>
    have hsucc : cp1 + (n + 1 : ℕ) = cp1 + n + 1 := by omega
    rw [hsucc]
    exact documentedFrom_succ_length_le.trans ih

theorem loadEntry_length_le (hof : 0 ≤ args.of) (h : loadEntry cs args cp1to fuel cp1 cp2 = some done) :
    done.length ≤ (documentedFrom cs args cp1to cp1 cp2).length := by
  induction fuel generalizing cp1 cp2 done with
  | zero =>
    rw [loadEntry_of_lt h (le_of_loadEntry_zero h)]
    exact Nat.zero_le _
  | succ fuel ih =>
    by_cases hle : cp1 ≤ cp1to
    · obtain ⟨rest, rfl, hrest⟩ := loadEntry_succ h hle
      obtain ⟨n, hn⟩ := le_next hof cp1
      rw [hn] at hrest
      rw [documentedFrom_of_le hle, List.length_append, List.length_append]
      exact Nat.add_le_add_left ((ih hrest).trans (documentedFrom_length_le n)) _
    · rw [loadEntry_of_lt h (Int.not_le.mp hle)]
      exact Nat.zero_le _

theorem le_of_mem_loadEntry (hof : 0 ≤ args.of) (h : loadEntry cs args cp1to fuel cp1 cp2 = some done)
    {c : Conversion} (hc : c ∈ done) :
    ∃ cp, octetsInRange cs cp = some c.2 ∧ cp1 + args.of + (c.1 - cp2) ≤ cp := by
  induction fuel generalizing cp1 cp2 done with
  | zero =>
    rw [loadEntry_of_lt h (le_of_loadEntry_zero h)] at hc
    exact absurd hc List.not_mem_nil
  | succ fuel ih =>
    by_cases hle : cp1 ≤ cp1to
    · obtain ⟨rest, rfl, hrest⟩ := loadEntry_succ h hle
      rcases List.mem_append.mp hc with hfirst | hlater
      · rw [Option.mem_toList, documentedCodepoint] at hfirst
        obtain ⟨octets, hoctets, rfl⟩ := Option.map_eq_some_iff.mp (Option.ite_none_right_eq_some.mp hfirst).2
        exact ⟨cp1 + args.of, hoctets, by omega⟩
      · obtain ⟨n, hn⟩ := le_next hof cp1
        rw [hn] at hrest
        obtain ⟨cp, hoctets, hfar⟩ := ih hrest hlater
        exact ⟨cp, hoctets, by omega⟩
    · rw [loadEntry_of_lt h (Int.not_le.mp hle)] at hc
      exact absurd hc List.not_mem_nil

theorem octetsInRange_inj {cp cp' : ℤ} {c : Fin 256 × Fin 256} (h : octetsInRange cs cp = some c)
    (h' : octetsInRange cs cp' = some c) : cp = cp' := by
  have hoctets {cp : ℤ} (h : octetsInRange cs cp = some c) :
      0 ≤ cp ∧ cp < 65536 ∧ cp.toNat / 2 ^ 8 % 256 = c.1.val ∧ cp.toNat % 256 = c.2.val := by
    rw [octetsInRange] at h
    obtain ⟨hrange, h⟩ := Option.ite_none_left_eq_some.mp h
    obtain rfl := Option.some.inj (Option.ite_none_right_eq_some.mp h).2
    refine ⟨by omega, by omega, ?_, rfl⟩
    show cp.toNat / 2 ^ 8 % 256 = cp.toNat >>> 8 % 256
    rw [Nat.shiftRight_eq_div_pow]
  have hcp := hoctets h
  have hcp' := hoctets h'
  omega

theorem documentedFrom_eq_nil_iff : documentedFrom cs args cp1to cp1 cp2 = [] ↔
    ∀ cp, max cp1 args.st ≤ cp → cp ≤ min cp1to args.en → octetsInRange cs (cp + args.of) = none := by
  rw [documentedFrom, documentedEntry, List.filterMap_eq_nil_iff]
  constructor
  · intro h cp hmin hmax
    have hcp := h (cp - cp1).toNat (List.mem_range.mpr (by simp only; omega))
    have hsum : cp1 + ((cp - cp1).toNat : ℤ) = cp := by omega
    rw [documentedCodepoint, hsum, if_pos (by omega)] at hcp
    exact Option.map_eq_none_iff.mp hcp
  · intro h i hi
    have hlt := List.mem_range.mp hi
    simp only at hlt ⊢
    rw [documentedCodepoint]
    split_ifs with hwindow
    · rw [h (cp1 + i) (by omega) (by omega)]
      rfl
    · rfl

/-- Only the first codepoint within the given range is in the charset, if any. -/
def OnlyFirst (cs : Charset) (args : LoadUnicodeArgs) (e : MappingEntry) : Prop :=
  ∀ cp, max e.cp1from args.st < cp → cp ≤ min e.cp1to args.en → octetsInRange cs (cp + args.of) = none

theorem onlyFirst_of_lt (h : cp1to < cp1) : OnlyFirst cs args ⟨cp1, cp1to, cp2⟩ := by
  intro cp hmin hmax
  simp only at hmin hmax
  omega

theorem eq_documentedFrom_iff (hof : 0 < args.of)
    (h : loadEntry cs args cp1to fuel (cp1 + args.of + 1) (cp2 + 1) = some done) :
    done = documentedFrom cs args cp1to (cp1 + 1) (cp2 + 1) ↔
      documentedFrom cs args cp1to (cp1 + 1) (cp2 + 1) = [] := by
  constructor
  · intro heq
    rw [List.eq_nil_iff_forall_not_mem]
    intro c hc
    obtain ⟨cp, hcp, hfar⟩ := le_of_mem_loadEntry hof.le h (heq ▸ hc)
    obtain ⟨i, -, -, -, hcode, hoctets⟩ := mem_documentedFrom hc
    have hsame := octetsInRange_inj hcp hoctets
    omega
  · intro hnil
    rw [hnil]
    have hnext : cp1 + args.of + 1 = cp1 + 1 + (args.of.toNat : ℤ) := by omega
    have hlength := loadEntry_length_le hof.le h
    rw [hnext] at hlength
    have hle := hlength.trans (@documentedFrom_length_le cs args cp1to (cp1 + 1) (cp2 + 1) (cp2 + 1) args.of.toNat)
    rw [hnil] at hle
    exact List.eq_nil_of_length_eq_zero (Nat.le_zero.mp hle)

theorem loadEntry_eq_iff (hof : 0 < args.of) (h : loadEntry cs args cp1to fuel cp1 cp2 = some done) :
    done = documentedFrom cs args cp1to cp1 cp2 ↔ OnlyFirst cs args ⟨cp1, cp1to, cp2⟩ := by
  induction fuel generalizing cp1 cp2 done with
  | zero =>
    have hlt := le_of_loadEntry_zero h
    rw [loadEntry_of_lt h hlt, documentedFrom_of_lt hlt]
    exact iff_of_true rfl (onlyFirst_of_lt hlt)
  | succ fuel ih =>
    by_cases hle : cp1 ≤ cp1to
    · obtain ⟨rest, rfl, hrest⟩ := loadEntry_succ h hle
      rw [documentedFrom_of_le hle, List.append_cancel_left_eq]
      by_cases hwindow : cp1 ≥ args.st ∧ cp1 ≤ args.en
      · rw [if_pos hwindow] at hrest
        rw [eq_documentedFrom_iff hof hrest, documentedFrom_eq_nil_iff, OnlyFirst]
        have hmax : max (cp1 + 1) args.st = max cp1 args.st + 1 := by omega
        simp only [hmax, Int.add_one_le_iff]
      · rw [if_neg hwindow] at hrest
        rw [ih hrest]
        constructor
        · intro h cp hmin hmax
          exact h cp (by simp only at hmin hmax ⊢; omega) hmax
        · intro h cp hmin hmax
          exact h cp (by simp only at hmin hmax ⊢; omega) hmax
    · have hlt := Int.not_le.mp hle
      rw [loadEntry_of_lt h hlt, documentedFrom_of_lt hlt]
      exact iff_of_true rfl (onlyFirst_of_lt hlt)

theorem eq_of_append_eq {α : Type} {as bs as' bs' : List α} (h : as ++ bs = as' ++ bs')
    (hfirst : as.length ≤ as'.length) (hlater : bs.length ≤ bs'.length) : as = as' ∧ bs = bs' := by
  have hlength := congrArg List.length h
  rw [List.length_append, List.length_append] at hlength
  exact List.append_inj h (by omega)

def Loadable (cs : Charset) (args : LoadUnicodeArgs) (table : List MappingEntry) : Prop :=
  args.of = 0 ∨ ∀ e ∈ table, OnlyFirst cs args e

theorem loadEntries_cons (h : loadEntries cs args (e :: table) = some done) :
    ∃ first later, loadEntry cs args e.cp1to (e.cp1to + 1 - e.cp1from).toNat e.cp1from e.cp2 = some first ∧
      loadEntries cs args table = some later ∧ done = first ++ later := by
  rw [loadEntries] at h
  obtain ⟨first, hfirst, h⟩ := Option.bind_eq_some_iff.mp h
  obtain ⟨later, hlater, rfl⟩ := Option.map_eq_some_iff.mp h
  exact ⟨first, later, hfirst, hlater, rfl⟩

theorem loadEntries_length_le (hof : 0 ≤ args.of) (h : loadEntries cs args table = some done) :
    done.length ≤ (table.flatMap (documentedEntry cs args)).length := by
  induction table generalizing done with
  | nil =>
    obtain rfl := Option.some.inj h
    exact Nat.zero_le _
  | cons e table ih =>
    obtain ⟨first, later, hfirst, hlater, rfl⟩ := loadEntries_cons h
    rw [List.flatMap_cons, List.length_append, List.length_append]
    exact Nat.add_le_add (loadEntry_length_le hof hfirst) (ih hlater)

theorem loadEntries_eq_iff (hof : 0 ≤ args.of) (h : loadEntries cs args table = some done) :
    done = table.flatMap (documentedEntry cs args) ↔ Loadable cs args table := by
  induction table generalizing done with
  | nil =>
    obtain rfl := Option.some.inj h
    exact iff_of_true rfl (.inr fun _ he => absurd he List.not_mem_nil)
  | cons e table ih =>
    obtain ⟨first, later, hfirst, hlater, rfl⟩ := loadEntries_cons h
    have hsplit : first ++ later = (e :: table).flatMap (documentedEntry cs args) ↔
        first = documentedEntry cs args e ∧ later = table.flatMap (documentedEntry cs args) := by
      rw [List.flatMap_cons]
      constructor
      · intro heq
        exact eq_of_append_eq heq (loadEntry_length_le hof hfirst) (loadEntries_length_le hof hlater)
      · rintro ⟨rfl, rfl⟩
        rfl
    rw [hsplit, ih hlater]
    by_cases hzero : args.of = 0
    · exact iff_of_true ⟨loadEntry_eq hzero hfirst, .inl hzero⟩ (.inl hzero)
    · have hpositive : 0 < args.of := by omega
      have hentry : first = documentedEntry cs args e ↔ OnlyFirst cs args e := loadEntry_eq_iff hpositive hfirst
      rw [hentry, Loadable, Loadable, or_iff_right hzero, or_iff_right hzero, List.forall_mem_cons]

/-- The codepoints of an entry stay below the greatest `int`. -/
structure Fits (args : LoadUnicodeArgs) (e : MappingEntry) : Prop where
  cp1from : -2 ^ 31 ≤ e.cp1from
  cp1to : e.cp1to + args.of < intMax
  cp2 : -2 ^ 31 ≤ e.cp2
  cp2to : e.cp2 + (e.cp1to - e.cp1from) < intMax

theorem loadEntry_isSome (hof : 0 ≤ args.of) (hfits : Fits args ⟨cp1, cp1to, cp2⟩)
    (hfuel : cp1to + 1 - cp1 ≤ fuel) : (loadEntry cs args cp1to fuel cp1 cp2).isSome := by
  induction fuel generalizing cp1 cp2 with
  | zero =>
    rw [loadEntry, if_neg (by omega)]
    rfl
  | succ fuel ih =>
    rw [loadEntry]
    split_ifs with hle
    · obtain ⟨hfrom, hto, hcode, hcodeTo⟩ := hfits
      simp only [intMax] at hfrom hto hcode hcodeTo
      have hcInt {n : ℤ} (hlow : -2 ^ 31 ≤ n) (hhigh : n < 2 ^ 31) : cInt n = some n := if_pos ⟨hlow, hhigh⟩
      have hnext : (if cp1 ≥ args.st ∧ cp1 ≤ args.en then cInt (cp1 + args.of) else some cp1) =
          some (if cp1 ≥ args.st ∧ cp1 ≤ args.en then cp1 + args.of else cp1) := by
        split_ifs
        · exact hcInt (by omega) (by omega)
        · rfl
      obtain ⟨n, hn⟩ := @le_next args hof cp1
      have hbound : (if cp1 ≥ args.st ∧ cp1 ≤ args.en then cp1 + args.of else cp1) ≤ cp1 + args.of := by
        split_ifs <;> omega
      dsimp only
      rw [hnext, Option.bind_some, hn, hcInt (by omega) (by omega), Option.bind_some,
        hcInt (by omega) (by omega), Option.bind_some, Option.isSome_map]
      exact ih ⟨by simp only; omega, by simp only [intMax]; omega, by simp only; omega, by simp only [intMax]; omega⟩
        (by omega)
    · rfl

theorem loadEntries_isSome (hof : 0 ≤ args.of) (hfits : ∀ e ∈ table, Fits args e) :
    (loadEntries cs args table).isSome := by
  induction table with
  | nil => rfl
  | cons e table ih =>
    obtain ⟨he, htable⟩ := List.forall_mem_cons.mp hfits
    obtain ⟨first, hfirst⟩ := Option.isSome_iff_exists.mp
      (@loadEntry_isSome cs args e.cp1to e.cp1from e.cp2 _ hof he (Int.self_le_toNat _))
    obtain ⟨later, hlater⟩ := Option.isSome_iff_exists.mp (ih htable)
    rw [loadEntries, hfirst, Option.bind_some, hlater]
    rfl

def Holds (t : ToUnicodeTable) (c1 c2 : Fin 256) : Prop :=
  ∃ toTable2 base, t = some toTable2 ∧ toTable2 c1 = some base ∧ base.offset ≤ c2 ∧
    c2 < base.offset + base.array.length

variable {t : ToUnicodeTable} {c1 c2 d1 d2 : Fin 256} {offset len : ℕ} {exact : Bool} {calls : List LoadCall}

theorem Holds.ensure_eq (h : Holds t c1 c2) : ensureToUnicodeHoldsRange t c1 c2 1 false = t := by
  obtain ⟨toTable2, base, rfl, hbase, hle, hlt⟩ := h
  have hresize : resize (some base) c2 1 false = base := if_neg (by omega)
  rw [ensureToUnicodeHoldsRange, Option.getD_some, hbase, hresize, ← hbase, Function.update_eq_self]

theorem resize_mono {base : ToUnicodeBase} (hle : base.offset ≤ c2) (hlt : c2 < base.offset + base.array.length) :
    (resize (some base) offset len exact).offset ≤ c2 ∧
      c2 < (resize (some base) offset len exact).offset + (resize (some base) offset len exact).array.length := by
  rw [resize]
  split_ifs
  · have hmin : (newRange (min offset base.offset) (max (offset + len) (base.offset + base.array.length)) exact).1 ≤
        min offset base.offset := newRange_fst_le
    simp only [List.length_append, List.length_replicate]
    omega
  · exact ⟨hle, hlt⟩

theorem Holds.ensure (h : Holds t c1 c2) : Holds (ensureToUnicodeHoldsRange t d1 offset len exact) c1 c2 := by
  obtain ⟨toTable2, base, rfl, hbase, hle, hlt⟩ := h
  by_cases heq : c1 = d1
  · subst heq
    refine ⟨_, _, rfl, Function.update_self .., ?_⟩
    rw [Option.getD_some, hbase]
    exact resize_mono hle hlt
  · exact ⟨_, base, rfl, (Function.update_of_ne heq ..).trans hbase, hle, hlt⟩

theorem holds_ensure (hle : offset ≤ c2) (hlt : c2 < offset + len) :
    Holds (ensureToUnicodeHoldsRange t c1 offset len exact) c1 c2 :=
  ⟨_, _, rfl, Function.update_self .., resize_holds _ hle hlt⟩

theorem Holds.store (h : Holds t c1 c2) (code : Option ℕ) :
    Holds (setUnicodeConversionCharToUnicode code t d1 d2) c1 c2 := by
  obtain ⟨toTable2, base, htable, hbase, hle, hlt⟩ := @Holds.ensure t c1 c2 d1 d2 1 false h
  rw [setUnicodeConversionCharToUnicode, htable, Option.map_some]
  by_cases heq : c1 = d1
  · subst heq
    refine ⟨_, base.store d2 code, rfl, ?_, hle, ?_⟩
    · rw [Function.update_self, hbase, Option.map_some]
    · rw [ToUnicodeBase.store, List.length_set]
      exact hlt
  · exact ⟨_, base, rfl, (Function.update_of_ne heq ..).trans hbase, hle, hlt⟩

theorem Holds.apply (h : Holds t c1 c2) (call : LoadCall) : Holds (call.apply t) c1 c2 := by
  cases call with
  | ensureToUnicodeHoldsRange d1 offset len => exact h.ensure
  | setUnicodeConversion code d1 d2 => exact h.store _

theorem Holds.foldl (h : Holds t c1 c2) (calls : List LoadCall) : Holds (calls.foldl LoadCall.apply t) c1 c2 := by
  induction calls generalizing t with
  | nil => exact h
  | cons call calls ih => exact ih (h.apply call)

theorem holds_foldl (h : .ensureToUnicodeHoldsRange c1 offset len ∈ calls) (hle : offset ≤ c2)
    (hlt : c2 < offset + len) : Holds (calls.foldl LoadCall.apply t) c1 c2 := by
  induction calls generalizing t with
  | nil => exact absurd h List.not_mem_nil
  | cons call calls ih =>
    rcases List.mem_cons.mp h with rfl | h
    · exact (holds_ensure hle hlt).foldl calls
    · exact ih h

theorem RowLimits.add_mono (limits : RowLimits) (c1 c2 d : Fin 256) :
    (limits.add c1 c2 d).1 ≤ (limits d).1 ∧ (limits d).2 ≤ (limits.add c1 c2 d).2 := by
  by_cases heq : d = c1
  · subst heq
    simp only [RowLimits.add, Function.update_self]
    split_ifs <;> omega
  · simp only [RowLimits.add, Function.update_of_ne heq]
    omega

theorem RowLimits.add_self (limits : RowLimits) (c1 c2 : Fin 256) :
    (limits.add c1 c2 c1).1 ≤ c2 ∧ c2 ≤ (limits.add c1 c2 c1).2 := by
  simp only [RowLimits.add, Function.update_self]
  split_ifs <;> omega

theorem foldl_add_mono (done : List Conversion) (limits : RowLimits) (d : Fin 256) :
    (done.foldl (fun limits c => limits.add c.2.1 c.2.2) limits d).1 ≤ (limits d).1 ∧
      (limits d).2 ≤ (done.foldl (fun limits c => limits.add c.2.1 c.2.2) limits d).2 := by
  induction done generalizing limits with
  | nil => exact ⟨le_refl _, le_refl _⟩
  | cons c done ih =>
    have hadd := limits.add_mono c.2.1 c.2.2 d
    have hfold := ih (limits.add c.2.1 c.2.2)
    exact ⟨hfold.1.trans hadd.1, hadd.2.trans hfold.2⟩

theorem foldl_add_mem {c : Conversion} (h : c ∈ done) (limits : RowLimits) :
    (done.foldl (fun limits c => limits.add c.2.1 c.2.2) limits c.2.1).1 ≤ c.2.2 ∧
      c.2.2 ≤ (done.foldl (fun limits c => limits.add c.2.1 c.2.2) limits c.2.1).2 := by
  induction done generalizing limits with
  | nil => exact absurd h List.not_mem_nil
  | cons first done ih =>
    rcases List.mem_cons.mp h with rfl | h
    · have hadd := limits.add_self c.2.1 c.2.2
      have hfold := foldl_add_mono done (limits.add c.2.1 c.2.2) c.2.1
      exact ⟨hfold.1.trans hadd.1, hadd.2.trans hfold.2⟩
    · exact ih h _

theorem holds_holdRows {c : Conversion} (h : c ∈ done) :
    Holds ((holdRows (rowLimits done)).foldl LoadCall.apply t) c.2.1 c.2.2 := by
  obtain ⟨hmin, hmax⟩ := foldl_add_mem h fun _ => (255, 0)
  rw [← rowLimits] at hmin hmax
  have hrow : LoadCall.ensureToUnicodeHoldsRange c.2.1 (rowLimits done c.2.1).1
      ((rowLimits done c.2.1).2 - (rowLimits done c.2.1).1 + 1) ∈ holdRows (rowLimits done) :=
    List.mem_filterMap.mpr ⟨c.2.1, List.mem_finRange _, if_pos (hmin.trans hmax)⟩
  exact holds_foldl hrow hmin (by omega)

theorem mem_holdRows {limits : RowLimits} {call : LoadCall} (h : call ∈ holdRows limits) :
    ∃ c1 offset len, call = .ensureToUnicodeHoldsRange c1 offset len := by
  obtain ⟨c1, -, hcall⟩ := List.mem_filterMap.mp h
  exact ⟨c1, _, _, (Option.some.inj (Option.ite_none_right_eq_some.mp hcall).2).symm⟩

theorem noResize_append {rows : List LoadCall}
    (hrows : ∀ call ∈ rows, ∃ c1 offset len, call = .ensureToUnicodeHoldsRange c1 offset len)
    (h : NoResize (rows.foldl LoadCall.apply t) calls) : NoResize t (rows ++ calls) := by
  induction rows generalizing t with
  | nil => exact h
  | cons call rows ih =>
    obtain ⟨⟨c1, offset, len, rfl⟩, hlater⟩ := List.forall_mem_cons.mp hrows
    exact ih hlater h

theorem noResize_map (h : ∀ c ∈ done, Holds t c.2.1 c.2.2) :
    NoResize t (done.map fun c => .setUnicodeConversion c.1 c.2.1 c.2.2) := by
  induction done generalizing t with
  | nil => trivial
  | cons c done ih =>
    obtain ⟨hfirst, hlater⟩ := List.forall_mem_cons.mp h
    exact ⟨hfirst.ensure_eq, ih fun c hc => (hlater c hc).store _⟩

theorem conversions_append {rows : List LoadCall}
    (hrows : ∀ call ∈ rows, ∃ c1 offset len, call = .ensureToUnicodeHoldsRange c1 offset len) :
    conversions (rows ++ done.map fun c => .setUnicodeConversion c.1 c.2.1 c.2.2) = done := by
  have hnone : conversions rows = [] := by
    refine List.filterMap_eq_nil_iff.mpr fun call hcall => ?_
    obtain ⟨c1, offset, len, rfl⟩ := hrows call hcall
    rfl
  have hall : conversions (done.map fun c => .setUnicodeConversion c.1 c.2.1 c.2.2) = done := by
    rw [conversions, List.filterMap_map]
    exact List.filterMap_some
  rw [conversions, List.filterMap_append]
  exact (congrArg₂ (· ++ ·) hnone hall).trans (List.nil_append done)

theorem verifyLoadUnicodeArgs_of {start stop offset : Option ℤ}
    (h : verifyLoadUnicodeArgs start stop offset = some args) : 0 ≤ args.of := by
  obtain ⟨st, -, h⟩ := Option.bind_eq_some_iff.mp h
  obtain ⟨en, -, h⟩ := Option.bind_eq_some_iff.mp h
  obtain ⟨of, hof, h⟩ := Option.bind_eq_some_iff.mp h
  obtain rfl := Option.some.inj h
  cases offset with
  | none =>
    obtain rfl := Option.some.inj hof
    exact le_refl _
  | some offset =>
    obtain ⟨hrange, hsame⟩ := Option.ite_none_right_eq_some.mp hof
    rw [← Option.some.inj hsame]
    exact hrange.1

/-- A table is loaded as documented exactly if there is no offset or at most one codepoint of each
entry is to be taken, and always into rows that are large enough. -/
theorem loadUnicodeMappingTable_iff {start stop offset : Option ℤ}
    (hargs : verifyLoadUnicodeArgs start stop offset = some args) (cs : Charset) (table : List MappingEntry) :
    ((∀ e ∈ table, Fits args e) → (loadUnicodeMappingTable cs args table).isSome) ∧
      ∀ calls, loadUnicodeMappingTable cs args table = some calls →
        NoResize cs.toUnicodeTable calls ∧
          (conversions calls = table.flatMap (documentedEntry cs args) ↔ Loadable cs args table) := by
  have hof := verifyLoadUnicodeArgs_of hargs
  constructor
  · intro hfits
    obtain ⟨done, hdone⟩ := Option.isSome_iff_exists.mp (@loadEntries_isSome cs args table hof hfits)
    rw [loadUnicodeMappingTable, hdone]
    rfl
  · intro calls hcalls
    obtain ⟨done, hdone, hcalls⟩ := Option.bind_eq_some_iff.mp hcalls
    obtain ⟨done', hdone', hcalls⟩ := Option.bind_eq_some_iff.mp hcalls
    obtain rfl := Option.some.inj (hdone.symm.trans hdone')
    obtain rfl := Option.some.inj hcalls
    constructor
    · exact noResize_append (fun call hcall => mem_holdRows hcall) (noResize_map fun c hc => holds_holdRows hc)
    · rw [conversions_append fun call hcall => mem_holdRows hcall]
      exact loadEntries_eq_iff hof hdone

def ninetyFour : Charset :=
  Charset.initCharsetUnicodeTables (fun dim => if dim.val = 0 then 1 else 94)
    (fun dim => if dim.val = 0 then 0 else 33) (by decide) false

theorem loadUnicodeMappingTable_iff_range :
    ∃ calls, loadUnicodeMappingTable ninetyFour ⟨0, intMax, 0⟩ [⟨33, 35, 0x3041⟩] = some calls ∧
      conversions calls = [(0x3041, 0, 33), (0x3042, 0, 34), (0x3043, 0, 35)] ∧ NoResize none calls := by
  have hargs : verifyLoadUnicodeArgs none none none = some ⟨0, intMax, 0⟩ := rfl
  have h := loadUnicodeMappingTable_iff hargs ninetyFour [⟨33, 35, 0x3041⟩]
  have hfits : ∀ e ∈ [(⟨33, 35, 0x3041⟩ : MappingEntry)], Fits ⟨0, intMax, 0⟩ e := by
    intro e he
    rw [List.mem_singleton.mp he]
    exact ⟨by decide, by decide, by decide, by decide⟩
  obtain ⟨calls, hcalls⟩ := Option.isSome_iff_exists.mp (h.1 hfits)
  obtain ⟨hresize, hconversions⟩ := h.2 calls hcalls
  exact ⟨calls, hcalls, (hconversions.mpr (.inl rfl)).trans (by decide), hresize⟩

/-- The same range with an offset: after its first codepoint the loop is at its end. -/
theorem not_documented_offset :
    verifyLoadUnicodeArgs none none (some 0x20) = some ⟨0, intMax, 0x20⟩ ∧
      ∃ calls, loadUnicodeMappingTable ninetyFour ⟨0, intMax, 0x20⟩ [⟨1, 3, 0x3041⟩] = some calls ∧
        conversions calls = [(0x3041, 0, 33)] ∧
        conversions calls ≠ [(⟨1, 3, 0x3041⟩ : MappingEntry)].flatMap (documentedEntry ninetyFour ⟨0, intMax, 0x20⟩) := by
  have hdone : loadEntries ninetyFour ⟨0, intMax, 0x20⟩ [⟨1, 3, 0x3041⟩] = some [(0x3041, 0, 33)] := by decide
  have hcalls : loadUnicodeMappingTable ninetyFour ⟨0, intMax, 0x20⟩ [⟨1, 3, 0x3041⟩] =
      some (holdRows (rowLimits [(0x3041, 0, 33)]) ++
        [((0x3041, 0, 33) : Conversion)].map fun c => .setUnicodeConversion c.1 c.2.1 c.2.2) := by
    rw [loadUnicodeMappingTable, hdone]
    rfl
  have hconversions : conversions (holdRows (rowLimits [(0x3041, 0, 33)]) ++
      [((0x3041, 0, 33) : Conversion)].map fun c => .setUnicodeConversion c.1 c.2.1 c.2.2) = [(0x3041, 0, 33)] :=
    conversions_append fun call hcall => mem_holdRows hcall
  refine ⟨rfl, _, hcalls, hconversions, ?_⟩
  rw [hconversions]
  decide

end XEmacs.Coding
