import XEmacs.Table.HashTableSize
import Mathlib.Data.Set.Card

/-! Hash tables refine finite maps. Where the test is an equivalence that goes with its hash
function, a table stands for a function from classes of equal keys to values, and its count is the
number of classes with a value. -/

namespace XEmacs.Table

open Lib Lib.Probing

variable {K V : Type*} [DecidableEq K] {M : KeyMethods K} {test : HashTableTest K}

/-- The test is an equivalence, and equal keys have equal hash codes. -/
structure Compatible (M : KeyMethods K) (test : HashTableTest K) : Prop where
  refl : ∀ a, test.equalFunction M a a = true
  symm : ∀ {a b}, test.equalFunction M a b = true → test.equalFunction M b a = true
  trans : ∀ {a b c}, test.equalFunction M a b = true → test.equalFunction M b c = true →
    test.equalFunction M a c = true
  hash : ∀ {a b}, test.equalFunction M a b = true → test.hashFunction M a = test.hashFunction M b

def Compatible.setoid (h : Compatible M test) : Setoid K where
  r a b := test.equalFunction M a b = true
  iseqv := ⟨h.refl, h.symm, h.trans⟩

omit [DecidableEq K] in
theorem hashFunction_chooseForLookup (key : K) :
    (test.chooseForLookup M key).hashFunction M key = test.hashFunction M key := by
  cases test with
  | eq => rfl
  | general f g => rfl
  | eql =>
    simp only [HashTableTest.chooseForLookup, HashTableTest.hashFunction]
    split_ifs <;> rfl
  | equal =>
    simp only [HashTableTest.chooseForLookup]
    split_ifs with h
    · exact (M.hash_immediate key h).symm
    · rfl
  | equalp =>
    simp only [HashTableTest.chooseForLookup]
    split_ifs with h
    · exact (M.hashp_symbol key h).symm
    · rfl

theorem lookupMatch_chooseForLookup (key : K) (e : Htentry K V) :
    (test.chooseForLookup M key).lookupMatch M key e = true ↔
      e.key = key ∨ test.equalFunction M e.key key = true := by
  cases test with
  | eq => simp [HashTableTest.chooseForLookup, HashTableTest.lookupMatch, HashTableTest.equalFunction]
  | general f g =>
    simp only [HashTableTest.chooseForLookup, HashTableTest.lookupMatch, HashTableTest.equalFunction]
    exact decide_eq_true_iff
  | eql =>
    have hnumber := M.equal_number key e.key
    simp only [HashTableTest.chooseForLookup]
    split_ifs with h <;>
      simp only [HashTableTest.lookupMatch, HashTableTest.equalFunction, decide_eq_true_eq] <;> grind
  | equal =>
    have himm := M.equal_immediate key e.key
    simp only [HashTableTest.chooseForLookup]
    split_ifs with h <;>
      simp only [HashTableTest.lookupMatch, HashTableTest.equalFunction, decide_eq_true_eq] <;> grind
  | equalp =>
    have hsymbol := M.equalp_symbol key e.key
    simp only [HashTableTest.chooseForLookup]
    split_ifs with h <;>
      simp only [HashTableTest.lookupMatch, HashTableTest.equalFunction, decide_eq_true_eq] <;> grind

namespace HashTable

def SameKey (M : KeyMethods K) (test : HashTableTest K) (e e' : Htentry K V) : Prop :=
  test.equalFunction M e.key e'.key = true

/-- The table stands for the map `m` from classes of keys to values. -/
structure Represents (hc : Compatible M test) (ht : HashTable K V) (m : Quotient hc.setoid → Option V) :
    Prop where
  test_eq : ht.test = test
  length : ht.hentries.length = ht.size
  size : IsTableSize ht.size
  count : ht.count = occupied ht.hentries
  rehashSize : 1 < ht.rehashSize
  reached : Reached ht.hentries (fun e => (ht.home M test e.key : ℤ))
  apart : Apart ht.hentries (SameKey M test)
  get : ∀ key value, m ⟦key⟧ = some value ↔
    ∃ e, some e ∈ ht.hentries ∧ test.equalFunction M e.key key = true ∧ e.value = value

variable {hc : Compatible M test} {ht : HashTable K V} {m : Quotient hc.setoid → Option V} {c k : ℤ}
  {key : K} {value : V}

theorem Represents.pos (h : Represents hc ht m) : 0 < ht.size :=
  Nat.lt_of_lt_of_le (by decide) h.size.bounds.1

theorem Represents.count_eq (h : Represents hc ht m) : ht.count = {q | (m q).isSome}.ncard := by
  classical
  set entries := ht.hentries.filterMap id with hentries
  have hmem : ∀ e, e ∈ entries ↔ some e ∈ ht.hentries := by
    intro e
    simp [hentries, List.mem_filterMap]
  have hpair := h.apart.pairwise fun e e' hr => hc.symm hr
  have hnodup : (entries.map fun e => (⟦e.key⟧ : Quotient hc.setoid)).Nodup := by
    rw [List.Nodup, List.pairwise_map]
    exact hpair.imp fun hne heq => hne.1 (Quotient.exact heq)
  have hset : {q | (m q).isSome} = ((entries.map fun e => (⟦e.key⟧ : Quotient hc.setoid)).toFinset : Set _) := by
    ext q
    induction q using Quotient.ind with
    | _ key =>
      simp only [Set.mem_ofPred_eq, Option.isSome_iff_exists, List.coe_toFinset, List.mem_map, hmem, h.get]
      constructor
      · rintro ⟨value, e, he, heq, -⟩
        exact ⟨e, he, Quotient.sound heq⟩
      · rintro ⟨e, he, heq⟩
        exact ⟨e.value, e, he, Quotient.exact heq, rfl⟩
  rw [hset, Set.ncard_coe_finset, List.toFinset_card_of_nodup hnodup, List.length_map, h.count,
    occupied_eq_length]

theorem Represents.find (h : Represents hc ht m) (hclear : slot ht.hentries c = none) (key : K) :
    ∃ k : ℤ, ht.findHtentry M key = some (k % ht.hentries.length).toNat ∧
      Stops ht.hentries (fun e => test.equalFunction M e.key key = true) (ht.home M test key) k := by
  obtain ⟨k, hk, hs⟩ := findHtentry_eq M h.length hclear h.pos key
  have hmatch : ∀ e : Htentry K V, (ht.test.chooseForLookup M key).lookupMatch M key e = true ↔
      test.equalFunction M e.key key = true := by
    intro e
    rw [h.test_eq, lookupMatch_chooseForLookup]
    constructor
    · rintro (rfl | heq)
      · exact hc.refl _
      · exact heq
    · exact .inr
  have hhome : ht.home M (ht.test.chooseForLookup M key) key = ht.home M test key := by
    rw [home, home, hashFunction_chooseForLookup, h.test_eq]
  simp only [hmatch, hhome] at hs
  exact ⟨k, hk, hs⟩

theorem home_congr (hc : Compatible M test) {a b : K} (heq : test.equalFunction M a b = true) :
    ht.home M test a = ht.home M test b := by
  rw [home, home, hc.hash heq]

theorem Represents.absent (h : Represents hc ht m)
    (hs : Stops ht.hentries (fun e => test.equalFunction M e.key key = true) (ht.home M test key) k)
    (hk : slot ht.hentries k = none) {e : Htentry K V} (he : some e ∈ ht.hentries) :
    test.equalFunction M e.key key ≠ true := by
  intro heq
  obtain ⟨j, hj⟩ := mem_iff_slot.mp he
  obtain ⟨e', he', -⟩ := h.reached.found hj heq (by rw [home_congr hc heq]) hs
  rw [hk] at he'
  contradiction

theorem Represents.gethash (h : Represents hc ht m) (hclear : slot ht.hentries c = none) (default_ : V) :
    ht.gethash M key default_ = some ((m ⟦key⟧).getD default_) := by
  obtain ⟨k, hk, hs⟩ := h.find hclear key
  rw [gethash_eq hk]
  cases hslot : slot ht.hentries k with
  | some e =>
    have hget := (h.get key e.value).mpr ⟨e, mem_iff_slot.mpr ⟨k, hslot⟩, hs.stop e hslot, rfl⟩
    rw [hget]
    rfl
  | none =>
    have hget : m ⟦key⟧ = none := by
      rw [Option.eq_none_iff_forall_ne_some]
      intro value hvalue
      obtain ⟨e, he, heq, -⟩ := (h.get key value).mp hvalue
      exact h.absent hs hslot he heq
    rw [hget]
    rfl

theorem get_update {l l' : List (Option (Htentry K V))} {o : Option (Htentry K V)}
    (hget : ∀ key value, m ⟦key⟧ = some value ↔
      ∃ e, some e ∈ l ∧ test.equalFunction M e.key key = true ∧ e.value = value)
    (ho : ∀ e ∈ o, test.equalFunction M e.key key = true)
    (hmem : ∀ e', some e' ∈ l' ↔ e' ∈ o ∨ (some e' ∈ l ∧ ¬ test.equalFunction M e'.key key = true))
    [DecidableEq (Quotient hc.setoid)] (key' : K) (value' : V) :
    Function.update m ⟦key⟧ (o.map Htentry.value) ⟦key'⟧ = some value' ↔
      ∃ e', some e' ∈ l' ∧ test.equalFunction M e'.key key' = true ∧ e'.value = value' := by
  by_cases hkey : (⟦key'⟧ : Quotient hc.setoid) = ⟦key⟧
  · have heq : test.equalFunction M key' key = true := Quotient.exact hkey
    rw [hkey, Function.update_self, Option.map_eq_some_iff]
    constructor
    · rintro ⟨e, he, rfl⟩
      exact ⟨e, (hmem e).mpr (.inl he), hc.trans (ho e he) (hc.symm heq), rfl⟩
    · rintro ⟨e', he', heq', rfl⟩
      rcases (hmem e').mp he' with hnew | ⟨-, hne⟩
      · exact ⟨e', hnew, rfl⟩
      · exact absurd (hc.trans heq' heq) hne
  · rw [Function.update_of_ne hkey, hget]
    constructor
    · rintro ⟨e', he', heq', rfl⟩
      refine ⟨e', (hmem e').mpr (.inr ⟨he', fun heq => hkey (Quotient.sound ?_)⟩), heq', rfl⟩
      exact hc.trans (hc.symm heq') heq
    · rintro ⟨e', he', heq', rfl⟩
      rcases (hmem e').mp he' with hnew | ⟨hold, -⟩
      · exact absurd (Quotient.sound (hc.trans (hc.symm heq') (ho e' hnew))) hkey
      · exact ⟨e', hold, heq', rfl⟩

variable [DecidableEq (Quotient hc.setoid)]

theorem Represents.replace (h : Represents hc ht m) {e : Htentry K V} (hk : slot ht.hentries k = some e)
    (heq : test.equalFunction M e.key key = true) :
    Represents hc { ht with hentries := setSlot ht.hentries k (some { e with value }) }
      (Function.update m ⟦key⟧ (some value)) := by
  refine ⟨h.test_eq, by rw [length_setSlot]; exact h.length, h.size, ?_, h.rehashSize, ?_, ?_, ?_⟩
  · rw [occupied_replace hk]
    exact h.count
  · exact h.reached.replace hk rfl
  · refine h.apart.setSlot_some fun j e' hne hj => ⟨fun hr => hne ?_, fun hr => hne ?_⟩
    · exact h.apart j k e' e hj hk (hc.symm hr)
    · exact h.apart j k e' e hj hk hr
  · refine get_update (o := some { e with value }) h.get (fun e' he' => Option.some.inj he' ▸ heq) fun e' => ?_
    rw [Option.mem_some_iff, eq_comm, mem_setSlot_replace h.apart (fun e => hc.refl e.key) hk]
    have hsame : SameKey M test e' e ↔ test.equalFunction M e'.key key = true :=
      ⟨fun hr => hc.trans hr heq, fun hr => hc.trans hr (hc.symm heq)⟩
    rw [hsame]

theorem Represents.fill (h : Represents hc ht m) (value : V)
    (hs : Stops ht.hentries (fun e => test.equalFunction M e.key key = true) (ht.home M test key) k)
    (hk : slot ht.hentries k = none) :
    Represents hc (ht.fill k ⟨key, value⟩) (Function.update m ⟦key⟧ (some value)) := by
  have hl : 0 < ht.hentries.length := h.length ▸ h.pos
  have hnew : ∀ {e : Htentry K V}, some e ∈ ht.hentries → test.equalFunction M e.key key ≠ true :=
    fun he => h.absent hs hk he
  refine ⟨h.test_eq, by rw [HashTable.fill, length_setSlot]; exact h.length, h.size, ?_, h.rehashSize, ?_, ?_, ?_⟩
  · rw [HashTable.fill, occupied_fill hl hk, h.count]
  · exact h.reached.insert hl rfl hs
  · refine h.apart.setSlot_some fun j e' _ hj => ⟨fun hr => ?_, fun hr => ?_⟩
    · exact hnew (mem_iff_slot.mpr ⟨j, hj⟩) (hc.symm hr)
    · exact hnew (mem_iff_slot.mpr ⟨j, hj⟩) hr
  · refine get_update (o := some ⟨key, value⟩) h.get (fun e' he' => Option.some.inj he' ▸ hc.refl key) fun e' => ?_
    rw [HashTable.fill, mem_setSlot_some hl hk, Option.mem_some_iff, eq_comm]
    constructor
    · rintro (rfl | he')
      · exact .inl rfl
      · exact .inr ⟨he', hnew he'⟩
    · rintro (rfl | ⟨he', -⟩)
      · exact .inl rfl
      · exact .inr he'

omit [DecidableEq (Quotient hc.setoid)] in
theorem Represents.enlarge (h : Represents hc ht m) :
    ∃ ht', ht.enlarge M = some ht' ∧ Represents hc ht' m := by
  have hle : ht.size ≤ ht.enlargedSize := by
    refine le_hashTableSize h.size (Nat.le_floor ?_)
    exact le_mul_of_one_le_right (Nat.cast_nonneg _) h.rehashSize.le
  have hroom : occupied ht.hentries ≤ ht.enlargedSize := by
    have hocc : occupied ht.hentries ≤ ht.hentries.length := occupied_le_length
    rw [h.length] at hocc
    exact le_trans hocc hle
  have hpos := h.pos
  obtain ⟨l, heq, hlen, hr, ha, hocc, hmem⟩ := resize_eq M (by omega) hroom
    (h.apart.pairwise fun e e' hr => hc.symm hr)
  refine ⟨_, heq, h.test_eq, hlen, hashTableSize_isTableSize _, h.count.trans hocc.symm, h.rehashSize, ?_, ha, ?_⟩
  · rw [h.test_eq] at hr
    exact hr
  · intro key value
    rw [h.get]
    have hmem' : ∀ e, some e ∈ (ht.resized ht.enlargedSize l).hentries ↔ some e ∈ ht.hentries := hmem
    simp only [hmem']

theorem Represents.remhash1 (h : Represents hc ht m) (hclear : slot ht.hentries c = none) {e : Htentry K V}
    (hk : slot ht.hentries k = some e) (heq : test.equalFunction M e.key key = true) :
    ∃ ht', ht.remhash1 M (k % ht.hentries.length).toNat = some ht' ∧
      Represents hc ht' (Function.update m ⟦key⟧ none) := by
  have hreached := h.reached
  rw [← h.test_eq] at hreached
  obtain ⟨l, hl, hll, hr, ha, hocc, hback, hkept⟩ := remhash1_eq M (r := SameKey M test)
    (fun e e' hsame => by rw [SameKey, hsame]; exact hc.refl _) h.length hclear hreached h.apart hk
  rw [h.test_eq] at hr
  have hcount := h.count
  refine ⟨_, hl, h.test_eq, by rw [hll]; exact h.length, h.size, ?_, h.rehashSize, hr, ha,
    get_update (o := none) h.get (fun e he => absurd he (Option.not_mem_none e)) fun e' => ?_⟩
  · show ht.count - 1 = occupied l
    omega
  · rw [mem_remhash1 (fun e => hc.refl e.key) h.apart hk hll hback hkept]
    have hsame : SameKey M test e' e ↔ test.equalFunction M e'.key key = true :=
      ⟨fun hr => hc.trans hr heq, fun hr => hc.trans hr (hc.symm heq)⟩
    rw [hsame, or_iff_right (Option.not_mem_none e')]

theorem Represents.puthash (h : Represents hc ht m) (hclear : slot ht.hentries c = none) (key : K) (value : V) :
    ∃ ht', ht.puthash M key value = some ht' ∧ Represents hc ht' (Function.update m ⟦key⟧ (some value)) := by
  obtain ⟨k, hk, hs⟩ := h.find hclear key
  cases hslot : slot ht.hentries k with
  | some e => exact ⟨_, puthash_found hk hslot, h.replace hslot (hs.stop e hslot)⟩
  | none =>
    have hfill := h.fill value hs hslot
    rw [puthash_absent hk hslot]
    split_ifs
    · exact hfill.enlarge
    · exact ⟨_, rfl, hfill⟩

theorem Represents.remhash (h : Represents hc ht m) (hclear : slot ht.hentries c = none) (key : K) :
    ∃ ht' found, ht.remhash M key = some (ht', found) ∧ Represents hc ht' (Function.update m ⟦key⟧ none) := by
  obtain ⟨k, hk, hs⟩ := h.find hclear key
  cases hslot : slot ht.hentries k with
  | some e =>
    obtain ⟨ht', heq, h'⟩ := h.remhash1 hclear hslot (hs.stop e hslot)
    exact ⟨ht', true, by rw [remhash_found hk hslot, heq, Option.map_some], h'⟩
  | none =>
    have hnone : m ⟦key⟧ = none := by
      rw [Option.eq_none_iff_forall_ne_some]
      intro value hvalue
      obtain ⟨e, he, heq, -⟩ := (h.get key value).mp hvalue
      exact h.absent hs hslot he heq
    rw [← hnone, Function.update_eq_self]
    exact ⟨ht, false, remhash_absent hk hslot, h⟩

omit [DecidableEq (Quotient hc.setoid)] in
theorem Represents.clrhash (h : Represents hc ht m) : Represents hc ht.clrhash fun _ => none := by
  refine ⟨h.test_eq, List.length_replicate, h.size, (occupied_replicate _).symm, h.rehashSize,
    reached_replicate _ _, fun j k e e' hj => ?_, fun key value => ?_⟩
  · rw [HashTable.clrhash, slot_replicate] at hj
    contradiction
  · simp [HashTable.clrhash]

/-- A call on one of several tables; a copy is added at the end. -/
inductive TableCall (K V : Type*)
  | puthash (table : ℕ) (key : K) (value : V)
  | remhash (table : ℕ) (key : K)
  | clrhash (table : ℕ)
  | gethash (table : ℕ) (key : K) (default_ : V)
  | copyHashTable (table : ℕ)
  deriving DecidableEq

def TableCall.table : TableCall K V → ℕ
  | puthash table .. => table
  | remhash table _ => table
  | clrhash table => table
  | gethash table .. => table
  | copyHashTable table => table

omit [DecidableEq (Quotient hc.setoid)]

def callTables (M : KeyMethods K) (tables : List (HashTable K V)) (call : TableCall K V) :
    Option (List (HashTable K V)) :=
  tables[call.table]?.bind fun ht =>
    match call with
    | .puthash table key value => (ht.puthash M key value).map (tables.set table)
    | .remhash table key => (ht.remhash M key).map fun result => tables.set table result.1
    | .clrhash table => some (tables.set table ht.clrhash)
    | .gethash _ key default_ => (ht.gethash M key default_).map fun _ => tables
    | .copyHashTable _ => some (tables ++ [ht.copy])

def HasClearSlot (ht : HashTable K V) : Prop := ∃ o ∈ ht.hentries, Option.isNone o

instance (ht : HashTable K V) : Decidable ht.HasClearSlot := List.decidableBEx _ _

def CallsClear (tables : List (HashTable K V)) (call : TableCall K V) : Prop :=
  ∀ ht ∈ tables[call.table]?, ht.HasClearSlot

instance (tables : List (HashTable K V)) (call : TableCall K V) : Decidable (CallsClear tables call) :=
  inferInstanceAs (Decidable (∀ ht ∈ tables[call.table]?, _))

open Classical in
noncomputable def callMaps {s : Setoid K} (maps : List (Quotient s → Option V)) (call : TableCall K V) :
    List (Quotient s → Option V) :=
  match maps[call.table]? with
  | none => maps
  | some m =>
    match call with
    | .puthash table key value => maps.set table (Function.update m ⟦key⟧ (some value))
    | .remhash table key => maps.set table (Function.update m ⟦key⟧ none)
    | .clrhash table => maps.set table fun _ => none
    | .gethash .. => maps
    | .copyHashTable _ => maps ++ [m]

omit [DecidableEq K] in
theorem HasClearSlot.exists_slot (h : ht.HasClearSlot) : ∃ c, slot ht.hentries c = none := by
  obtain ⟨o, ho, hnone⟩ := h
  obtain ⟨i, hi, rfl⟩ := List.getElem_of_mem ho
  exact ⟨i, by rw [slot_of_lt hi]; exact Option.isNone_iff_eq_none.mp hnone⟩

def AllRepresent (hc : Compatible M test) (tables : List (HashTable K V))
    (maps : List (Quotient hc.setoid → Option V)) : Prop :=
  tables.length = maps.length ∧
    ∀ (i : ℕ) (ht : HashTable K V) (m : Quotient hc.setoid → Option V),
      tables[i]? = some ht → maps[i]? = some m → Represents hc ht m

variable {tables tables' : List (HashTable K V)} {maps : List (Quotient hc.setoid → Option V)}

theorem AllRepresent.set (h : AllRepresent hc tables maps) {ht' : HashTable K V}
    {m' : Quotient hc.setoid → Option V} (h' : Represents hc ht' m') (i : ℕ) :
    AllRepresent hc (tables.set i ht') (maps.set i m') := by
  refine ⟨by rw [List.length_set, List.length_set, h.1], fun j ht m hht hm => ?_⟩
  rw [List.getElem?_set] at hht hm
  split_ifs at hht hm
  · rw [← Option.some.inj hht, ← Option.some.inj hm]
    exact h'
  all_goals first | contradiction | exact h.2 j ht m hht hm

theorem AllRepresent.append (h : AllRepresent hc tables maps) {ht' : HashTable K V}
    {m' : Quotient hc.setoid → Option V} (h' : Represents hc ht' m') :
    AllRepresent hc (tables ++ [ht']) (maps ++ [m']) := by
  refine ⟨by simp [h.1], fun j ht m hht hm => ?_⟩
  rcases lt_trichotomy j tables.length with hlt | rfl | hgt
  · rw [List.getElem?_append_left hlt] at hht
    rw [List.getElem?_append_left (h.1 ▸ hlt)] at hm
    exact h.2 j ht m hht hm
  · rw [List.getElem?_concat_length] at hht
    rw [h.1, List.getElem?_concat_length] at hm
    rw [← Option.some.inj hht, ← Option.some.inj hm]
    exact h'
  · rw [List.getElem?_eq_none (by simp; omega)] at hht
    contradiction

theorem AllRepresent.call (h : AllRepresent hc tables maps) {call : TableCall K V}
    (htable : call.table < tables.length) (hok : CallsClear tables call) :
    ∃ tables', callTables M tables call = some tables' ∧ AllRepresent hc tables' (callMaps maps call) := by
  obtain ⟨ht, hht⟩ : ∃ ht, tables[call.table]? = some ht := ⟨_, List.getElem?_eq_getElem htable⟩
  obtain ⟨m, hm⟩ : ∃ m, maps[call.table]? = some m := ⟨_, List.getElem?_eq_getElem (h.1 ▸ htable)⟩
  classical
  have hrep := h.2 _ ht m hht hm
  obtain ⟨c, hclear⟩ := (hok ht hht).exists_slot
  rw [callTables, callMaps, hht, hm]
  cases call with
  | puthash table key value =>
    obtain ⟨ht', heq, hrep'⟩ := hrep.puthash hclear key value
    refine ⟨tables.set table ht', by simp only [Option.bind_some, heq, Option.map_some], ?_⟩
    convert h.set hrep' table
  | remhash table key =>
    obtain ⟨ht', found, heq, hrep'⟩ := hrep.remhash hclear key
    refine ⟨tables.set table ht', by simp only [Option.bind_some, heq, Option.map_some], ?_⟩
    convert h.set hrep' table
  | clrhash table => exact ⟨_, rfl, h.set hrep.clrhash table⟩
  | gethash table key default_ =>
    exact ⟨tables, by simp only [Option.bind_some, hrep.gethash hclear, Option.map_some], h⟩
  | copyHashTable table => exact ⟨_, rfl, h.append hrep⟩

structure ShowsMaps (hc : Compatible M test) (tables : List (HashTable K V))
    (maps : List (Quotient hc.setoid → Option V)) : Prop where
  length : tables.length = maps.length
  gethash : ∀ (i : ℕ) (ht : HashTable K V) (m : Quotient hc.setoid → Option V),
    tables[i]? = some ht → maps[i]? = some m → ht.HasClearSlot → ∀ key default_,
      ht.gethash M key default_ = some ((m ⟦key⟧).getD default_)
  count : ∀ (i : ℕ) (ht : HashTable K V) (m : Quotient hc.setoid → Option V),
    tables[i]? = some ht → maps[i]? = some m → ht.count = {q | (m q).isSome}.ncard
  calls : ∀ call : TableCall K V, call.table < tables.length → CallsClear tables call →
    (callTables M tables call).isSome

theorem AllRepresent.showsMaps (h : AllRepresent hc tables maps) : ShowsMaps hc tables maps := by
  refine ⟨h.1, fun i ht m hht hm hclear key default_ => ?_, fun i ht m hht hm => (h.2 i ht m hht hm).count_eq,
    fun call htable hok => ?_⟩
  · obtain ⟨c, hc⟩ := hclear.exists_slot
    exact (h.2 i ht m hht hm).gethash hc default_
  · obtain ⟨tables', heq, -⟩ := h.call htable hok
    rw [heq]
    rfl

theorem represents_makeHashTable (hc : Compatible M test) {size rehashSize rehashThreshold : KeywordArg}
    {weakness : HashTableWeakness}
    (hmake : makeHashTable test size rehashSize rehashThreshold weakness = .ok ht) :
    Represents hc ht fun _ => none := by
  have hsized := sized_makeHashTable hmake
  rw [makeHashTable] at hmake
  split at hmake
  · contradiction
  · obtain rfl := Except.ok.inj hmake
    refine ⟨rfl, hsized.length, hsized.size, hsized.count, hsized.rehashSize, reached_replicate _ _,
      fun j k e e' hj => ?_, fun key value => ?_⟩
    · rw [makeGeneralLispHashTable, computeDerivedValues, slot_replicate] at hj
      contradiction
    · simp [makeGeneralLispHashTable, computeDerivedValues]

end HashTable

end XEmacs.Table
