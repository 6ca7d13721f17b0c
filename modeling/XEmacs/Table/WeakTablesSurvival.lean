import XEmacs.Table.HashTableMap
import XEmacs.Table.WeakTables

/-! Weak tables survive collections. Entries move only towards the slot that is being pruned, never
into one that has been. The copies that `copy-hash-table` makes of weak tables are not listed, and
not pruned. -/

namespace XEmacs.Table

open Lib Lib.Probing Lib.Marking HashTable

variable {K V : Type*} [DecidableEq K] {M : KeyMethods K} {ht ht' : HashTable K V} {e e' : Htentry K V}
  {key : K} {value : V} {i : ℕ}

/-! ### Tables of any test -/

namespace HashTable

/-- Entries that are not in one table together: with one key, or with equal keys if the test goes
with its hash function. -/
def Same (M : KeyMethods K) (test : HashTableTest K) (e e' : Htentry K V) : Prop :=
  e.key = e'.key ∨ (Compatible M test ∧ test.equalFunction M e.key e'.key = true)

theorem Same.symm {test : HashTableTest K} (h : Same M test e e') : Same M test e' e := by
  rcases h with heq | ⟨hc, heq⟩
  · exact .inl heq.symm
  · exact .inr ⟨hc, hc.symm heq⟩

theorem home_of_same (h : Same M ht.test e e') : ht.home M ht.test e.key = ht.home M ht.test e'.key := by
  rcases h with heq | ⟨hc, heq⟩
  · rw [heq]
  · exact home_congr hc heq

/-- A table with a clear slot whose entries are reached, for any test. -/
structure Probed (M : KeyMethods K) (ht : HashTable K V) : Prop extends Sized ht where
  reached : Reached ht.hentries (fun e => (ht.home M ht.test e.key : ℤ))
  apart : Apart ht.hentries (Same M ht.test)

theorem Probed.find (h : Probed M ht) (key : K) :
    ∃ k : ℤ, ht.findHtentry M key = some (k % ht.hentries.length).toNat ∧
      Stops ht.hentries (fun e => e.key = key ∨ ht.test.equalFunction M e.key key = true)
        (ht.home M ht.test key) k := by
  obtain ⟨c, hclear⟩ := h.exists_clear
  obtain ⟨k, hk, hs⟩ := findHtentry_eq M h.length hclear h.pos key
  have hhome : ht.home M (ht.test.chooseForLookup M key) key = ht.home M ht.test key := by
    rw [home, home, hashFunction_chooseForLookup]
  simp only [lookupMatch_chooseForLookup, hhome] at hs
  exact ⟨k, hk, hs⟩

theorem Probed.absent (h : Probed M ht) (value : V) {k : ℤ}
    (hs : Stops ht.hentries (fun e => e.key = key ∨ ht.test.equalFunction M e.key key = true)
      (ht.home M ht.test key) k)
    (hk : slot ht.hentries k = none) {j : ℤ} (hj : slot ht.hentries j = some e) :
    ¬ Same M ht.test e ⟨key, value⟩ := by
  intro hsame
  have hmatch : e.key = key ∨ ht.test.equalFunction M e.key key = true := by
    rcases hsame with heq | ⟨-, heq⟩
    · exact .inl heq
    · exact .inr heq
  obtain ⟨e₁, he₁, -⟩ := h.reached.found hj hmatch (by rw [← home_of_same hsame]) hs
  rw [hk] at he₁
  contradiction

theorem Probed.fill (h : Probed M ht) (value : V) {k : ℤ}
    (hs : Stops ht.hentries (fun e => e.key = key ∨ ht.test.equalFunction M e.key key = true)
      (ht.home M ht.test key) k)
    (hk : slot ht.hentries k = none) :
    Reached (ht.fill k ⟨key, value⟩).hentries (fun e => (ht.home M ht.test e.key : ℤ)) ∧
      Apart (ht.fill k ⟨key, value⟩).hentries (Same M ht.test) := by
  refine ⟨h.reached.insert (h.length ▸ h.pos) rfl hs, h.apart.setSlot_some fun j e' _ hj => ?_⟩
  have hne := h.absent value hs hk hj
  exact ⟨fun hsame => hne hsame.symm, hne⟩

/-- What `puthash` and the other functions leave of a table besides its entries. -/
structure SameKind (ht ht' : HashTable K V) : Prop where
  weakness : ht'.weakness = ht.weakness
  test : ht'.test = ht.test

theorem Probed.puthash (h : Probed M ht) (hok : ht.EnlargesToMore (M, .puthash key value)) :
    ∃ ht', ht.puthash M key value = some ht' ∧ Probed M ht' ∧ SameKind ht ht' := by
  obtain ⟨ht', hput, hsized⟩ := h.toSized.puthash hok
  refine ⟨ht', hput, ?_⟩
  obtain ⟨k, hk, hs⟩ := h.find key
  cases hslot : slot ht.hentries k with
  | some e =>
    rw [puthash_found hk hslot] at hput
    obtain rfl := Option.some.inj hput
    refine ⟨⟨hsized, h.reached.replace hslot rfl, h.apart.setSlot_some fun j e' hne hj => ?_⟩, rfl, rfl⟩
    have hapart : ¬ Same M ht.test e' e := fun hsame => hne (h.apart j k e' e hj hslot hsame)
    exact ⟨fun hsame => hapart (Same.symm (e := e) hsame), fun hsame => hapart hsame⟩
  | none =>
    obtain ⟨hreached, hapart⟩ := h.fill value hs hslot
    rw [puthash_absent hk hslot] at hput
    split_ifs at hput with hcount
    · have hpos : 0 < (ht.fill k ⟨key, value⟩).enlargedSize :=
        lt_of_lt_of_le (by decide) (hashTableSize_isTableSize _).bounds.1
      have hle : (ht.fill k ⟨key, value⟩).size ≤ (ht.fill k ⟨key, value⟩).enlargedSize := by
        refine le_hashTableSize h.size (Nat.le_floor ?_)
        exact le_mul_of_one_le_right (Nat.cast_nonneg _) h.rehashSize.le
      have hroom : occupied (ht.fill k ⟨key, value⟩).hentries ≤ (ht.fill k ⟨key, value⟩).enlargedSize := by
        have hlen : (ht.fill k ⟨key, value⟩).hentries.length = ht.size := by
          rw [HashTable.fill, length_setSlot, h.length]
        have hocc : occupied (ht.fill k ⟨key, value⟩).hentries ≤ _ := occupied_le_length
        exact hocc.trans (hlen ▸ hle)
      obtain ⟨l, heq, -, hr, ha, -⟩ := resize_eq M hpos hroom (hapart.pairwise fun e e' => Same.symm)
      rw [enlarge, heq] at hput
      obtain rfl := Option.some.inj hput
      exact ⟨⟨hsized, hr, ha⟩, rfl, rfl⟩
    · obtain rfl := Option.some.inj hput
      exact ⟨⟨hsized, hreached, hapart⟩, rfl, rfl⟩

theorem Probed.remhash1 (h : Probed M ht) (hi : i < ht.size) (he : slot ht.hentries i = some e) :
    ∃ ht', ht.remhash1 M i = some ht' ∧ Probed M ht' ∧ SameKind ht ht' ∧ ht'.size = ht.size ∧
      occupied ht'.hentries + 1 = occupied ht.hentries ∧
      (∀ e', some e' ∈ ht'.hentries ↔ some e' ∈ ht.hentries ∧ e' ≠ e) ∧
      ∀ j < i, ∀ e', slot ht'.hentries (j : ℕ) = some e' → ∃ j' < i, slot ht.hentries (j' : ℕ) = some e' := by
  obtain ⟨c, hclear⟩ := h.exists_clear
  have hlen := h.length
  have hcount := h.count
  have hlt := h.lt
  obtain ⟨l, hl, hll, hr, ha, hocc, hback, hkept⟩ := remhash1_eq M (r := Same M ht.test)
    (fun e e' hsame => .inl hsame) h.length hclear h.reached h.apart he
  rw [Int.emod_eq_of_lt (by omega) (by omega), Int.toNat_natCast] at hl
  refine ⟨_, hl, ⟨⟨by rw [← hlen, ← hll], h.size, ?_, ?_, h.rehashSize, h.rehashThreshold, h.rehashCount⟩, hr, ha⟩,
    ⟨rfl, rfl⟩, rfl, hocc, fun e' => ?_, fun j hj e' he' => ?_⟩
  · show ht.count - 1 = occupied l
    omega
  · show ht.count - 1 < ht.size
    omega
  · rw [mem_remhash1 (fun e => .inl rfl) h.apart he hll hback hkept]
    refine and_congr_right fun he' => not_congr ⟨fun hsame => ?_, fun heq => heq ▸ .inl rfl⟩
    obtain ⟨j, hj⟩ := mem_iff_slot.mp he'
    exact h.apart.eq hj he hsame
  · -- the slots before `i` come last in the turn that starts at `i`
    have hturn : slot l (j + ht.hentries.length : ℤ) = some e' := by
      rw [← he']
      exact slot_congr (by rw [← hll, Int.add_emod_right])
    obtain ⟨y, hjy, -, hyn, hy⟩ := hback _ e' (by omega) (by omega) hturn
    refine ⟨(y - ht.hentries.length).toNat, by omega, ?_⟩
    rw [← hy]
    apply slot_congr
    rw [Int.toNat_of_nonneg (by omega), Int.sub_emod_right]

theorem Probed.remhash (h : Probed M ht) (key : K) :
    ∃ ht' found, ht.remhash M key = some (ht', found) ∧ Probed M ht' ∧ SameKind ht ht' := by
  obtain ⟨k, hk, -⟩ := h.find key
  cases hslot : slot ht.hentries k with
  | none => exact ⟨ht, false, remhash_absent hk hslot, h, rfl, rfl⟩
  | some e =>
    have hl := (slot_some_lt hslot).2
    have hnat : slot ht.hentries ((k % ht.hentries.length).toNat : ℤ) = some e := by
      rw [slot_of_lt hl, ← hslot, ← (slot_emod (k := k) (slot_some_lt hslot).1).2]
    obtain ⟨ht', heq, hprobed, hkind, -⟩ := h.remhash1 (h.length ▸ hl) hnat
    exact ⟨ht', true, by rw [remhash_found hk hslot, heq, Option.map_some], hprobed, hkind⟩

theorem Probed.gethash (h : Probed M ht) (hc : Compatible M ht.test) (he : some e ∈ ht.hentries) (default_ : V) :
    ht.gethash M e.key default_ = some e.value := by
  obtain ⟨k, hk, hs⟩ := h.find e.key
  obtain ⟨j, hj⟩ := mem_iff_slot.mp he
  obtain ⟨e', he', hmatch⟩ := h.reached.found hj (.inl rfl) rfl hs
  have hsame : Same M ht.test e' e := by
    rcases hmatch with heq | heq
    · exact .inl heq
    · exact .inr ⟨hc, heq⟩
  rw [gethash_eq hk, he', h.apart.eq he' hj hsame]
  rfl

theorem probed_makeHashTable {test : HashTableTest K} {size rehashSize rehashThreshold : KeywordArg}
    {weakness : HashTableWeakness}
    (hmake : makeHashTable test size rehashSize rehashThreshold weakness = .ok ht) : Probed M ht := by
  have hsized := sized_makeHashTable hmake
  rw [makeHashTable] at hmake
  split at hmake
  · contradiction
  · obtain rfl := Except.ok.inj hmake
    refine ⟨hsized, reached_replicate _ _, fun j k e e' hj => ?_⟩
    rw [makeGeneralLispHashTable, computeDerivedValues, slot_replicate] at hj
    contradiction

end HashTable

namespace Memory

variable {n : ℕ} {M : KeyMethods (LispWord n)} {marks : Finset (Fin n)}
  {ht ht' ht'' : HashTable (LispWord n) (LispWord n)} {e e' : Htentry (LispWord n) (LispWord n)} {i fuel : ℕ}
  {S S' : Memory n} {heap heap' : Fin n → Content n} {roots tables : List (Fin n)} {a b : Fin n}

/-- The key and the value of an entry are marked. -/
def Alive (marks : Finset (Fin n)) (e : Htentry (LispWord n) (LispWord n)) : Prop :=
  markedP marks e.key = true ∧ markedP marks e.value = true

/-- The table has lost entries that are not alive, and nothing else. -/
structure Pruned (M : KeyMethods (LispWord n)) (marks : Finset (Fin n))
    (ht ht' : HashTable (LispWord n) (LispWord n)) : Prop where
  probed : Probed M ht'
  kind : SameKind ht ht'
  size : ht'.size = ht.size
  old : ∀ e, some e ∈ ht'.hentries → some e ∈ ht.hentries
  kept : ∀ e, some e ∈ ht.hentries → Alive marks e → some e ∈ ht'.hentries

theorem Pruned.refl (h : Probed M ht) : Pruned M marks ht ht :=
  ⟨h, ⟨rfl, rfl⟩, rfl, fun _ he => he, fun _ he _ => he⟩

theorem Pruned.trans (h : Pruned M marks ht ht') (h' : Pruned M marks ht' ht'') : Pruned M marks ht ht'' where
  probed := h'.probed
  kind := ⟨h'.kind.weakness.trans h.kind.weakness, h'.kind.test.trans h.kind.test⟩
  size := h'.size.trans h.size
  old := fun e he => h.old e (h'.old e he)
  kept := fun e he halive => h'.kept e (h.kept e he halive) halive

theorem alive_iff : (!markedP marks e.key || !markedP marks e.value) = false ↔ Alive marks e := by
  simp [Alive]

/-- Whatever is in the slots up to `i` is alive. -/
def AliveUpTo (marks : Finset (Fin n)) (ht : HashTable (LispWord n) (LispWord n)) (i : ℕ) : Prop :=
  ∀ j < i, ∀ e, slot ht.hentries (j : ℕ) = some e → Alive marks e

theorem getElem?_slot (h : Probed M ht) (hi : i < ht.size) : ht.hentries[i]?.join = slot ht.hentries i := by
  have hlen := h.length
  rw [slot_of_lt (hlen ▸ hi), List.getElem?_eq_getElem (hlen ▸ hi), Option.join_some]

theorem pruneSlot_eq (h : Probed M ht) (hi : i < ht.size) (halive : AliveUpTo marks ht i)
    (hfuel : occupied ht.hentries < fuel) :
    ∃ ht', pruneSlot M marks fuel ht i = some ht' ∧ Pruned M marks ht ht' ∧ AliveUpTo marks ht' (i + 1) := by
  induction fuel generalizing ht with
  | zero => omega
  | succ fuel ih =>
    have hlast : (∀ e, slot ht.hentries i = some e → Alive marks e) → AliveUpTo marks ht (i + 1) := by
      intro hi' j hj e he
      rcases Nat.lt_succ_iff_lt_or_eq.mp hj with hj | rfl
      · exact halive j hj e he
      · exact hi' e he
    rw [pruneSlot]
    simp only [getElem?_slot h hi]
    cases hslot : slot ht.hentries i with
    | none =>
      refine ⟨ht, rfl, .refl h, hlast fun e he => ?_⟩
      rw [hslot] at he
      contradiction
    | some entry =>
      cases hmarked : !markedP marks entry.key || !markedP marks entry.value with
      | false =>
        refine ⟨ht, by simp only [hmarked, Bool.false_eq_true, if_false], .refl h, hlast fun e he => ?_⟩
        rw [hslot] at he
        exact Option.some.inj he ▸ alive_iff.mp hmarked
      | true =>
        obtain ⟨ht₁, hrem, hprobed, hkind, hsize, hocc, hmem, hbefore⟩ := h.remhash1 hi hslot
        have halive₁ : AliveUpTo marks ht₁ i := by
          intro j hj e he
          obtain ⟨j', hj', he'⟩ := hbefore j hj e he
          exact halive j' hj' e he'
        obtain ⟨ht', heq, hpruned, hup⟩ := ih hprobed (hsize ▸ hi) halive₁ (by omega)
        have hfirst : Pruned M marks ht ht₁ := by
          refine ⟨hprobed, hkind, hsize, fun e he => ((hmem e).mp he).1, fun e he hal => (hmem e).mpr ⟨he, ?_⟩⟩
          rintro rfl
          rw [alive_iff.mpr hal] at hmarked
          contradiction
        refine ⟨ht', ?_, hfirst.trans hpruned, hup⟩
        simp only [hmarked, if_true, hrem, Option.bind_some, heq]

theorem pruneSlots_eq (m : ℕ) (h : Probed M ht) (hi : i + m = ht.size) (halive : AliveUpTo marks ht i) :
    ∃ ht', pruneSlots M marks (List.range' i m) ht = some ht' ∧ Pruned M marks ht ht' ∧
      AliveUpTo marks ht' ht'.size := by
  induction m generalizing ht i with
  | zero =>
    rw [Nat.add_zero] at hi
    exact ⟨ht, rfl, .refl h, hi ▸ halive⟩
  | succ m ih =>
    have hocc : occupied ht.hentries < ht.size + 1 := by
      rw [← h.count]
      exact Nat.lt_succ_of_lt h.lt
    obtain ⟨ht₁, hprune, hpruned, halive₁⟩ := pruneSlot_eq h (by omega) halive hocc
    obtain ⟨ht', heq, hpruned', hall⟩ := ih hpruned.probed (show i + 1 + m = ht₁.size by rw [hpruned.size]; omega) halive₁
    refine ⟨ht', ?_, hpruned.trans hpruned', hall⟩
    rw [List.range'_succ, pruneSlots, hprune, Option.bind_some, heq]

theorem pruneSlots_range (marks : Finset (Fin n)) (h : Probed M ht) :
    ∃ ht', pruneSlots M marks (List.range ht.size) ht = some ht' ∧ Pruned M marks ht ht' ∧
      ∀ e, some e ∈ ht'.hentries → Alive marks e := by
  have hnone : AliveUpTo marks ht 0 := fun j hj => by omega
  obtain ⟨ht', heq, hpruned, hall⟩ := pruneSlots_eq ht.size h (Nat.zero_add _) hnone
  refine ⟨ht', by rw [List.range_eq_range', heq], hpruned, fun e he => ?_⟩
  obtain ⟨j, hj, hje⟩ := List.getElem_of_mem he
  exact hall j (hpruned.probed.length ▸ hj) e (by rw [slot_of_lt hj, hje])

/-- Every table has lost entries that are not alive, those of the list all of them. -/
def PrunedHeap (M : KeyMethods (LispWord n)) (marks : Finset (Fin n)) (tables : List (Fin n))
    (heap heap' : Fin n → Content n) : Prop :=
  ∀ a, (∀ ht, heap a = .hashTable ht → ∃ ht', heap' a = .hashTable ht' ∧ Pruned M marks ht ht' ∧
    (a ∈ tables → ∀ e, some e ∈ ht'.hentries → Alive marks e)) ∧
    ((heap a).table = none → heap' a = heap a)

/-- All tables are as lookups need them. -/
def AllProbed (M : KeyMethods (LispWord n)) (heap : Fin n → Content n) : Prop :=
  ∀ a ht, heap a = .hashTable ht → Probed M ht

theorem pruneTables_eq (marks : Finset (Fin n)) (tables : List (Fin n)) (h : AllProbed M heap) :
    ∃ heap', pruneTables M marks tables heap = some heap' ∧ PrunedHeap M marks tables heap heap' := by
  induction tables generalizing heap with
  | nil =>
    refine ⟨heap, rfl, fun a => ⟨fun ht hht => ⟨ht, hht, .refl (h a ht hht), fun ha => by simp at ha⟩, fun _ => rfl⟩⟩
  | cons t tables ih =>
    rw [pruneTables]
    cases ht₀ : heap t with
    | hashTable ht =>
      obtain ⟨ht₁, hprune, hpruned, hall⟩ := pruneSlots_range marks (h t ht ht₀)
      have h₁ : AllProbed M (Function.update heap t (.hashTable ht₁)) := by
        intro a ht' ha
        by_cases hat : a = t
        · subst hat
          rw [Function.update_self] at ha
          exact Content.hashTable.inj ha ▸ hpruned.probed
        · rw [Function.update_of_ne hat] at ha
          exact h a ht' ha
      obtain ⟨heap', heq, hheap⟩ := ih h₁
      refine ⟨heap', by simp only [hprune, Option.bind_some, heq], fun a => ?_⟩
      by_cases hat : a = t
      · subst hat
        refine ⟨fun ht' ha => ?_, fun hnone => by rw [ht₀] at hnone; simp [Content.table] at hnone⟩
        rw [ht₀] at ha
        obtain rfl := Content.hashTable.inj ha
        obtain ⟨ht₂, hht₂, hpruned₂, -⟩ := (hheap a).1 ht₁ (Function.update_self _ _ _)
        exact ⟨ht₂, hht₂, hpruned.trans hpruned₂, fun _ e he => hall e (hpruned₂.old e he)⟩
      · have hsame : Function.update heap t (.hashTable ht₁) a = heap a := Function.update_of_ne hat _ _
        obtain ⟨htable, hother⟩ := hheap a
        rw [hsame] at htable hother
        refine ⟨fun ht' ha => ?_, hother⟩
        obtain ⟨ht₂, hht₂, hpruned₂, halive⟩ := htable ht' ha
        exact ⟨ht₂, hht₂, hpruned₂, fun hmem => halive ((List.mem_cons.mp hmem).resolve_left hat)⟩
    | _ =>
      obtain ⟨heap', heq, hheap⟩ := ih h
      refine ⟨heap', heq, fun a => ⟨fun ht' ha => ?_, (hheap a).2⟩⟩
      obtain ⟨ht₂, hht₂, hpruned₂, halive⟩ := (hheap a).1 ht' ha
      refine ⟨ht₂, hht₂, hpruned₂, fun hmem => halive ((List.mem_cons.mp hmem).resolve_left ?_)⟩
      rintro rfl
      rw [ht₀] at ha
      contradiction

/-- An object is immediate, or one that `P` holds of. -/
def Holds (P : Fin n → Prop) : LispWord n → Prop
  | .immediate _ => True
  | .pointer a => P a

def CarHolds (heap : Fin n → Content n) (P : Fin n → Prop) : LispWord n → Prop
  | .immediate _ => True
  | .pointer a => ∀ car cdr, heap a = .cons car cdr → Holds P car

/-- The part of an entry that the weakness of its table tests. -/
def Tested (heap : Fin n → Content n) (P : Fin n → Prop) (weakness : HashTableWeakness)
    (e : Htentry (LispWord n) (LispWord n)) : Prop :=
  match weakness with
  | .keyWeak => Holds P e.key
  | .valueWeak => Holds P e.value
  | .keyValueWeak => Holds P e.key ∨ Holds P e.value
  | .keyCarWeak => CarHolds heap P e.key
  | .keyCarValueWeak => CarHolds heap P e.key ∨ Holds P e.value
  | .valueCarWeak => CarHolds heap P e.value
  | _ => False

/-- A set of objects with the roots, with what its objects refer to, and with the entries of its
weak tables that pass the test of the weakness. -/
structure Closed (heap : Fin n → Content n) (roots : List (Fin n)) (P : Fin n → Prop) : Prop where
  roots : ∀ a ∈ roots, P a
  refs : ∀ a, P a → ∀ b ∈ (heap a).refs, P b
  entries : ∀ a ht e, P a → heap a = .hashTable ht → some e ∈ ht.hentries → Tested heap P ht.weakness e →
    Holds P e.key ∧ Holds P e.value

def Reachable (heap : Fin n → Content n) (roots : List (Fin n)) (a : Fin n) : Prop :=
  ∀ P, Closed heap roots P → P a

theorem markedP_iff {obj : LispWord n} : markedP marks obj = true ↔ Holds (· ∈ marks) obj := by
  cases obj <;> simp [markedP, Holds]

theorem carMarkedP_iff {obj : LispWord n} : carMarkedP heap marks obj = true ↔ CarHolds heap (· ∈ marks) obj := by
  cases obj with
  | immediate k => simp [carMarkedP, CarHolds]
  | pointer a => cases ha : heap a <;> simp [carMarkedP, CarHolds, ha, markedP_iff]

theorem markObj_eq_nil {obj : LispWord n} : markObj marks obj = [] ↔ Holds (· ∈ marks) obj := by
  rw [← markedP_iff, markObj]
  cases obj <;> simp [LispWord.address, markedP]

theorem mem_markObj {obj : LispWord n} (h : a ∈ markObj marks obj) : obj = .pointer a ∧ a ∉ marks := by
  rw [markObj] at h
  cases obj with
  | immediate k => simp [markedP] at h
  | pointer b =>
    split_ifs at h with hb
    · simp at h
    · obtain rfl := List.mem_singleton.mp h
      exact ⟨rfl, fun hmem => hb (markedP_iff.mpr hmem)⟩

theorem mem_finishMarkingEntry {weakness : HashTableWeakness} (h : a ∈ finishMarkingEntry heap marks weakness e) :
    Tested heap (· ∈ marks) weakness e ∧ (e.key = .pointer a ∨ e.value = .pointer a) ∧ a ∉ marks := by
  have hkey : a ∈ markObj marks e.key → _ := mem_markObj
  have hvalue : a ∈ markObj marks e.value → _ := mem_markObj
  cases weakness <;> simp only [finishMarkingEntry] at h <;>
    simp only [Tested, ← markedP_iff, ← carMarkedP_iff] <;> grind

theorem finishMarkingEntry_eq_nil {weakness : HashTableWeakness}
    (h : finishMarkingEntry heap marks weakness e = []) (htest : Tested heap (· ∈ marks) weakness e) :
    Alive marks e := by
  have hnil : ∀ obj : LispWord n, markObj marks obj = [] ↔ markedP marks obj = true := fun obj =>
    markObj_eq_nil.trans markedP_iff.symm
  cases weakness <;> simp only [Tested, ← markedP_iff, ← carMarkedP_iff] at htest <;>
    simp only [finishMarkingEntry] at h <;> simp only [Alive] <;> grind [List.append_eq_nil_iff]

def Registered (S : Memory n) : Prop :=
  ∀ a ht, S.heap a = .hashTable ht → ht.weakness ≠ .nonWeak → a ∈ S.allWeakHashTables

theorem mem_finishMarking (h : a ∈ S.finishMarkingWeakHashTables marks) :
    ∃ t ∈ marks, ∃ ht, S.heap t = .hashTable ht ∧
      ∃ e, some e ∈ ht.hentries ∧ a ∈ finishMarkingEntry S.heap marks ht.weakness e := by
  obtain ⟨t, -, ht⟩ := List.mem_flatMap.mp h
  split_ifs at ht with hmarked
  · cases hheap : S.heap t with
    | hashTable table =>
      rw [hheap] at ht
      obtain ⟨e, he, ha⟩ := List.mem_flatMap.mp ht
      exact ⟨t, hmarked, table, hheap, e, by simpa using he, ha⟩
    | _ =>
      rw [hheap] at ht
      simp at ht
  · simp at ht

theorem finishMarking_eq_nil (h : S.finishMarkingWeakHashTables marks = []) (ha : a ∈ marks)
    (hlist : a ∈ S.allWeakHashTables) (hheap : S.heap a = .hashTable ht) (he : some e ∈ ht.hentries) :
    finishMarkingEntry S.heap marks ht.weakness e = [] := by
  have hall := List.flatMap_eq_nil_iff.mp h a hlist
  rw [if_pos ha, hheap] at hall
  exact List.flatMap_eq_nil_iff.mp hall e (by simpa using he)

theorem Tested.mono {P Q : Fin n → Prop} {weakness : HashTableWeakness} (h : Tested heap P weakness e)
    (hPQ : ∀ a, P a → Q a) : Tested heap Q weakness e := by
  have hholds : ∀ obj : LispWord n, Holds P obj → Holds Q obj := by
    intro obj hobj
    cases obj with
    | immediate k => trivial
    | pointer a => exact hPQ a hobj
  have hcar : ∀ obj : LispWord n, CarHolds heap P obj → CarHolds heap Q obj := by
    intro obj hobj
    cases obj with
    | immediate k => trivial
    | pointer a => exact fun car cdr ha => hholds car (hobj car cdr ha)
  cases weakness <;> simp only [Tested] at h ⊢ <;> grind

theorem markPhase_eq (hreg : Registered S) (roots : List (Fin n)) : ∃ marks, S.markPhase roots = some marks ∧
    Closed S.heap roots (· ∈ marks) ∧ ∀ a ∈ marks, Reachable S.heap roots a := by
  obtain ⟨marks₀, hmark⟩ := markStack_ends (fun a => (S.heap a).refs) _
    (le_refl (roots.length + work (fun a => (S.heap a).refs) ∅))
  obtain ⟨-, hroots, hclosed₀⟩ := markStack_closed hmark fun a ha => by simp at ha
  have hnew : ∀ marks, ∀ a ∈ S.finishMarkingWeakHashTables marks, a ∉ marks := by
    intro marks a ha
    obtain ⟨t, ht, table, htable, e, he, ha⟩ := mem_finishMarking ha
    exact (mem_finishMarkingEntry ha).2.2
  have hcard : marks₀ᶜ.card < n + 1 := Nat.lt_succ_of_le ((Finset.card_le_univ _).trans_eq (Fintype.card_fin n))
  obtain ⟨marks, hloop⟩ := markLoop_ends (fun a => (S.heap a).refs) hnew (n + 1) hclosed₀ hcard
  obtain ⟨hsub, hclosed, hnone⟩ := markLoop_closed hloop hclosed₀
  refine ⟨marks, ?_, ⟨fun a ha => hsub (hroots a ha), fun a ha b hb => ?_, fun a ht e ha hht he htest => ?_⟩,
    fun a ha P hP => ?_⟩
  · rw [markPhase, mark, hmark, Option.bind_some, hloop]
  · rcases hclosed a ha b hb with hmem | hmem
    · exact hmem
    · simp at hmem
  · have hweak : ht.weakness ≠ .nonWeak := by
      intro hnon
      rw [hnon] at htest
      exact htest
    have hnil := finishMarking_eq_nil hnone ha (hreg a ht hht hweak) hht he
    obtain ⟨hkey, hvalue⟩ := finishMarkingEntry_eq_nil hnil htest
    exact ⟨markedP_iff.mp hkey, markedP_iff.mp hvalue⟩
  · have hmarks₀ : ∀ a ∈ marks₀, P a := markStack_least hmark (by simp) hP.roots hP.refs
    refine markLoop_least hloop hmarks₀ hP.refs (fun marks hmarks a ha => ?_) a ha
    obtain ⟨t, ht, table, htable, e, he, ha⟩ := mem_finishMarking ha
    obtain ⟨htest, hpart, -⟩ := mem_finishMarkingEntry ha
    obtain ⟨hkey, hvalue⟩ := hP.entries t table e (hmarks t ht) htable he (htest.mono hmarks)
    rcases hpart with hpart | hpart
    · rw [hpart] at hkey
      exact hkey
    · rw [hpart] at hvalue
      exact hvalue

/-- What a weak table that is live has become. -/
structure Survives (M : KeyMethods (LispWord n)) (heap : Fin n → Content n) (marks : Finset (Fin n))
    (ht ht' : HashTable (LispWord n) (LispWord n)) : Prop where
  old : ∀ e, some e ∈ ht'.hentries → some e ∈ ht.hentries
  marked : ∀ e, some e ∈ ht'.hentries → Alive marks e
  /-- an entry stays if both parts are reachable, or what the weakness tests of it is -/
  kept : ∀ e, some e ∈ ht.hentries → Alive marks e ∨ Tested heap (· ∈ marks) ht.weakness e → some e ∈ ht'.hentries
  count : ht'.count = ht'.hentries.countP Option.isSome
  gethash : Compatible M ht'.test → ∀ e, some e ∈ ht'.hentries → ∀ default_,
    ht'.gethash M e.key default_ = some e.value

/-- A collection has marked what is reachable, and weak tables that are live survive it. -/
structure Collected (M : KeyMethods (LispWord n)) (S : Memory n) (roots : List (Fin n)) (marks : Finset (Fin n))
    (S' : Memory n) : Prop where
  marked : ∀ a, a ∈ marks ↔ Reachable S.heap roots a
  survives : ∀ a ∈ marks, ∀ ht, S.heap a = .hashTable ht → ht.weakness ≠ .nonWeak →
    ∃ ht', S'.heap a = .hashTable ht' ∧ Survives M S.heap marks ht ht'

/-- All tables are as lookups need them, and the weak ones are in the list. -/
structure Sound (M : KeyMethods (LispWord n)) (S : Memory n) : Prop where
  probed : AllProbed M S.heap
  registered : Registered S

theorem sweep_of_mem (ha : a ∈ marks) : sweep marks heap a = heap a := if_pos ha

theorem mem_of_sweep (h : sweep marks heap a = .hashTable ht) : a ∈ marks ∧ heap a = .hashTable ht := by
  rw [sweep] at h
  split_ifs at h with ha
  · exact ⟨ha, h⟩
  · split at h <;> contradiction

theorem PrunedHeap.of_table (h : PrunedHeap M marks tables heap heap') (ha : heap' a = .hashTable ht') :
    ∃ ht, heap a = .hashTable ht ∧ Pruned M marks ht ht' := by
  obtain ⟨htable, hother⟩ := h a
  cases hheap : heap a with
  | hashTable ht =>
    obtain ⟨ht₁, ht₁', hpruned, -⟩ := htable ht hheap
    rw [ha] at ht₁'
    exact ⟨ht, rfl, Content.hashTable.inj ht₁' ▸ hpruned⟩
  | _ =>
    rw [hother (by rw [hheap]; rfl), hheap] at ha
    contradiction

theorem Sound.collect (h : Sound M S) (roots : List (Fin n)) :
    ∃ S' marks, S.collect M roots = some (S', marks) ∧ Collected M S roots marks S' ∧ Sound M S' := by
  obtain ⟨marks, hmark, hclosed, hreach⟩ := markPhase_eq h.registered roots
  obtain ⟨heap', hprune, hheap⟩ := pruneTables_eq marks
    (S.allWeakHashTables.filter (· ∈ marks)) h.probed
  have hlist : ∀ a ht, a ∈ marks → S.heap a = .hashTable ht → ht.weakness ≠ .nonWeak →
      a ∈ S.allWeakHashTables.filter (· ∈ marks) := by
    intro a ht ha hht hweak
    exact List.mem_filter.mpr ⟨h.registered a ht hht hweak, decide_eq_true ha⟩
  refine ⟨⟨sweep marks heap', S.allWeakHashTables.filter (· ∈ marks)⟩, marks, ?_,
    ⟨fun a => ⟨hreach a, fun hr => hr _ hclosed⟩, fun a ha ht hht hweak => ?_⟩, fun a ht' ha => ?_,
    fun a ht' ha hweak => ?_⟩
  · rw [Memory.collect, hmark, Option.bind_some]
    simp only [hprune, Option.map_some]
  · obtain ⟨ht', hht', hpruned, halive⟩ := (hheap a).1 ht hht
    have halive := halive (hlist a ht ha hht hweak)
    refine ⟨ht', (sweep_of_mem ha).trans hht', hpruned.old, halive, fun e he hkeep => ?_, hpruned.probed.count,
      fun hc e he => hpruned.probed.gethash hc he⟩
    refine hpruned.kept e he ?_
    rcases hkeep with hboth | htest
    · exact hboth
    · obtain ⟨hkey, hvalue⟩ := hclosed.entries a ht e ha hht he htest
      exact ⟨markedP_iff.mpr hkey, markedP_iff.mpr hvalue⟩
  · obtain ⟨-, ha⟩ := mem_of_sweep ha
    obtain ⟨ht, -, hpruned⟩ := hheap.of_table ha
    exact hpruned.probed
  · obtain ⟨hmem, ha⟩ := mem_of_sweep ha
    obtain ⟨ht, hht, hpruned⟩ := hheap.of_table ha
    exact hlist a ht hmem hht (hpruned.kind.weakness ▸ hweak)

/-! ### Runs -/

/-- No weak table is copied, and a put that brings the count to the rehash count finds a larger size. -/
def Faithful (M : KeyMethods (LispWord n)) (S : Memory n) : Action n → Prop
  | .copyHashTable _ table => ∀ ht ∈ (S.heap table).table, ht.weakness = .nonWeak
  | .puthash table key value => ∀ ht ∈ (S.heap table).table, ht.EnlargesToMore (M, .puthash key value)
  | _ => True

instance (S : Memory n) : (action : Action n) → Decidable (Faithful M S action)
  | .copyHashTable _ table => inferInstanceAs (Decidable (∀ ht ∈ (S.heap table).table, ht.weakness = .nonWeak))
  | .puthash table key value =>
    inferInstanceAs (Decidable (∀ ht ∈ (S.heap table).table, ht.EnlargesToMore (M, .puthash key value)))
  | .write .. => isTrue trivial
  | .writeCons .. => isTrue trivial
  | .makeHashTable .. => isTrue trivial
  | .remhash .. => isTrue trivial
  | .collect _ => isTrue trivial

theorem table_eq_some {c : Content n} : c.table = some ht ↔ c = .hashTable ht := by
  cases c <;> simp [Content.table]

theorem update_table {b : Fin n} (h : Function.update heap a (.hashTable ht) b = .hashTable ht') :
    (b = a ∧ ht' = ht) ∨ heap b = .hashTable ht' := by
  by_cases hba : b = a
  · subst hba
    rw [Function.update_self] at h
    exact .inl ⟨rfl, (Content.hashTable.inj h).symm⟩
  · rw [Function.update_of_ne hba] at h
    exact .inr h

theorem Sound.update (h : Sound M S) {list : List (Fin n)} (hprobed : Probed M ht)
    (hlist : ∀ b ∈ S.allWeakHashTables, b ∈ list) (hweak : ht.weakness ≠ .nonWeak → a ∈ list) :
    Sound M ⟨Function.update S.heap a (.hashTable ht), list⟩ := by
  refine ⟨fun b ht' hb => ?_, fun b ht' hb hweak' => ?_⟩
  · rcases update_table hb with ⟨-, rfl⟩ | hb
    · exact hprobed
    · exact h.probed b ht' hb
  · rcases update_table hb with ⟨rfl, rfl⟩ | hb
    · exact hweak hweak'
    · exact hlist b (h.registered b ht' hb hweak')

theorem Sound.write (h : Sound M S) {c : Content n} (hc : c.table = none) :
    Sound M { S with heap := Function.update S.heap a c } := by
  have hold : ∀ b ht, Function.update S.heap a c b = .hashTable ht → S.heap b = .hashTable ht := by
    intro b ht hb
    by_cases hba : b = a
    · subst hba
      rw [Function.update_self] at hb
      rw [hb] at hc
      contradiction
    · rwa [Function.update_of_ne hba] at hb
  exact ⟨fun b ht hb => h.probed b ht (hold b ht hb), fun b ht hb => h.registered b ht (hold b ht hb)⟩

theorem Sound.step (h : Sound M S) {action : Action n} (hok : Faithful M S action)
    (hstep : S.step M action = some S') : Sound M S' := by
  cases action with
  | write a refs =>
    obtain ⟨-, hS⟩ := Option.ite_none_right_eq_some.mp hstep
    exact Option.some.inj hS ▸ h.write rfl
  | writeCons a car cdr =>
    obtain ⟨-, hS⟩ := Option.ite_none_right_eq_some.mp hstep
    exact Option.some.inj hS ▸ h.write rfl
  | makeHashTable a test size rehashSize rehashThreshold weakness =>
    obtain ⟨-, hS⟩ := Option.ite_none_right_eq_some.mp hstep
    split at hS
    next ht hmake =>
      obtain rfl := Option.some.inj hS
      refine h.update (probed_makeHashTable hmake) (fun b hb => ?_) fun hweak => ?_
      · split_ifs
        · exact List.mem_cons_of_mem _ hb
        · exact hb
      · rw [if_pos hweak]
        exact List.mem_cons_self
    · exact Option.some.inj hS ▸ h
  | copyHashTable a table =>
    obtain ⟨-, hS⟩ := Option.ite_none_right_eq_some.mp hstep
    obtain ⟨ht, hht, rfl⟩ := Option.map_eq_some_iff.mp hS
    have hnon : ht.weakness = .nonWeak := hok ht hht
    refine h.update (h.probed table ht (table_eq_some.mp hht)) (fun b hb => ?_) fun hweak => absurd hnon hweak
    rw [if_neg (not_not.mpr hnon)]
    exact hb
  | puthash table key value =>
    obtain ⟨ht, hht, hS⟩ := Option.bind_eq_some_iff.mp hstep
    obtain ⟨ht', hput, rfl⟩ := Option.map_eq_some_iff.mp hS
    obtain ⟨ht'', hput', hprobed, hkind⟩ := (h.probed table ht (table_eq_some.mp hht)).puthash (hok ht hht)
    rw [hput] at hput'
    obtain rfl := Option.some.inj hput'
    exact h.update hprobed (fun b hb => hb) fun hweak =>
      h.registered table ht (table_eq_some.mp hht) (hkind.weakness ▸ hweak)
  | remhash table key =>
    obtain ⟨ht, hht, hS⟩ := Option.bind_eq_some_iff.mp hstep
    obtain ⟨result, hrem, rfl⟩ := Option.map_eq_some_iff.mp hS
    obtain ⟨ht', found, hrem', hprobed, hkind⟩ := (h.probed table ht (table_eq_some.mp hht)).remhash key
    rw [hrem] at hrem'
    obtain rfl := Option.some.inj hrem'
    exact h.update hprobed (fun b hb => hb) fun hweak =>
      h.registered table ht (table_eq_some.mp hht) (hkind.weakness ▸ hweak)
  | collect roots =>
    obtain ⟨S₁, marks, hcollect, -, hsound⟩ := h.collect roots
    rw [Memory.step, hcollect] at hstep
    exact Option.some.inj hstep ▸ hsound

def initial (n : ℕ) : Memory n := ⟨fun _ => .unused, []⟩

/-- The methods of objects that are compared with `EQ`. -/
def wordMethods (n : ℕ) : KeyMethods (LispWord n) where
  lispHash
    | .immediate k => UInt64.ofInt (2 * k + 1)
    | .pointer a => UInt64.ofNat (8 * a.val)
  internalEqual obj₁ obj₂ := obj₁ = obj₂
  internalEqualp obj₁ obj₂ := obj₁ = obj₂
  internalHash obj _ :=
    match obj with
    | .immediate k => UInt64.ofInt (2 * k + 1)
    | .pointer a => UInt64.ofNat (8 * a.val)
  fixnump _ := false
  charp _ := false
  symbolp _ := false
  nonFixnumNumberp _ := false
  equal_immediate := by simp
  hash_immediate := by simp
  equalp_symbol := by simp
  hashp_symbol := by simp
  equal_number := by simp

end Memory

end XEmacs.Table
