import XEmacs.Table.HashTableGap

/-! `with-hash-table-iterator` (elhash.c): a walk over a table from its last slot down, whose body
may remove the entry it was just given. -/

namespace XEmacs.Table

open Lib Lib.Probing

variable {K V E : Type*}

/-- The state of an iterator behind the table: `(-1 . nil)`, or the slot and the key of the next entry. -/
inductive IteratorState (K : Type*)
  | start
  | next (index : ℕ) (key : K)
  deriving DecidableEq

/-- The loops that step a probe down: the last slot before `n` with an entry that `stop` holds of. -/
def entryBelow (entries : List (Option E)) (stop : E → Bool) : ℕ → Option (ℕ × E)
  | 0 => none
  | n + 1 =>
    match entries[n]?.join with
    | none => entryBelow entries stop n
    | some e => if stop e then some (n, e) else entryBelow entries stop n

namespace HashTable

variable [DecidableEq K]

/-- Where `Fxemacs_hash_table_iterator_next` starts to look for an entry: one past the probe. No
result where the slot of the state is out of range. -/
def iteratorProbe (M : KeyMethods K) (ht : HashTable K V) : IteratorState K → Option ℕ
  | .start => some ht.size
  | .next index key =>
    if index > ht.size then none
    else if ht.hentries[index]?.join.map (·.key) = some key then some (index + 1)
    else
      -- the table has been modified
      (ht.findHtentry M key).map fun probe =>
        match ht.hentries[probe]?.join with
        | some _ => probe + 1
        | none =>
          let hash := ht.home M ht.test key
          match entryBelow ht.hentries (fun e => ht.home M ht.test e.key < hash) (index + 1) with
          | none => 0
          | some (probe, _) => probe + 1

/-- `Fxemacs_hash_table_iterator_next`: the new state, none where the symbol is unbound, and the
entry that is returned. -/
def iteratorNext (M : KeyMethods K) (ht : HashTable K V) :
    Option (IteratorState K) → Option (Option (IteratorState K) × Option (Htentry K V))
  | none => some (none, none)
  | some state =>
    (ht.iteratorProbe M state).map fun probe =>
      match entryBelow ht.hentries (fun _ => true) probe with
      | none => (none, none)
      | some (probe, e) =>
        ((entryBelow ht.hentries (fun _ => true) probe).map fun r => .next r.1 r.2.key, some e)

end HashTable

/-- A walk over a table: its state, and what the calls have returned. -/
structure Walk (K V : Type*) where
  table : HashTable K V
  state : Option (IteratorState K)
  returned : List (Option (Htentry K V))

/-- The entries in the slots before `n`, the last slot first. -/
def entriesDown (entries : List (Option E)) : ℕ → List E
  | 0 => []
  | n + 1 =>
    match entries[n]?.join with
    | none => entriesDown entries n
    | some e => e :: entriesDown entries n

namespace Walk

variable [DecidableEq K]

/-- The start of `with-hash-table-iterator`. -/
def init (ht : HashTable K V) : Walk K V := ⟨ht, some .start, []⟩

/-- A call of the iterator, and a body that calls `remhash` on what it returned if `remove`. -/
def step (M : KeyMethods K) (w : Walk K V) (remove : Bool) : Option (Walk K V) :=
  (w.table.iteratorNext M w.state).bind fun (state, e) =>
    match remove, e with
    | true, some e => (w.table.remhash M e.key).map fun r => ⟨r.1, state, w.returned ++ [some e]⟩
    | _, e => some ⟨w.table, state, w.returned ++ [e]⟩

/-- A removal that the body makes leaves the entries that have not been returned in place, or has the
next of them take the slot of the one removed. -/
def RemovesInPlace (M : KeyMethods K) (w : Walk K V) (remove : Bool) : Prop :=
  remove = true → ∀ r ∈ w.table.iteratorNext M w.state, ∀ e ∈ r.2, ∀ i ∈ List.range w.table.size,
    (slot w.table.hentries i).map (·.key) = some e.key → w.table.Undisturbed M i

end Walk

section EntriesDown

variable {l l' : List (Option E)} {n p : ℕ} {e : E}

theorem getElem?_join (l : List (Option E)) {i : ℕ} (hi : i < l.length) : l[i]?.join = slot l i := by
  rw [slot_of_lt hi, List.getElem?_eq_getElem hi, Option.join_some]

theorem entriesDown_succ_none (h : l[n]?.join = none) : entriesDown l (n + 1) = entriesDown l n := by
  rw [entriesDown, h]

theorem entriesDown_succ_some (h : l[n]?.join = some e) : entriesDown l (n + 1) = e :: entriesDown l n := by
  rw [entriesDown, h]

theorem entriesDown_congr (h : ∀ x < n, l[x]?.join = l'[x]?.join) : entriesDown l n = entriesDown l' n := by
  induction n with
  | zero => rfl
  | succ n ih =>
    rw [entriesDown, entriesDown, h n (Nat.lt_succ_self n), ih fun x hx => h x (Nat.lt_succ_of_lt hx)]

theorem entriesDown_of_clear (hpn : p ≤ n) (h : ∀ x, p ≤ x → x < n → l[x]?.join = none) :
    entriesDown l n = entriesDown l p := by
  induction n, hpn using Nat.le_induction with
  | base => rfl
  | succ n hpn ih =>
    rw [entriesDown_succ_none (h n hpn (Nat.lt_succ_self n)), ih fun x hx hxn => h x hx (Nat.lt_succ_of_lt hxn)]

theorem entryBelow_cases (l : List (Option E)) (n : ℕ) :
    (entryBelow l (fun _ => true) n = none ∧ entriesDown l n = []) ∨
      ∃ p e, entryBelow l (fun _ => true) n = some (p, e) ∧ p < n ∧ l[p]?.join = some e ∧
        (∀ x, p < x → x < n → l[x]?.join = none) ∧ entriesDown l n = e :: entriesDown l p := by
  induction n with
  | zero => exact Or.inl ⟨rfl, rfl⟩
  | succ n ih =>
    rw [entryBelow]
    cases hn : l[n]?.join with
    | some e =>
      refine Or.inr ⟨n, e, rfl, Nat.lt_succ_self n, hn, fun x hx hxn => by omega, entriesDown_succ_some hn⟩
    | none =>
      rw [entriesDown_succ_none hn]
      rcases ih with hnone | ⟨p, e, heq, hpn, hp, hclear, hdown⟩
      · exact Or.inl hnone
      · refine Or.inr ⟨p, e, heq, by omega, hp, fun x hpx hxn => ?_, hdown⟩
        rcases eq_or_ne x n with rfl | hne
        · exact hn
        · exact hclear x hpx (by omega)

theorem mem_entriesDown : e ∈ entriesDown l n ↔ ∃ x < n, l[x]?.join = some e := by
  induction n with
  | zero => simp [entriesDown]
  | succ n ih =>
    have hsplit : (∃ x < n + 1, l[x]?.join = some e) ↔ l[n]?.join = some e ∨ ∃ x < n, l[x]?.join = some e := by
      constructor
      · rintro ⟨x, hx, he⟩
        rcases eq_or_ne x n with rfl | hne
        · exact Or.inl he
        · exact Or.inr ⟨x, by omega, he⟩
      · rintro (he | ⟨x, hx, he⟩)
        · exact ⟨n, Nat.lt_succ_self n, he⟩
        · exact ⟨x, by omega, he⟩
    rw [hsplit, ← ih]
    cases hn : l[n]?.join with
    | none => rw [entriesDown_succ_none hn]; simp
    | some e' =>
      rw [entriesDown_succ_some hn, List.mem_cons, Option.some.injEq, eq_comm]

theorem nodup_entriesDown (h : ∀ (x y : ℕ) (e : E), l[x]?.join = some e → l[y]?.join = some e → x = y) (n : ℕ) :
    (entriesDown l n).Nodup := by
  induction n with
  | zero => exact List.nodup_nil
  | succ n ih =>
    cases hn : l[n]?.join with
    | none => rwa [entriesDown_succ_none hn]
    | some e =>
      rw [entriesDown_succ_some hn]
      refine List.nodup_cons.mpr ⟨fun hmem => ?_, ih⟩
      obtain ⟨x, hx, he⟩ := mem_entriesDown.mp hmem
      have := h x n e he hn
      omega

end EntriesDown

end XEmacs.Table
