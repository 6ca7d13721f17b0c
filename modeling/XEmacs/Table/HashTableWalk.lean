import XEmacs.Table.HashTableIterator

/-! What a walk with removals returns, on every table that calls can make. A table may be full,
as long as the calls on it end. -/

namespace XEmacs.Table

open Lib Lib.Probing HashTable

variable {K V E : Type*}

/-! ### Searches that end -/

theorem stops_of_linearProbingLoop {l : List (Option E)} {brk : E → Bool} {fuel probe p : ℕ} (hl : 0 < l.length)
    (hp : probe ≤ l.length) (h : linearProbingLoop l brk fuel probe = some p) :
    ∃ k : ℤ, p = (k % l.length).toNat ∧ Stops l (brk · = true) probe k := by
  induction fuel generalizing probe with
  | zero => cases h
  | succ fuel ih =>
    have hlt := wrapProbe_lt hl hp
    have hwrap := toNat_wrapProbe hl hp (k := probe) rfl
    have hhere : (∀ e, slot l probe = some e → brk e = true) → Stops l (brk · = true) probe probe :=
      fun hstop => ⟨le_refl _, fun j hj hlt => absurd hj (by omega), hstop⟩
    rw [linearProbingLoop] at h
    simp only [getElem?_wrapProbe hl hp] at h
    cases he : slot l probe with
    | none =>
      rw [he] at h
      obtain rfl := Option.some.inj h
      exact ⟨probe, hwrap, hhere fun e hsome => by rw [he] at hsome; cases hsome⟩
    | some e =>
      simp only [he] at h
      cases hbrk : brk e with
      | true =>
        rw [if_pos hbrk] at h
        obtain rfl := Option.some.inj h
        exact ⟨probe, hwrap, hhere fun e' hsome => by rw [he] at hsome; rw [← Option.some.inj hsome, hbrk]⟩
      | false =>
        have hne : ¬ brk e = true := by rw [hbrk]; exact Bool.false_ne_true
        rw [if_neg hne] at h
        obtain ⟨k, hk, hs⟩ := ih (by omega) h
        -- the same search from `probe`, where the loop has come around the end
        have hmod := wrapProbe_emod l.length probe
        have hshift := hs.shift (x := (probe : ℤ) + 1) (by push_cast; exact shift_emod hmod.symm)
        have hle := hshift.le
        have hend := sub_emod hmod k
        refine ⟨k - (wrapProbe l.length probe - probe), by rw [hend, hk], by push_cast at hle; omega,
          fun j hj hjk => ?_, fun e' he' => hs.stop e' (by rw [← slot_congr hend, he'])⟩
        rcases eq_or_lt_of_le hj with rfl | hj
        · exact ⟨e, he, hne⟩
        · exact hshift.passed j (by omega) (by push_cast; omega)

namespace HashTable

variable [DecidableEq K] {M : KeyMethods K} {test : HashTableTest K} {hc : Compatible M test} {ht ht' : HashTable K V}
  {m : Quotient hc.setoid → Option V} {key : K} {value : V} {e : Htentry K V} {i p : ℕ} {k : ℤ}

theorem Represents.lookup (h : Represents hc ht m)
    (hs : Stops ht.hentries ((ht.test.chooseForLookup M key).lookupMatch M key · = true)
      (ht.home M (ht.test.chooseForLookup M key) key) k) :
    Stops ht.hentries (fun e => test.equalFunction M e.key key = true) (ht.home M test key) k := by
  have hmatch : ∀ e : Htentry K V, (ht.test.chooseForLookup M key).lookupMatch M key e = true ↔
      test.equalFunction M e.key key = true := by
    intro e
    rw [h.test_eq, lookupMatch_chooseForLookup]
    constructor
    · rintro (rfl | heq)
      · exact hc.refl _
      · exact heq
    · exact Or.inr
  have hhome : ht.home M (ht.test.chooseForLookup M key) key = ht.home M test key := by
    rw [home, home, hashFunction_chooseForLookup, h.test_eq]
  simpa only [hmatch, hhome] using hs

theorem Represents.find_some (h : Represents hc ht m) (hfind : ht.findHtentry M key = some p) :
    ∃ k : ℤ, p = (k % ht.hentries.length).toNat ∧
      Stops ht.hentries (fun e => test.equalFunction M e.key key = true) (ht.home M test key) k := by
  have hpos := h.pos
  have hhome := home_lt M (ht.test.chooseForLookup M key) hpos key
  rw [← h.length] at hhome hpos
  obtain ⟨k, hk, hs⟩ := stops_of_linearProbingLoop hpos hhome.le hfind
  exact ⟨k, hk, h.lookup hs⟩

theorem Represents.find_present (h : Represents hc ht m) (hi : i < ht.size) (he : slot ht.hentries i = some e) :
    ht.findHtentry M e.key = some i := by
  have hpos := h.pos
  have hhome := home_lt M (ht.test.chooseForLookup M e.key) hpos e.key
  have hlen := h.length
  rw [← h.length] at hhome hpos
  set home := ht.home M (ht.test.chooseForLookup M e.key) e.key
  obtain ⟨j, hj, hjn, hji⟩ := exists_position (n := ht.hentries.length) (by omega) home i
  have hmatch : ∀ e', slot ht.hentries (home + (j - home).toNat) = some e' →
      (ht.test.chooseForLookup M e.key).lookupMatch M e.key e' = true := by
    intro e' he'
    rw [show (home + (j - home).toNat : ℤ) = j by omega, slot_congr hji, he] at he'
    obtain rfl := Option.some.inj he'
    rw [lookupMatch_chooseForLookup]
    exact Or.inl rfl
  obtain ⟨k, hs, hk⟩ := exists_stops_of_end _ (j - home).toNat hmatch
  have hfind : ht.findHtentry M e.key = some (k % ht.hentries.length).toNat :=
    linearProbingLoop_eq hpos hhome.le hs (by push_cast; omega)
  have hs' := h.lookup hs
  obtain ⟨e', he', heq⟩ := h.reached.found he (p := fun e' => test.equalFunction M e'.key e.key = true) (hc.refl _) rfl hs'
  have hslots := h.apart k i e' e he' he heq
  rw [hfind, hslots, Int.emod_eq_of_lt (by omega) (by omega), Int.toNat_natCast]

variable [DecidableEq (Quotient hc.setoid)]

theorem Represents.remhash1_at (h : Represents hc ht m) (hi : i < ht.size) (he : slot ht.hentries i = some e)
    (heq : test.equalFunction M e.key key = true) :
    ∃ ht', ht.remhash1 M i = some ht' ∧ Represents hc ht' (Function.update m ⟦key⟧ none) := by
  have hreached := h.reached
  rw [← h.test_eq] at hreached
  obtain ⟨l, hl, hll, hr, ha, hocc, hmem, -⟩ := remhash1_gap (P := fun _ _ => True) (r := SameKey M test)
    (fun _ _ _ _ _ _ _ _ _ _ _ => trivial) (fun e e' hsame => by rw [SameKey, hsame]; exact hc.refl _)
    h.length hreached h.apart hi he trivial
  rw [h.test_eq] at hr
  have hcount := h.count
  refine ⟨_, hl, h.test_eq, hll, h.size, ?_, h.rehashSize, hr, ha, get_update (o := none) h.get (fun e he => absurd he (Option.not_mem_none e)) fun e' => ?_⟩
  · show ht.count - 1 = occupied l
    omega
  · rw [hmem, mem_setSlot_clear h.apart (fun e => hc.refl e.key) he]
    have hsame : SameKey M test e' e ↔ test.equalFunction M e'.key key = true :=
      ⟨fun hr => hc.trans hr heq, fun hr => hc.trans hr (hc.symm heq)⟩
    rw [hsame, or_iff_right (Option.not_mem_none e')]

theorem Represents.puthash_some (h : Represents hc ht m) (hput : ht.puthash M key value = some ht') :
    Represents hc ht' (Function.update m ⟦key⟧ (some value)) := by
  cases hfind : ht.findHtentry M key with
  | none => rw [HashTable.puthash, hfind] at hput; cases hput
  | some p =>
    obtain ⟨k, rfl, hs⟩ := h.find_some hfind
    cases hslot : slot ht.hentries k with
    | none =>
      obtain ⟨ht'', heq, h'⟩ := h.puthash hslot key value
      rw [hput] at heq
      rwa [Option.some.inj heq]
    | some e =>
      rw [puthash_found hfind hslot] at hput
      rw [← Option.some.inj hput]
      exact h.replace hslot (hs.stop e hslot)

theorem Represents.remhash_some {found : Bool} (h : Represents hc ht m) (hrem : ht.remhash M key = some (ht', found)) :
    Represents hc ht' (Function.update m ⟦key⟧ none) := by
  cases hfind : ht.findHtentry M key with
  | none => rw [HashTable.remhash, hfind] at hrem; cases hrem
  | some p =>
    obtain ⟨k, rfl, hs⟩ := h.find_some hfind
    cases hslot : slot ht.hentries k with
    | none =>
      obtain ⟨ht'', found', heq, h'⟩ := h.remhash hslot key
      rw [hrem] at heq
      rwa [(Prod.mk.inj (Option.some.inj heq)).1]
    | some e =>
      have hn : (0 : ℤ) < ht.hentries.length := by have := (slot_some_lt hslot).1; omega
      have hlt := Int.emod_lt_of_pos k hn
      have hnn := Int.emod_nonneg k hn.ne'
      have hslot' : slot ht.hentries ((k % ht.hentries.length).toNat : ℤ) = some e := by
        rw [← hslot, Int.toNat_of_nonneg hnn]
        exact slot_congr (Int.emod_emod_of_dvd k (dvd_refl _))
      obtain ⟨ht'', heq, h'⟩ := h.remhash1_at (by rw [← h.length]; omega) hslot' (hs.stop e hslot)
      rw [remhash_found hfind hslot, heq] at hrem
      rwa [← (Prod.mk.inj (Option.some.inj hrem)).1]

omit [DecidableEq (Quotient hc.setoid)]

variable {tables tables' : List (HashTable K V)} {maps : List (Quotient hc.setoid → Option V)}

theorem AllRepresent.call_some (h : AllRepresent hc tables maps) {call : TableCall K V}
    (hcall : callTables M tables call = some tables') : AllRepresent hc tables' (callMaps maps call) := by
  classical
  obtain ⟨ht, hht, hstep⟩ := Option.bind_eq_some_iff.mp hcall
  have hlt := (List.getElem?_eq_some_iff.mp hht).1
  obtain ⟨m, hm⟩ : ∃ m, maps[call.table]? = some m := ⟨_, List.getElem?_eq_getElem (h.1 ▸ hlt)⟩
  have hrep := h.2 _ ht m hht hm
  rw [callMaps, hm]
  cases call with
  | puthash table key value =>
    obtain ⟨ht', hput, rfl⟩ := Option.map_eq_some_iff.mp hstep
    convert h.set (hrep.puthash_some hput) table
  | remhash table key =>
    obtain ⟨⟨ht', found⟩, hrem, rfl⟩ := Option.map_eq_some_iff.mp hstep
    convert h.set (hrep.remhash_some hrem) table
  | clrhash table =>
    obtain rfl := Option.some.inj hstep
    exact h.set hrep.clrhash table
  | gethash table key default_ =>
    obtain ⟨value, -, rfl⟩ := Option.map_eq_some_iff.mp hstep
    exact h
  | copyHashTable table =>
    obtain rfl := Option.some.inj hstep
    exact h.append hrep

theorem represents_of_run (hc : Compatible M test) {size rehashSize rehashThreshold : KeywordArg}
    {weakness : HashTableWeakness} {ht₀ : HashTable K V} {calls : List (TableCall K V)}
    (hmake : makeHashTable test size rehashSize rehashThreshold weakness = .ok ht₀)
    (hrun : Run (callTables M) anyStep [ht₀] calls tables) (hmem : ht ∈ tables) :
    ∃ m, Represents hc ht m := by
  have hall : ∃ maps : List (Quotient hc.setoid → Option V), AllRepresent hc tables maps := by
    clear hmem
    induction hrun with
    | nil =>
      refine ⟨[fun _ => none], rfl, fun i ht m hht hm => ?_⟩
      rw [List.getElem?_singleton] at hht hm
      split_ifs at hht hm
      rw [← Option.some.inj hht, ← Option.some.inj hm]
      exact represents_makeHashTable hc hmake
    | snoc _ _ hstep ih =>
      obtain ⟨maps, hmaps⟩ := ih
      exact ⟨_, hmaps.call_some hstep⟩
  obtain ⟨maps, hlen, hall⟩ := hall
  obtain ⟨i, hi, rfl⟩ := List.getElem_of_mem hmem
  exact ⟨_, hall i _ _ (List.getElem?_eq_getElem hi) (List.getElem?_eq_getElem (hlen ▸ hi))⟩

/-! ### A walk -/

/-- What an iterator has left to return. -/
inductive Remaining (ht : HashTable K V) : Option (IteratorState K) → List (Htentry K V) → Prop
  | ended : Remaining ht none []
  | start : Remaining ht (some .start) (entriesDown ht.hentries ht.size)
  /-- the next entry is in its slot, or was there and is in slot `p` -/
  | next {index p : ℕ} {e : Htentry K V} (hindex : index < ht.size) (hp : p < ht.size)
      (he : slot ht.hentries p = some e) (hsame : index = p ∨ slot ht.hentries index = none) :
      Remaining ht (some (.next index e.key)) (e :: entriesDown ht.hentries p)

variable {state : Option (IteratorState K)} {rest : List (Htentry K V)}

/-- The probe is at what is left to return. -/
theorem Remaining.iteratorNext (h : Represents hc ht m) (hleft : Remaining ht state rest) :
    (rest = [] ∧ ht.iteratorNext M state = some (none, none)) ∨
      ∃ p e, rest = e :: entriesDown ht.hentries p ∧ p < ht.size ∧ slot ht.hentries p = some e ∧
        ht.iteratorNext M state = some
          ((entryBelow ht.hentries (fun _ => true) p).map fun r => .next r.1 r.2.key, some e) := by
  have hlen := h.length
  -- looking down from a probe
  have hlook : ∀ state n, n ≤ ht.size → ht.iteratorProbe M state = some n →
      (entriesDown ht.hentries n = [] ∧ ht.iteratorNext M (some state) = some (none, none)) ∨
        ∃ p e, entriesDown ht.hentries n = e :: entriesDown ht.hentries p ∧ p < ht.size ∧
          slot ht.hentries p = some e ∧ ht.iteratorNext M (some state) = some
            ((entryBelow ht.hentries (fun _ => true) p).map fun r => .next r.1 r.2.key, some e) := by
    intro state n hn hprobe
    rcases entryBelow_cases ht.hentries n with ⟨hnone, hdown⟩ | ⟨p, e, heq, hpn, hp, -, hdown⟩
    · left
      rw [HashTable.iteratorNext, hprobe, Option.map_some, hnone]
      exact ⟨hdown, rfl⟩
    · right
      refine ⟨p, e, hdown, by omega, by rw [← getElem?_join _ (by omega), hp], ?_⟩
      rw [HashTable.iteratorNext, hprobe, Option.map_some, heq]
  cases hleft with
  | ended => exact Or.inl ⟨rfl, rfl⟩
  | start => exact hlook .start ht.size (le_refl _) rfl
  | @next index p e hindex hp he hsame =>
    have hprobe : ht.iteratorProbe M (.next index e.key) = some (p + 1) := by
      rw [iteratorProbe, if_neg (by omega), getElem?_join _ (by omega)]
      rcases hsame with rfl | hclear
      · rw [he, Option.map_some, if_pos rfl]
      · rw [hclear, Option.map_none, if_neg (by simp), h.find_present hp he, Option.map_some,
          getElem?_join _ (by omega), he]
    have hdown : entriesDown ht.hentries (p + 1) = e :: entriesDown ht.hentries p :=
      entriesDown_succ_some (by rw [getElem?_join _ (by omega), he])
    rw [← hdown]
    exact hlook _ (p + 1) hp hprobe

omit [DecidableEq K] in
theorem remaining_below (hlen : ht.hentries.length = ht.size) (hp : p < ht.size) :
    Remaining ht ((entryBelow ht.hentries (fun _ => true) p).map fun r => .next r.1 r.2.key)
      (entriesDown ht.hentries p) := by
  rcases entryBelow_cases ht.hentries p with ⟨hnone, hdown⟩ | ⟨q, e, heq, hqp, hq, -, hdown⟩
  · rw [hnone, hdown]
    exact .ended
  · rw [heq, hdown]
    exact .next (by omega) (by omega) (by rw [← getElem?_join _ (by omega), hq]) (Or.inl rfl)

omit [DecidableEq K] in
theorem remaining_of_keptBefore (hlen : ht.hentries.length = ht.size) (hlen' : ht'.hentries.length = ht.size)
    (hsize : ht'.size = ht.size) (hp : p < ht.size) (hkept : KeptBefore ht.hentries ht'.hentries p) :
    Remaining ht' ((entryBelow ht.hentries (fun _ => true) p).map fun r => .next r.1 r.2.key)
      (entriesDown ht.hentries p) := by
  have hget : ∀ x < ht.size, ht.hentries[x]?.join = slot ht.hentries x := fun x hx => getElem?_join _ (by omega)
  have hget' : ∀ x < ht.size, ht'.hentries[x]?.join = slot ht'.hentries x := fun x hx => getElem?_join _ (by omega)
  rcases entryBelow_cases ht.hentries p with ⟨hnone, hdown⟩ | ⟨q, e, heq, hqp, hq, hclear, hdown⟩
  · rw [hnone, hdown]
    exact .ended
  rw [heq, hdown, Option.map_some]
  rcases hkept with hsame | ⟨j, e', hjp, hj, hmoved, hjclear, hsame, hlast⟩
  · have hrest : entriesDown ht.hentries q = entriesDown ht'.hentries q :=
      entriesDown_congr fun x hx => by rw [hget x (by omega), hget' x (by omega), hsame x (by omega)]
    rw [hrest]
    refine .next (by omega) (by omega) ?_ (Or.inl rfl)
    rw [hsame q hqp, ← hget q (by omega), hq]
  · -- the last entry before `p` is the one that has moved
    obtain rfl : j = q := by
      rcases lt_trichotomy j q with hlt | heq | hgt
      · have hnone := hlast q hlt hqp
        rw [← hget q (by omega), hq] at hnone
        contradiction
      · exact heq
      · have hnone := hclear j hgt hjp
        rw [hget j (by omega), hj] at hnone
        contradiction
    obtain rfl : e' = e := by
      rw [← hget j (by omega), hq] at hj
      exact (Option.some.inj hj).symm
    have hrest : entriesDown ht.hentries j = entriesDown ht'.hentries p := by
      rw [entriesDown_of_clear hjp.le fun x hjx hxp => ?_]
      · exact entriesDown_congr fun x hx => by rw [hget x (by omega), hget' x (by omega), hsame x (by omega) (by omega)]
      · rw [hget' x (by omega)]
        rcases eq_or_lt_of_le hjx with rfl | hjx
        · exact hjclear
        · rw [hsame x hxp (by omega), hlast x hjx hxp]
    rw [hrest]
    exact .next (by omega) (by omega) hmoved (Or.inr hjclear)

end HashTable

namespace Walk

variable [DecidableEq K] {M : KeyMethods K} {test : HashTableTest K} {hc : Compatible M test} {ht : HashTable K V}
  {w : Walk K V} {full : List (Htentry K V)} {n : ℕ}

/-- After `n` calls of the iterator, `full` being what is to be returned. -/
structure After (hc : Compatible M test) (full : List (Htentry K V)) (n : ℕ) (w : Walk K V) : Prop where
  represents : ∃ m, Represents hc w.table m
  remaining : Remaining w.table w.state (full.drop n)
  returned : w.returned = (List.range n).map fun j => full[j]?

omit [DecidableEq K] in
theorem returned_succ (full : List (Htentry K V)) (n : ℕ) : ((List.range n).map fun j => full[j]?) ++ [full[n]?] =
    (List.range (n + 1)).map fun j => full[j]? := by
  rw [List.range_succ, List.map_append, List.map_singleton]

theorem After.step (h : After hc full n w) {remove : Bool} (hok : w.RemovesInPlace M remove) :
    ∃ w', w.step M remove = some w' ∧ After hc full (n + 1) w' := by
  classical
  obtain ⟨m, hrep⟩ := h.represents
  have hlen := hrep.length
  have hhead : full[n]? = (full.drop n).head? := List.head?_drop.symm
  have htail : full.drop (n + 1) = (full.drop n).tail := List.tail_drop.symm
  rcases h.remaining.iteratorNext hrep with ⟨hnil, hnext⟩ | ⟨p, e, hcons, hp, he, hnext⟩
  · refine ⟨⟨w.table, none, w.returned ++ [none]⟩, ?_, ⟨m, hrep⟩, ?_, ?_⟩
    · rw [Walk.step, hnext]
      cases remove <;> rfl
    · rw [htail, hnil]
      exact .ended
    · rw [← returned_succ, h.returned, hhead, hnil, List.head?_nil]
  · rw [hcons, List.head?_cons] at hhead
    rw [hcons, List.tail_cons] at htail
    set state := (entryBelow w.table.hentries (fun _ => true) p).map fun r => IteratorState.next r.1 r.2.key
    have hreturned : w.returned ++ [some e] = (List.range (n + 1)).map fun j => full[j]? := by
      rw [← returned_succ, h.returned, hhead]
    cases remove with
    | false =>
      refine ⟨⟨w.table, state, w.returned ++ [some e]⟩, by rw [Walk.step, hnext, Option.bind_some], ⟨m, hrep⟩, ?_,
        hreturned⟩
      rw [htail]
      exact remaining_below hlen hp
    | true =>
      have hund := hok rfl _ hnext e rfl p (List.mem_range.mpr hp) (by rw [he, Option.map_some])
      have hreached := hrep.reached
      rw [← hrep.test_eq] at hreached
      obtain ⟨l, hl, hll, hkept⟩ := remhash1_undisturbed (r := SameKey M test)
        (fun e e' hsame => by rw [SameKey, hsame]; exact hc.refl _) hlen hreached hrep.apart hp he hund
      obtain ⟨ht', heq, hrep'⟩ := hrep.remhash1_at hp he (hc.refl e.key)
      rw [hl] at heq
      obtain rfl := Option.some.inj heq
      refine ⟨⟨_, state, w.returned ++ [some e]⟩, ?_, ⟨_, hrep'⟩, ?_, hreturned⟩
      · have hmod : ((p : ℤ) % w.table.hentries.length).toNat = p := by
          rw [Int.emod_eq_of_lt (by omega) (by omega), Int.toNat_natCast]
        have hfind := hrep.find_present hp he
        rw [← hmod] at hfind
        have hrem := remhash_found hfind he
        rw [hmod, hl, Option.map_some] at hrem
        rw [Walk.step, hnext, Option.bind_some]
        show Option.map _ (w.table.remhash M e.key) = _
        rw [hrem, Option.map_some]
      · rw [htail]
        exact remaining_of_keptBefore hlen hll rfl hp hkept

/-- The walk has returned each entry of `ht` once, the last slot first, and the end after them; it goes on. -/
structure ReturnsEach (M : KeyMethods K) (ht : HashTable K V) (n : ℕ) (w : Walk K V) : Prop where
  returned : w.returned = (List.range n).map fun j => (entriesDown ht.hentries ht.size)[j]?
  mem : ∀ e, e ∈ entriesDown ht.hentries ht.size ↔ some e ∈ ht.hentries
  nodup : (entriesDown ht.hentries ht.size).Nodup
  goesOn : ∀ remove, w.RemovesInPlace M remove → (w.step M remove).isSome

/-- A walk over any table that calls have made returns every entry once if its removals leave the
entries in place that are yet to be returned. -/
theorem run_returnsEach (hc : Compatible M test) {size rehashSize rehashThreshold : KeywordArg}
    {weakness : HashTableWeakness} {ht₀ : HashTable K V} {calls : List (TableCall K V)}
    {tables : List (HashTable K V)} {removes : List Bool}
    (hmake : makeHashTable test size rehashSize rehashThreshold weakness = .ok ht₀)
    (hcalls : Run (callTables M) anyStep [ht₀] calls tables) (hmem : ht ∈ tables)
    (hrun : Run (step M) (RemovesInPlace M) (init ht) removes w) : ReturnsEach M ht removes.length w := by
  obtain ⟨m, hrep⟩ := represents_of_run hc hmake hcalls hmem
  have hlen := hrep.length
  have hafter : After hc (entriesDown ht.hentries ht.size) removes.length w := by
    induction hrun with
    | nil => exact ⟨⟨m, hrep⟩, .start, rfl⟩
    | snoc _ hok hstep ih =>
      obtain ⟨w', heq, hafter⟩ := ih.step hok
      rw [hstep] at heq
      rw [List.length_append, List.length_singleton, Option.some.inj heq]
      exact hafter
  refine ⟨hafter.returned, fun e => ?_, nodup_entriesDown (fun x y e hx hy => ?_) ht.size, fun remove hok => ?_⟩
  · rw [mem_entriesDown, List.mem_iff_getElem?]
    constructor
    · rintro ⟨x, hx, he⟩
      exact ⟨x, Option.join_eq_some_iff.mp he⟩
    · rintro ⟨x, hx⟩
      have hlt := (List.getElem?_eq_some_iff.mp hx).1
      exact ⟨x, by omega, by rw [hx, Option.join_some]⟩
  · have hlt : ∀ z : ℕ, ht.hentries[z]?.join = some e → z < ht.hentries.length := fun z hz =>
      (List.getElem?_eq_some_iff.mp (Option.join_eq_some_iff.mp hz)).1
    have hxl := hlt x hx
    have hyl := hlt y hy
    rw [getElem?_join _ hxl] at hx
    rw [getElem?_join _ hyl] at hy
    have hslots := hrep.apart x y e e hx hy (hc.refl _)
    rw [Int.emod_eq_of_lt (by omega) (by omega), Int.emod_eq_of_lt (by omega) (by omega)] at hslots
    omega
  · obtain ⟨w', heq, -⟩ := hafter.step hok
    rw [heq]
    rfl

instance (M : KeyMethods K) (w : Walk K V) (remove : Bool) : Decidable (w.RemovesInPlace M remove) :=
  inferInstanceAs (Decidable (remove = true → ∀ r ∈ w.table.iteratorNext M w.state, ∀ e ∈ r.2,
    ∀ i ∈ List.range w.table.size, (slot w.table.hentries i).map (·.key) = some e.key → w.table.Undisturbed M i))

theorem run_returnsEach_cluster : ∃ (ht : HashTable ℕ ℕ) (w : Walk ℕ ℕ),
    w.returned = [some ⟨1, 1⟩, some ⟨29, 29⟩, some ⟨0, 0⟩, none] ∧ ReturnsEach fixnumMethods ht 4 w := by
  have hc : Compatible fixnumMethods .eql := by
    constructor <;> simp [HashTableTest.equalFunction, fixnumMethods]
  have hexec : (exec (callTables fixnumMethods) [smallTable .nil]
      [.puthash 0 0 0, .puthash 0 29 29, .puthash 0 1 1]).any (fun tables => decide (∃ ht ∈ tables,
        (execOk (step fixnumMethods) (RemovesInPlace fixnumMethods) (init ht) [true, true, true, true]).any
          (fun w => decide (w.returned = [some ⟨1, 1⟩, some ⟨29, 29⟩, some ⟨0, 0⟩, none])) = true)) = true := by
    decide +kernel
  obtain ⟨tables, hcalls, ht, hmem, hwalk⟩ := exists_run_of_exec hexec
  obtain ⟨w, hrun, hreturned⟩ := exists_run_of_execOk hwalk
  exact ⟨ht, w, hreturned, run_returnsEach hc makeHashTable_small.2 hcalls hmem hrun⟩

/-- The key 50 is in slot 0, past the end of the table from its home at slot 28, and moves there
when the entry is returned and removed. -/
theorem wrapped_not_returned : ∃ (ht : HashTable ℕ ℕ) (tables : List (HashTable ℕ ℕ)) (w : Walk ℕ ℕ),
    Run (callTables fixnumMethods) anyStep [smallTable .nil]
      [.puthash 0 21 21, .puthash 0 50 50, .puthash 0 0 0] tables ∧ ht ∈ tables ∧
      Run (step fixnumMethods) anyStep (init ht) [true, false, false] w ∧
      some ⟨50, 50⟩ ∈ ht.hentries ∧ w.returned = [some ⟨21, 21⟩, some ⟨0, 0⟩, none] ∧
      ¬ ReturnsEach fixnumMethods ht 3 w := by
  have hexec : (exec (callTables fixnumMethods) [smallTable .nil]
      [.puthash 0 21 21, .puthash 0 50 50, .puthash 0 0 0]).any (fun tables => decide (∃ ht ∈ tables,
        (exec (step fixnumMethods) (init ht) [true, false, false]).any (fun w => decide
          (some ⟨50, 50⟩ ∈ ht.hentries ∧ w.returned = [some ⟨21, 21⟩, some ⟨0, 0⟩, none])) = true)) = true := by
    decide +kernel
  obtain ⟨tables, hcalls, ht, hmem, hwalk⟩ := exists_run_of_exec hexec
  obtain ⟨w, hrun, hentry, hreturned⟩ := exists_run_of_exec hwalk
  refine ⟨ht, tables, w, hcalls, hmem, hrun, hentry, hreturned, fun h => ?_⟩
  have hseq := h.returned
  rw [hreturned] at hseq
  obtain ⟨h0, h1, h2⟩ : some ⟨21, 21⟩ = (entriesDown ht.hentries ht.size)[0]? ∧
      some ⟨0, 0⟩ = (entriesDown ht.hentries ht.size)[1]? ∧ none = (entriesDown ht.hentries ht.size)[2]? := by
    simpa [List.range_succ] using hseq
  obtain ⟨j, hj⟩ := List.mem_iff_getElem?.mp ((h.mem _).mpr hentry)
  have hlen := List.getElem?_eq_none_iff.mp h2.symm
  have hlt := (List.getElem?_eq_some_iff.mp hj).1
  obtain rfl | rfl : j = 0 ∨ j = 1 := by omega
  · rw [← h0] at hj
    cases hj
  · rw [← h1] at hj
    cases hj

end Walk

end XEmacs.Table
