import XEmacs.Table.HashTable
import Mathlib.Tactic.Ring

/-! The probing loops of elhash.c against probing in general: where a loop ends, that the loops
end wherever there is a clear slot, whatever the hash function, and what `remhash_1` and
`resize_hash_table` leave in the entries. -/

namespace XEmacs.Table

open Lib Lib.Probing HashTable

variable {K V E : Type*} {entries l : List (Option E)} {brk : E → Bool} {probe fuel : ℕ} {k : ℤ}

theorem wrapProbe_emod (size probe : ℕ) : (wrapProbe size probe : ℤ) % size = (probe : ℤ) % size := by
  rw [wrapProbe]
  split_ifs with h
  · rw [h, Nat.cast_zero, Int.zero_emod, Int.emod_self]
  · rfl

theorem wrapProbe_lt {size : ℕ} (hl : 0 < size) (hp : probe ≤ size) : wrapProbe size probe < size := by
  rw [wrapProbe]
  split_ifs <;> omega

theorem getElem?_wrapProbe (hl : 0 < l.length) (hp : probe ≤ l.length) :
    l[wrapProbe l.length probe]?.join = slot l probe := by
  have hlt := wrapProbe_lt hl hp
  rw [← slot_congr (wrapProbe_emod _ _), slot_of_lt hlt, List.getElem?_eq_getElem hlt, Option.join_some]

theorem toNat_wrapProbe (hl : 0 < l.length) (hp : probe ≤ l.length) (hk : (probe : ℤ) % l.length = k % l.length) :
    wrapProbe l.length probe = (k % l.length).toNat := by
  have hlt := wrapProbe_lt hl hp
  have hmod := wrapProbe_emod l.length probe
  rw [hk, Int.emod_eq_of_lt (by omega) (by omega)] at hmod
  omega

theorem linearProbingLoop_eq (hl : 0 < l.length) (hp : probe ≤ l.length)
    (hs : Stops l (brk · = true) probe k) (hfuel : k - probe < fuel) :
    linearProbingLoop l brk fuel probe = some (k % l.length).toNat := by
  induction fuel generalizing probe k with
  | zero =>
    have hle := hs.le
    omega
  | succ fuel ih =>
    have hlt := wrapProbe_lt hl hp
    rw [linearProbingLoop]
    simp only [getElem?_wrapProbe hl hp]
    by_cases hk : k = probe
    · subst hk
      have hend : some (wrapProbe l.length probe) = some ((probe : ℤ) % l.length).toNat := by
        rw [toNat_wrapProbe hl hp rfl]
      cases hslot : slot l probe with
      | none => exact hend
      | some e =>
        simp only [hs.stop e hslot, if_true]
        exact hend
    · have hle := hs.le
      obtain ⟨e, he, hne⟩ := hs.passed probe (le_refl _) (by omega)
      have hshift := hs.shift (x := (wrapProbe l.length probe : ℤ)) (wrapProbe_emod _ _)
      have hnext : Stops l (brk · = true) ((wrapProbe l.length probe + 1 : ℕ) : ℤ)
          (k + (wrapProbe l.length probe - probe)) :=
        ⟨by push_cast; omega, fun j hj => hshift.passed j (by push_cast at hj; omega), hshift.stop⟩
      simp only [he, hne, if_false, Bool.false_eq_true]
      rw [ih (by omega) hnext (by push_cast; omega)]
      congr 2
      have hmod := wrapProbe_emod l.length probe
      have hk' := shift_emod (d := k - probe) hmod
      rw [show (probe : ℤ) + (k - probe) = k by omega] at hk'
      rw [← hk']
      congr 1
      omega

theorem probeFrom_eq {i : ℤ} (brk : E → Bool) (hclear : slot l i = none) (hl : 0 < l.length) (hp : probe ≤ l.length) :
    ∃ k : ℤ, probeFrom l brk probe = some (k % l.length).toNat ∧ Stops l (brk · = true) probe k ∧
      k < probe + l.length := by
  obtain ⟨k, hs, hlt⟩ := exists_stops (brk · = true) hclear hl probe
  exact ⟨k, linearProbingLoop_eq hl hp hs (by push_cast; omega), hs, hlt⟩

/-! ### Entering a cluster again -/

variable [DecidableEq K] {home : K → ℕ}

theorem rehomeLoop_succ {l : List (Option (Htentry K V))} {e : Htentry K V} {i y : ℤ}
    (hp : probe ≤ l.length) (he : slot l probe = some e) (hhome : ∀ key, home key < l.length)
    (hclear : slot l i = none) (hs : Stops l (fun e' => e'.key = e.key) (home e.key) y) :
    rehomeLoop home (fuel + 1) l probe =
      if slot l y = none then
        rehomeLoop home fuel (setSlot (setSlot l y (some e)) probe none) (wrapProbe l.length probe + 1)
      else rehomeLoop home fuel l (wrapProbe l.length probe + 1) := by
  have hl := (slot_some_lt he).1
  obtain ⟨y', hy', hs', -⟩ := probeFrom_eq (fun e' => decide (e'.key = e.key)) hclear hl
    (Nat.le_of_lt (hhome e.key))
  have hyy : y' = y := by
    refine hs'.unique ⟨hs.le, fun j hj hlt => ?_, fun e' he' => by simpa using hs.stop e' he'⟩
    obtain ⟨e', he', hne⟩ := hs.passed j hj hlt
    exact ⟨e', he', by simpa using hne⟩
  rw [hyy] at hy'
  have hget : l[(y % l.length).toNat]?.join = slot l y := rfl
  rw [rehomeLoop]
  simp only [getElem?_wrapProbe hl hp, he, hy', Option.bind_some, hget]
  cases hslot : slot l y with
  | some e' => simp
  | none =>
    rw [if_pos rfl, setSlot, setSlot, List.length_set, toNat_wrapProbe hl hp rfl]

theorem rehomeLoop_clear {l : List (Option (Htentry K V))} (hl : 0 < l.length) (hp : probe ≤ l.length)
    (hclear : slot l probe = none) : rehomeLoop home (fuel + 1) l probe = some l := by
  rw [rehomeLoop]
  simp only [getElem?_wrapProbe hl hp, hclear]

theorem occupied_move {l : List (Option E)} {e : E} {y : ℤ} (he : slot l k = some e) (hy : slot l y = none) :
    occupied (setSlot (setSlot l y (some e)) k none) = occupied l := by
  have hl := (slot_some_lt he).1
  have hky : k % l.length ≠ y % l.length := by
    intro hky
    rw [slot_congr hky, hy] at he
    contradiction
  have hk : slot (setSlot l y (some e)) k = some e := by rw [slot_setSlot_of_ne hl hky, he]
  have hclear := occupied_clear hk
  rw [occupied_fill hl hy] at hclear
  omega

theorem fuel_bound {n d r : ℕ} (hd : d ≤ n * n) (hr : r ≤ n) : d * (n + 1) + r < (n + 1) ^ 3 := by
  calc d * (n + 1) + r ≤ n * n * (n + 1) + n := by gcongr
    _ < (n + 1) ^ 3 := by ring_nf; omega

theorem rehomeLoop_ends (fuel : ℕ) {l : List (Option (Htentry K V))} {c : ℤ} (hhome : ∀ key, home key < l.length)
    (hl : 0 < l.length) (hp : probe ≤ l.length) (hclear : slot l c = none) (hc : (probe : ℤ) ≤ c)
    (hfuel : displacement l (fun e => home e.key) * (l.length + 1) + (c - probe).toNat < fuel) :
    ∃ l', rehomeLoop home fuel l probe = some l' ∧ l'.length = l.length ∧ occupied l' = occupied l := by
  induction fuel generalizing l probe c with
  | zero => omega
  | succ fuel ih =>
    cases he : slot l probe with
    | none => exact ⟨l, rehomeLoop_clear hl hp he, rfl, rfl⟩
    | some e =>
      have hwrap := wrapProbe_lt hl hp
      have hmod := wrapProbe_emod l.length probe
      obtain ⟨y, hs, -⟩ := exists_stops (fun e' => e'.key = e.key) hclear hl (home e.key)
      rw [rehomeLoop_succ hp he hhome hclear hs]
      split_ifs with hy
      · -- the entry is nearer to its home than it was
        have hlen : (setSlot (setSlot l y (some e)) probe none).length = l.length := by
          rw [length_setSlot, length_setSlot]
        have hnear := hs.distance_lt (fun e => (home e.key : ℤ)) hy he
        have hless := displacement_move he hy (hnear rfl)
        have hmul := Nat.mul_le_mul_right (l.length + 1) (Nat.succ_le_of_lt hless)
        rw [Nat.succ_mul] at hmul
        have hturn : slot (setSlot (setSlot l y (some e)) probe none) (wrapProbe l.length probe + l.length : ℤ) =
            none := by
          refine slot_setSlot_same (by rw [length_setSlot]; exact hl) ?_
          rw [length_setSlot, Int.add_emod_right, hmod]
        obtain ⟨l', hl', hlen', hocc⟩ := ih (by rw [hlen]; exact hhome) (by rw [hlen]; exact hl)
          (show wrapProbe l.length probe + 1 ≤ _ by rw [hlen]; omega) hturn (by push_cast; omega)
          (by rw [hlen]; push_cast; omega)
        exact ⟨l', hl', by rw [hlen', hlen], by rw [hocc, occupied_move he hy]⟩
      · have hne : c ≠ probe := by
          rintro rfl
          rw [he] at hclear
          contradiction
        have hclear' : slot l (c + (wrapProbe l.length probe - probe)) = none := by
          rw [← hclear]
          apply slot_congr
          have hshift := shift_emod (d := c - probe) hmod
          rw [show (probe : ℤ) + (c - probe) = c by omega] at hshift
          rw [← hshift]
          congr 1
          omega
        exact ih hhome hl (by omega) hclear' (by push_cast; omega) (by push_cast; omega)

theorem rehomeLoop_eq {r : Htentry K V → Htentry K V → Prop} (hsame : ∀ e e' : Htentry K V, e.key = e'.key → r e e')
    {l₀ l : List (Option (Htentry K V))} {i m : ℤ} (hhome : ∀ key, home key < l.length)
    (hr : Rehoming l₀ (fun e => home e.key) i m k l) (ha : Apart l r) (hp : probe ≤ l.length)
    (hk : (probe : ℤ) % l.length = k % l.length) (hfuel : m - k < fuel) :
    ∃ l', rehomeLoop home fuel l probe = some l' ∧ Rehoming l₀ (fun e => home e.key) i m m l' ∧
      Apart l' r ∧ occupied l' = occupied l := by
  have hle := hr.le
  have hlt := hr.lt
  have hturn := hr.turn
  induction fuel generalizing l probe k with
  | zero => omega
  | succ fuel ih =>
    have hl : 0 < l.length := by omega
    have hslot : slot l probe = slot l k := slot_congr hk
    rcases eq_or_lt_of_le hle with rfl | hkm
    · exact ⟨l, rehomeLoop_clear hl hp (by rw [hslot, hr.clear]), hr, ha, rfl⟩
    · obtain ⟨e, he⟩ := Option.ne_none_iff_exists'.mp (hr.filled k (le_refl k) hkm)
      obtain ⟨x, hxk, hx, hpath⟩ := hr.reached k e (by omega) (by omega) he
      have hlow := hr.home_gt (by rw [Int.sub_emod_right]) (by omega) (.inl (by omega)) hpath
      obtain ⟨y₀, hs₀, -⟩ := exists_stops (fun e' => e'.key = e.key) hr.clear hl (home e.key)
      -- the same search from the home that is behind the entry
      have hs := hs₀.shift hx
      set y := y₀ + (x - home e.key) with hy
      have hyy : y % l.length = y₀ % l.length := by
        have hshift := shift_emod (d := y₀ - home e.key) hx
        rw [show x + (y₀ - home e.key) = y by omega, show (home e.key : ℤ) + (y₀ - home e.key) = y₀ by omega]
          at hshift
        exact hshift
      have hyk : y ≤ k := hs.le_of_found hxk he rfl
      have hmod := wrapProbe_emod l.length probe
      have hwrap := wrapProbe_lt hl hp
      have hnext : ((wrapProbe l.length probe + 1 : ℕ) : ℤ) % l.length = (k + 1) % l.length := by
        push_cast
        exact shift_emod (hmod.trans hk)
      have hxy := hs.le
      rw [rehomeLoop_succ hp (by rw [hslot, he]) hhome hr.clear hs₀]
      by_cases hclear : slot l y₀ = none
      · have hclear' : slot l y = none := by rw [slot_congr hyy, hclear]
        have hne : y ≠ k := by
          rintro hyk
          rw [hyk, he] at hclear'
          contradiction
        have hiy : i ≤ y := by
          rcases hpath y hxy (by omega) with hne' | ⟨-, -, hiy, -⟩
          · exact absurd hclear' hne'
          · exact hiy
        have hset : setSlot (setSlot l y₀ (some e)) probe none = setSlot (setSlot l y (some e)) k none := by
          simp only [setSlot, List.length_set, hyy, hk]
        have hlen : (setSlot (setSlot l y (some e)) k none).length = l.length := by
          rw [length_setSlot, length_setSlot]
        rw [if_pos hclear, hset]
        obtain ⟨l', hl', hr', ha', hocc⟩ := ih (by rw [hlen]; exact hhome)
          (hr.move hkm hs he hx hclear' hiy (by omega)) (ha.move he)
          (show wrapProbe l.length probe + 1 ≤ _ by rw [hlen]; omega)
          (by rw [hlen]; exact hnext) (by omega) (by omega) (by omega) (by rw [hlen]; exact hturn)
        exact ⟨l', hl', hr', ha', by rw [hocc, occupied_move he hclear']⟩
      · obtain ⟨e', he'⟩ := Option.ne_none_iff_exists'.mp hclear
        have hslots := ha y₀ k e' e he' he (hsame e' e (hs₀.stop e' he'))
        have hyk : y = k := eq_of_emod_eq (hyy.trans hslots) (by omega) (by omega)
        rw [if_neg hclear]
        exact ih hhome (hr.stay hkm (hyk ▸ hs) he hx) ha (by omega) hnext (by omega) (by omega)
          (by omega) hturn

omit [DecidableEq K] in
theorem reinsert_eq {home : K → ℕ} {r : Htentry K V → Htentry K V → Prop} (old : List (Option (Htentry K V)))
    {new : List (Option (Htentry K V))}
    (hhome : ∀ key, home key < new.length) (hroom : occupied new + occupied old ≤ new.length)
    (hl : 0 < new.length) (hr : Reached new (fun e => (home e.key : ℤ)))
    (ha : Apart new r) (hnew : ∀ e ∈ (old.filterMap id), ∀ e', some e' ∈ new → ¬ r e e' ∧ ¬ r e' e)
    (hold : (old.filterMap id).Pairwise fun e e' => ¬ r e e' ∧ ¬ r e' e) :
    ∃ l, reinsert home new old = some l ∧ l.length = new.length ∧
      Reached l (fun e => (home e.key : ℤ)) ∧ Apart l r ∧ occupied l = occupied new + occupied old ∧
      ∀ e, some e ∈ l ↔ some e ∈ new ∨ some e ∈ old := by
  induction old generalizing new with
  | nil => exact ⟨new, rfl, rfl, hr, ha, by simp [occupied], by simp⟩
  | cons o old ih =>
    cases o with
    | none =>
      have hocc : occupied (none :: old) = occupied old := by simp [occupied]
      rw [hocc] at hroom ⊢
      have hfilter : (none :: old).filterMap id = old.filterMap id := rfl
      rw [hfilter] at hnew hold
      obtain ⟨l, heq, hlen, hr', ha', hcount, hmem⟩ := ih hhome hroom hl hr ha hnew hold
      exact ⟨l, heq, hlen, hr', ha', hcount, by simpa using hmem⟩
    | some e =>
      have hocc : occupied (some e :: old) = occupied old + 1 := by simp [occupied]
      have hfilter : (some e :: old).filterMap id = e :: old.filterMap id := rfl
      rw [hfilter] at hnew hold
      obtain ⟨hhead, hold⟩ := List.pairwise_cons.mp hold
      obtain ⟨c, hc⟩ := exists_clear (l := new) (by omega)
      obtain ⟨k, hk, hs, -⟩ := probeFrom_eq (fun _ => false) hc hl (Nat.le_of_lt (hhome e.key))
      have hclear : slot new k = none := by
        cases hslot : slot new k with
        | none => rfl
        | some e' => exact absurd (hs.stop e' hslot) (by simp)
      have hset : new.set (k % new.length).toNat (some e) = setSlot new k (some e) := rfl
      have hmem := mem_setSlot_some (e := e) hl hclear
      have hfill := occupied_fill (e := e) hl hclear
      obtain ⟨l, heq, hlen, hr', ha', hcount, hmem'⟩ := ih
        (by rw [length_setSlot]; exact hhome) (by rw [length_setSlot]; omega)
        (by rw [length_setSlot]; exact hl) (hr.insert hl rfl hs)
        (ha.setSlot_some fun j e' _ hj => hnew e List.mem_cons_self e' (mem_iff_slot.mpr ⟨j, hj⟩))
        (fun e' he' e'' he'' => by
          rcases (hmem e'').mp he'' with rfl | he''
          · exact (hhead e' he').symm
          · exact hnew e' (List.mem_cons_of_mem e he') e'' he'')
        hold
      refine ⟨l, ?_, by rw [hlen, length_setSlot], hr', ha', by omega, fun e' => ?_⟩
      · rw [reinsert, hk, Option.bind_some, hset, heq]
      · rw [hmem', hmem]
        simp only [List.mem_cons, Option.some.injEq]
        tauto

/-! ### Operations -/

variable {M : KeyMethods K} {ht : HashTable K V} {key : K} {value : V} {c : ℤ}

namespace HashTable

omit [DecidableEq K] in
theorem home_lt (M : KeyMethods K) (test : HashTableTest K) (hpos : 0 < ht.size) (key : K) :
    ht.home M test key < ht.size :=
  Nat.mod_lt _ hpos

theorem findHtentry_eq (M : KeyMethods K) (hlen : ht.hentries.length = ht.size)
    (hclear : slot ht.hentries c = none) (hpos : 0 < ht.size) (key : K) :
    ∃ k : ℤ, ht.findHtentry M key = some (k % ht.hentries.length).toNat ∧
      Stops ht.hentries ((ht.test.chooseForLookup M key).lookupMatch M key · = true)
        (ht.home M (ht.test.chooseForLookup M key) key) k := by
  have hhome := home_lt M (ht.test.chooseForLookup M key) hpos key
  rw [← hlen] at hhome hpos
  obtain ⟨k, hk, hs, -⟩ := probeFrom_eq ((ht.test.chooseForLookup M key).lookupMatch M key) hclear hpos
    (Nat.le_of_lt hhome)
  exact ⟨k, hk, hs⟩

def fill (ht : HashTable K V) (k : ℤ) (e : Htentry K V) : HashTable K V :=
  { ht with hentries := setSlot ht.hentries k (some e), count := ht.count + 1 }

theorem puthash_found {e : Htentry K V} (hk : ht.findHtentry M key = some (k % ht.hentries.length).toNat)
    (he : slot ht.hentries k = some e) : ht.puthash M key value =
      some { ht with hentries := setSlot ht.hentries k (some { e with value }) } := by
  have hget : ht.hentries[(k % ht.hentries.length).toNat]?.join = some e := he
  rw [puthash, hk, Option.bind_some, hget]
  rfl

theorem puthash_absent (hk : ht.findHtentry M key = some (k % ht.hentries.length).toNat)
    (he : slot ht.hentries k = none) : ht.puthash M key value =
      if ht.count + 1 ≥ ht.rehashCount then (ht.fill k ⟨key, value⟩).enlarge M
      else some (ht.fill k ⟨key, value⟩) := by
  have hget : ht.hentries[(k % ht.hentries.length).toNat]?.join = none := he
  rw [puthash, hk, Option.bind_some, hget]
  rfl

theorem remhash_found {e : Htentry K V} (hk : ht.findHtentry M key = some (k % ht.hentries.length).toNat)
    (he : slot ht.hentries k = some e) : ht.remhash M key =
      (ht.remhash1 M (k % ht.hentries.length).toNat).map (·, true) := by
  have hget : ht.hentries[(k % ht.hentries.length).toNat]?.join = some e := he
  rw [remhash, hk, Option.bind_some, hget]

theorem remhash_absent (hk : ht.findHtentry M key = some (k % ht.hentries.length).toNat)
    (he : slot ht.hentries k = none) : ht.remhash M key = some (ht, false) := by
  have hget : ht.hentries[(k % ht.hentries.length).toNat]?.join = none := he
  rw [remhash, hk, Option.bind_some, hget]

theorem gethash_eq (hk : ht.findHtentry M key = some (k % ht.hentries.length).toNat) (default_ : V) :
    ht.gethash M key default_ = some ((slot ht.hentries k).elim default_ (·.value)) := by
  have hget : ht.hentries[(k % ht.hentries.length).toNat]?.join = slot ht.hentries k := rfl
  rw [gethash, hk, Option.map_some, hget]
  cases slot ht.hentries k <;> rfl

/-- The table with a new size, and with the entries `l`. -/
def resized (ht : HashTable K V) (newSize : ℕ) (l : List (Option (Htentry K V))) : HashTable K V :=
  { computeDerivedValues { ht with size := newSize } with hentries := l }

omit [DecidableEq K] in
theorem resize_eq (M : KeyMethods K) {r : Htentry K V → Htentry K V → Prop} {newSize : ℕ} (hpos : 0 < newSize)
    (hroom : occupied ht.hentries ≤ newSize)
    (ha : (ht.hentries.filterMap id).Pairwise fun e e' => ¬ r e e' ∧ ¬ r e' e) :
    ∃ l, ht.resize M newSize = some (ht.resized newSize l) ∧ l.length = newSize ∧
      Reached l (fun e => ((ht.resized newSize l).home M ht.test e.key : ℤ)) ∧ Apart l r ∧
      occupied l = occupied ht.hentries ∧ ∀ e, some e ∈ l ↔ some e ∈ ht.hentries := by
  have hhome : ∀ key, (computeDerivedValues { ht with size := newSize }).home M ht.test key <
      (List.replicate newSize (none : Option (Htentry K V))).length := by
    rw [List.length_replicate]
    exact home_lt M ht.test hpos
  obtain ⟨l, heq, hlen, hr, hap, hocc, hmem⟩ :=
    reinsert_eq (r := r) ht.hentries hhome (by rw [List.length_replicate, occupied_replicate]; omega)
      (by rw [List.length_replicate]; exact hpos) (reached_replicate newSize _)
      (fun j k e e' hj => by rw [slot_replicate] at hj; contradiction) (fun e _ e' he' => by simp at he') ha
  rw [List.length_replicate] at hlen
  rw [occupied_replicate, Nat.zero_add] at hocc
  refine ⟨l, ?_, hlen, hr, hap, hocc, fun e => by rw [hmem e]; simp⟩
  rw [resize]
  simp only [heq, Option.map_some]
  rfl

theorem remhash1_eq (M : KeyMethods K) {r : Htentry K V → Htentry K V → Prop}
    (hsame : ∀ e e' : Htentry K V, e.key = e'.key → r e e') (hlen : ht.hentries.length = ht.size)
    (hclear : slot ht.hentries c = none) (hr : Reached ht.hentries (fun e => (ht.home M ht.test e.key : ℤ)))
    (ha : Apart ht.hentries r) {e : Htentry K V} (hk : slot ht.hentries k = some e) :
    ∃ l, ht.remhash1 M (k % ht.hentries.length).toNat =
        some { ht with hentries := l, count := ht.count - 1 } ∧
      l.length = ht.hentries.length ∧ Reached l (fun e => (ht.home M ht.test e.key : ℤ)) ∧ Apart l r ∧
      occupied l + 1 = occupied ht.hentries ∧
      (∀ x e', k ≤ x → x < k + ht.hentries.length → slot l x = some e' →
        ∃ y, x ≤ y ∧ k < y ∧ y < k + ht.hentries.length ∧ slot ht.hentries y = some e') ∧
      ∀ y e', k < y → y < k + ht.hentries.length → slot ht.hentries y = some e' → some e' ∈ l := by
  have hl := (slot_some_lt hk).1
  have hpos : 0 < ht.size := hlen ▸ hl
  -- the cluster ends at a clear slot before the whole turn
  obtain ⟨y, hs, hlt⟩ := exists_stops (fun _ => False) hclear hl (k + 1)
  have hy : slot ht.hentries y = none := by
    cases hslot : slot ht.hentries y with
    | none => rfl
    | some e' => exact absurd (hs.stop e' hslot) not_false
  have hne : y ≠ k + ht.hentries.length := by
    rintro rfl
    rw [slot_congr (show (k + ht.hentries.length) % ht.hentries.length = k % ht.hentries.length by
      rw [Int.add_emod_right]), hk] at hy
    contradiction
  have hky := hs.le
  have hre := hr.rehoming (i := k) (m := y) (by omega) (by omega) hy
    fun j hj hjy => hs.occupied (by omega) hjy
  have hlen' : (setSlot ht.hentries k none).length = ht.size := by rw [length_setSlot, hlen]
  have hmod := Int.emod_lt_of_pos k (show (0 : ℤ) < ht.hentries.length by omega)
  have hnn := Int.emod_nonneg k (show (ht.hentries.length : ℤ) ≠ 0 by omega)
  have hcursor : (((k % ht.hentries.length).toNat + 1 : ℕ) : ℤ) % (setSlot ht.hentries k none).length =
      (k + 1) % (setSlot ht.hentries k none).length := by
    rw [length_setSlot]
    push_cast
    rw [Int.toNat_of_nonneg hnn]
    exact shift_emod (Int.emod_emod_of_dvd k (dvd_refl _))
  have hfuel : y - (k + 1) < ((ht.size + 1) ^ 3 : ℕ) := by
    have hbound := fuel_bound (n := ht.size) (d := 0) (r := ht.size) (Nat.zero_le _) (le_refl _)
    omega
  obtain ⟨l, hl', hr', ha', hocc⟩ := rehomeLoop_eq (r := r) hsame (by rw [hlen']; exact home_lt M ht.test hpos)
    hre ha.setSlot_none (by rw [hlen', ← hlen]; omega) hcursor hfuel
  have hll : l.length = ht.hentries.length := hr'.length
  refine ⟨l, ?_, hll, hr'.done, ha', ?_, fun x e' hx hxn he' => ?_, fun z e' hz hzn he' => ?_⟩
  · have hset : ht.hentries.set (k % ht.hentries.length).toNat none = setSlot ht.hentries k none := rfl
    rw [remhash1, hset, hl', Option.map_some]
  · rw [hocc, occupied_clear hk]
  · obtain ⟨z, hxz, hkz, hzn, hz⟩ := hr'.back x e' hx (hll ▸ hxn) he'
    exact ⟨z, hxz, hkz, hll ▸ hzn, hz⟩
  · obtain ⟨x, -, -, hx⟩ := hr'.kept z e' hz (hll ▸ hzn) he'
    exact mem_iff_slot.mpr ⟨x, hx⟩

omit [DecidableEq K] in
theorem mem_remhash1 {r : Htentry K V → Htentry K V → Prop} {e e' : Htentry K V} {l : List (Option (Htentry K V))}
    (hrefl : ∀ e, r e e) (ha : Apart ht.hentries r) (hk : slot ht.hentries k = some e)
    (hlen : l.length = ht.hentries.length)
    (hback : ∀ x e', k ≤ x → x < k + ht.hentries.length → slot l x = some e' →
      ∃ y, x ≤ y ∧ k < y ∧ y < k + ht.hentries.length ∧ slot ht.hentries y = some e')
    (hkept : ∀ y e', k < y → y < k + ht.hentries.length → slot ht.hentries y = some e' → some e' ∈ l) :
    some e' ∈ l ↔ some e' ∈ ht.hentries ∧ ¬ r e' e := by
  have hl := (slot_some_lt hk).1
  constructor
  · intro he'
    obtain ⟨x, hx⟩ := mem_iff_slot.mp he'
    obtain ⟨x', hkx, hxn, hxx⟩ := exists_position (n := ht.hentries.length) (by omega) k x
    obtain ⟨z, -, hkz, hzn, hz⟩ := hback x' e' hkx hxn (by rw [slot_congr (hlen ▸ hxx), hx])
    refine ⟨mem_iff_slot.mpr ⟨z, hz⟩, fun hr => ?_⟩
    exact absurd (ha z k e' e hz hk hr) (emod_ne (by omega) (by omega) (by omega))
  · rintro ⟨he', hne⟩
    obtain ⟨x, hx⟩ := mem_iff_slot.mp he'
    obtain ⟨x', hkx, hxn, hxx⟩ := exists_position (n := ht.hentries.length) (by omega) k x
    rw [← slot_congr hxx] at hx
    refine hkept x' e' (lt_of_le_of_ne hkx ?_) hxn hx
    rintro rfl
    rw [hk] at hx
    exact hne (Option.some.inj hx ▸ hrefl e)

theorem remhash1_ends {e : Htentry K V} (M : KeyMethods K) (hlen : ht.hentries.length = ht.size)
    (hk : slot ht.hentries k = some e) : ∃ l, ht.remhash1 M (k % ht.hentries.length).toNat =
      some { ht with hentries := l, count := ht.count - 1 } ∧ l.length = ht.size ∧
      occupied l + 1 = occupied ht.hentries := by
  have hl := (slot_some_lt hk).1
  have hpos : 0 < ht.size := hlen ▸ hl
  have hlen' : (setSlot ht.hentries k none).length = ht.size := by rw [length_setSlot, hlen]
  have hocc := occupied_clear hk
  have hmod := Int.emod_lt_of_pos k (show (0 : ℤ) < ht.hentries.length by omega)
  have hnn := Int.emod_nonneg k (show (ht.hentries.length : ℤ) ≠ 0 by omega)
  -- the slot just cleared is met again after one turn at the latest
  have hclear : slot (setSlot ht.hentries k none) (k % ht.hentries.length + ht.hentries.length) = none := by
    refine slot_setSlot_same hl ?_
    rw [Int.add_emod_right, Int.emod_emod_of_dvd k (dvd_refl _)]
  have hdisp := displacement_le (fun e : Htentry K V => (ht.home M ht.test e.key : ℤ)) (hlen' ▸ hpos)
  rw [hlen'] at hdisp
  obtain ⟨l, hl', hlen'', hocc'⟩ := rehomeLoop_ends ((ht.size + 1) ^ 3)
    (show ∀ key, ht.home M ht.test key < _ by rw [hlen']; exact home_lt M ht.test hpos)
    (by rw [hlen']; exact hpos) (show (k % ht.hentries.length).toNat + 1 ≤ _ by rw [hlen', ← hlen]; omega) hclear (by push_cast; omega)
    (by rw [hlen']; exact fuel_bound hdisp (by omega))
  refine ⟨l, ?_, by rw [hlen'', hlen'], by omega⟩
  rw [remhash1]
  have hset : ht.hentries.set (k % ht.hentries.length).toNat none = setSlot ht.hentries k none := rfl
  rw [hset, hl', Option.map_some]

end HashTable

end XEmacs.Table
