import XEmacs.Table.HashTableProbing
import Mathlib.Algebra.Order.Floor.Ring
import Mathlib.Tactic.Linarith

/-! Sizes of hash tables. That probing ends depends only on the number of entries being less than
the size; but `enlarge_hash_table` does not find a larger size when the rehash size adds less than
one slot, or after the last prime. -/

namespace XEmacs.Table

open Lib Lib.Probing

variable {K V : Type*}

theorem primes_sorted : primes.Pairwise (· < ·) := by decide

theorem primes_lt {i j : ℕ} (hij : i < j) (hj : j < primes.length) : primes.getD i 0 < primes.getD j 0 := by
  rw [List.getD_eq_getElem _ _ (hij.trans hj), List.getD_eq_getElem _ _ hj]
  exact List.pairwise_iff_getElem.mp primes_sorted i j _ _ hij

theorem primes_le {i j : ℕ} (hij : i ≤ j) (hj : j < primes.length) : primes.getD i 0 ≤ primes.getD j 0 := by
  rcases eq_or_lt_of_le hij with rfl | hij
  · exact le_refl _
  · exact Nat.le_of_lt (primes_lt hij hj)

theorem sizeLoop_spec (requestedSize fuel : ℕ) {low high : ℕ} (hlt : low < high) (hfuel : high - low ≤ fuel + 1)
    (hlow : low = 0 ∨ primes.getD low 0 < requestedSize)
    (hhigh : high = primes.length - 1 ∨ requestedSize ≤ primes.getD high 0) :
    ∃ h, sizeLoop requestedSize fuel low high = h ∧ low < h ∧ h ≤ high ∧
      (h - 1 = 0 ∨ primes.getD (h - 1) 0 < requestedSize) ∧
      (h = primes.length - 1 ∨ requestedSize ≤ primes.getD h 0) := by
  induction fuel generalizing low high with
  | zero =>
    have hlow' : high - 1 = low := by omega
    exact ⟨high, rfl, hlt, le_refl _, by rw [hlow']; exact hlow, hhigh⟩
  | succ fuel ih =>
    by_cases hgap : high - low > 1
    · by_cases hmid : primes.getD ((low + high) / 2) 0 < requestedSize
      · simp only [sizeLoop, if_pos hgap, if_pos hmid]
        obtain ⟨h, heq, hl, hh, hbounds⟩ := ih (show (low + high) / 2 < high by omega) (by omega)
          (.inr hmid) hhigh
        exact ⟨h, heq, by omega, hh, hbounds⟩
      · simp only [sizeLoop, if_pos hgap, if_neg hmid]
        obtain ⟨h, heq, hl, hh, hbounds⟩ := ih (show low < (low + high) / 2 by omega) (by omega)
          hlow (.inr (Nat.not_lt.mp hmid))
        exact ⟨h, heq, hl, by omega, hbounds⟩
    · have hlow' : high - 1 = low := by omega
      simp only [sizeLoop, if_neg hgap]
      exact ⟨high, rfl, hlt, le_refl _, by rw [hlow']; exact hlow, hhigh⟩

def IsTableSize (size : ℕ) : Prop := ∃ i, 0 < i ∧ i < primes.length ∧ primes.getD i 0 = size

def lastPrime : ℕ := 1985248999

theorem IsTableSize.bounds {size : ℕ} (h : IsTableSize size) : 29 ≤ size ∧ size ≤ lastPrime := by
  obtain ⟨i, hi, hlt, rfl⟩ := h
  exact ⟨primes_le hi hlt, primes_le (Nat.le_sub_one_of_lt hlt) (by decide)⟩

theorem hashTableSize_isTableSize (requestedSize : ℕ) : IsTableSize (hashTableSize requestedSize) := by
  obtain ⟨h, heq, hpos, hle, -⟩ := sizeLoop_spec requestedSize primes.length
    (show 0 < primes.length - 1 by decide) (by omega) (.inl rfl) (.inl rfl)
  exact ⟨h, hpos, lt_of_le_of_lt hle (by decide), by rw [hashTableSize, heq]⟩

theorem lt_hashTableSize_iff {size requestedSize : ℕ} (hsize : IsTableSize size) :
    size < hashTableSize requestedSize ↔ size < requestedSize ∧ size < lastPrime := by
  obtain ⟨h, heq, hpos, hle, hbelow, habove⟩ := sizeLoop_spec requestedSize
    primes.length (show 0 < primes.length - 1 by decide) (by omega) (.inl rfl) (.inl rfl)
  have hlast : primes.getD (primes.length - 1) 0 = lastPrime := rfl
  rw [hashTableSize, heq]
  constructor
  · intro hlt
    refine ⟨?_, lt_of_lt_of_le hlt (hlast ▸ primes_le hle (by decide))⟩
    obtain ⟨i, hi, hil, rfl⟩ := hsize
    have hih : i < h := by
      by_contra hhi
      exact absurd (primes_le (Nat.not_lt.mp hhi) hil) (by omega)
    rcases hbelow with hzero | hbelow
    · omega
    · exact lt_of_le_of_lt (primes_le (show i ≤ h - 1 by omega) (by omega)) hbelow
  · rintro ⟨hreq, hlt⟩
    rcases habove with rfl | habove
    · rw [hlast]
      exact hlt
    · exact lt_of_lt_of_le hreq habove

theorem le_hashTableSize {size requestedSize : ℕ} (hsize : IsTableSize size) (hle : size ≤ requestedSize) :
    size ≤ hashTableSize requestedSize := by
  obtain ⟨h, heq, -, -, -, habove⟩ := sizeLoop_spec requestedSize primes.length
    (show 0 < primes.length - 1 by decide) (by omega) (.inl rfl) (.inl rfl)
  rw [hashTableSize, heq]
  rcases habove with rfl | habove
  · exact hsize.bounds.2
  · exact le_trans hle habove

namespace HashTable

structure Sized (ht : HashTable K V) : Prop where
  length : ht.hentries.length = ht.size
  size : IsTableSize ht.size
  count : ht.count = occupied ht.hentries
  lt : ht.count < ht.size
  rehashSize : 1 < ht.rehashSize
  rehashThreshold : 0 < ht.rehashThreshold ∧ ht.rehashThreshold < 1
  rehashCount : ht.rehashCount = ⌊(ht.size : ℚ) * ht.rehashThreshold⌋₊

variable {ht ht' : HashTable K V}

theorem Sized.pos (h : Sized ht) : 0 < ht.size := Nat.zero_lt_of_lt h.lt

theorem Sized.exists_clear (h : Sized ht) : ∃ c, slot ht.hentries c = none :=
  Probing.exists_clear (by rw [← h.count, h.length]; exact h.lt)

theorem Sized.rehashCount_le (h : Sized ht) : ht.rehashCount ≤ ht.size := by
  rw [h.rehashCount]
  refine Nat.floor_le_of_le ?_
  exact mul_le_of_le_one_right (Nat.cast_nonneg _) h.rehashThreshold.2.le

theorem decodeFloat_threshold {arg : KeywordArg} (h : validateVar rehashThresholdValidate arg = none) :
    decodeFloat arg = -1 ∨ (0 < decodeFloat arg ∧ decodeFloat arg < 1) := by
  cases arg with
  | nil => exact .inl rfl
  | float x =>
    right
    simpa [validateVar, rehashThresholdValidate, decodeFloat] using h
  | fixnum n => simp [validateVar, rehashThresholdValidate] at h
  | bignum n => simp [validateVar, rehashThresholdValidate] at h
  | other => simp [validateVar, rehashThresholdValidate] at h

theorem defaultRehashThreshold_bounds (size : ℕ) (test : HashTableTest K) :
    0 < defaultRehashThreshold size test ∧ defaultRehashThreshold size test < 1 := by
  cases test <;> simp only [defaultRehashThreshold] <;> (try split_ifs) <;> norm_num

theorem sized_makeHashTable {test : HashTableTest K} {size rehashSize rehashThreshold : KeywordArg}
    {weakness : HashTableWeakness}
    (h : makeHashTable test size rehashSize rehashThreshold weakness = .ok ht) : Sized ht := by
  rw [makeHashTable] at h
  split at h
  · contradiction
  next hvalid =>
    obtain rfl := Except.ok.inj h
    have hsize := hashTableSize_isTableSize
    simp only [Option.orElse_eq_orElse, Option.orElse_eq_or, Option.or_eq_none_iff] at hvalid
    refine ⟨List.length_replicate, hsize _, (occupied_replicate _).symm, ?_, ?_, ?_, rfl⟩
    · exact lt_of_lt_of_le (by decide : 0 < 29) (hsize _).bounds.1
    · simp only [makeGeneralLispHashTable, computeDerivedValues]
      split_ifs with hone
      · exact hone
      · norm_num
    · simp only [makeGeneralLispHashTable, computeDerivedValues]
      split_ifs with hpos
      · rcases decodeFloat_threshold hvalid.2.2 with hdefault | hfloat
        · rw [hdefault] at hpos
          norm_num at hpos
        · exact hfloat
      · exact defaultRehashThreshold_bounds _ test

/-- The size that `enlarge_hash_table` asks for is larger, and not past the last prime. -/
def Grows (ht : HashTable K V) : Prop := ⌊(ht.size : ℚ) * ht.rehashSize⌋₊ > ht.size ∧ ht.size < lastPrime

instance (ht : HashTable K V) : Decidable ht.Grows := inferInstanceAs (Decidable (_ ∧ _))

theorem Sized.lt_enlargedSize_iff (h : Sized ht) : ht.size < ht.enlargedSize ↔ ht.Grows :=
  lt_hashTableSize_iff h.size

variable [DecidableEq K]

/-- There is no entry for the key: the search for it ends at a clear slot. -/
def Absent (M : KeyMethods K) (ht : HashTable K V) (key : K) : Prop :=
  (ht.findHtentry M key).any (fun probe => (ht.hentries[probe]?.join).isNone) = true

instance (M : KeyMethods K) (ht : HashTable K V) (key : K) : Decidable (ht.Absent M key) :=
  inferInstanceAs (Decidable (_ = true))

/-- A call that adds the entry at which the table is enlarged finds a larger size. -/
def EnlargesToMore (ht : HashTable K V) : KeyMethods K × Call K V → Prop
  | (M, .puthash key _) => ht.Absent M key → ht.count + 1 ≥ ht.rehashCount → ht.Grows
  | _ => True

instance (ht : HashTable K V) : (call : KeyMethods K × Call K V) → Decidable (ht.EnlargesToMore call)
  | (_, .puthash ..) => inferInstanceAs (Decidable (_ → _ → _))
  | (_, .remhash _) => isTrue trivial
  | (_, .clrhash) => isTrue trivial

theorem absent_of_clear {M : KeyMethods K} {key : K} {k : ℤ}
    (hk : ht.findHtentry M key = some (k % ht.hentries.length).toNat) (hc : slot ht.hentries k = none) :
    ht.Absent M key := by
  have hget : ht.hentries[(k % ht.hentries.length).toNat]?.join = none := hc
  rw [Absent, hk, Option.any_some, hget]
  rfl

theorem Sized.puthash (h : Sized ht) {M : KeyMethods K} {key : K} {value : V}
    (hok : ht.EnlargesToMore (M, .puthash key value)) :
    ∃ ht', ht.puthash M key value = some ht' ∧ Sized ht' := by
  obtain ⟨c, hc⟩ := h.exists_clear
  obtain ⟨k, hk, -⟩ := findHtentry_eq M h.length hc h.pos key
  cases hslot : slot ht.hentries k with
  | some e =>
    refine ⟨_, puthash_found hk hslot, by rw [length_setSlot]; exact h.length, h.size, ?_, h.lt, h.rehashSize,
      h.rehashThreshold, h.rehashCount⟩
    rw [occupied_replace hslot]
    exact h.count
  | none =>
    have hfill : occupied (ht.fill k ⟨key, value⟩).hentries = ht.count + 1 := by
      rw [fill, occupied_fill (by rw [h.length]; exact h.pos) hslot, h.count]
    rw [puthash_absent hk hslot]
    split_ifs with hcount
    · have hgrows := hok (absent_of_clear hk hslot) hcount
      have hlt := h.lt_enlargedSize_iff.mpr hgrows
      have hle := h.lt
      have hroom : occupied (ht.fill k ⟨key, value⟩).hentries ≤ ht.enlargedSize := by omega
      obtain ⟨l, heq, hlen, -, -, hocc, -⟩ := resize_eq M (r := fun _ _ => False) (by omega) hroom
        (List.pairwise_of_forall fun _ _ => ⟨not_false, not_false⟩)
      refine ⟨_, heq, hlen, hashTableSize_isTableSize _, ?_, ?_, h.rehashSize, h.rehashThreshold, rfl⟩
      · exact (hocc.trans hfill).symm
      · exact Nat.lt_of_le_of_lt (Nat.succ_le_of_lt h.lt) hlt
    · have hle := h.rehashCount_le
      refine ⟨_, rfl, by rw [fill, length_setSlot]; exact h.length, h.size, hfill.symm, ?_, h.rehashSize,
        h.rehashThreshold, h.rehashCount⟩
      exact lt_of_lt_of_le (Nat.not_le.mp hcount) hle

theorem Sized.remhash (h : Sized ht) (M : KeyMethods K) (key : K) :
    ∃ ht' found, ht.remhash M key = some (ht', found) ∧ Sized ht' := by
  obtain ⟨c, hc⟩ := h.exists_clear
  obtain ⟨k, hk, -⟩ := findHtentry_eq M h.length hc h.pos key
  cases hslot : slot ht.hentries k with
  | none => exact ⟨ht, false, remhash_absent hk hslot, h⟩
  | some e =>
    obtain ⟨l, heq, hlen, hocc⟩ := remhash1_ends M h.length hslot
    have hcount := h.count
    have hlt := h.lt
    refine ⟨{ ht with hentries := l, count := ht.count - 1 }, true, ?_, hlen, h.size, ?_, ?_, h.rehashSize, h.rehashThreshold, h.rehashCount⟩
    · rw [remhash_found hk hslot, heq, Option.map_some]
    · show ht.count - 1 = occupied l
      omega
    · show ht.count - 1 < ht.size
      omega

omit [DecidableEq K] in
theorem Sized.clrhash (h : Sized ht) : Sized ht.clrhash :=
  ⟨List.length_replicate, h.size, (occupied_replicate _).symm, h.pos, h.rehashSize, h.rehashThreshold,
    h.rehashCount⟩

theorem Sized.step (h : Sized ht) {call : KeyMethods K × Call K V} (hok : ht.EnlargesToMore call) :
    ∃ ht', ht.step call = some ht' ∧ Sized ht' := by
  obtain ⟨M, call⟩ := call
  cases call with
  | puthash key value => exact h.puthash hok
  | remhash key =>
    obtain ⟨ht', found, heq, h'⟩ := h.remhash M key
    exact ⟨ht', by rw [HashTable.step, heq, Option.map_some], h'⟩
  | clrhash => exact ⟨ht.clrhash, rfl, h.clrhash⟩

structure ProbingEnds (ht : HashTable K V) : Prop where
  /-- the number of entries is below the size -/
  lt : ht.hentries.countP Option.isSome = ht.count ∧ ht.count < ht.size
  clear : ∃ i < ht.size, ht.hentries[i]?.join = none
  /-- every `LINEAR_PROBING_LOOP` ends -/
  probe : ∀ (brk : Htentry K V → Bool) (probe : ℕ), probe ≤ ht.size →
    ∃ i < ht.size, probeFrom ht.hentries brk probe = some i
  lookup : ∀ (M : KeyMethods K) (key : K) (default_ : V), (ht.gethash M key default_).isSome
  /-- `enlarge_hash_table` yields a larger size under the condition, and not otherwise -/
  enlarge : ht.size < ht.enlargedSize ↔ ht.Grows
  calls : ∀ call, ht.EnlargesToMore call → (ht.step call).isSome

theorem Sized.probingEnds (h : Sized ht) : ProbingEnds ht := by
  obtain ⟨c, hc⟩ := h.exists_clear
  have hpos : 0 < ht.hentries.length := h.length ▸ h.pos
  have hprobe : ∀ (brk : Htentry K V → Bool) (probe : ℕ), probe ≤ ht.size →
      ∃ i < ht.size, probeFrom ht.hentries brk probe = some i := by
    intro brk probe hle
    obtain ⟨k, hk, -⟩ := probeFrom_eq brk hc hpos (h.length ▸ hle)
    obtain ⟨hlt, -⟩ := slot_emod (k := k) hpos
    exact ⟨_, h.length ▸ hlt, hk⟩
  refine ⟨⟨h.count.symm, h.lt⟩, ?_, hprobe, fun M key default_ => ?_, h.lt_enlargedSize_iff, fun call hok => ?_⟩
  · obtain ⟨hlt, -⟩ := slot_emod (k := c) hpos
    exact ⟨_, h.length ▸ hlt, hc⟩
  · obtain ⟨k, hk, -⟩ := findHtentry_eq M h.length hc h.pos key
    rw [gethash_eq hk]
    rfl
  · obtain ⟨ht', heq, -⟩ := h.step hok
    rw [heq]
    rfl

omit [DecidableEq K] in
theorem makeHashTable_rehashSize (test : HashTableTest K) {x : ℚ} (hx : 1 < x) :
    makeHashTable test .nil (.float x) .nil .nonWeak =
      .ok (makeGeneralLispHashTable (V := V) test 16 (decodeFloat (.float x)) (-1) .nonWeak) := by
  have hvalid : validateVar rehashSizeValidate (.float x) = none := by
    rw [validateVar, rehashSizeValidate, if_neg (not_le.mpr hx)]
    simp
  rw [makeHashTable, hvalid]
  rfl

def fixnumMethods : KeyMethods ℕ where
  lispHash n := UInt64.ofNat (2 * n + 1)
  internalEqual m n := m = n
  internalEqualp m n := m = n
  internalHash n _ := UInt64.ofNat (2 * n + 1)
  fixnump _ := true
  charp _ := false
  symbolp _ := false
  nonFixnumNumberp _ := false
  equal_immediate := by simp
  hash_immediate := by simp
  equalp_symbol := by simp
  hashp_symbol := by simp
  equal_number := by simp

/-- The keys below `n` are put. -/
def putBelow (n : ℕ) : List (KeyMethods ℕ × Call ℕ ℕ) :=
  (List.range n).map fun key => (fixnumMethods, .puthash key key)

/-- A table with a rehash size of 1.01 and with the default one. -/
def smallTable (rehashSize : KeywordArg) : HashTable ℕ ℕ :=
  makeGeneralLispHashTable .eql 16 (decodeFloat rehashSize) (-1) .nonWeak

theorem makeHashTable_small :
    makeHashTable .eql .nil (.float (101 / 100)) .nil .nonWeak = .ok (smallTable (.float (101 / 100))) ∧
      makeHashTable .eql .nil .nil .nil .nonWeak = .ok (smallTable .nil) :=
  ⟨makeHashTable_rehashSize .eql (by norm_num), rfl⟩

end HashTable

end XEmacs.Table
