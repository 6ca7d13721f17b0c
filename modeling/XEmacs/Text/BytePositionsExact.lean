import Mathlib.Tactic.Ring
import XEmacs.Text.BufferRefinement
import XEmacs.Text.BytePositions

/-! Conversions are exact as long as all positions that are known are. The closest known
positions enclose the one that is looked for and do not enclose the gap, so that the bytes
between them lie together in memory and the characters can be counted there. -/

namespace XEmacs.Text

variable {rep : UInt8 → ℕ} {cs : List (Ichar rep)} {p q r : ℤ}

def bothPos (cs : List (Ichar rep)) (q : ℤ) : BothPos := ⟨q, bytePos cs q⟩

/-- The pair is a position of the text. -/
structure Exact (cs : List (Ichar rep)) (this : BothPos) : Prop where
  one_le : 1 ≤ this.charpos
  le_end : this.charpos ≤ 1 + cs.length
  bytepos_eq : this.bytepos = bytePos cs this.charpos

theorem exact_bothPos (h1 : 1 ≤ q) (hz : q ≤ 1 + cs.length) : Exact cs (bothPos cs q) := ⟨h1, hz, rfl⟩

theorem Exact.eq_bothPos {this : BothPos} (h : Exact cs this) : this = bothPos cs this.charpos := by
  rw [bothPos, ← h.bytepos_eq]

theorem sub_le_bytePos_sub (h1 : 1 ≤ p) (hpq : p ≤ q) (hq : q ≤ 1 + cs.length) :
    q - p ≤ bytePos cs q - bytePos cs p := by
  have htake : cs.take (q - 1).toNat = cs.take (p - 1).toNat ++ (cs.take (q - 1).toNat).drop (p - 1).toNat := by
    conv_lhs => rw [← List.take_append_drop (p - 1).toNat (cs.take (q - 1).toNat), List.take_take,
      min_eq_left (by omega)]
  have hlen := length_le_length_itextBytes ((cs.take (q - 1).toNat).drop (p - 1).toNat)
  rw [bytePos, bytePos, htake, itextBytes_append, List.length_append]
  rw [List.length_drop, List.length_take] at hlen
  push_cast
  omega

theorem bytePos_sub_eq (h1 : 1 ≤ p) (hpq : p ≤ q) (hqr : q ≤ r) (hr : r ≤ 1 + cs.length)
    (hspan : r - p = bytePos cs r - bytePos cs p) : bytePos cs q - bytePos cs p = q - p := by
  have hleft := sub_le_bytePos_sub h1 hpq (hqr.trans hr)
  have hright := sub_le_bytePos_sub (h1.trans hpq) hqr hr
  omega

def IsKey (key value : BothPos → ℤ) : Prop :=
  key = BothPos.charpos ∧ value = BothPos.bytepos ∨ key = BothPos.bytepos ∧ value = BothPos.charpos

variable {key value : BothPos → ℤ} {this other : BothPos}

theorem IsKey.lt_iff (hk : IsKey key value) (h : Exact cs this) (h' : Exact cs other) :
    key this < key other ↔ this.charpos < other.charpos := by
  rcases hk with ⟨rfl, -⟩ | ⟨rfl, -⟩
  · exact Iff.rfl
  · rw [h.bytepos_eq, h'.bytepos_eq]
    exact bytePos_lt_iff h.one_le h'.le_end

theorem IsKey.eq_iff (hk : IsKey key value) (h : Exact cs this) (h' : Exact cs other) :
    key this = key other ↔ this.charpos = other.charpos := by
  have hlt := hk.lt_iff h h'
  have hgt := hk.lt_iff h' h
  omega

theorem IsKey.value_sub (hk : IsKey key value)
    (h : this.bytepos - other.bytepos = this.charpos - other.charpos) :
    value other + (key this - key other) = value this := by
  rcases hk with ⟨rfl, rfl⟩ | ⟨rfl, rfl⟩ <;> omega

namespace MuleBuffer

structure Brackets (cs : List (Ichar rep)) (best : Best) (p : ℤ) : Prop where
  below : Exact cs best.below
  above : Exact cs best.above
  le : best.below.charpos ≤ p
  ge : p ≤ best.above.charpos

/-- The known positions do not enclose another. -/
def Best.Excludes (best : Best) (q : ℤ) : Prop := q ≤ best.below.charpos ∨ best.above.charpos ≤ q

/-- The known positions are at least as close as others. -/
def Best.Closer (best best' : Best) : Prop :=
  best'.below.charpos ≤ best.below.charpos ∧ best.above.charpos ≤ best'.above.charpos

variable {best best' : Best}

theorem Best.Closer.refl (best : Best) : best.Closer best := ⟨le_rfl, le_rfl⟩

theorem Best.Closer.trans {best₁ best₂ best₃ : Best} (h : best₁.Closer best₂) (h' : best₂.Closer best₃) :
    best₁.Closer best₃ := ⟨h'.1.trans h.1, h.2.trans h'.2⟩

theorem Best.Excludes.closer (h : best.Excludes q) (hc : best'.Closer best) : best'.Excludes q :=
  h.imp (fun h => h.trans hc.1) fun h => hc.2.trans h

/-- What a search for a known position may come to: the result, or closer known positions that
exclude those that have been considered. -/
def Finds (cs : List (Ichar rep)) (value : BothPos → ℤ) (p : ℤ) (best : Best) (seen : List BothPos) :
    Except ℤ Best → Prop
  | .error retval => retval = value (bothPos cs p)
  | .ok best' => Brackets cs best' p ∧ best'.Closer best ∧ ∀ this ∈ seen, best'.Excludes this.charpos

theorem Brackets.interpolate (h : Brackets cs best p) (hk : IsKey key value) (hc : best.Closer best')
    (hseen : best.Excludes this.charpos) :
    Finds cs value p best' [this] (interpolate key value (key (bothPos cs p)) best) := by
  rw [MuleBuffer.interpolate]
  split_ifs with hspan
  · rw [h.below.bytepos_eq, h.above.bytepos_eq] at hspan
    have hsub := bytePos_sub_eq h.below.one_le h.le h.ge h.above.le_end hspan
    refine hk.value_sub ?_
    rw [h.below.bytepos_eq]
    exact hsub
  · exact ⟨h, hc, by simpa using hseen⟩

theorem Brackets.consider (h : Brackets cs best p) (hk : IsKey key value) (hthis : Exact cs this) :
    Finds cs value p best [this] (consider key value (key (bothPos cs p)) best this) := by
  have hp : Exact cs (bothPos cs p) :=
    exact_bothPos (h.below.one_le.trans h.le) (h.ge.trans h.above.le_end)
  have hcharpos : (bothPos cs p).charpos = p := rfl
  have heq := hk.eq_iff hthis hp
  have hgt := hk.lt_iff hp hthis
  have habove := hk.lt_iff hthis h.above
  have hbelow := hk.lt_iff h.below hthis
  rw [MuleBuffer.consider]
  split_ifs with h1 h2 h3 h4
  · have hsame : this = bothPos cs p := by
      rw [hthis.eq_bothPos, heq.mp h1, hcharpos]
    exact congrArg value hsame
  · have hbrackets : Brackets cs { best with above := this } p := ⟨h.below, hthis, h.le, (hgt.mp h2).le⟩
    exact hbrackets.interpolate hk ⟨le_rfl, (habove.mp h3).le⟩ (.inr le_rfl)
  · refine ⟨h, .refl best, ?_⟩
    simp only [List.mem_singleton, forall_eq]
    exact .inr (not_lt.mp (mt habove.mpr h3))
  · have hle : this.charpos ≤ p := not_lt.mp (mt hgt.mpr h2)
    have hbrackets : Brackets cs { best with below := this } p := ⟨hthis, h.above, hle, h.ge⟩
    exact hbrackets.interpolate hk ⟨(hbelow.mp h4).le, le_rfl⟩ (.inl le_rfl)
  · refine ⟨h, .refl best, ?_⟩
    simp only [List.mem_singleton, forall_eq]
    exact .inl (not_lt.mp (mt hbelow.mpr h4))

theorem Finds.bind {seen seen' : List BothPos} {found : Except ℤ Best} {next : Best → Except ℤ Best}
    (h : Finds cs value p best seen found)
    (hnext : ∀ best', Brackets cs best' p → Finds cs value p best' seen' (next best')) :
    Finds cs value p best (seen ++ seen') (found >>= next) := by
  cases found with
  | error retval => exact h
  | ok best₁ =>
    obtain ⟨hbrackets, hcloser, hseen⟩ := h
    have hfound := hnext best₁ hbrackets
    show Finds cs value p best (seen ++ seen') (next best₁)
    cases hresult : next best₁ with
    | error retval =>
      rw [hresult] at hfound
      exact hfound
    | ok best₂ =>
      rw [hresult] at hfound
      refine ⟨hfound.1, hfound.2.1.trans hcloser, fun this hmem => ?_⟩
      rcases List.mem_append.mp hmem with hmem | hmem
      · exact (hseen this hmem).closer hfound.2.1
      · exact hfound.2.2 this hmem

theorem Finds.forget {seen : List BothPos} {found : Except ℤ Best} (h : Finds cs value p best seen found) :
    Finds cs value p best [] found := by
  cases found with
  | error retval => exact h
  | ok best' => exact ⟨h.1, h.2.1, nofun⟩

theorem Brackets.foldlM (h : Brackets cs best p) (hk : IsKey key value) {places : List BothPos}
    (hplaces : ∀ this ∈ places, Exact cs this) :
    Finds cs value p best places (places.foldlM (MuleBuffer.consider key value (key (bothPos cs p))) best) := by
  induction places generalizing best with
  | nil => exact ⟨h, .refl best, nofun⟩
  | cons this places ih =>
    rw [List.foldlM_cons]
    exact (h.consider hk (hplaces this List.mem_cons_self)).bind fun best' h' =>
      ih h' fun other hmem => hplaces other (List.mem_cons_of_mem this hmem)

theorem Brackets.considerCache (h : Brackets cs best p) (hk : IsKey key value) {cache : List BothPos}
    (hcache : ∀ this ∈ cache, Exact cs this) :
    Finds cs value p best [] (considerCache key value (key (bothPos cs p)) cache best) := by
  induction cache generalizing best with
  | nil => exact ⟨h, .refl best, nofun⟩
  | cons this cache ih =>
    rw [MuleBuffer.considerCache]
    have hconsider := h.consider hk (hcache this List.mem_cons_self)
    have hrest (best' : Best) (h' : Brackets cs best' p) : Finds cs value p best' []
        (if best'.above.charpos - best'.below.charpos < 50 then .ok best'
          else MuleBuffer.considerCache key value (key (bothPos cs p)) cache best') := by
      split_ifs
      · exact ⟨h', .refl best', nofun⟩
      · exact ih h' fun other hmem => hcache other (List.mem_cons_of_mem this hmem)
    exact (hconsider.bind hrest).forget

end MuleBuffer

/-! ### Counting characters -/

namespace Buffer

variable {firstp : UInt8 → Bool} {b : Buffer} {x delta : ℤ}

/-- The text of the buffer consists of the characters. -/
structure HoldsChars (b : Buffer) (cs : List (Ichar rep)) : Prop where
  layout : b.Layout
  text : b.text = itextBytes cs

theorem HoldsText.holdsChars {t : EditedText rep} (h : b.HoldsText t) : b.HoldsChars t.chars := ⟨h.layout, h.text⟩

theorem HoldsChars.z (h : b.HoldsChars cs) : b.z = bytePos cs (1 + cs.length) := by
  have hz := h.layout.one_le_gpt.trans h.layout.gpt_le_z
  have hlen := congrArg List.length h.text
  rw [Buffer.text, Lib.Gap.length_slice] at hlen
  rw [bytePos_end, ← hlen]
  omega

theorem HoldsChars.bytePos_mem (h : b.HoldsChars cs) (hp : p ≤ 1 + cs.length) :
    1 ≤ bytePos cs p ∧ bytePos cs p ≤ b.z := by
  rw [h.z]
  exact ⟨one_le_bytePos, bytePos_le_of_le hp⟩

theorem HoldsChars.firstp_byteAt (h : b.HoldsChars cs) (hvalid : ∀ c ∈ cs, c.Valid firstp) (hp : 1 ≤ p)
    (hz : p < 1 + cs.length) : firstp (b.byteAt (bytePos cs p)) = true ∧
      ∀ x, bytePos cs p < x → x < bytePos cs (p + 1) → firstp (b.byteAt x) = false := by
  obtain ⟨c, hc, hnext, hdrop⟩ := drop_bytePos hp hz
  obtain ⟨hfirst, hrest⟩ := hvalid c (List.mem_of_getElem? hc)
  have hmem := h.bytePos_mem hz.le
  have hend : bytePos cs (p + 1) ≤ b.z := (h.bytePos_mem (by omega)).2
  have hbyte (i : ℕ) (hi : i < c.bytes.length) : c.bytes[i]? = some (b.byteAt (bytePos cs p + i)) := by
    have hget := getElem?_text b (p := bytePos cs p + i) (by omega) (by omega)
    have hnat : (bytePos cs p + i - 1).toNat = (bytePos cs p - 1).toNat + i := by omega
    rw [h.text, hnat, ← List.getElem?_drop, hdrop, List.getElem?_append_left hi] at hget
    exact hget
  constructor
  · have h0 := hbyte 0 c.length_bytes_pos
    rw [Nat.cast_zero, add_zero] at h0
    rw [← Option.some.inj h0]
    exact hfirst
  · intro x hlt hx
    obtain ⟨i, rfl⟩ : ∃ i : ℕ, x = bytePos cs p + (i + 1 : ℕ) :=
      ⟨(x - bytePos cs p - 1).toNat, by omega⟩
    have hi := hbyte (i + 1) (by omega)
    exact hrest _ (List.mem_of_getElem? hi)

theorem validateBytebpos_eq (n : ℕ) {fuel : ℕ} (hfuel : n < fuel)
    (haddr : ∀ i : ℕ, i ≤ n → b.byteAddress (x + delta * i) = b.byteAddress x + delta * i)
    (hgo : ∀ i : ℕ, i < n → firstp (b.byteAt (x + delta * i)) = false)
    (hstop : firstp (b.byteAt (x + delta * n)) = true) :
    b.validateBytebpos firstp delta fuel (b.byteAddress x) x = some (x + delta * n) := by
  induction n generalizing x fuel with
  | zero =>
    obtain ⟨fuel, rfl⟩ := Nat.exists_eq_add_one_of_ne_zero (Nat.ne_zero_of_lt hfuel)
    rw [Nat.cast_zero, mul_zero, add_zero] at hstop ⊢
    exact if_pos hstop
  | succ n ih =>
    obtain ⟨fuel, rfl⟩ := Nat.exists_eq_add_one_of_ne_zero (Nat.ne_zero_of_lt hfuel)
    have hfirst := hgo 0 (Nat.succ_pos n)
    have hone := haddr 1 (by omega)
    have hshift (i : ℕ) : x + delta + delta * i = x + delta * (i + 1 : ℕ) := by push_cast; ring
    rw [Nat.cast_zero, mul_zero, add_zero] at hfirst
    rw [Nat.cast_one, mul_one] at hone
    have haddr' (i : ℕ) (hi : i ≤ n) : b.byteAddress (x + delta + delta * i) = b.byteAddress (x + delta) + delta * i := by
      rw [hshift, haddr (i + 1) (by omega), hone]
      push_cast
      ring
    have hrest := ih (Nat.lt_of_succ_lt_succ hfuel) haddr'
      (fun i hi => by rw [hshift]; exact hgo (i + 1) (by omega)) (by rw [hshift]; exact hstop)
    rw [validateBytebpos, if_neg (by rw [← Buffer.byteAt, hfirst]; exact Bool.false_ne_true), ← hone, hrest, hshift]

theorem byteAddress_add {x d : ℤ} (h : b.gpt ≤ x ∧ b.gpt ≤ x + d ∨ x < b.gpt ∧ x + d < b.gpt) :
    b.byteAddress (x + d) = b.byteAddress x + d := by
  unfold byteAddress
  split_ifs <;> omega

variable (h : b.HoldsChars cs) (hvalid : ∀ c ∈ cs, c.Valid firstp)

include h hvalid

theorem incBytebpos_eq (hp : 1 ≤ p) (hz : p + 1 < 1 + cs.length)
    (hgap : b.gpt ≤ bytePos cs p ∨ bytePos cs (p + 1) < b.gpt) :
    b.incBytebpos firstp (bytePos cs p) = some (bytePos cs (p + 1)) := by
  have hlt : bytePos cs p < bytePos cs (p + 1) := bytePos_lt_of_lt hp (by omega) hz.le
  have hmem := h.bytePos_mem hz.le
  have hstart := h.bytePos_mem (show p ≤ 1 + cs.length by omega)
  obtain ⟨n, hn⟩ : ∃ n : ℕ, bytePos cs (p + 1) = bytePos cs p + 1 + 1 * n :=
    ⟨(bytePos cs (p + 1) - bytePos cs p - 1).toNat, by omega⟩
  rw [incBytebpos, hn]
  refine validateBytebpos_eq n (by omega) (fun i hi => byteAddress_add (by omega)) (fun i hi => ?_) ?_
  · exact (h.firstp_byteAt hvalid hp (by omega)).2 _ (by omega) (by omega)
  · rw [← hn]
    exact (h.firstp_byteAt hvalid (by omega) hz).1

theorem decBytebpos_eq (hp : 1 ≤ p) (hz : p < 1 + cs.length)
    (hgap : b.gpt ≤ bytePos cs p ∨ bytePos cs (p + 1) ≤ b.gpt) :
    b.decBytebpos firstp (bytePos cs (p + 1)) = some (bytePos cs p) := by
  have hlt : bytePos cs p < bytePos cs (p + 1) := bytePos_lt_of_lt hp (by omega) hz
  have hmem := h.bytePos_mem (show p + 1 ≤ 1 + cs.length by omega)
  have hstart := h.bytePos_mem hz.le
  obtain ⟨n, hn⟩ : ∃ n : ℕ, bytePos cs p = bytePos cs (p + 1) - 1 + -1 * n :=
    ⟨(bytePos cs (p + 1) - bytePos cs p - 1).toNat, by omega⟩
  conv_rhs => rw [hn]
  rw [decBytebpos]
  refine validateBytebpos_eq n (by omega) (fun i hi => byteAddress_add (by omega)) (fun i hi => ?_) ?_
  · exact (h.firstp_byteAt hvalid hp hz).2 _ (by omega) (by omega)
  · rw [← hn]
    exact (h.firstp_byteAt hvalid hp hz).1

theorem countChars_up {goesOn : BothPos → Bool} {start target : ℤ} {fuel : ℕ} (h1 : 1 ≤ start)
    (hle : start ≤ target) (hz : target < 1 + cs.length ∨ start = target)
    (hgap : b.gpt ≤ bytePos cs start ∨ bytePos cs target < b.gpt)
    (hgo : ∀ q, start ≤ q → q < target → goesOn (bothPos cs q) = true)
    (hstop : goesOn (bothPos cs target) = false) (hfuel : target - start < fuel) :
    countChars (b.incBytebpos firstp) 1 goesOn fuel (bothPos cs start) = some (bothPos cs target) := by
  induction fuel generalizing start with
  | zero =>
    rw [Nat.cast_zero] at hfuel
    omega
  | succ fuel ih =>
    rcases hle.eq_or_lt with rfl | hlt
    · exact if_neg (by rw [hstop]; exact Bool.false_ne_true)
    · have hle' : bytePos cs start ≤ bytePos cs (start + 1) := bytePos_le_of_le (by omega)
      have hle'' : bytePos cs (start + 1) ≤ bytePos cs target := bytePos_le_of_le (by omega)
      have hinc := incBytebpos_eq h hvalid h1 (by omega) (by omega)
      rw [countChars, if_pos (hgo start le_rfl hlt)]
      simp only [bothPos] at hinc ⊢
      rw [hinc, Option.bind_some]
      exact ih (by omega) (by omega) (by omega) (by omega) (fun q hq => hgo q (by omega)) (by push_cast at hfuel; omega)

theorem countChars_down {goesOn : BothPos → Bool} {start target : ℤ} {fuel : ℕ} (h1 : 1 ≤ target)
    (hle : target ≤ start) (hz : start ≤ 1 + cs.length)
    (hgap : b.gpt ≤ bytePos cs target ∨ bytePos cs start ≤ b.gpt)
    (hgo : ∀ q, target < q → q ≤ start → goesOn (bothPos cs q) = true)
    (hstop : goesOn (bothPos cs target) = false) (hfuel : start - target < fuel) :
    countChars (b.decBytebpos firstp) (-1) goesOn fuel (bothPos cs start) = some (bothPos cs target) := by
  induction fuel generalizing start with
  | zero =>
    rw [Nat.cast_zero] at hfuel
    omega
  | succ fuel ih =>
    rcases hle.eq_or_lt with rfl | hlt
    · exact if_neg (by rw [hstop]; exact Bool.false_ne_true)
    · obtain ⟨prev, rfl⟩ : ∃ prev, start = prev + 1 := ⟨start - 1, by omega⟩
      have hle' : bytePos cs prev ≤ bytePos cs (prev + 1) := bytePos_le_of_le (by omega)
      have hle'' : bytePos cs target ≤ bytePos cs prev := bytePos_le_of_le (by omega)
      have hdec := decBytebpos_eq h hvalid (p := prev) (by omega) (by omega) (by omega)
      rw [countChars, if_pos (hgo (prev + 1) hlt le_rfl)]
      simp only [bothPos] at hdec ⊢
      rw [hdec, Option.bind_some, Int.add_neg_cancel_right]
      exact ih (by omega) (by omega) (by omega) (fun q hq hq' => hgo q hq (by omega)) (by push_cast at hfuel; omega)

end Buffer

/-! ### Conversions -/

namespace MuleBuffer

variable {firstp : UInt8 → Bool} {b : MuleBuffer} {goesUp goesDown : ℤ → Bool}

/-- The buffer holds the characters, and all that it knows of positions is exact. -/
structure Knows (firstp : UInt8 → Bool) (b : MuleBuffer) (cs : List (Ichar rep)) : Prop where
  chars : b.buffer.HoldsChars cs
  bufz : b.buffer.bufz = 1 + cs.length
  valid : ∀ c ∈ cs, c.Valid firstp
  places : ∀ this ∈ b.places, Exact cs this
  cache : ∀ this ∈ b.muleCache, Exact cs this
  length_le : b.muleCache.length ≤ numCachedPositions
  oneByte : b.entirelyOneByteP = decide (b.buffer.bufz = b.buffer.z)

theorem Knows.gap (h : b.Knows firstp cs) : Exact cs ⟨b.buffer.bufgpt, b.buffer.gpt⟩ :=
  h.places _ (by simp [MuleBuffer.places])

theorem Knows.length_lt_z (h : b.Knows firstp cs) : cs.length < b.buffer.z := by
  have hlen := length_le_length_itextBytes cs
  rw [h.chars.z, bytePos_end]
  omega

theorem Knows.closest (h : b.Knows firstp cs) (hk : IsKey key value) (h1 : 1 ≤ p) (hz : p ≤ 1 + cs.length) :
    Finds cs value p ⟨⟨1, 1⟩, ⟨b.buffer.bufz, b.buffer.z⟩⟩ b.places
      (closest key value (key (bothPos cs p)) b) := by
  have hstart : Brackets cs ⟨⟨1, 1⟩, ⟨b.buffer.bufz, b.buffer.z⟩⟩ p := by
    refine ⟨⟨le_rfl, by show 1 ≤ 1 + (cs.length : ℤ); omega, bytePos_one.symm⟩, ?_, h1, by rwa [h.bufz]⟩
    rw [h.bufz, h.chars.z]
    exact exact_bothPos (h1.trans hz) le_rfl
  have hcache : ∀ this ∈ b.muleCache.reverse, Exact cs this := fun this hmem =>
    h.cache this (List.mem_reverse.mp hmem)
  have hfound := (hstart.foldlM hk h.places).bind fun best' h' => h'.considerCache hk hcache
  rwa [List.append_nil] at hfound

theorem mem_places (b : MuleBuffer) : b.cached ∈ b.places := by simp [MuleBuffer.places]

theorem Knows.keep (h : b.Knows firstp cs) (hthis : Exact cs this) (far : Bool) :
    (b.keep this far).Knows firstp cs := by
  have hsub : ∀ other ∈ (if b.muleCache.length = numCachedPositions then b.muleCache.drop numMovedPositions
      else b.muleCache), Exact cs other := by
    intro other hmem
    split_ifs at hmem
    · exact h.cache other (List.mem_of_mem_drop hmem)
    · exact h.cache other hmem
  have hlen : (if b.muleCache.length = numCachedPositions then b.muleCache.drop numMovedPositions
      else b.muleCache).length + 1 ≤ numCachedPositions := by
    have hle := h.length_le
    unfold numCachedPositions numMovedPositions at *
    split_ifs
    · rw [List.length_drop]
      omega
    · omega
  have hplaces : ∀ other ∈ (b.keep this far).places, Exact cs other := by
    intro other hmem
    have hold := h.places other
    simp only [MuleBuffer.places, MuleBuffer.keep, List.mem_cons, List.not_mem_nil, or_false] at hmem hold
    rcases hmem with hmem | hmem | hmem | hmem | rfl
    · exact hold (.inl hmem)
    · exact hold (.inr (.inl hmem))
    · exact hold (.inr (.inr (.inl hmem)))
    · exact hold (.inr (.inr (.inr (.inl hmem))))
    · exact hthis
  cases far with
  | false => exact { h with places := hplaces }
  | true =>
    refine { h with places := hplaces, cache := fun other hmem => ?_, length_le := ?_ }
    · rcases List.mem_append.mp hmem with hmem | hmem
      · exact hsub other hmem
      · exact List.mem_singleton.mp hmem ▸ hthis
    · exact (List.length_append ..).trans_le hlen

/-- A conversion goes on as long as it is not there yet. -/
structure StopsAt (key : BothPos → ℤ) (goesUp goesDown : ℤ → Bool) (x : ℤ) : Prop where
  up : ∀ y, y < x → goesUp y = true
  down : ∀ y, x < y → goesDown y = true
  stop : goesUp x = false ∧ goesDown x = false

theorem Knows.convert (h : b.Knows firstp cs) (hk : IsKey key value) (hmixed : b.buffer.bufz ≠ b.buffer.z)
    (h1 : 1 ≤ p) (hz : p ≤ 1 + cs.length) (hstops : StopsAt key goesUp goesDown (key (bothPos cs p))) :
    ∃ b', b.convert firstp key value goesUp goesDown (key (bothPos cs p)) =
      some (b', value (bothPos cs p)) ∧ b'.Knows firstp cs ∧ b'.buffer = b.buffer := by
  have hfound := h.closest hk h1 hz
  have hp : Exact cs (bothPos cs p) := exact_bothPos h1 hz
  have hle := h.length_lt_z
  have hge : (bothPos cs p).bytepos ≥ (bothPos cs p).charpos := by
    have hsub := sub_le_bytePos_sub le_rfl h1 hz
    rw [bytePos_one] at hsub
    show bytePos cs p ≥ p
    omega
  rw [MuleBuffer.convert, if_neg hmixed]
  cases hclosest : MuleBuffer.closest key value (key (bothPos cs p)) b with
  | error retval =>
    rw [hclosest] at hfound
    obtain rfl : retval = value (bothPos cs p) := hfound
    exact ⟨b, rfl, h, rfl⟩
  | ok best =>
    rw [hclosest] at hfound
    obtain ⟨⟨hbelow, habove, hpbelow, hpabove⟩, -, hexcludes⟩ := hfound
    have hgap : best.Excludes b.buffer.bufgpt := hexcludes ⟨_, b.buffer.gpt⟩ (by simp [MuleBuffer.places])
    have hgpt : b.buffer.gpt = bytePos cs b.buffer.bufgpt := h.gap.bytepos_eq
    have hkeep (far : Bool) := h.keep hp far
    simp only
    by_cases hcloser : key (bothPos cs p) - key best.below < key best.above - key (bothPos cs p)
    · have hlt : p < best.above.charpos := by
        have hle := mt (hk.lt_iff hp hbelow).mp (not_lt.mpr hpbelow)
        exact (hk.lt_iff hp habove).mp (by omega)
      have hz' : p < 1 + cs.length := hlt.trans_le habove.le_end
      have hside : b.buffer.gpt ≤ bytePos cs best.below.charpos ∨ bytePos cs p < b.buffer.gpt := by
        rw [hgpt]
        exact hgap.imp bytePos_le_of_le fun hle => bytePos_lt_of_lt h1 (hlt.trans_le hle) h.gap.le_end
      have hgo (q : ℤ) (hq : best.below.charpos ≤ q) (hlt : q < p) : goesUp (key (bothPos cs q)) = true :=
        hstops.up _ ((hk.lt_iff (exact_bothPos (hbelow.one_le.trans hq) (hlt.le.trans hz)) hp).mpr hlt)
      have hcount : Buffer.countChars (b.buffer.incBytebpos firstp) 1 (fun p => goesUp (key p))
          (b.buffer.z.toNat + 1) (bothPos cs best.below.charpos) = some (bothPos cs p) :=
        Buffer.countChars_up h.chars h.valid hbelow.one_le hpbelow (.inl hz') hside hgo hstops.stop.1 (by
          have := hbelow.one_le
          omega)
      rw [if_pos hcloser, hbelow.eq_bothPos, hcount, Option.map_some, Option.bind_some, if_pos hge]
      exact ⟨_, rfl, hkeep _, rfl⟩
    · have hside : b.buffer.gpt ≤ bytePos cs p ∨ bytePos cs best.above.charpos ≤ b.buffer.gpt := by
        rw [hgpt]
        exact hgap.imp (fun hle => bytePos_le_of_le (hle.trans hpbelow)) bytePos_le_of_le
      have hgo (q : ℤ) (hlt : p < q) (hq : q ≤ best.above.charpos) : goesDown (key (bothPos cs q)) = true :=
        hstops.down _ ((hk.lt_iff hp (exact_bothPos (h1.trans hlt.le) (hq.trans habove.le_end))).mpr hlt)
      have hcount : Buffer.countChars (b.buffer.decBytebpos firstp) (-1) (fun p => goesDown (key p))
          (b.buffer.z.toNat + 1) (bothPos cs best.above.charpos) = some (bothPos cs p) :=
        Buffer.countChars_down h.chars h.valid h1 hpabove habove.le_end hside hgo hstops.stop.2 (by
          have := habove.le_end
          omega)
      rw [if_neg hcloser, habove.eq_bothPos, hcount, Option.map_some, Option.bind_some, if_pos hge]
      exact ⟨_, rfl, hkeep _, rfl⟩

theorem Knows.charbposToBytebposFunc (h : b.Knows firstp cs) (hmixed : b.buffer.bufz ≠ b.buffer.z) (h1 : 1 ≤ p)
    (hz : p ≤ 1 + cs.length) : ∃ b', b.charbposToBytebposFunc firstp p = some (b', bytePos cs p) ∧
      b'.Knows firstp cs ∧ b'.buffer = b.buffer := by
  refine h.convert (.inl ⟨rfl, rfl⟩) hmixed h1 hz ⟨fun y hy => ?_, fun y hy => ?_, ?_⟩
  · exact decide_eq_true hy.ne
  · exact decide_eq_true hy.ne'
  · exact ⟨decide_eq_false (not_not.mpr rfl), decide_eq_false (not_not.mpr rfl)⟩

theorem Knows.bytebposToCharbposFunc (h : b.Knows firstp cs) (hmixed : b.buffer.bufz ≠ b.buffer.z) (h1 : 1 ≤ p)
    (hz : p ≤ 1 + cs.length) : ∃ b', b.bytebposToCharbposFunc firstp (bytePos cs p) = some (b', p) ∧
      b'.Knows firstp cs ∧ b'.buffer = b.buffer := by
  refine h.convert (.inr ⟨rfl, rfl⟩) hmixed h1 hz ⟨fun y hy => ?_, fun y hy => ?_, ?_⟩
  · exact decide_eq_true hy
  · exact decide_eq_true hy
  · exact ⟨decide_eq_false (lt_irrefl _), decide_eq_false (lt_irrefl _)⟩

theorem Knows.bytePos_eq (h : b.Knows firstp cs) (hsame : b.buffer.bufz = b.buffer.z) (h1 : 1 ≤ p)
    (hz : p ≤ 1 + cs.length) : bytePos cs p = p := by
  have hend : (1 + cs.length : ℤ) - 1 = bytePos cs (1 + cs.length) - bytePos cs 1 := by
    rw [← h.chars.z, ← hsame, h.bufz, bytePos_one]
  have hsub := bytePos_sub_eq le_rfl h1 hz le_rfl hend
  rw [bytePos_one] at hsub
  omega

theorem Knows.charbposToBytebpos (h : b.Knows firstp cs) (h1 : 1 ≤ p) (hz : p ≤ 1 + cs.length) :
    ∃ b', b.charbposToBytebpos firstp p = some (b', bytePos cs p) ∧ b'.Knows firstp cs ∧
      b'.buffer = b.buffer := by
  rw [MuleBuffer.charbposToBytebpos, h.oneByte]
  by_cases hsame : b.buffer.bufz = b.buffer.z
  · rw [if_pos (decide_eq_true hsame)]
    exact ⟨b, by rw [h.bytePos_eq hsame h1 hz], h, rfl⟩
  · rw [if_neg (by simpa using hsame)]
    exact h.charbposToBytebposFunc hsame h1 hz

theorem Knows.bytebposToCharbpos (h : b.Knows firstp cs) (h1 : 1 ≤ p) (hz : p ≤ 1 + cs.length) :
    ∃ b', b.bytebposToCharbpos firstp (bytePos cs p) = some (b', p) ∧ b'.Knows firstp cs ∧
      b'.buffer = b.buffer := by
  rw [MuleBuffer.bytebposToCharbpos, h.oneByte]
  by_cases hsame : b.buffer.bufz = b.buffer.z
  · rw [if_pos (decide_eq_true hsame)]
    exact ⟨b, by rw [h.bytePos_eq hsame h1 hz], h, rfl⟩
  · rw [if_neg (by simpa using hsame)]
    exact h.bytebposToCharbposFunc hsame h1 hz

end MuleBuffer

end XEmacs.Text
