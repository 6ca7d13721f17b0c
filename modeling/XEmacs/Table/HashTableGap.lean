import XEmacs.Lib.ProbingGap
import XEmacs.Table.HashTableMap

/-! Which slots `remhash_1` leaves alone: how far the slot of the removed entry moves among the
entries that are entered again. -/

namespace XEmacs.Table

open Lib Lib.Probing HashTable

variable {K V : Type*} [DecidableEq K] {home : K → ℕ} {probe fuel : ℕ} {g h k : ℤ}
  {l l₀ l' : List (Option (Htentry K V))} {r : Htentry K V → Htentry K V → Prop}

/-- `P` of the entries and the gap survives every move that the loop makes. -/
def KeptByMoves (home : K → ℕ) (P : List (Option (Htentry K V)) → ℤ → Prop) : Prop :=
  ∀ l g k e h, Gap l (fun e => (home e.key : ℤ)) g k → k < g + l.length → slot l k = some e →
    h % l.length = (home e.key : ℤ) % l.length → Stops l (fun e' => e'.key = e.key) h g → P l g →
    P (setSlot (setSlot l g (some e)) k none) k

theorem rehomeLoop_gap {P : List (Option (Htentry K V)) → ℤ → Prop} (hP : KeptByMoves home P)
    (hsame : ∀ e e' : Htentry K V, e.key = e'.key → r e e') (hhome : ∀ key, home key < l.length)
    (hgap : Gap l (fun e => (home e.key : ℤ)) g k) (ha : Apart l r) (hp : probe ≤ l.length)
    (hk : (probe : ℤ) % l.length = k % l.length) (hPl : P l g) (hloop : rehomeLoop home fuel l probe = some l') :
    Reached l' (fun e => (home e.key : ℤ)) ∧ Apart l' r ∧ ∃ g, P l' g := by
  induction fuel generalizing l probe k g with
  | zero => cases hloop
  | succ fuel ih =>
    have hlt := hgap.lt
    have hle := hgap.le
    have hl : 0 < l.length := by omega
    have hslot : slot l probe = slot l k := slot_congr hk
    cases he : slot l k with
    | none =>
      rw [rehomeLoop_clear hl hp (hslot.trans he)] at hloop
      obtain rfl := Option.some.inj hloop
      exact ⟨hgap.done he hl, ha, g, hPl⟩
    | some e =>
      have hkg : k < g + l.length := by
        refine lt_of_le_of_ne hle ?_
        rintro rfl
        rw [slot_congr (Int.add_emod_right (a := g) (b := (l.length : ℤ))), hgap.clear] at he
        contradiction
      have hwrap := wrapProbe_lt hl hp
      have hnext : ((wrapProbe l.length probe + 1 : ℕ) : ℤ) % l.length = (k + 1) % l.length := by
        push_cast
        exact shift_emod ((wrapProbe_emod _ _).trans hk)
      obtain ⟨y, hs, -⟩ := exists_stops (fun e' => e'.key = e.key) hgap.clear hl (home e.key)
      rw [rehomeLoop_succ hp (hslot.trans he) hhome hgap.clear hs] at hloop
      by_cases hy : slot l y = none
      · have hyg := hgap.search (p := fun e' => e'.key = e.key) hkg he rfl rfl hs hy
        have hset : setSlot (setSlot l y (some e)) probe none = setSlot (setSlot l g (some e)) k none := by
          simp only [setSlot, List.length_set, hyg, hk]
        have hlen : (setSlot (setSlot l g (some e)) k none).length = l.length := by
          rw [length_setSlot, length_setSlot]
        -- the search that ends at the gap itself
        have hh := sub_emod hyg (home e.key)
        have hsg := hs.shift hh
        rw [show y + (home e.key - (y - g) - home e.key) = g by omega] at hsg
        rw [if_pos hy, hset] at hloop
        exact ih (by rw [hlen]; exact hhome) (hgap.move hkg he hh hsg) (ha.move he)
          (show wrapProbe l.length probe + 1 ≤ _ by rw [hlen]; omega) (by rw [hlen]; exact hnext)
          (hP l g k e _ hgap hkg he hh hsg hPl) hloop
      · obtain ⟨e', he'⟩ := Option.ne_none_iff_exists'.mp hy
        have hslots := ha y k e' e he' he (hsame e' e (hs.stop e' he'))
        have hh := sub_emod hslots (home e.key)
        have hsk := hs.shift hh
        rw [show y + (home e.key - (y - k) - home e.key) = k by omega] at hsk
        rw [if_neg hy] at hloop
        exact ih hhome (hgap.stay hkg he hh hsk) ha (by omega) hnext hPl hloop

omit [DecidableEq K] in
theorem KeptByMoves.and {P Q : List (Option (Htentry K V)) → ℤ → Prop} (hP : KeptByMoves home P)
    (hQ : KeptByMoves home Q) : KeptByMoves home fun l g => P l g ∧ Q l g :=
  fun l g k e h hgap hk he hh hs hl => ⟨hP l g k e h hgap hk he hh hs hl.1, hQ l g k e h hgap hk he hh hs hl.2⟩

omit [DecidableEq K] in
theorem keptByMoves_mem (l₀ : List (Option (Htentry K V))) :
    KeptByMoves home fun l _ => ∀ e, some e ∈ l ↔ some e ∈ l₀ := by
  intro l g k e h hgap hk he _ _ hP e'
  have hl := (slot_some_lt he).1
  have hl' : 0 < (setSlot l g (some e)).length := by rw [length_setSlot]; exact hl
  have hgk : g % l.length ≠ k % l.length := by
    have hlt := hgap.lt
    exact emod_ne (by omega) (by omega) (by omega)
  rw [← hP e', mem_iff_slot, mem_iff_slot]
  constructor
  · rintro ⟨x, hx⟩
    rw [slot_setSlot hl', length_setSlot, slot_setSlot hl] at hx
    split_ifs at hx
    · exact ⟨k, he.trans hx⟩
    · exact ⟨x, hx⟩
  · rintro ⟨x, hx⟩
    by_cases hxk : x % l.length = k % l.length
    · rw [slot_congr hxk, he] at hx
      refine ⟨g, ?_⟩
      rw [slot_setSlot_of_ne hl' (by rw [length_setSlot]; exact hgk), slot_setSlot_same hl rfl, hx]
    · refine ⟨x, ?_⟩
      rw [slot_setSlot_of_ne hl' (by rw [length_setSlot]; exact hxk), slot_setSlot_of_ne hl, hx]
      intro hxg
      rw [slot_congr hxg, hgap.clear] at hx
      contradiction

namespace HashTable

variable {M : KeyMethods K} {ht : HashTable K V} {e : Htentry K V} {i : ℕ}

theorem remhash1_gap {P : List (Option (Htentry K V)) → ℤ → Prop} (hP : KeptByMoves (ht.home M ht.test) P)
    (hsame : ∀ e e' : Htentry K V, e.key = e'.key → r e e') (hlen : ht.hentries.length = ht.size)
    (hr : Reached ht.hentries (fun e => (ht.home M ht.test e.key : ℤ))) (ha : Apart ht.hentries r)
    (hi : i < ht.size) (he : slot ht.hentries i = some e) (hPl : P (setSlot ht.hentries i none) i) :
    ∃ l, ht.remhash1 M i = some { ht with hentries := l, count := ht.count - 1 } ∧ l.length = ht.size ∧
      Reached l (fun e => (ht.home M ht.test e.key : ℤ)) ∧ Apart l r ∧ occupied l + 1 = occupied ht.hentries ∧
      (∀ e', some e' ∈ l ↔ some e' ∈ setSlot ht.hentries i none) ∧ ∃ g, P l g := by
  have hlen' : (setSlot ht.hentries i none).length = ht.size := by rw [length_setSlot, hlen]
  have hmod : ((i : ℤ) % ht.hentries.length).toNat = i := by
    rw [Int.emod_eq_of_lt (by omega) (by omega), Int.toNat_natCast]
  obtain ⟨l, hl, hll, hocc⟩ := remhash1_ends M hlen he
  rw [hmod] at hl
  have hset : ht.hentries.set i none = setSlot ht.hentries i none := by rw [setSlot, hmod]
  have hloop := hl
  rw [remhash1, hset] at hloop
  obtain ⟨l', hl', heq⟩ := Option.map_eq_some_iff.mp hloop
  have hll' : l' = l := congrArg hentries heq
  rw [hll'] at hl'
  obtain ⟨hr', ha', g, hg, hmem⟩ := rehomeLoop_gap (hP.and (keptByMoves_mem _)) hsame (by rw [hlen']; exact home_lt M ht.test (by omega))
    (hr.gap he) ha.setSlot_none (show i + 1 ≤ _ by rw [hlen']; omega) (by push_cast; rfl) ⟨hPl, fun _ => Iff.rfl⟩ hl'
  exact ⟨l, hl, hll, hr', ha', hocc, hmem, g, hg⟩

/-- The search for an entry in the slot that `y` stands for passes `g`, a slot before it. -/
def ProbesOver (M : KeyMethods K) (ht : HashTable K V) (g y : ℤ) (e : Htentry K V) : Prop :=
  y - g ≤ (y - ht.home M ht.test e.key) % ht.size

instance (M : KeyMethods K) (ht : HashTable K V) (g y : ℤ) (e : Htentry K V) : Decidable (ProbesOver M ht g y e) :=
  inferInstanceAs (Decidable (_ ≤ _))

omit [DecidableEq K] in
theorem probesOver_of_stops {x : ℤ} (hlen : l.length = ht.size)
    (hh : h % l.length = (ht.home M ht.test e.key : ℤ) % l.length) (hs : Stops l (fun e' => e'.key = e.key) h g)
    (hgx : g < x) (hxg : x < g + l.length) (he : slot l x = some e) : ProbesOver M ht g x e := by
  have hle := hs.le
  have hlow : x - l.length < h := by
    by_contra hhx
    have hfound := hs.le_of_found (j := x - l.length) (by omega)
      (by rw [slot_congr (Int.sub_emod_right (a := x) (b := (l.length : ℤ))), he]) rfl
    omega
  rw [ProbesOver, ← hlen, Int.sub_emod, ← hh, ← Int.sub_emod, Int.emod_eq_of_lt (by omega) (by omega)]
  omega

/-- The gap that an entry removed from slot `i` leaves does not get past slot `g`. -/
def GapStopsAt (M : KeyMethods K) (ht : HashTable K V) (i g : ℕ) : Prop :=
  ∀ y ∈ List.range (i + ht.size), g < y → ∀ e ∈ slot ht.hentries y, ¬ ProbesOver M ht g y e

/-- Among the entries behind the one in slot `i`, only the last that there is in the turn is found past it. -/
def LastAloneOver (M : KeyMethods K) (ht : HashTable K V) (i : ℕ) : Prop :=
  ∀ y ∈ List.range (i + ht.size), i < y → ∀ e ∈ slot ht.hentries y, ProbesOver M ht i y e →
    ht.size ≤ y ∧ ∀ x ∈ List.range (i + ht.size), y < x → slot ht.hentries x = none

instance (M : KeyMethods K) (ht : HashTable K V) (i g : ℕ) : Decidable (GapStopsAt M ht i g) :=
  inferInstanceAs (Decidable (∀ y ∈ List.range (i + ht.size), g < y → ∀ e ∈ slot ht.hentries y, _))

instance (M : KeyMethods K) (ht : HashTable K V) (i : ℕ) : Decidable (LastAloneOver M ht i) :=
  inferInstanceAs (Decidable (∀ y ∈ List.range (i + ht.size), i < y → ∀ e ∈ slot ht.hentries y, _ → _))

/-- What `KeptByMoves` is used with: the slots from `g` on are as they were. -/
structure SameFrom (l₀ : List (Option (Htentry K V))) (i g : ℕ) (l : List (Option (Htentry K V))) (gap : ℤ) : Prop where
  length : l.length = l₀.length
  gap : ∃ y : ℤ, i ≤ y ∧ y ≤ g ∧ gap % l.length = y % l.length
  same : ∀ x : ℤ, g < x → x < i + l.length → slot l x = slot l₀ x

omit [DecidableEq K] in
theorem keptByMoves_sameFrom {g : ℕ} (hlen : ht.hentries.length = ht.size) (hstop : GapStopsAt M ht i g) : KeptByMoves (ht.home M ht.test) (SameFrom ht.hentries i g) := by
  intro l gap k e h hgap hk he hh hs hP
  have hl := (slot_some_lt he).1
  have hln := hP.length.trans hlen
  have hl' : 0 < (setSlot l gap (some e)).length := by rw [length_setSlot]; exact hl
  obtain ⟨y, hiy, hyg, hgy⟩ := hP.gap
  obtain ⟨x, hix, hxn, hxk⟩ := exists_position (n := l.length) (by omega) i k
  have hex : slot l x = some e := by rw [slot_congr hxk, he]
  -- an entry past `g` does not move
  have hxg : x ≤ g := by
    by_contra hgx
    have hs' := hs.shift (sub_emod hgy h)
    rw [show gap + (h - (gap - y) - h) = y by omega] at hs'
    have hover := probesOver_of_stops hln ((sub_emod hgy h).trans hh) hs' (by omega) (by omega) hex
    have hmem := hP.same x (by omega) hxn
    rw [hex] at hmem
    have hnot := hstop x.toNat (List.mem_range.mpr (by omega)) (by omega) e
      (by rw [Int.toNat_of_nonneg (by omega)]; exact hmem.symm)
    rw [Int.toNat_of_nonneg (by omega)] at hnot
    exact hnot (show (x - g : ℤ) ≤ _ from le_trans (by omega) hover)
  refine ⟨by rw [length_setSlot, length_setSlot, hP.length], ⟨x, hix, hxg, ?_⟩, fun z hgz hzn => ?_⟩
  · rw [length_setSlot, length_setSlot, hxk]
  · rw [length_setSlot, length_setSlot] at hzn
    rw [slot_setSlot_of_ne hl', slot_setSlot_of_ne hl, hP.same z hgz hzn]
    · rw [hgy]
      exact emod_ne (by omega) (by omega) (by omega)
    · rw [length_setSlot, ← hxk]
      exact emod_ne (by omega) (by omega) (by omega)

/-- What `KeptByMoves` is used with: an entry at `y` has moved to slot `i`, the others after `i` have not. -/
structure MovedFrom (M : KeyMethods K) (ht : HashTable K V) (i : ℕ) (l : List (Option (Htentry K V))) (gap y : ℤ)
    (e : Htentry K V) : Prop where
  lt : i < y
  turn : y < i + l.length
  was : slot ht.hentries y = some e
  passes : ProbesOver M ht i y e
  gap : gap % l.length = y % l.length
  clear : slot l y = none
  moved : slot l i = some e
  same : ∀ x : ℤ, i < x → x < i + l.length → x ≠ y → slot l x = slot ht.hentries x

def AtMostOneMoved (M : KeyMethods K) (ht : HashTable K V) (i : ℕ) (l : List (Option (Htentry K V))) (gap : ℤ) :
    Prop :=
  SameFrom ht.hentries i i l gap ∨ l.length = ht.hentries.length ∧ ∃ y e, MovedFrom M ht i l gap y e

theorem emod_sub_of_le {n a d : ℤ} (hn : 0 < n) (hd : 0 ≤ d) (hle : d ≤ a % n) : (a - d) % n = a % n - d := by
  have hlt := Int.emod_lt_of_pos a hn
  have hsplit : a - d = a % n - d + n * (a / n) := by
    have := Int.emod_add_mul_ediv a n
    omega
  rw [hsplit, Int.add_mul_emod_self_left, Int.emod_eq_of_lt (by omega) (by omega)]

omit [DecidableEq K] in
theorem LastAloneOver.clear {y : ℤ} (hlast : LastAloneOver M ht i) (hiy : i < y) (hyn : y < i + ht.size)
    (he : slot ht.hentries y = some e) (hover : ProbesOver M ht i y e) :
    ht.size ≤ y ∧ ∀ x : ℤ, y < x → x < i + ht.size → slot ht.hentries x = none := by
  have hcast : ∀ z : ℤ, i < z → ((z.toNat : ℕ) : ℤ) = z := fun z hz => Int.toNat_of_nonneg (by omega)
  have hlast' := hlast y.toNat (List.mem_range.mpr (by omega)) (by omega) e (by rw [hcast y hiy]; exact he)
    (by rw [hcast y hiy]; exact hover)
  refine ⟨by omega, fun x hyx hxn => ?_⟩
  have hclear := hlast'.2 x.toNat (List.mem_range.mpr (by omega)) (by omega)
  rwa [hcast x (by omega)] at hclear

omit [DecidableEq K] in
theorem keptByMoves_atMostOneMoved (hlen : ht.hentries.length = ht.size) (hlast : LastAloneOver M ht i) :
    KeptByMoves (ht.home M ht.test) (AtMostOneMoved M ht i) := by
  intro l gap k e h hgap hk he hh hs hP
  have hl := (slot_some_lt he).1
  have hl' : 0 < (setSlot l gap (some e)).length := by rw [length_setSlot]; exact hl
  obtain ⟨x, hix, hxn, hxk⟩ := exists_position (n := l.length) (by omega) i k
  have hex : slot l x = some e := by rw [slot_congr hxk, he]
  -- the search that ends at another position of the gap
  have hsearch : ∀ y, l.length = ht.size → gap % l.length = y % l.length → y < x → x < y + l.length →
      ProbesOver M ht y x e := by
    intro y hln hgy hyx hxy
    have hs' := hs.shift (sub_emod hgy h)
    rw [show gap + (h - (gap - y) - h) = y by omega] at hs'
    exact probesOver_of_stops hln ((sub_emod hgy h).trans hh) hs' hyx hxy hex
  have hclear : ∀ y, gap % l.length = y % l.length → x ≠ y := by
    rintro y hgy rfl
    rw [← slot_congr hgy, hgap.clear] at hex
    contradiction
  rcases hP with hsame | ⟨hlen', y, e', hmoved⟩
  · obtain ⟨y, hiy, hyi, hgy⟩ := hsame.gap
    obtain rfl : y = i := by omega
    have hix' : (i : ℤ) < x := lt_of_le_of_ne hix (hclear i hgy).symm
    refine Or.inr ⟨by rw [length_setSlot, length_setSlot, hsame.length], x, e, hix', ?_, ?_, ?_, ?_, ?_, ?_, ?_⟩
    · rwa [length_setSlot, length_setSlot]
    · rw [← hsame.same x hix' hxn, hex]
    · exact hsearch i (hsame.length.trans hlen) hgy hix' (by omega)
    · rw [length_setSlot, length_setSlot, hxk]
    · exact slot_setSlot_same hl' (by rw [length_setSlot, hxk])
    · rw [slot_setSlot_of_ne hl', slot_setSlot_same hl hgy.symm]
      rw [length_setSlot, ← hxk]
      exact emod_ne (by omega) (by omega) (by omega)
    · rw [length_setSlot, length_setSlot]
      intro z hiz hzn hzx
      rw [slot_setSlot_of_ne hl', slot_setSlot_of_ne hl, hsame.same z hiz hzn]
      · rw [hgy]
        exact emod_ne (by omega) (by omega) (by omega)
      · rw [length_setSlot, ← hxk]
        exact emod_ne hzx (by omega) (by omega)
  · -- nothing passes the slot that the entry has moved from
    exfalso
    have hln := hlen'.trans hlen
    have hlt := hmoved.lt
    have hturn := hmoved.turn
    have hgy : gap % l.length = (y - l.length) % l.length := by rw [Int.sub_emod_right, hmoved.gap]
    have hover := hmoved.passes
    have hxy := hclear y hmoved.gap
    rcases lt_or_ge y x with hyx | hxy'
    · have hnone := (hlast.clear hlt (hln ▸ hturn) hmoved.was hover).2 x hyx (hln ▸ hxn)
      rw [hmoved.same x (by omega) hxn hxy, hnone] at hex
      contradiction
    · have hpast := hsearch (y - l.length) hln hgy (by omega) (by omega)
      rw [ProbesOver] at hpast hover
      rcases eq_or_lt_of_le hix with rfl | hix'
      · obtain rfl : e' = e := Option.some.inj (hmoved.moved.symm.trans hex)
        have hback := emod_sub_of_le (n := ht.size) (a := y - ht.home M ht.test e'.key) (d := y - i) (by omega) (by omega) hover
        rw [show y - ht.home M ht.test e'.key - (y - i) = i - ht.home M ht.test e'.key by omega] at hback
        have hsmall := Int.emod_lt_of_pos (y - ht.home M ht.test e'.key) (show (0 : ℤ) < ht.size by omega)
        omega
      · have hwas := hex
        rw [hmoved.same x hix' hxn hxy] at hwas
        have hnone := (hlast.clear hix' (hln ▸ hxn) hwas (show x - i ≤ _ by omega)).2 y (by omega) (hln ▸ hturn)
        rw [hmoved.was] at hnone
        contradiction

/-- The removal of the entry in slot `i` leaves the slots before it alone, but that the last entry
before it may move to its slot. -/
def Undisturbed (M : KeyMethods K) (ht : HashTable K V) (i : ℕ) : Prop :=
  (∃ g ∈ List.range ht.size, i ≤ g ∧ GapStopsAt M ht i g) ∨ LastAloneOver M ht i

instance (M : KeyMethods K) (ht : HashTable K V) (i : ℕ) : Decidable (Undisturbed M ht i) :=
  inferInstanceAs (Decidable ((∃ g ∈ List.range ht.size, i ≤ g ∧ GapStopsAt M ht i g) ∨ LastAloneOver M ht i))

/-- What is in the slots before `i` of `l₀` is so in `l`, or the last entry of them is in slot `i`. -/
def KeptBefore (l₀ l : List (Option (Htentry K V))) (i : ℕ) : Prop :=
  (∀ x : ℕ, x < i → slot l x = slot l₀ x) ∨
    ∃ (j : ℕ) (e : Htentry K V), j < i ∧ slot l₀ j = some e ∧ slot l i = some e ∧ slot l j = none ∧
      (∀ x : ℕ, x < i → x ≠ j → slot l x = slot l₀ x) ∧ ∀ x : ℕ, j < x → x < i → slot l₀ x = none

theorem remhash1_undisturbed (hsame : ∀ e e' : Htentry K V, e.key = e'.key → r e e')
    (hlen : ht.hentries.length = ht.size) (hr : Reached ht.hentries (fun e => (ht.home M ht.test e.key : ℤ)))
    (ha : Apart ht.hentries r) (hi : i < ht.size) (he : slot ht.hentries i = some e) (hund : Undisturbed M ht i) :
    ∃ l, ht.remhash1 M i = some { ht with hentries := l, count := ht.count - 1 } ∧ l.length = ht.size ∧
      KeptBefore ht.hentries l i := by
  have hl := (slot_some_lt he).1
  have hlen' : (setSlot ht.hentries i none).length = ht.hentries.length := length_setSlot
  have hstart : ∀ g : ℕ, i ≤ g → SameFrom ht.hentries i g (setSlot ht.hentries i none) i := by
    intro g hig
    refine ⟨hlen', ⟨i, le_refl _, by omega, rfl⟩, fun x hgx hxn => slot_setSlot_of_ne hl ?_⟩
    exact emod_ne (by omega) (by omega) (by omega)
  have hturn : ∀ (l : List (Option (Htentry K V))) (x : ℕ), slot l (x + l.length : ℤ) = slot l x := fun l x =>
    slot_congr (Int.add_emod_right (a := (x : ℤ)) (b := (l.length : ℤ)))
  rcases hund with ⟨g, hg, hig, hstop⟩ | hlast
  · obtain ⟨l, hl', hll, -, -, -, -, gap, hP⟩ :=
      remhash1_gap (keptByMoves_sameFrom hlen hstop) hsame hlen hr ha hi he (hstart g hig)
    refine ⟨l, hl', hll, Or.inl fun x hxi => ?_⟩
    have hgn := List.mem_range.mp hg
    have hx := hP.same (x + l.length) (by omega) (by omega)
    rwa [hturn, hP.length, hturn] at hx
  · obtain ⟨l, hl', hll, -, -, -, -, gap, hP⟩ :=
      remhash1_gap (keptByMoves_atMostOneMoved hlen hlast) hsame hlen hr ha hi he (Or.inl (hstart i (le_refl i)))
    refine ⟨l, hl', hll, ?_⟩
    rcases hP with hP | ⟨hlen'', y, e', hmoved⟩
    · left
      intro x hxi
      have hx := hP.same (x + l.length) (by omega) (by omega)
      rwa [hturn, hP.length, hturn] at hx
    · obtain ⟨hny, hclear⟩ := hlast.clear hmoved.lt (by rw [← hlen, ← hlen'']; exact hmoved.turn) hmoved.was hmoved.passes
      have hyn := hmoved.turn
      -- the slot that the last entry has moved from
      obtain ⟨j, rfl⟩ : ∃ j : ℕ, y = j + l.length := ⟨(y - l.length).toNat, by omega⟩
      refine Or.inr ⟨j, e', by omega, ?_, hmoved.moved, ?_, fun x hxi hxj => ?_, fun x hjx hxi => ?_⟩
      · rw [← hturn, ← hlen'']
        exact hmoved.was
      · rw [← hturn]
        exact hmoved.clear
      · have hx := hmoved.same (x + l.length) (by omega) (by omega) (by omega)
        rwa [hturn, hlen'', hturn] at hx
      · have hx := hclear (x + l.length) (by omega) (by omega)
        rwa [hlen'', hturn] at hx

end HashTable

end XEmacs.Table
