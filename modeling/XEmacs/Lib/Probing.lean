import Mathlib.Tactic.Common
import Mathlib.Data.Int.ModEq
import Mathlib.Data.List.Basic
import Mathlib.Algebra.Order.Ring.Int
import Mathlib.Algebra.BigOperators.Group.Finset.Basic
import Mathlib.Algebra.Order.BigOperators.Group.Finset

/-! Linear probing in an array read around its end: positions are integers and stand for slots
modulo the length. Entries are *reached* where no clear slot lies between an entry's home and
its slot. A search stops at the first slot that is clear or meets a condition. Deletion without
tombstones clears a slot and enters the rest of its cluster again, in order. -/

namespace XEmacs.Lib.Probing

variable {E : Type*} {l : List (Option E)} {home : E → ℤ} {p : E → Prop} {e e' : E} {v : Option E}
  {h i j k m : ℤ}

/-- The slot that position `k` stands for. -/
def slot (l : List (Option E)) (k : ℤ) : Option E := l[(k % l.length).toNat]?.join

def setSlot (l : List (Option E)) (k : ℤ) (v : Option E) : List (Option E) :=
  l.set (k % l.length).toNat v

@[simp] theorem length_setSlot : (setSlot l k v).length = l.length := List.length_set

theorem slot_congr (hjk : j % l.length = k % l.length) : slot l j = slot l k := by
  rw [slot, slot, hjk]

theorem slot_of_lt {i : ℕ} (hi : i < l.length) : slot l i = l[i] := by
  have hmod : ((i : ℤ) % l.length).toNat = i := by
    rw [Int.emod_eq_of_lt (by omega) (by omega), Int.toNat_natCast]
  rw [slot, hmod, List.getElem?_eq_getElem hi, Option.join_some]

theorem slot_some_lt (hk : slot l k = some e) : 0 < l.length ∧ (k % l.length).toNat < l.length := by
  have hget : l[(k % l.length).toNat]? = some (some e) := Option.join_eq_some_iff.mp hk
  have hlt := (List.getElem?_eq_some_iff.mp hget).1
  exact ⟨by omega, hlt⟩

theorem slot_setSlot (hl : 0 < l.length) :
    slot (setSlot l k v) j = if j % l.length = k % l.length then v else slot l j := by
  have hn : (l.length : ℤ) ≠ 0 := by omega
  have hk := Int.emod_nonneg k hn
  have hj := Int.emod_nonneg j hn
  have hlt := Int.emod_lt_of_pos k (show (0 : ℤ) < l.length by omega)
  rw [slot, length_setSlot, setSlot, List.getElem?_set]
  by_cases hjk : j % l.length = k % l.length
  · rw [if_pos hjk, if_pos (by omega), if_pos (by omega), Option.join_some]
  · rw [if_neg hjk, if_neg (by omega), slot]

theorem slot_setSlot_same (hl : 0 < l.length) (hjk : j % l.length = k % l.length) :
    slot (setSlot l k v) j = v := by
  rw [slot_setSlot hl, if_pos hjk]

theorem slot_setSlot_of_ne (hl : 0 < l.length) (hjk : j % l.length ≠ k % l.length) :
    slot (setSlot l k v) j = slot l j := by
  rw [slot_setSlot hl, if_neg hjk]

theorem eq_of_emod_eq {n : ℤ} (hjk : j % n = k % n) (hlt : j < k + n) (hgt : k < j + n) : j = k := by
  have hdvd : n ∣ j - k := Int.ModEq.dvd (Int.ModEq.symm hjk)
  obtain ⟨c, hc⟩ := hdvd
  have hc0 : c = 0 := by
    rcases lt_trichotomy c 0 with hneg | hzero | hpos
    · have : n * c ≤ n * (-1) := Int.mul_le_mul_of_nonneg_left (by omega) (by omega)
      omega
    · exact hzero
    · have : n * 1 ≤ n * c := Int.mul_le_mul_of_nonneg_left (by omega) (by omega)
      omega
  rw [hc0] at hc
  omega

theorem emod_ne {n : ℤ} (hne : j ≠ k) (hlt : j < k + n) (hgt : k < j + n) : j % n ≠ k % n :=
  fun heq => hne (eq_of_emod_eq heq hlt hgt)

theorem shift_emod {n x y d : ℤ} (hxy : x % n = y % n) : (x + d) % n = (y + d) % n :=
  Int.ModEq.add_right d hxy

/-- A search from `h` that leaves at an entry that `p` holds of, or at a clear slot, ends at `k`. -/
structure Stops (l : List (Option E)) (p : E → Prop) (h k : ℤ) : Prop where
  le : h ≤ k
  passed : ∀ j, h ≤ j → j < k → ∃ e, slot l j = some e ∧ ¬ p e
  stop : ∀ e, slot l k = some e → p e

theorem Stops.occupied (hs : Stops l p h k) (hj : h ≤ j) (hlt : j < k) : slot l j ≠ none := by
  obtain ⟨e, he, -⟩ := hs.passed j hj hlt
  rw [he]
  exact Option.some_ne_none e

theorem Stops.le_of_clear (hs : Stops l p h k) (hj : h ≤ j) (hclear : slot l j = none) : k ≤ j := by
  by_contra hlt
  exact hs.occupied hj (by omega) hclear

theorem Stops.le_of_found (hs : Stops l p h k) (hj : h ≤ j) (he : slot l j = some e) (hp : p e) :
    k ≤ j := by
  by_contra hlt
  obtain ⟨e', he', hne⟩ := hs.passed j hj (by omega)
  rw [he] at he'
  exact hne (Option.some.inj he' ▸ hp)

theorem Stops.unique (hs : Stops l p h k) (hs' : Stops l p h m) : k = m := by
  have key : ∀ {a b : ℤ}, Stops l p h a → Stops l p h b → a ≤ b := by
    intro a b ha hb
    cases hslot : slot l b with
    | none => exact ha.le_of_clear hb.le hslot
    | some e => exact ha.le_of_found hb.le hslot (hb.stop e hslot)
  exact le_antisymm (key hs hs') (key hs' hs)

/-- A search ends where it would leave at the latest. -/
theorem exists_stops_of_end (p : E → Prop) (d : ℕ) (hend : ∀ e, slot l (h + d) = some e → p e) :
    ∃ k, Stops l p h k ∧ k ≤ h + d := by
  induction d generalizing h with
  | zero =>
    rw [Nat.cast_zero, add_zero] at hend
    exact ⟨h, ⟨le_refl h, fun j hj hlt => absurd hj (by omega), hend⟩, by omega⟩
  | succ d ih =>
    by_cases hstop : ∀ e, slot l h = some e → p e
    · exact ⟨h, ⟨le_refl h, fun j hj hlt => absurd hj (by omega), hstop⟩, by omega⟩
    · push Not at hstop
      obtain ⟨e, he, hne⟩ := hstop
      have hpos : h + ((d + 1 : ℕ) : ℤ) = h + 1 + d := by push_cast; omega
      obtain ⟨k, hk, hle⟩ := ih (h := h + 1) (by rw [← hpos]; exact hend)
      have hlek := hk.le
      refine ⟨k, ⟨by omega, fun j hj hlt => ?_, hk.stop⟩, by push_cast; omega⟩
      rcases eq_or_lt_of_le hj with rfl | hj
      · exact ⟨e, he, hne⟩
      · exact hk.passed j (by omega) hlt

theorem exists_stops_le (p : E → Prop) (d : ℕ) (hclear : slot l (h + d) = none) :
    ∃ k, Stops l p h k ∧ k ≤ h + d :=
  exists_stops_of_end p d fun e he => by simp [hclear] at he

theorem Stops.shift {x : ℤ} (hs : Stops l p h k) (hx : x % l.length = h % l.length) :
    Stops l p x (k + (x - h)) := by
  have hmove : ∀ j, slot l (j + (x - h)) = slot l j := by
    intro j
    apply slot_congr
    have hshift := shift_emod (d := j - h) hx
    rw [show x + (j - h) = j + (x - h) by omega, show h + (j - h) = j by omega] at hshift
    exact hshift
  have hle := hs.le
  refine ⟨by omega, fun j hj hlt => ?_, fun e he => hs.stop e (by rw [← hmove, he])⟩
  obtain ⟨e, he, hne⟩ := hs.passed (j - (x - h)) (by omega) (by omega)
  exact ⟨e, by rw [← hmove, show j - (x - h) + (x - h) = j by omega] at he; exact he, hne⟩

theorem exists_position {n : ℤ} (hn : 0 < n) (h i : ℤ) : ∃ j, h ≤ j ∧ j < h + n ∧ j % n = i % n := by
  have hdist := Int.emod_nonneg (i - h) (show n ≠ 0 by omega)
  have hlt := Int.emod_lt_of_pos (i - h) hn
  refine ⟨h + (i - h) % n, by omega, by omega, ?_⟩
  rw [Int.add_emod_emod, show h + (i - h) = i by omega]

/-- Where there is a clear slot, every search ends before it has gone around. -/
theorem exists_stops (p : E → Prop) (hclear : slot l i = none) (hl : 0 < l.length) (h : ℤ) :
    ∃ k, Stops l p h k ∧ k < h + l.length := by
  obtain ⟨j, hj, hlt, hji⟩ := exists_position (show (0 : ℤ) < l.length by omega) h i
  have hslot : slot l (h + (j - h).toNat) = none := by
    rw [← hclear]
    apply slot_congr
    rw [show h + ((j - h).toNat : ℤ) = j by omega, hji]
  obtain ⟨k, hk, hle⟩ := exists_stops_le p (j - h).toNat hslot
  exact ⟨k, hk, by omega⟩

/-- From a home of the entry to its slot, no slot is clear. -/
def ReachedAt (l : List (Option E)) (home : E → ℤ) (e : E) (k : ℤ) : Prop :=
  ∃ h, h ≤ k ∧ h % l.length = home e % l.length ∧ ∀ j, h ≤ j → j < k → slot l j ≠ none

def Reached (l : List (Option E)) (home : E → ℤ) : Prop :=
  ∀ k e, slot l k = some e → ReachedAt l home e k

theorem Reached.found (hr : Reached l home) (he : slot l j = some e) (hp : p e)
    (hhome : h % l.length = home e % l.length) (hs : Stops l p h k) :
    ∃ e', slot l k = some e' ∧ p e' := by
  obtain ⟨x, hxj, hx, hpath⟩ := hr j e he
  -- the same search from the home that the path starts at
  have hs' := hs.shift (hx.trans hhome.symm)
  have hslot : slot l (k + (x - h)) = slot l k := by
    apply slot_congr
    have hshift := shift_emod (d := k - h) (hx.trans hhome.symm)
    rw [show x + (k - h) = k + (x - h) by omega, show h + (k - h) = k by omega] at hshift
    exact hshift
  have hle := hs'.le_of_found hxj he hp
  cases hk : slot l k with
  | some e' => exact ⟨e', rfl, hs.stop e' hk⟩
  | none =>
    rw [hk] at hslot
    rcases eq_or_lt_of_le hle with heq | hlt
    · rw [heq, he] at hslot
      contradiction
    · exact absurd hslot (hpath _ hs'.le hlt)

theorem slot_setSlot_ne_none (hl : 0 < l.length) (hj : slot l j ≠ none) :
    slot (setSlot l k (some e)) j ≠ none := by
  rw [slot_setSlot hl]
  split_ifs
  · exact Option.some_ne_none e
  · exact hj

theorem Reached.insert (hr : Reached l home) (hl : 0 < l.length)
    (hhome : h % l.length = home e % l.length) (hs : Stops l p h k) :
    Reached (setSlot l k (some e)) home := by
  intro j e' hj
  rw [slot_setSlot hl] at hj
  by_cases hjk : j % l.length = k % l.length
  · rw [if_pos hjk] at hj
    obtain rfl := Option.some.inj hj
    have hshift := shift_emod (d := h - k) hjk
    rw [show k + (h - k) = h by omega] at hshift
    refine ⟨h + (j - k), by have := hs.le; omega, ?_, fun x hx hlt => ?_⟩
    · rw [length_setSlot, show h + (j - k) = j + (h - k) by omega, hshift, hhome]
    · have hslot : slot l x = slot l (x - (j - k)) := by
        refine slot_congr ?_
        have hx' := shift_emod (d := x - j) hjk
        rw [show j + (x - j) = x by omega, show k + (x - j) = x - (j - k) by omega] at hx'
        exact hx'
      refine slot_setSlot_ne_none hl ?_
      rw [hslot]
      exact hs.occupied (by omega) (by omega)
  · rw [if_neg hjk] at hj
    obtain ⟨x, hxj, hx, hpath⟩ := hr j e' hj
    exact ⟨x, hxj, by rw [length_setSlot]; exact hx,
      fun y hy hlt => slot_setSlot_ne_none hl (hpath y hy hlt)⟩

theorem Reached.replace (hr : Reached l home) (hk : slot l k = some e) (hhome : home e' = home e) :
    Reached (setSlot l k (some e')) home := by
  have hl := (slot_some_lt hk).1
  intro j e₁ hj
  rw [slot_setSlot hl] at hj
  have hreached : ∃ e₂, slot l j = some e₂ ∧ home e₁ = home e₂ := by
    split_ifs at hj with hjk
    · exact ⟨e, by rw [slot_congr hjk, hk], by rw [← Option.some.inj hj, hhome]⟩
    · exact ⟨e₁, hj, rfl⟩
  obtain ⟨e₂, he₂, heq⟩ := hreached
  obtain ⟨x, hxj, hx, hpath⟩ := hr j e₂ he₂
  exact ⟨x, hxj, by rw [length_setSlot, heq]; exact hx, fun y hy hlt => slot_setSlot_ne_none hl (hpath y hy hlt)⟩

theorem slot_replicate (n : ℕ) : slot (List.replicate n (none : Option E)) k = none := by
  rw [slot, List.getElem?_replicate]
  split_ifs <;> rfl

theorem reached_replicate (n : ℕ) (home : E → ℤ) : Reached (List.replicate n none) home := by
  intro k e he
  rw [slot_replicate] at he
  contradiction

/-! ### Entering the rest of a cluster again -/

/-- The slot at `i` of `l₀` has been cleared, the positions from `i` to `k` have been entered again,
those from `k` to the clear slot `m` have not. -/
structure Rehoming (l₀ : List (Option E)) (home : E → ℤ) (i m k : ℤ) (l : List (Option E)) : Prop where
  length : l.length = l₀.length
  lt : i < k
  le : k ≤ m
  turn : m < i + l.length
  clear : slot l m = none
  filled : ∀ j, k ≤ j → j < m → slot l j ≠ none
  /-- the paths of the entries that are left to enter may have holes behind `k` -/
  reached : ∀ x e, i ≤ x → x < i + l.length → slot l x = some e →
    ∃ h, h ≤ x ∧ h % l.length = home e % l.length ∧
      ∀ j, h ≤ j → j < x → slot l j ≠ none ∨ (k ≤ x ∧ x < m ∧ i ≤ j ∧ j < k)
  /-- entries move back only -/
  back : ∀ x e, i ≤ x → x < i + l.length → slot l x = some e →
    ∃ y, x ≤ y ∧ i < y ∧ y < i + l.length ∧ slot l₀ y = some e
  kept : ∀ y e, i < y → y < i + l.length → slot l₀ y = some e → ∃ x, i ≤ x ∧ x ≤ y ∧ slot l x = some e

variable {l₀ : List (Option E)}

/-- The cluster of the entry at `i` ends at the first clear slot after it. -/
theorem Reached.rehoming (hr : Reached l₀ home) (him : i < m)
    (hm : m < i + l₀.length) (hclear : slot l₀ m = none) (hfilled : ∀ j, i < j → j < m → slot l₀ j ≠ none) :
    Rehoming l₀ home i m (i + 1) (setSlot l₀ i none) := by
  have hl : 0 < l₀.length := by omega
  have hsame : ∀ x, i < x → x < i + l₀.length → slot (setSlot l₀ i none) x = slot l₀ x := fun x hx hlt =>
    slot_setSlot_of_ne hl (emod_ne (by omega) (by omega) (by omega))
  have hi' : slot (setSlot l₀ i none) i = none := slot_setSlot_same hl rfl
  have hin : ∀ x e, i ≤ x → x < i + l₀.length → slot (setSlot l₀ i none) x = some e →
      i < x ∧ slot l₀ x = some e := by
    intro x e hx hlt he
    rcases eq_or_lt_of_le hx with rfl | hx
    · rw [hi'] at he
      contradiction
    · exact ⟨hx, by rw [← hsame x hx hlt, he]⟩
  refine ⟨length_setSlot, by omega, by omega, by rw [length_setSlot]; exact hm, ?_, ?_, ?_, ?_, ?_⟩
  · rw [hsame m him hm, hclear]
  · intro j hj hlt
    rw [hsame j (by omega) (by omega)]
    exact hfilled j (by omega) hlt
  · rw [length_setSlot]
    intro x e hx hlt he
    obtain ⟨hix, he⟩ := hin x e hx hlt he
    obtain ⟨h, hhx, hh, hpath⟩ := hr x e he
    refine ⟨h, hhx, hh, fun j hj hjx => ?_⟩
    by_cases hji : j % l₀.length = i % l₀.length
    · right
      -- the path does not pass the end of the cluster
      have hend : ∀ c, c % l₀.length = m % l₀.length → c < x → c < h := by
        intro c hc hcx
        by_contra hhc
        exact hpath c (by omega) hcx (by rw [slot_congr hc, hclear])
      have hlow := hend (m - l₀.length) (by rw [Int.sub_emod_right]) (by omega)
      have hji := eq_of_emod_eq hji (by omega) (by omega)
      rcases lt_trichotomy x m with hxm | rfl | hmx
      · exact ⟨by omega, hxm, by omega, by omega⟩
      · rw [hclear] at he
        contradiction
      · have := hend m rfl hmx
        omega
    · left
      rw [slot_setSlot_of_ne hl hji]
      exact hpath j hj hjx
  · rw [length_setSlot]
    intro x e hx hlt he
    obtain ⟨hix, he⟩ := hin x e hx hlt he
    exact ⟨x, le_refl x, hix, hlt, he⟩
  · rw [length_setSlot]
    intro y e hy hlt he
    exact ⟨y, by omega, le_refl y, by rw [hsame y hy hlt, he]⟩

theorem Rehoming.home_gt (hr : Rehoming l₀ home i m k l) {x c : ℤ} (hc : c % l.length = m % l.length)
    (hcx : c < x) (hout : c < i ∨ m ≤ c)
    (hpath : ∀ j, h ≤ j → j < x → slot l j ≠ none ∨ (k ≤ x ∧ x < m ∧ i ≤ j ∧ j < k)) : c < h := by
  by_contra hhc
  have hlt := hr.le
  rcases hpath c (by omega) hcx with hne | ⟨-, -, hic, hck⟩
  · exact hne (by rw [slot_congr hc, hr.clear])
  · omega

theorem Rehoming.stay (hr : Rehoming l₀ home i m k l) (hk : k < m) (hs : Stops l p h k)
    (he : slot l k = some e) (hh : h % l.length = home e % l.length) :
    Rehoming l₀ home i m (k + 1) l := by
  have hlt := hr.lt
  refine ⟨hr.length, by omega, by omega, hr.turn, hr.clear, fun j hj => hr.filled j (by omega), ?_,
    hr.back, hr.kept⟩
  intro x e' hx hxn he'
  rcases eq_or_ne x k with rfl | hxk
  · obtain rfl := Option.some.inj (he.symm.trans he')
    exact ⟨h, hs.le, hh, fun j hj hjx => .inl (hs.occupied hj hjx)⟩
  · obtain ⟨h', hhx, hh', hpath⟩ := hr.reached x e' hx hxn he'
    refine ⟨h', hhx, hh', fun j hj hjx => ?_⟩
    rcases hpath j hj hjx with hne | ⟨hkx, hxm, hij, hjk⟩
    · exact .inl hne
    · exact .inr ⟨by omega, hxm, hij, by omega⟩

theorem Rehoming.move (hr : Rehoming l₀ home i m k l) (hk : k < m) {y : ℤ} (hs : Stops l p h y)
    (he : slot l k = some e) (hh : h % l.length = home e % l.length) (hy : slot l y = none)
    (hiy : i ≤ y) (hyk : y < k) : Rehoming l₀ home i m (k + 1) (setSlot (setSlot l y (some e)) k none) := by
  have hlt := hr.lt
  have hturn := hr.turn
  have hl : 0 < l.length := (slot_some_lt he).1
  have hl' : 0 < (setSlot l y (some e)).length := by rw [length_setSlot]; exact hl
  set l' := setSlot (setSlot l y (some e)) k none with hldef
  have hlen : l'.length = l.length := by rw [hldef, length_setSlot, length_setSlot]
  have hsk : ∀ {x : ℤ}, x % l.length = k % l.length → slot l' x = none := fun hx =>
    slot_setSlot_same hl' (by rw [length_setSlot]; exact hx)
  have hsy : slot l' y = some e := by
    rw [hldef, slot_setSlot_of_ne hl', slot_setSlot_same hl rfl]
    rw [length_setSlot]
    exact emod_ne (by omega) (by omega) (by omega)
  have hother : ∀ {x : ℤ}, x % l.length ≠ k % l.length → x % l.length ≠ y % l.length →
      slot l' x = slot l x := by
    intro x hxk hxy
    rw [hldef, slot_setSlot_of_ne hl' (by rw [length_setSlot]; exact hxk), slot_setSlot_of_ne hl hxy]
  have hne : ∀ {x : ℤ}, x % l.length ≠ k % l.length → slot l x ≠ none → slot l' x ≠ none := by
    intro x hxk hx
    rw [hldef, slot_setSlot_of_ne hl' (by rw [length_setSlot]; exact hxk)]
    exact slot_setSlot_ne_none hl hx
  -- what is where in this turn
  have hin : ∀ x e', i ≤ x → x < i + l.length → slot l' x = some e' →
      (x = y ∧ e' = e) ∨ (x ≠ k ∧ slot l x = some e') := by
    intro x e' hx hxn he'
    rcases eq_or_ne x k with rfl | hxk
    · rw [hsk rfl] at he'
      contradiction
    · rcases eq_or_ne x y with rfl | hxy
      · rw [hsy] at he'
        exact .inl ⟨rfl, (Option.some.inj he').symm⟩
      · rw [hother (emod_ne hxk (by omega) (by omega)) (emod_ne hxy (by omega) (by omega))] at he'
        exact .inr ⟨hxk, he'⟩
  refine ⟨by rw [hlen, hr.length], by omega, by omega, by rw [hlen]; exact hturn, ?_, ?_, ?_, ?_, ?_⟩
  · rw [hother (emod_ne (by omega) (by omega) (by omega)) (emod_ne (by omega) (by omega) (by omega)), hr.clear]
  · intro j hj hjm
    exact hne (emod_ne (by omega) (by omega) (by omega)) (hr.filled j (by omega) hjm)
  · rw [hlen]
    intro x e' hx hxn he'
    rcases hin x e' hx hxn he' with ⟨rfl, rfl⟩ | ⟨hxk, he'⟩
    · have hlow : m - l.length < h := by
        by_contra hhc
        refine hs.occupied (Int.not_lt.mp hhc) (by omega) ?_
        rw [slot_congr (show (m - l.length) % l.length = m % l.length by rw [Int.sub_emod_right]), hr.clear]
      exact ⟨h, hs.le, hh, fun j hj hjx =>
        .inl (hne (emod_ne (by omega) (by omega) (by omega)) (hs.occupied hj hjx))⟩
    · obtain ⟨h', hhx, hh', hpath⟩ := hr.reached x e' hx hxn he'
      refine ⟨h', hhx, hh', fun j hj hjx => ?_⟩
      have hlow := hr.home_gt (by rw [Int.sub_emod_right]) (by omega) (.inl (by omega)) hpath
      by_cases hjk : j % l.length = k % l.length
      · right
        rcases lt_trichotomy x m with hxm | rfl | hmx
        · have hjk := eq_of_emod_eq hjk (by omega) (by omega)
          exact ⟨by omega, hxm, by omega, by omega⟩
        · rw [hr.clear] at he'
          contradiction
        · have hmh := hr.home_gt rfl hmx (.inr (le_refl m)) hpath
          exact absurd hjk (emod_ne (by omega) (by omega) (by omega))
      · rcases hpath j hj hjx with hj' | ⟨hkx, hxm, hij, hjk'⟩
        · exact .inl (hne hjk hj')
        · exact .inr ⟨by omega, hxm, hij, by omega⟩
  · rw [hlen]
    intro x e' hx hxn he'
    rcases hin x e' hx hxn he' with ⟨rfl, rfl⟩ | ⟨-, he'⟩
    · obtain ⟨z, hz, hiz, hzn, hez⟩ := hr.back k e' (by omega) (by omega) he
      exact ⟨z, by omega, hiz, hzn, hez⟩
    · exact hr.back x e' hx hxn he'
  · rw [hlen]
    intro z e' hz hzn he'
    obtain ⟨x, hix, hxz, hex⟩ := hr.kept z e' hz hzn he'
    rcases eq_or_ne x k with rfl | hxk
    · obtain rfl := Option.some.inj (he.symm.trans hex)
      exact ⟨y, hiy, by omega, hsy⟩
    · refine ⟨x, hix, hxz, ?_⟩
      rw [hother (emod_ne hxk (by omega) (by omega)), hex]
      refine emod_ne ?_ (by omega) (by omega)
      rintro rfl
      rw [hy] at hex
      contradiction

/-- The whole cluster entered again, every entry is reached. -/
theorem Rehoming.done (hr : Rehoming l₀ home i m m l) : Reached l home := by
  intro x e he
  have hl := (slot_some_lt he).1
  obtain ⟨x', hix, hxn, hxx⟩ := exists_position (show (0 : ℤ) < l.length by omega) i x
  have he' : slot l x' = some e := by rw [slot_congr hxx, he]
  obtain ⟨h, hhx, hh, hpath⟩ := hr.reached x' e hix hxn he'
  refine ⟨h + (x - x'), by omega, ?_, fun j hj hjx => ?_⟩
  · have hshift := shift_emod (d := h - x') hxx
    rw [show x' + (h - x') = h by omega, show x + (h - x') = h + (x - x') by omega] at hshift
    rw [← hshift, hh]
  · have hmove : slot l j = slot l (j - (x - x')) := by
      have hshift := shift_emod (d := j - x) hxx
      rw [show x' + (j - x) = j - (x - x') by omega, show x + (j - x) = j by omega] at hshift
      exact slot_congr hshift.symm
    rw [hmove]
    rcases hpath (j - (x - x')) (by omega) (by omega) with hne | ⟨hmx, hxm, -⟩
    · exact hne
    · omega

variable {r : E → E → Prop}

def Apart (l : List (Option E)) (r : E → E → Prop) : Prop :=
  ∀ j k e e', slot l j = some e → slot l k = some e' → r e e' → j % l.length = k % l.length

theorem Apart.eq (ha : Apart l r) (hj : slot l j = some e) (hk : slot l k = some e') (hr : r e e') :
    e = e' := by
  rw [slot_congr (ha j k e e' hj hk hr), hk] at hj
  exact (Option.some.inj hj).symm

theorem Apart.setSlot_none (ha : Apart l r) : Apart (setSlot l i none) r := by
  intro j k e e' hj hk hr
  have hl := (slot_some_lt hj).1
  rw [length_setSlot] at hl ⊢
  rw [slot_setSlot hl] at hj hk
  split_ifs at hj hk
  exact ha j k e e' hj hk hr

theorem Apart.setSlot_some (ha : Apart l r)
    (hnew : ∀ j e', j % l.length ≠ i % l.length → slot l j = some e' → ¬ r e e' ∧ ¬ r e' e) :
    Apart (setSlot l i (some e)) r := by
  intro j k e₁ e₂ hj hk hr
  have hl := (slot_some_lt hj).1
  rw [length_setSlot] at hl ⊢
  rw [slot_setSlot hl] at hj hk
  split_ifs at hj hk with hji hki hki
  · rw [hji, hki]
  · obtain rfl := Option.some.inj hj
    exact absurd hr (hnew k e₂ hki hk).1
  · obtain rfl := Option.some.inj hk
    exact absurd hr (hnew j e₁ hji hj).2
  · exact ha j k e₁ e₂ hj hk hr

theorem Apart.move (ha : Apart l r) (he : slot l k = some e) :
    Apart (setSlot (setSlot l i (some e)) k none) r := by
  have hl := (slot_some_lt he).1
  have hl' : 0 < (setSlot l i (some e)).length := by rw [length_setSlot]; exact hl
  -- each entry left was one of the old ones, the moved one at `k`
  have hold : ∀ j e', slot (setSlot (setSlot l i (some e)) k none) j = some e' →
      (j % l.length = i % l.length ∧ e' = e) ∨ (j % l.length ≠ k % l.length ∧ slot l j = some e') := by
    intro j e' hj
    rw [slot_setSlot hl', length_setSlot, slot_setSlot hl] at hj
    split_ifs at hj with hjk hji
    · exact .inl ⟨hji, (Option.some.inj hj).symm⟩
    · exact .inr ⟨hjk, hj⟩
  intro a b e₁ e₂ h₁ h₂ hr
  rw [length_setSlot, length_setSlot]
  rcases hold a e₁ h₁ with ⟨ha', rfl⟩ | ⟨hak, ha'⟩ <;> rcases hold b e₂ h₂ with ⟨hb', rfl⟩ | ⟨hbk, hb'⟩
  · rw [ha', hb']
  · exact absurd (ha k b _ e₂ he hb' hr).symm hbk
  · exact absurd (ha a k e₁ _ ha' he hr) hak
  · exact ha a b e₁ e₂ ha' hb' hr

/-! ### Counting -/

def occupied (l : List (Option E)) : ℕ := l.countP Option.isSome

theorem occupied_replicate (n : ℕ) : occupied (List.replicate n (none : Option E)) = 0 := by
  simp [occupied, List.countP_replicate]

theorem occupied_le_length : occupied l ≤ l.length := List.countP_le_length

theorem slot_emod {k : ℤ} (hl : 0 < l.length) : ∃ hk : (k % l.length).toNat < l.length,
    slot l k = l[(k % l.length).toNat] := by
  have hlt := Int.emod_lt_of_pos k (show (0 : ℤ) < l.length by omega)
  have hnn := Int.emod_nonneg k (show (l.length : ℤ) ≠ 0 by omega)
  have hk : (k % l.length).toNat < l.length := by omega
  exact ⟨hk, by rw [slot, List.getElem?_eq_getElem hk, Option.join_some]⟩

theorem occupied_fill (hl : 0 < l.length) (hk : slot l k = none) :
    occupied (setSlot l k (some e)) = occupied l + 1 := by
  obtain ⟨hlt, heq⟩ := slot_emod (k := k) hl
  rw [hk] at heq
  simp [occupied, setSlot, List.countP_set, hlt, ← heq]

theorem occupied_clear (hk : slot l k = some e) : occupied (setSlot l k none) + 1 = occupied l := by
  have hl := (slot_some_lt hk).1
  obtain ⟨hlt, heq⟩ := slot_emod (k := k) hl
  rw [hk] at heq
  have hpos : 0 < occupied l := List.countP_pos_iff.mpr ⟨some e, heq ▸ List.getElem_mem hlt, rfl⟩
  rw [occupied] at hpos
  simp [occupied, setSlot, List.countP_set, hlt, ← heq]
  omega

theorem occupied_replace (hk : slot l k = some e) : occupied (setSlot l k (some e')) = occupied l := by
  obtain ⟨hlt, heq⟩ := slot_emod (k := k) (slot_some_lt hk).1
  rw [hk] at heq
  have hpos : 0 < l.countP Option.isSome :=
    List.countP_pos_iff.mpr ⟨some e, heq ▸ List.getElem_mem hlt, rfl⟩
  simp [occupied, setSlot, List.countP_set, hlt, ← heq]
  omega

theorem exists_clear (h : occupied l < l.length) : ∃ k, slot l k = none := by
  by_contra hne
  push Not at hne
  have hall : ∀ o ∈ l, Option.isSome o = true := by
    intro o ho
    obtain ⟨i, hi, rfl⟩ := List.getElem_of_mem ho
    have hsome := hne i
    rw [slot_of_lt hi] at hsome
    exact Option.isSome_iff_ne_none.mpr hsome
  rw [occupied, List.countP_eq_length.mpr hall] at h
  exact lt_irrefl _ h

theorem mem_iff_slot : some e ∈ l ↔ ∃ k, slot l k = some e := by
  constructor
  · intro h
    obtain ⟨i, hi, he⟩ := List.getElem_of_mem h
    exact ⟨i, by rw [slot_of_lt hi, he]⟩
  · rintro ⟨k, hk⟩
    obtain ⟨hlt, heq⟩ := slot_emod (k := k) (slot_some_lt hk).1
    rw [← hk, heq]
    exact List.getElem_mem hlt

theorem mem_setSlot_some (hl : 0 < l.length) (hk : slot l k = none) (e' : E) :
    some e' ∈ setSlot l k (some e) ↔ e' = e ∨ some e' ∈ l := by
  simp only [mem_iff_slot]
  constructor
  · rintro ⟨j, hj⟩
    rw [slot_setSlot hl] at hj
    split_ifs at hj
    · exact .inl (Option.some.inj hj).symm
    · exact .inr ⟨j, hj⟩
  · rintro (rfl | ⟨j, hj⟩)
    · exact ⟨k, slot_setSlot_same hl rfl⟩
    · refine ⟨j, ?_⟩
      rw [slot_setSlot_of_ne hl, hj]
      intro hjk
      rw [slot_congr hjk, hk] at hj
      contradiction

theorem mem_setSlot_replace {r : E → E → Prop} (ha : Apart l r) (hr : ∀ e, r e e) (hk : slot l k = some e) (e₁ : E) :
    some e₁ ∈ setSlot l k (some e') ↔ e₁ = e' ∨ (some e₁ ∈ l ∧ ¬ r e₁ e) := by
  have hl := (slot_some_lt hk).1
  simp only [mem_iff_slot]
  constructor
  · rintro ⟨j, hj⟩
    rw [slot_setSlot hl] at hj
    split_ifs at hj with hjk
    · exact .inl (Option.some.inj hj).symm
    · exact .inr ⟨⟨j, hj⟩, fun hre => hjk (ha j k e₁ e hj hk hre)⟩
  · rintro (rfl | ⟨⟨j, hj⟩, hne⟩)
    · exact ⟨k, slot_setSlot_same hl rfl⟩
    · refine ⟨j, ?_⟩
      rw [slot_setSlot_of_ne hl, hj]
      intro hjk
      rw [slot_congr hjk, hk] at hj
      exact hne (Option.some.inj hj ▸ hr e₁)

theorem mem_setSlot_clear {r : E → E → Prop} (ha : Apart l r) (hr : ∀ e, r e e) (hk : slot l k = some e) (e₁ : E) :
    some e₁ ∈ setSlot l k none ↔ some e₁ ∈ l ∧ ¬ r e₁ e := by
  have hl := (slot_some_lt hk).1
  simp only [mem_iff_slot]
  constructor
  · rintro ⟨j, hj⟩
    rw [slot_setSlot hl] at hj
    split_ifs at hj with hjk
    exact ⟨⟨j, hj⟩, fun hre => hjk (ha j k e₁ e hj hk hre)⟩
  · rintro ⟨⟨j, hj⟩, hne⟩
    refine ⟨j, ?_⟩
    rw [slot_setSlot_of_ne hl, hj]
    intro hjk
    rw [slot_congr hjk, hk] at hj
    exact hne (Option.some.inj hj ▸ hr e₁)

theorem Apart.pairwise {r : E → E → Prop} (ha : Apart l r) (hsymm : ∀ e e', r e e' → r e' e) :
    (l.filterMap id).Pairwise fun e e' => ¬ r e e' ∧ ¬ r e' e := by
  rw [List.pairwise_filterMap, List.pairwise_iff_getElem]
  intro i j hi hj hij e he e' he'
  have hne : ¬ r e e' := by
    intro hr
    have hsame := ha i j e e' (by rw [slot_of_lt hi]; exact he) (by rw [slot_of_lt hj]; exact he') hr
    rw [Int.emod_eq_of_lt (by omega) (by omega), Int.emod_eq_of_lt (by omega) (by omega)] at hsame
    omega
  exact ⟨hne, fun hr => hne (hsymm e' e hr)⟩

theorem occupied_eq_length (l : List (Option E)) : occupied l = (l.filterMap id).length := by
  induction l with
  | nil => rfl
  | cons o l ih => cases o <;> simp_all [occupied]

/-- How far an entry at `k` is from its home. -/
def distance (l : List (Option E)) (home : E → ℤ) (k : ℤ) : Option E → ℕ
  | none => 0
  | some e => ((k - home e) % l.length).toNat

/-- How far all entries together are from their homes. -/
def displacement (l : List (Option E)) (home : E → ℤ) : ℕ :=
  ∑ i ∈ Finset.range l.length, distance l home i (slot l i)

theorem distance_le (hl : 0 < l.length) : distance l home k v ≤ l.length := by
  cases v with
  | none => exact Nat.zero_le _
  | some e =>
    have hlt := Int.emod_lt_of_pos (k - home e) (show (0 : ℤ) < l.length by omega)
    simp only [distance]
    omega

theorem displacement_le (home : E → ℤ) (hl : 0 < l.length) : displacement l home ≤ l.length * l.length := by
  have hsum := Finset.sum_le_card_nsmul (Finset.range l.length)
    (fun i => distance l home i (slot l i)) l.length fun _ _ => distance_le hl
  rwa [Finset.card_range, nsmul_eq_mul, Nat.cast_id] at hsum

theorem distance_congr (hjk : j % l.length = k % l.length) : distance l home j v = distance l home k v := by
  cases v with
  | none => rfl
  | some e => rw [distance, distance, Int.sub_emod, hjk, ← Int.sub_emod]

theorem displacement_setSlot (home : E → ℤ) (hl : 0 < l.length) : displacement (setSlot l k v) home +
    distance l home k (slot l k) = displacement l home + distance l home k v := by
  obtain ⟨hlt, -⟩ := slot_emod (k := k) hl
  set i := (k % l.length).toNat with hi
  have hik : (i : ℤ) % l.length = k % l.length := by
    rw [hi, Int.toNat_of_nonneg (Int.emod_nonneg k (by omega)), Int.emod_emod_of_dvd k (dvd_refl _)]
  have hmem : i ∈ Finset.range l.length := Finset.mem_range.mpr hlt
  have hrest : ∑ x ∈ (Finset.range l.length).erase i, distance l home x (slot (setSlot l k v) x) =
      ∑ x ∈ (Finset.range l.length).erase i, distance l home x (slot l x) := by
    apply Finset.sum_congr rfl
    intro x hx
    obtain ⟨hne, hx⟩ := Finset.mem_erase.mp hx
    have hx := Finset.mem_range.mp hx
    rw [slot_setSlot_of_ne hl]
    rw [← hik]
    exact emod_ne (by omega) (by omega) (by omega)
  have hdist : ∀ x : ℕ, distance (setSlot l k v) home x = distance l home x := by
    intro x
    funext v'
    cases v' with
    | none => rfl
    | some e => rw [distance, distance, length_setSlot]
  rw [displacement, displacement, length_setSlot]
  simp only [hdist]
  rw [← Finset.add_sum_erase _ _ hmem, ← Finset.add_sum_erase (Finset.range l.length) _ hmem, hrest,
    slot_setSlot_same hl hik, slot_congr hik, distance_congr hik, distance_congr hik]
  omega

theorem displacement_move {y : ℤ} (he : slot l k = some e) (hy : slot l y = none)
    (hlt : distance l home y (some e) < distance l home k (some e)) :
    displacement (setSlot (setSlot l y (some e)) k none) home < displacement l home := by
  have hl := (slot_some_lt he).1
  have hfill := displacement_setSlot (k := y) (v := some e) home hl
  have hclear := displacement_setSlot (l := setSlot l y (some e)) (k := k) (v := none) home
    (by rw [length_setSlot]; exact hl)
  have hky : k % l.length ≠ y % l.length := by
    intro hky
    rw [slot_congr hky, hy] at he
    contradiction
  have hsame : distance (setSlot l y (some e)) home k (some e) = distance l home k (some e) := by
    rw [distance, distance, length_setSlot]
  rw [slot_setSlot_of_ne hl hky, he, hsame] at hclear
  rw [hy] at hfill
  simp only [distance] at hfill hclear hlt ⊢
  omega

theorem Stops.distance_lt {y : ℤ} (home : E → ℤ) (hs : Stops l p (home e) y) (hy : slot l y = none)
    (he : slot l k = some e) (hp : p e) : distance l home y (some e) < distance l home k (some e) := by
  have hl := (slot_some_lt he).1
  have hn : (0 : ℤ) < l.length := by omega
  obtain ⟨x, hx, hxn, hxk⟩ := exists_position hn (home e) k
  have hxe : slot l x = some e := by rw [slot_congr hxk, he]
  have hle := hs.le_of_found hx hxe hp
  have hne : y ≠ x := by
    rintro rfl
    rw [hy] at hxe
    contradiction
  have hhy := hs.le
  have hdy : (y - home e) % l.length = y - home e := Int.emod_eq_of_lt (by omega) (by omega)
  have hdx : (x - home e) % l.length = x - home e := Int.emod_eq_of_lt (by omega) (by omega)
  rw [← distance_congr hxk]
  simp only [distance, hdy, hdx]
  omega

end XEmacs.Lib.Probing
