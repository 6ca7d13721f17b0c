import XEmacs.Lib.Probing

/-! A gap in a probed array: the slot of a deleted entry moves along while the entries after it
are entered again, until nothing probes over it any more. This goes wherever the array has other
clear slots, or none. -/

namespace XEmacs.Lib.Probing

variable {E : Type*} {l : List (Option E)} {home : E → ℤ} {p : E → Prop} {e : E} {g h k x y : ℤ}

/-- All entries are reached, but for a gap: those between the gap and `k` do not probe over it, the
others may. -/
structure Gap (l : List (Option E)) (home : E → ℤ) (g k : ℤ) : Prop where
  lt : g < k
  le : k ≤ g + l.length
  clear : slot l g = none
  behind : ∀ x e, g < x → x < k → slot l x = some e → ReachedAt l home e x
  ahead : ∀ x e, k ≤ x → x < g + l.length → slot l x = some e →
    ∃ h, h ≤ x ∧ h % l.length = home e % l.length ∧
      ∀ j, h ≤ j → j < x → slot l j ≠ none ∨ j % l.length = g % l.length

theorem sub_emod {n : ℤ} (hxy : x % n = y % n) (j : ℤ) : (j - (x - y)) % n = j % n := by
  have hshift := shift_emod (d := j - x) hxy
  rw [show x + (j - x) = j by omega, show y + (j - x) = j - (x - y) by omega] at hshift
  exact hshift.symm

theorem ReachedAt.shift (hr : ReachedAt l home e x) (hxy : y % l.length = x % l.length) :
    ReachedAt l home e y := by
  obtain ⟨h, hhx, hh, hpath⟩ := hr
  refine ⟨h - (x - y), by omega, by rw [sub_emod hxy.symm, hh], fun j hj hjy => ?_⟩
  rw [← slot_congr (sub_emod hxy j)]
  exact hpath _ (by omega) (by omega)

theorem Reached.gap (hr : Reached l home) (hg : slot l g = some e) : Gap (setSlot l g none) home g (g + 1) := by
  have hl := (slot_some_lt hg).1
  refine ⟨by omega, by rw [length_setSlot]; omega, slot_setSlot_same hl rfl, fun x e hx hlt _ => by omega, ?_⟩
  rw [length_setSlot]
  intro x e hx hlt he
  rw [slot_setSlot_of_ne hl (emod_ne (by omega) (by omega) (by omega))] at he
  obtain ⟨h, hhx, hh, hpath⟩ := hr x e he
  refine ⟨h, hhx, hh, fun j hj hjx => ?_⟩
  by_cases hjg : j % l.length = g % l.length
  · exact Or.inr hjg
  · rw [slot_setSlot_of_ne hl hjg]
    exact Or.inl (hpath j hj hjx)

theorem Gap.stay (hgap : Gap l home g k) (hk : k < g + l.length) (he : slot l k = some e)
    (hh : h % l.length = home e % l.length) (hs : Stops l p h k) : Gap l home g (k + 1) := by
  have hlt := hgap.lt
  refine ⟨by omega, by omega, hgap.clear, fun x e' hx hxk he' => ?_, fun x e' hx hxk he' =>
    hgap.ahead x e' (by omega) hxk he'⟩
  rcases eq_or_ne x k with rfl | hne
  · rw [he] at he'
    obtain rfl := Option.some.inj he'
    exact ⟨h, hs.le, hh, fun j hj hjx => hs.occupied hj hjx⟩
  · exact hgap.behind x e' hx (by omega) he'

theorem Gap.search (hgap : Gap l home g k) (hk : k < g + l.length) (he : slot l k = some e) (hp : p e)
    (hh : h % l.length = home e % l.length) (hs : Stops l p h y) (hy : slot l y = none) :
    y % l.length = g % l.length := by
  obtain ⟨h', hhk, hh', hpath⟩ := hgap.ahead k e (le_refl k) hk he
  have hs' := hs.shift (hh'.trans hh.symm)
  have hcong : (y + (h' - h)) % l.length = y % l.length := by
    have hsub := sub_emod (hh.trans hh'.symm) y
    rwa [show y - (h - h') = y + (h' - h) by omega] at hsub
  have hclear : slot l (y + (h' - h)) = none := by rw [slot_congr hcong, hy]
  have hle := hs'.le_of_found hhk he hp
  have hne : y + (h' - h) ≠ k := by
    intro heq
    rw [heq, he] at hclear
    contradiction
  rcases hpath _ hs'.le (by omega) with hfilled | hg
  · exact absurd hclear hfilled
  · rw [← hcong, hg]

theorem Gap.move (hgap : Gap l home g k) (hk : k < g + l.length) (he : slot l k = some e)
    (hh : h % l.length = home e % l.length) (hs : Stops l p h g) :
    Gap (setSlot (setSlot l g (some e)) k none) home k (k + 1) := by
  have hl := (slot_some_lt he).1
  have hlt := hgap.lt
  have hl' : 0 < (setSlot l g (some e)).length := by rw [length_setSlot]; exact hl
  set l' := setSlot (setSlot l g (some e)) k none with hldef
  have hlen : l'.length = l.length := by rw [hldef, length_setSlot, length_setSlot]
  have hsk : slot l' k = none := slot_setSlot_same hl' rfl
  have hsg : ∀ {x : ℤ}, x % l.length = g % l.length → slot l' x = some e := by
    intro x hx
    rw [hldef, slot_setSlot_of_ne hl', slot_setSlot_same hl hx]
    rw [length_setSlot, hx]
    exact emod_ne (by omega) (by omega) (by omega)
  have hother : ∀ {x : ℤ}, x % l.length ≠ k % l.length → x % l.length ≠ g % l.length →
      slot l' x = slot l x := by
    intro x hxk hxg
    rw [hldef, slot_setSlot_of_ne hl' (by rw [length_setSlot]; exact hxk), slot_setSlot_of_ne hl hxg]
  -- a path that had no hole but the old gap has none but the new one
  have hpath : ∀ j, slot l j ≠ none ∨ j % l.length = g % l.length →
      slot l' j ≠ none ∨ j % l.length = k % l.length := by
    intro j hj
    by_cases hjk : j % l.length = k % l.length
    · exact Or.inr hjk
    · left
      by_cases hjg : j % l.length = g % l.length
      · rw [hsg hjg]
        exact Option.some_ne_none e
      · rw [hother hjk hjg]
        exact hj.resolve_right hjg
  refine ⟨by omega, by omega, hsk, fun x e' hx hxk _ => by omega, ?_⟩
  rw [hlen]
  intro x e' hx hxk he'
  by_cases hxg : x % l.length = g % l.length
  · rw [hsg hxg] at he'
    obtain rfl := Option.some.inj he'
    have hs' := hs.le
    refine ⟨h - (g - x), by omega, by rw [sub_emod hxg.symm, hh], fun j hj hjx => hpath j (Or.inl ?_)⟩
    rw [← slot_congr (sub_emod hxg j)]
    exact hs.occupied (by omega) (by omega)
  · rw [hother (emod_ne (by omega) (by omega) (by omega)) hxg] at he'
    rcases lt_or_ge x (g + l.length) with hxn | hxn
    · obtain ⟨h', hhx, hh', hp⟩ := hgap.ahead x e' (by omega) hxn he'
      exact ⟨h', hhx, hh', fun j hj hjx => hpath j (hp j hj hjx)⟩
    · have hturn : (x - l.length) % (l.length : ℤ) = x % l.length := by rw [Int.sub_emod_right]
      have hne : x ≠ g + l.length := by
        rintro rfl
        exact hxg (by rw [Int.add_emod_right])
      have hreached := hgap.behind (x - l.length) e' (by omega) (by omega) (by rw [slot_congr hturn, he'])
      obtain ⟨h', hhx, hh', hp⟩ := hreached.shift hturn.symm
      exact ⟨h', hhx, hh', fun j hj hjx => hpath j (Or.inl (hp j hj hjx))⟩

/-- At a clear slot nothing probes over the gap any more. -/
theorem Gap.done (hgap : Gap l home g k) (hk : slot l k = none) (hl : 0 < l.length) : Reached l home := by
  intro x e he
  have hlt := hgap.lt
  obtain ⟨x', hgx, hxn, hxx⟩ := exists_position (show (0 : ℤ) < l.length by omega) (g + 1) x
  have he' : slot l x' = some e := by rw [slot_congr hxx, he]
  refine ReachedAt.shift ?_ hxx.symm
  have hng : x' ≠ g + l.length := by
    rintro rfl
    rw [slot_congr (Int.add_emod_right (a := g) (b := (l.length : ℤ))), hgap.clear] at he'
    contradiction
  rcases lt_or_ge x' k with hxk | hkx
  · exact hgap.behind x' e (by omega) hxk he'
  · have hne : x' ≠ k := by
      rintro rfl
      rw [hk] at he'
      contradiction
    obtain ⟨h, hhx, hh, hpath⟩ := hgap.ahead x' e hkx (by omega) he'
    refine ⟨h, hhx, hh, fun j hj hjx => ?_⟩
    -- a path over the gap would have the clear slot in it too
    have hend : ∀ c, h ≤ c → c < x' → slot l c = none → c % l.length = g % l.length := fun c hc hcx hclear =>
      (hpath c hc hcx).resolve_left fun hne => hne hclear
    intro hclear
    have hjg : j ≤ g := by
      by_contra hgj
      have := eq_of_emod_eq (hend j hj hjx hclear) (by omega) (by omega)
      omega
    exact absurd (hend k (by omega) (by omega) hk) (emod_ne (by omega) (by omega) (by omega))

end XEmacs.Lib.Probing
