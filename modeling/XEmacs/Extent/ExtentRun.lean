import Mathlib.Data.Int.Interval
import XEmacs.Extent.BufferExtentsGap
import XEmacs.Lib.Walk

/-! The runs of text in which no extent begins or ends. Where the stack of extents is, has the
extents that overlap the position; so an extent that begins before a position and ends after it
is in the stack, and every other end comes after the next beginning. -/

namespace XEmacs.Extents

open Lib Lib.Gap Text

variable {s : ExtentInfo} {stamp : ℕ → ℤ} {ext : Heap} {el : ExtentList} {S : Set ℕ} {endp : Bool}

namespace ExtentList.Holds

theorem first_endpoint (h : el.Holds ext stamp S) (hproper : ∀ e ∈ S, (ext e).start ≤ (ext e).stop) (m : ℤ) (endp : Bool) :
    if el.locateFromPos ext m endp < el.numEls then
      ∃ e ∈ S, el.at' (el.locateFromPos ext m endp) endp = some e ∧ m ≤ (ext e).endpoint endp ∧
        ∀ a ∈ S, m ≤ (ext a).endpoint endp → (ext e).endpoint endp ≤ (ext a).endpoint endp
    else ∀ a ∈ S, (ext a).endpoint endp < m := by
  have hplace := ExtentList.locateFromPos_eq (h.sorted endp) (fun e he => hproper e ((h.mem endp e).mp he)) m
  have hdrop := (ExtentList.divides_endpoint (h.sorted endp) m).take_drop.2
  rw [← hplace] at hdrop
  have hmem (e : ℕ) : e ∈ (el.ga endp).els.drop (el.locateFromPos ext m endp) ↔ e ∈ S ∧ m ≤ (ext e).endpoint endp := by
    rw [hdrop, List.mem_filter, h.mem endp]
    simp
  have hlen := h.length_eq endp
  split_ifs with hlt
  · have hsorted := (h.sorted endp).sublist (List.drop_sublist (el.locateFromPos ext m endp) _)
    rw [← hlen] at hlt
    rw [List.drop_eq_getElem_cons hlt] at hmem hsorted
    obtain ⟨hS, hle⟩ := (hmem _).mp List.mem_cons_self
    refine ⟨_, hS, ?_, hle, fun a ha hma => ?_⟩
    · rw [ExtentList.at', if_pos (Int.natCast_nonneg _), Int.toNat_natCast]
      exact List.getElem?_eq_getElem hlt
    · rcases List.mem_cons.mp ((hmem a).mpr ⟨ha, hma⟩) with rfl | hrest
      · exact le_rfl
      · exact endpoint_le_of_key_lt ((List.pairwise_cons.mp hsorted).1 a hrest)
  · intro a ha
    by_contra hle
    have hin := (hmem a).mpr ⟨ha, not_lt.mp hle⟩
    rw [List.drop_eq_nil_of_le (by omega)] at hin
    exact List.not_mem_nil hin

theorem last_endpoint (h : el.Holds ext stamp S) (hproper : ∀ e ∈ S, (ext e).start ≤ (ext e).stop) (m : ℤ) (endp : Bool) :
    if el.locateFromPos ext m endp > 0 then
      ∃ e ∈ S, el.at' (el.locateFromPos ext m endp - 1) endp = some e ∧ (ext e).endpoint endp < m ∧
        ∀ a ∈ S, (ext a).endpoint endp < m → (ext a).endpoint endp ≤ (ext e).endpoint endp
    else ∀ a ∈ S, m ≤ (ext a).endpoint endp := by
  have hplace := ExtentList.locateFromPos_eq (h.sorted endp) (fun e he => hproper e ((h.mem endp e).mp he)) m
  have htake := (ExtentList.divides_endpoint (h.sorted endp) m).take_drop.1
  have hcount : el.locateFromPos ext m endp ≤ (el.ga endp).els.length := hplace.trans_le List.countP_le_length
  rw [← hplace] at htake
  have hmem (e : ℕ) : e ∈ (el.ga endp).els.take (el.locateFromPos ext m endp) ↔ e ∈ S ∧ (ext e).endpoint endp < m := by
    rw [htake, List.mem_filter, h.mem endp]
    simp
  split_ifs with hpos
  · obtain ⟨n, hn⟩ := Nat.exists_eq_add_of_lt hpos
    rw [zero_add] at hn
    have hsorted := (h.sorted endp).sublist (List.take_sublist (el.locateFromPos ext m endp) _)
    rw [hn] at hcount hmem hsorted ⊢
    rw [List.take_add_one, List.getElem?_eq_getElem (Nat.lt_of_succ_le hcount), Option.toList_some] at hmem hsorted
    obtain ⟨hS, hlt⟩ := (hmem _).mp (List.mem_append_right _ List.mem_cons_self)
    refine ⟨_, hS, ?_, hlt, fun a ha ham => ?_⟩
    · rw [ExtentList.at', Nat.cast_add, Nat.cast_one, add_sub_cancel_right, if_pos (Int.natCast_nonneg _), Int.toNat_natCast]
      exact List.getElem?_eq_getElem (Nat.lt_of_succ_le hcount)
    · rcases List.mem_append.mp ((hmem a).mpr ⟨ha, ham⟩) with hfront | hlast
      · exact endpoint_le_of_key_lt ((List.pairwise_append.mp hsorted).2.2 a hfront _ List.mem_cons_self)
      · rw [List.mem_singleton.mp hlast]
  · intro a ha
    by_contra hlt
    have hin := (hmem a).mpr ⟨ha, not_le.mp hlt⟩
    rw [Nat.eq_zero_of_not_pos hpos] at hin
    exact List.not_mem_nil hin

end ExtentList.Holds

namespace BufferExtents

variable {s : BufferExtents} {info : ExtentInfo} {rep : UInt8 → ℕ} {t : EditedText rep} {pos : ℤ}

theorem Holds.of_info (h : s.Holds t stamp) {stamp' : ℕ → ℤ} (hord : info.Ordered stamp')
    (hext : ∀ e ∈ info.attached, e ∈ s.info.attached ∧ (info.ext e).start = (s.info.ext e).start ∧
      (info.ext e).stop = (s.info.ext e).stop) : ({ s with info := info } : BufferExtents).Holds t stamp' := by
  refine ⟨h.text, hord, fun e he => ?_⟩
  obtain ⟨hatt, hstart, hstop⟩ := hext e he
  rw [hstart, hstop]
  exact h.atChar e hatt

def changes (s : BufferExtents) : Set ℤ :=
  {p | ∃ e ∈ s.info.attached, ∃ endp, p = s.buf.membposToBytebpos ((s.info.ext e).endpoint endp)}

theorem Holds.valid_endpoint (h : s.Holds t stamp) {e : ℕ} (he : e ∈ s.info.attached) (endp : Bool) :
    s.buf.validMembposP ((s.info.ext e).endpoint endp) := by
  cases endp with
  | false => exact (h.atChar e he).1.valid h.text
  | true => exact (h.atChar e he).2.valid h.text

theorem Holds.lt_iff (h : s.Holds t stamp) (h1 : 1 ≤ pos) (hz : pos ≤ s.buf.z) {e : ℕ} (he : e ∈ s.info.attached) (endp : Bool) :
    (pos < s.buf.membposToBytebpos ((s.info.ext e).endpoint endp) ↔
      s.buf.bytebposToMembpos pos < (s.info.ext e).endpoint endp) ∧
    (s.buf.membposToBytebpos ((s.info.ext e).endpoint endp) < pos ↔
      (s.info.ext e).endpoint endp < s.buf.bytebposToMembpos pos) := by
  have hb := h.text.layout
  obtain ⟨hvalid, hdec⟩ := Buffer.validMembposP_bytebposToMembpos hb ⟨h1, hz⟩
  have hvalid' := h.valid_endpoint he endp
  rw [Buffer.membposToBytebpos_eq hb hvalid']
  have hlt := decode_lt_decode hb (s.buf.bytebposToMembpos pos) hvalid'
  have hlt' := decode_lt_decode hb ((s.info.ext e).endpoint endp) hvalid
  rw [hdec] at hlt hlt'
  exact ⟨hlt, hlt'⟩

theorem Holds.byte_mono (h : s.Holds t stamp) {e a : ℕ} (he : e ∈ s.info.attached) (ha : a ∈ s.info.attached)
    {endp endp' : Bool} (hle : (s.info.ext e).endpoint endp ≤ (s.info.ext a).endpoint endp') :
    s.buf.membposToBytebpos ((s.info.ext e).endpoint endp) ≤ s.buf.membposToBytebpos ((s.info.ext a).endpoint endp') := by
  have hgap := h.text.layout.gap_pos
  have hfirst := h.valid_endpoint he endp
  have hsecond := h.valid_endpoint ha endp'
  unfold Buffer.validMembposP at hfirst hsecond
  unfold Buffer.membposToBytebpos
  split_ifs <;> omega

theorem Holds.next_endpoint (h : s.Holds t stamp) (h1 : 1 ≤ pos) (hz : pos ≤ s.buf.z)
    (hel : el.Holds s.info.ext stamp S) (hS : S ⊆ s.info.attached) (limit : ℤ) (endp : Bool) :
    ∃ v, (if el.locateFromPos s.info.ext (s.buf.bytebposToMembpos pos + 1) endp < el.numEls then
        (el.at' (el.locateFromPos s.info.ext (s.buf.bytebposToMembpos pos + 1) endp) endp).map fun e =>
          s.buf.membposToBytebpos ((s.info.ext e).endpoint endp)
      else some limit) = some v ∧ (v = limit ∨ pos < v ∧ v ∈ s.changes) ∧
      ∀ a ∈ S, pos < s.buf.membposToBytebpos ((s.info.ext a).endpoint endp) →
        v ≤ s.buf.membposToBytebpos ((s.info.ext a).endpoint endp) := by
  have hfirst := hel.first_endpoint (fun e he => h.ordered.proper e (hS he)) (s.buf.bytebposToMembpos pos + 1) endp
  split_ifs at hfirst ⊢ with hlt
  · obtain ⟨e, he, hat, hle, hleast⟩ := hfirst
    rw [hat, Option.map_some]
    refine ⟨_, rfl, .inr ⟨?_, e, hS he, endp, rfl⟩, fun a ha hpos => ?_⟩
    · rw [(h.lt_iff h1 hz (hS he) endp).1]
      exact Int.lt_of_add_one_le hle
    · rw [(h.lt_iff h1 hz (hS ha) endp).1] at hpos
      exact h.byte_mono (hS he) (hS ha) (hleast a ha (Int.add_one_le_of_lt hpos))
  · refine ⟨limit, rfl, .inl rfl, fun a ha hpos => ?_⟩
    rw [(h.lt_iff h1 hz (hS ha) endp).1] at hpos
    exact absurd (hfirst a ha) (not_lt.mpr (Int.add_one_le_of_lt hpos))

theorem Holds.previous_endpoint (h : s.Holds t stamp) (h1 : 1 ≤ pos) (hz : pos ≤ s.buf.z)
    (hel : el.Holds s.info.ext stamp S) (hS : S ⊆ s.info.attached) (limit : ℤ) (endp : Bool) :
    ∃ v, (if el.locateFromPos s.info.ext (s.buf.bytebposToMembpos pos) endp > 0 then
        (el.at' (el.locateFromPos s.info.ext (s.buf.bytebposToMembpos pos) endp - 1) endp).map fun e =>
          s.buf.membposToBytebpos ((s.info.ext e).endpoint endp)
      else some limit) = some v ∧ (v = limit ∨ v < pos ∧ v ∈ s.changes) ∧
      ∀ a ∈ S, s.buf.membposToBytebpos ((s.info.ext a).endpoint endp) < pos →
        s.buf.membposToBytebpos ((s.info.ext a).endpoint endp) ≤ v := by
  have hlast := hel.last_endpoint (fun e he => h.ordered.proper e (hS he)) (s.buf.bytebposToMembpos pos) endp
  split_ifs at hlast ⊢ with hlt
  · obtain ⟨e, he, hat, hbefore, hgreatest⟩ := hlast
    rw [hat, Option.map_some]
    refine ⟨_, rfl, .inr ⟨?_, e, hS he, endp, rfl⟩, fun a ha hpos => ?_⟩
    · rw [(h.lt_iff h1 hz (hS he) endp).2]
      exact hbefore
    · rw [(h.lt_iff h1 hz (hS ha) endp).2] at hpos
      exact h.byte_mono (hS ha) (hS he) (hgreatest a ha hpos)
  · refine ⟨limit, rfl, .inl rfl, fun a ha hpos => ?_⟩
    rw [(h.lt_iff h1 hz (hS ha) endp).2] at hpos
    exact absurd (hlast a ha) (not_le.mpr hpos)

theorem changes_of_numEls (h : s.Holds t stamp) (hnum : s.info.extents.numEls = 0) : s.changes = ∅ := by
  have hatt := (ExtentInfo.numEls_eq_zero_iff h.ordered).mp hnum
  exact Set.eq_empty_of_forall_notMem fun p ⟨e, he, _⟩ => (hatt ▸ he : e ∈ (∅ : Set ℕ))

theorem Holds.findEndOfRun (h : s.Holds t stamp) (h1 : 1 ≤ pos) (hz : pos ≤ s.buf.z) (outside : Bool) :
    ∃ info v, s.findEndOfRun pos outside = some ({ s with info := info }, v) ∧ info.Ordered stamp ∧
      info.ext = s.info.ext ∧ info.next = s.info.next ∧
      IsLeast ({p | pos < p ∧ p ∈ s.changes} ∪ {if outside then s.buf.z else s.buf.zv}) v := by
  rw [BufferExtents.findEndOfRun]
  set limit := if outside then s.buf.z else s.buf.zv with hlimit
  by_cases hnum : s.info.extents.numEls = 0
  · rw [if_pos hnum]
    refine ⟨s.info, limit, rfl, h.ordered, rfl, rfl, .inr rfl, ?_⟩
    rintro p (⟨-, hp⟩ | rfl)
    · rw [changes_of_numEls h hnum] at hp
      exact absurd hp (Set.notMem_empty p)
    · exact le_rfl
  rw [if_neg hnum]
  obtain ⟨sel, hmove, hord⟩ := h.ordered.soeMove (s.buf.bytebposToMembpos pos)
  have hsel := hord.soe _ rfl
  obtain ⟨pos1, heq1, hpos1, hleast1⟩ := h.next_endpoint h1 hz h.ordered.list subset_rfl limit false
  obtain ⟨pos2, heq2, hpos2, hleast2⟩ := h.next_endpoint h1 hz hsel (fun e he => he.1) limit true
  rw [hmove, Option.bind_some]
  refine ⟨_, min (min pos1 pos2) limit, ?_, hord, rfl, rfl, ?_, ?_⟩
  · exact (congrArg (Option.bind · _) heq1).trans (congrArg (Option.map _) heq2)
  · have hmem (v : ℤ) (hv : v = limit ∨ pos < v ∧ v ∈ s.changes) : v ∈ {p | pos < p ∧ p ∈ s.changes} ∪ {limit} :=
      hv.elim .inr .inl
    rcases min_choice (min pos1 pos2) limit with hmin | hmin
    · rcases min_choice pos1 pos2 with hmin' | hmin'
      · rw [hmin, hmin']
        exact hmem pos1 hpos1
      · rw [hmin, hmin']
        exact hmem pos2 hpos2
    · rw [hmin]
      exact .inr rfl
  · rintro p (⟨hlt, e, he, endp, rfl⟩ | rfl)
    · refine (min_le_left _ _).trans ?_
      cases endp with
      | false => exact (min_le_left _ _).trans (hleast1 e he hlt)
      | true =>
        have hproper := h.ordered.proper e he
        by_cases hstart : (s.info.ext e).start ≤ s.buf.bytebposToMembpos pos
        · -- it is in the stack of extents
          have hstop := ((h.lt_iff h1 hz he true).1.mp hlt).le
          exact (min_le_right _ _).trans (hleast2 e ⟨he, hstart, hstop⟩ hlt)
        · have hlater : pos < s.buf.membposToBytebpos ((s.info.ext e).endpoint false) :=
            (h.lt_iff h1 hz he false).1.mpr (not_le.mp hstart)
          exact (min_le_left _ _).trans ((hleast1 e he hlater).trans (h.byte_mono he he hproper))
    · exact min_le_right _ _

theorem Holds.findBeginningOfRun (h : s.Holds t stamp) (h1 : 1 ≤ pos) (hz : pos ≤ s.buf.z) (outside : Bool) :
    ∃ info v, s.findBeginningOfRun pos outside = some ({ s with info := info }, v) ∧ info.Ordered stamp ∧
      info.ext = s.info.ext ∧ info.next = s.info.next ∧
      IsGreatest ({p | p < pos ∧ p ∈ s.changes} ∪ {if outside then 1 else s.buf.begv}) v := by
  rw [BufferExtents.findBeginningOfRun]
  set limit := if outside then 1 else s.buf.begv with hlimit
  by_cases hnum : s.info.extents.numEls = 0
  · rw [if_pos hnum]
    refine ⟨s.info, limit, rfl, h.ordered, rfl, rfl, .inr rfl, ?_⟩
    rintro p (⟨-, hp⟩ | rfl)
    · rw [changes_of_numEls h hnum] at hp
      exact absurd hp (Set.notMem_empty p)
    · exact le_rfl
  rw [if_neg hnum]
  obtain ⟨sel, hmove, hord⟩ := h.ordered.soeMove (s.buf.bytebposToMembpos pos)
  have hsel := hord.soe _ rfl
  obtain ⟨pos1, heq1, hpos1, hgreatest1⟩ := h.previous_endpoint h1 hz h.ordered.list subset_rfl limit true
  obtain ⟨pos2, heq2, hpos2, hgreatest2⟩ := h.previous_endpoint h1 hz hsel (fun e he => he.1) limit false
  rw [hmove, Option.bind_some]
  refine ⟨_, max (max pos1 pos2) limit, ?_, hord, rfl, rfl, ?_, ?_⟩
  · exact (congrArg (Option.bind · _) heq1).trans (congrArg (Option.map _) heq2)
  · have hmem (v : ℤ) (hv : v = limit ∨ v < pos ∧ v ∈ s.changes) : v ∈ {p | p < pos ∧ p ∈ s.changes} ∪ {limit} :=
      hv.elim .inr .inl
    rcases max_choice (max pos1 pos2) limit with hmax | hmax
    · rcases max_choice pos1 pos2 with hmax' | hmax'
      · rw [hmax, hmax']
        exact hmem pos1 hpos1
      · rw [hmax, hmax']
        exact hmem pos2 hpos2
    · rw [hmax]
      exact .inr rfl
  · rintro p (⟨hlt, e, he, endp, rfl⟩ | rfl)
    · refine le_trans ?_ (le_max_left _ _)
      cases endp with
      | true => exact (hgreatest1 e he hlt).trans (le_max_left _ _)
      | false =>
        have hproper := h.ordered.proper e he
        by_cases hstop : s.buf.bytebposToMembpos pos ≤ (s.info.ext e).stop
        · -- it is in the stack of extents
          have hstart := ((h.lt_iff h1 hz he false).2.mp hlt).le
          exact (hgreatest2 e ⟨he, hstart, hstop⟩ hlt).trans (le_max_right _ _)
        · have hbefore : s.buf.membposToBytebpos ((s.info.ext e).endpoint true) < pos :=
            (h.lt_iff h1 hz he true).2.mpr (not_le.mp hstop)
          have hmono := h.byte_mono he he (show (s.info.ext e).endpoint false ≤ (s.info.ext e).endpoint true from hproper)
          exact (hmono.trans (hgreatest1 e he hbefore)).trans (le_max_left _ _)
    · exact le_max_right _ _

variable (rep) in
def charChanges (s : BufferExtents) : Set ℤ :=
  {c | ∃ e ∈ s.info.attached, ∃ endp, c = s.buf.bytebposToCharbpos rep (s.buf.membposToBytebpos ((s.info.ext e).endpoint endp))}

theorem Holds.byte_endpoint (h : s.Holds t stamp) {e : ℕ} (he : e ∈ s.info.attached) (endp : Bool) :
    ∃ c, 1 ≤ c ∧ c ≤ t.z ∧ s.buf.membposToBytebpos ((s.info.ext e).endpoint endp) = bytePos t.chars c := by
  have hchar : AtChar s.buf t ((s.info.ext e).endpoint endp) := by
    cases endp with
    | false => exact (h.atChar e he).1
    | true => exact (h.atChar e he).2
  rw [Buffer.membposToBytebpos_eq h.text.layout (h.valid_endpoint he endp)]
  exact hchar.2

theorem Holds.mem_charChanges (h : s.Holds t stamp) {c : ℤ} (h1 : 1 ≤ c) (hz : c ≤ t.z) :
    c ∈ s.charChanges rep ↔ bytePos t.chars c ∈ s.changes := by
  constructor
  · rintro ⟨e, he, endp, rfl⟩
    obtain ⟨c, hc1, hcz, hbyte⟩ := h.byte_endpoint he endp
    rw [hbyte, h.text.bytebposToCharbpos hc1 hcz, ← hbyte]
    exact ⟨e, he, endp, rfl⟩
  · rintro ⟨e, he, endp, hbyte⟩
    exact ⟨e, he, endp, by rw [← hbyte, h.text.bytebposToCharbpos h1 hz]⟩

theorem Holds.charChanges_bounds (h : s.Holds t stamp) {c : ℤ} (hc : c ∈ s.charChanges rep) : 1 ≤ c ∧ c ≤ t.z := by
  obtain ⟨e, he, endp, rfl⟩ := hc
  obtain ⟨c, hc1, hcz, hbyte⟩ := h.byte_endpoint he endp
  rw [hbyte, h.text.bytebposToCharbpos hc1 hcz]
  exact ⟨hc1, hcz⟩

theorem Holds.nextExtentChange (h : s.Holds t stamp) (h1 : 1 ≤ pos) (hz : pos ≤ t.z) :
    ∃ info v, s.nextExtentChange rep pos = some ({ s with info := info }, v) ∧ info.Ordered stamp ∧
      info.ext = s.info.ext ∧ info.next = s.info.next ∧
      IsLeast ({c | pos < c ∧ c ∈ s.charChanges rep} ∪ {t.z}) v := by
  have hbytes := h.text.bytePos_mem hz
  obtain ⟨info, v, hfind, hord, hext, hnext, hv, hleast⟩ := h.findEndOfRun hbytes.1 hbytes.2 true
  rw [if_pos rfl, h.text.z] at hv hleast
  rw [BufferExtents.nextExtentChange, if_pos ⟨h1, by rw [h.text.bufz]; exact hz⟩, h.text.charbposToBytebpos, hfind,
    Option.map_some]
  obtain ⟨c, hc, hc1, hcz, rfl⟩ : ∃ c, c ∈ {c | pos < c ∧ c ∈ s.charChanges rep} ∪ {t.z} ∧ 1 ≤ c ∧ c ≤ t.z ∧ bytePos t.chars c = v := by
    rcases hv with ⟨hlt, hchange⟩ | rfl
    · obtain ⟨e, he, endp, heq⟩ := id hchange
      obtain ⟨c, hc1, hcz, hbyte⟩ := h.byte_endpoint he endp
      rw [hbyte] at heq
      rw [heq] at hlt hchange
      exact ⟨c, .inl ⟨(bytePos_lt_iff h1 hcz).mp hlt, (h.mem_charChanges hc1 hcz).mpr hchange⟩, hc1, hcz, heq.symm⟩
    · exact ⟨t.z, .inr rfl, h1.trans hz, le_rfl, rfl⟩
  refine ⟨info, c, ?_, hord, hext, hnext, hc, ?_⟩
  · simp only [h.text.bytebposToCharbpos hc1 hcz]
  · rintro d (⟨hlt, hd⟩ | rfl)
    · obtain ⟨hd1, hdz⟩ := h.charChanges_bounds hd
      exact (bytePos_le_iff hcz hd1).mp
        (hleast (.inl ⟨(bytePos_lt_iff h1 hdz).mpr hlt, (h.mem_charChanges hd1 hdz).mp hd⟩))
    · exact hcz

theorem Holds.previousExtentChange (h : s.Holds t stamp) (h1 : 1 ≤ pos) (hz : pos ≤ t.z) :
    ∃ info v, s.previousExtentChange rep pos = some ({ s with info := info }, v) ∧ info.Ordered stamp ∧
      info.ext = s.info.ext ∧ info.next = s.info.next ∧
      IsGreatest ({c | c < pos ∧ c ∈ s.charChanges rep} ∪ {1}) v := by
  have hbytes := h.text.bytePos_mem hz
  obtain ⟨info, v, hfind, hord, hext, hnext, hv, hgreatest⟩ := h.findBeginningOfRun hbytes.1 hbytes.2 true
  rw [if_pos rfl] at hv hgreatest
  rw [BufferExtents.previousExtentChange, if_pos ⟨h1, by rw [h.text.bufz]; exact hz⟩, h.text.charbposToBytebpos, hfind,
    Option.map_some]
  have hone : bytePos t.chars 1 = 1 := rfl
  obtain ⟨c, hc, hc1, hcz, rfl⟩ : ∃ c, c ∈ {c | c < pos ∧ c ∈ s.charChanges rep} ∪ {1} ∧ 1 ≤ c ∧ c ≤ t.z ∧ bytePos t.chars c = v := by
    rcases hv with ⟨hlt, hchange⟩ | rfl
    · obtain ⟨e, he, endp, heq⟩ := id hchange
      obtain ⟨c, hc1, hcz, hbyte⟩ := h.byte_endpoint he endp
      rw [hbyte] at heq
      rw [heq] at hlt hchange
      exact ⟨c, .inl ⟨(bytePos_lt_iff hc1 hz).mp hlt, (h.mem_charChanges hc1 hcz).mpr hchange⟩, hc1, hcz, heq.symm⟩
    · exact ⟨1, .inr rfl, le_rfl, h1.trans hz, hone⟩
  refine ⟨info, c, ?_, hord, hext, hnext, hc, ?_⟩
  · simp only [h.text.bytebposToCharbpos hc1 hcz]
  · rintro d (⟨hlt, hd⟩ | rfl)
    · obtain ⟨hd1, hdz⟩ := h.charChanges_bounds hd
      exact (bytePos_le_iff hdz hc1).mp
        (hgreatest (.inl ⟨(bytePos_lt_iff hd1 hz).mpr hlt, (h.mem_charChanges hd1 hdz).mp hd⟩))
    · exact hc1

theorem Holds.of_ext (h : s.Holds t stamp) (hord : info.Ordered stamp) (hext : info.ext = s.info.ext) :
    ({ s with info := info } : BufferExtents).Holds t stamp ∧
      ({ s with info := info } : BufferExtents).charChanges rep = s.charChanges rep := by
  have hatt : info.attached = s.info.attached := by
    rw [ExtentInfo.attached, hext]
    rfl
  refine ⟨h.of_info hord fun e he => ?_, ?_⟩
  · rw [hatt] at he
    rw [hext]
    exact ⟨he, rfl, rfl⟩
  · rw [charChanges, charChanges]
    simp only [hatt, hext]

theorem Holds.visits_next (h : s.Holds t stamp) (h1 : 1 ≤ pos) (hz : pos ≤ t.z) :
    ∃ n s' l, walk (BufferExtents.nextExtentChange rep) n s pos = some (s', l) ∧ l.Nodup ∧
      ∀ p, p ∈ l ↔ pos < p ∧ (p ∈ s.charChanges rep ∨ p = t.z) := by
  refine exists_walk (B := fun a => {p | a < p ∧ (p ∈ s.charChanges rep ∨ p = t.z)})
    (I := fun s' a => ∃ info, s' = { s with info := info } ∧ info.Ordered stamp ∧ info.ext = s.info.ext ∧ 1 ≤ a ∧ a ≤ t.z)
    (fun a => ?_) ?_ ⟨s.info, rfl, h.ordered, rfl, h1, hz⟩
  · refine (Set.finite_Icc 1 t.z).subset ?_
    rintro p ⟨-, hp | rfl⟩
    · exact h.charChanges_bounds hp
    · exact ⟨h1.trans hz, le_rfl⟩
  · rintro s' a ⟨info, rfl, hord, hext, ha1, haz⟩
    obtain ⟨hholds, hsame⟩ := h.of_ext hord hext
    obtain ⟨info', v, hv, hord', hext', -, hmem, hleast⟩ := hholds.nextExtentChange ha1 haz
    rw [hsame] at hmem hleast
    have hvz : v ≤ t.z := hleast (.inr rfl)
    have hav : a ≤ v := hmem.elim (fun hin => hin.1.le) fun heq => (heq : v = t.z) ▸ haz
    refine ⟨_, v, hv, ⟨info', rfl, hord', hext'.trans hext, ha1.trans hav, hvz⟩, ?_⟩
    by_cases hva : v = a
    · have hend : a = t.z := by
        rcases hmem with ⟨hlt, -⟩ | heq
        · exact absurd hlt (hva ▸ lt_irrefl a)
        · exact hva.symm.trans heq
      refine .inl ⟨hva, Set.eq_empty_of_forall_notMem ?_⟩
      rintro p ⟨hlt, hp | rfl⟩
      · exact absurd (h.charChanges_bounds hp).2 (not_le.mpr (hend ▸ hlt))
      · exact absurd hend hlt.ne
    · refine .inr ⟨hva, fun hin => lt_irrefl v hin.1, Set.ext fun p => ⟨?_, ?_⟩⟩
      · rintro ⟨hlt, hp⟩
        have hle : v ≤ p := hp.elim (fun hc => hleast (.inl ⟨hlt, hc⟩)) fun heq => hleast (.inr heq)
        exact hle.eq_or_lt.imp Eq.symm fun hgt => ⟨hgt, hp⟩
      · rintro (rfl | ⟨hlt, hp⟩)
        · exact ⟨lt_of_le_of_ne hav (Ne.symm hva), hmem.imp And.right id⟩
        · exact ⟨hav.trans_lt hlt, hp⟩

theorem Holds.visits_previous (h : s.Holds t stamp) (h1 : 1 ≤ pos) (hz : pos ≤ t.z) :
    ∃ n s' l, walk (BufferExtents.previousExtentChange rep) n s pos = some (s', l) ∧ l.Nodup ∧
      ∀ p, p ∈ l ↔ p < pos ∧ (p ∈ s.charChanges rep ∨ p = 1) := by
  refine exists_walk (B := fun a => {p | p < a ∧ (p ∈ s.charChanges rep ∨ p = 1)})
    (I := fun s' a => ∃ info, s' = { s with info := info } ∧ info.Ordered stamp ∧ info.ext = s.info.ext ∧ 1 ≤ a ∧ a ≤ t.z)
    (fun a => ?_) ?_ ⟨s.info, rfl, h.ordered, rfl, h1, hz⟩
  · refine (Set.finite_Icc 1 t.z).subset ?_
    rintro p ⟨-, hp | rfl⟩
    · exact h.charChanges_bounds hp
    · exact ⟨le_rfl, h1.trans hz⟩
  · rintro s' a ⟨info, rfl, hord, hext, ha1, haz⟩
    obtain ⟨hholds, hsame⟩ := h.of_ext hord hext
    obtain ⟨info', v, hv, hord', hext', -, hmem, hgreatest⟩ := hholds.previousExtentChange ha1 haz
    rw [hsame] at hmem hgreatest
    have hv1 : 1 ≤ v := hgreatest (.inr rfl)
    have hva : v ≤ a := hmem.elim (fun hin => hin.1.le) fun heq => (heq : v = 1) ▸ ha1
    refine ⟨_, v, hv, ⟨info', rfl, hord', hext'.trans hext, hv1, hva.trans haz⟩, ?_⟩
    by_cases heq : v = a
    · have hbegin : a = 1 := by
        rcases hmem with ⟨hlt, -⟩ | hone
        · exact absurd hlt (heq ▸ lt_irrefl a)
        · exact heq.symm.trans hone
      refine .inl ⟨heq, Set.eq_empty_of_forall_notMem ?_⟩
      rintro p ⟨hlt, hp | rfl⟩
      · exact absurd (h.charChanges_bounds hp).1 (not_le.mpr (hbegin ▸ hlt))
      · exact absurd hbegin hlt.ne'
    · refine .inr ⟨heq, fun hin => lt_irrefl v hin.1, Set.ext fun p => ⟨?_, ?_⟩⟩
      · rintro ⟨hlt, hp⟩
        have hle : p ≤ v := hp.elim (fun hc => hgreatest (.inl ⟨hlt, hc⟩)) fun hone => hgreatest (.inr hone)
        exact hle.eq_or_lt.imp id fun hgt => ⟨hgt, hp⟩
      · rintro (rfl | ⟨hlt, hp⟩)
        · exact ⟨lt_of_le_of_ne hva heq, hmem.imp And.right id⟩
        · exact ⟨hlt.trans_le hva, hp⟩

end BufferExtents

end XEmacs.Extents
