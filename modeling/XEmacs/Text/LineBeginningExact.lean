import XEmacs.Text.LineBeginning

/-! When the beginning of a line is the same with the cache and without it. Lines are counted from
the beginning of the buffer in the cache, but from that of the accessible region by the caller. -/

namespace XEmacs.Text

open Lib

variable {bytes : List UInt8} {n p q beg lim pos line begv zv : ℤ} {c : LineNumberCache}

theorem scanLine_forward (hpos : 1 ≤ pos ∧ pos ≤ 1 + bytes.length) (hline : line = newlines bytes pos)
    (hlim : lim ≤ 1 + bytes.length) (hlt : line < n) :
    ∃ r, scanLine bytes beg lim n pos line = some r ∧ (r.2 = 0 ↔ n ≤ newlines bytes lim) ∧
      (n ≤ newlines bytes lim → BeginsLine bytes n r.1) := by
  rw [scanLine, if_pos hlt, byteScanBuffer, if_pos (by omega)]
  refine ⟨_, rfl, ?_⟩
  rcases le_or_gt pos lim with hle | hgt
  · have hfuel : pos + ((lim - pos).toNat : ℤ) = lim := by omega
    have hshort := @scanForward_shortage bytes pos (lim - pos).toNat (n - line) hpos.1 (by omega) (by omega)
    rw [hfuel] at hshort
    refine ⟨by omega, fun hn => ?_⟩
    have hbegins := @scanForward_beginsLine bytes pos (lim - pos).toNat (n - line) hpos.1 (by omega) (by omega)
      (by rw [hfuel]; omega)
    rwa [show newlines bytes pos + (n - line) = n by omega] at hbegins
  · have hmono := newlines_mono bytes hgt.le
    rw [show (lim - pos).toNat = 0 by omega, scanForward]
    exact ⟨⟨fun h => by simp only at h; omega, fun h => by omega⟩, fun h => by omega⟩

theorem scanLine_backward (hpos : 1 ≤ pos ∧ pos ≤ 1 + bytes.length) (hline : line = newlines bytes pos)
    (hbeg : 1 ≤ beg) (hlt : n < line) :
    ∃ r, scanLine bytes beg lim n pos line = some r ∧ (r.2 = 0 ↔ newlines bytes beg ≤ n) ∧
      (newlines bytes beg ≤ n → BeginsLine bytes (n + 1) r.1) := by
  rw [scanLine, if_neg (by omega), if_neg (by omega), byteScanBuffer, if_neg (by omega)]
  refine ⟨_, rfl, ?_⟩
  rcases le_or_gt beg pos with hle | hgt
  · have hfuel : pos - ((pos - beg).toNat : ℤ) = beg := by omega
    have hshort := @scanBackward_shortage bytes pos (pos - beg).toNat (n - line) (by omega) hpos.2 (by omega)
    rw [hfuel] at hshort
    refine ⟨by simp only; omega, fun hn => ?_⟩
    have hbegins := @scanBackward_beginsLine bytes pos (pos - beg).toNat (n - line) (by omega) hpos.2 (by omega)
      (by rw [hfuel]; omega)
    rw [show newlines bytes pos + (n - line) + 1 = n + 1 by omega] at hbegins
    dsimp only
    rw [if_neg (by omega)]
    exact hbegins
  · have hmono := newlines_mono bytes hgt.le
    rw [show (pos - beg).toNat = 0 by omega, scanBackward]
    exact ⟨⟨fun h => by simp only at h; omega, fun h => by omega⟩, fun h => by omega⟩

theorem closestLine_counts {ring : List RingPair} (closest : ℤ) (h : ∀ pair ∈ ring, pair.Counts bytes)
    (hpos : 1 ≤ pos ∧ pos ≤ 1 + bytes.length) (hline : line = newlines bytes pos) :
    (∃ p, closestLine n ring closest pos line = .inl p ∧ 1 ≤ p ∧ p ≤ 1 + bytes.length ∧ newlines bytes p = n) ∨
      ∃ p l, closestLine n ring closest pos line = .inr (p, l) ∧ 1 ≤ p ∧ p ≤ 1 + bytes.length ∧
        l = newlines bytes p := by
  induction ring generalizing closest pos line with
  | nil => exact Or.inr ⟨pos, line, rfl, hpos.1, hpos.2, hline⟩
  | cons pair ring ih =>
    rw [List.forall_mem_cons] at h
    rw [closestLine]
    by_cases hneg : pair.start < 0
    · rw [if_pos hneg]
      exact ih _ h.2 hpos hline
    · obtain ⟨h1, hle, heq⟩ := h.1 (by omega)
      rw [if_neg hneg]
      dsimp only
      split_ifs with hsame hcloser
      · exact Or.inl ⟨pair.start, rfl, h1, hle, by omega⟩
      · exact ih _ h.2 ⟨h1, hle⟩ heq
      · exact ih _ h.2 hpos hline

/-- `r` is the beginning of line `n`, counted from `beg` on and looked for before `lim`, or -1 if
there is none. -/
def IsBeginning (bytes : List UInt8) (beg lim n r : ℤ) : Prop :=
  (n = 0 ∧ r = beg) ∨ (0 < n ∧ r ≤ lim ∧ BeginsLine bytes (newlines bytes beg + n) r) ∨
    (n ≠ 0 ∧ (n < 0 ∨ newlines bytes lim < newlines bytes beg + n) ∧ r = -1)

theorem scanLine_add (d : ℤ) : scanLine bytes beg lim (n + d) pos (line + d) = scanLine bytes beg lim n pos line := by
  have hlt : line + d < n + d ↔ line < n := by omega
  simp only [scanLine, hlt, add_sub_add_right_eq_sub]

theorem scanLine_isBeginning (hbeg : 1 ≤ beg ∧ beg ≤ 1 + bytes.length) (hlim : lim ≤ 1 + bytes.length) (hn : n ≠ 0) :
    ∃ r, scanLine bytes beg lim n beg 0 = some r ∧ IsBeginning bytes beg lim n (if r.2 = 0 then r.1 else -1) := by
  have hadd := @scanLine_add bytes n beg lim beg 0 (newlines bytes beg)
  rw [zero_add] at hadd
  rcases lt_or_gt_of_ne hn with hneg | hpos
  · obtain ⟨r, hr, hzero, -⟩ := @scanLine_backward bytes (n + newlines bytes beg) beg lim _ _ hbeg rfl hbeg.1 (by omega)
    refine ⟨r, hadd ▸ hr, ?_⟩
    rw [if_neg fun h => by have := hzero.mp h; omega]
    exact Or.inr (Or.inr ⟨hn, Or.inl hneg, rfl⟩)
  · obtain ⟨r, hr, hzero, hbegins⟩ := @scanLine_forward bytes (n + newlines bytes beg) beg lim _ _ hbeg rfl hlim (by omega)
    refine ⟨r, hadd ▸ hr, ?_⟩
    by_cases hfound : n + newlines bytes beg ≤ newlines bytes lim
    · have hb := hbegins hfound
      rw [if_pos (hzero.mpr hfound)]
      refine Or.inr (Or.inl ⟨hpos, hb.le_iff.mpr hfound, ?_⟩)
      rwa [add_comm]
    · rw [if_neg fun h => hfound (hzero.mp h)]
      exact Or.inr (Or.inr ⟨hn, Or.inr (by omega), rfl⟩)

theorem IsBeginning.unique {r r' : ℤ} (h : IsBeginning bytes beg lim n r) (h' : IsBeginning bytes beg lim n r') :
    r = r' := by
  rcases h with ⟨hn, rfl⟩ | ⟨hn, hle, hb⟩ | ⟨hn, hnone, rfl⟩ <;>
    rcases h' with ⟨hn', rfl⟩ | ⟨hn', hle', hb'⟩ | ⟨hn', hnone', rfl⟩
  · rfl
  · omega
  · omega
  · omega
  · exact hb.unique hb'
  · have := hb.le_iff.mp hle
    omega
  · omega
  · have := hb'.le_iff.mp hle'
    omega
  · rfl

/-- Where a scan from what the ring gives, or a position found in it, is right: `v` newlines are before the
accessible region. -/
def PickAgrees (bytes : List UInt8) (lim v n : ℤ) : ℤ ⊕ (ℤ × ℤ) → Prop
  | .inl pos => v = 0 ∧ byteAt bytes (pos - 1) = newline ∧ pos ≤ lim
  | .inr (_, line) =>
    (line < n ∧ (v = 0 ∨ newlines bytes lim < n)) ∨
      (n < line ∧ (n < 0 ∨ (n < v ∧ newlines bytes lim < v + n) ∨ (v = 1 ∧ v ≤ n ∧ v + n ≤ newlines bytes lim)))

/-- What the cached branch of `byte_beginning_of_line` makes of it. -/
def pickResult (bytes : List UInt8) (beg lim n : ℤ) : ℤ ⊕ (ℤ × ℤ) → Option ℤ
  | .inl pos => some pos
  | .inr (pos, line) => (scanLine bytes beg lim n pos line).map fun r => if r.2 = 0 then r.1 else -1

theorem pickResult_isBeginning_iff {ring : List RingPair} (closest : ℤ) (h : ∀ pair ∈ ring, pair.Counts bytes)
    (hbeg : 1 ≤ beg ∧ beg ≤ 1 + bytes.length) (hlim : beg ≤ lim ∧ lim ≤ 1 + bytes.length) (hn : n ≠ 0) :
    (∃ r, pickResult bytes beg lim n (closestLine n ring closest beg (newlines bytes beg)) = some r ∧
        IsBeginning bytes beg lim n r) ↔
      PickAgrees bytes lim (newlines bytes beg) n (closestLine n ring closest beg (newlines bytes beg)) := by
  have hv := newlines_nonneg bytes beg
  rcases closestLine_counts closest h hbeg rfl with ⟨p, heq, h1, hle, hcount⟩ | ⟨p, l, heq, h1, hle, hl⟩
  · rw [heq, pickResult, PickAgrees]
    constructor
    · rintro ⟨r, hr, ⟨hzero, -⟩ | ⟨-, hr', hb⟩ | ⟨-, -, hr'⟩⟩ <;> obtain rfl := Option.some.inj hr
      · exact absurd hzero hn
      · have hcount' := hb.count
        exact ⟨by omega, hb.newline, hr'⟩
      · omega
    · rintro ⟨hzero, hbyte, hplim⟩
      have hp0 := newlines_nonneg bytes p
      have hne : p ≠ 1 := by
        rintro rfl
        rw [newlines_one] at hcount
        exact hn hcount.symm
      exact ⟨p, rfl, Or.inr (Or.inl ⟨by omega, hplim, by omega, hle, hbyte, by omega⟩)⟩
  · rw [heq, pickResult, PickAgrees]
    have hl0 := newlines_nonneg bytes p
    rcases lt_trichotomy l n with hlt | rfl | hgt
    · obtain ⟨r, hr, hzero, hbegins⟩ := @scanLine_forward _ _ beg _ _ _ ⟨h1, hle⟩ hl hlim.2 hlt
      rw [hr, Option.map_some]
      by_cases hfound : n ≤ newlines bytes lim
      · have hb := hbegins hfound
        have hb1 := hb.one_lt
        have hblim := hb.le_iff.mpr hfound
        rw [if_pos (hzero.mpr hfound)]
        constructor
        · rintro ⟨r', hr', ⟨hn0, -⟩ | ⟨-, -, hb'⟩ | ⟨-, -, hr''⟩⟩ <;> obtain rfl := Option.some.inj hr'
          · exact absurd hn0 hn
          · have hcount := hb.count
            have hcount' := hb'.count
            exact Or.inl ⟨hlt, Or.inl (by omega)⟩
          · omega
        · rintro (⟨-, hv0 | hless⟩ | ⟨hgt, -⟩)
          · refine ⟨r.1, rfl, Or.inr (Or.inl ⟨by omega, hblim, ?_⟩)⟩
            rwa [hv0, zero_add]
          · omega
          · omega
      · rw [if_neg fun h0 => hfound (hzero.mp h0)]
        constructor
        · rintro -
          exact Or.inl ⟨hlt, Or.inr (by omega)⟩
        · rintro -
          exact ⟨-1, rfl, Or.inr (Or.inr ⟨hn, Or.inr (by omega), rfl⟩)⟩
    · rw [scanLine, if_neg (lt_irrefl l), if_pos (sub_self l), Option.map_none]
      constructor
      · rintro ⟨r, hr, -⟩
        cases hr
      · rintro (⟨hlt, -⟩ | ⟨hlt, -⟩) <;> exact absurd hlt (lt_irrefl l)
    · obtain ⟨r, hr, hzero, hbegins⟩ := @scanLine_backward _ _ _ lim _ _ ⟨h1, hle⟩ hl hbeg.1 hgt
      rw [hr, Option.map_some]
      by_cases hfound : newlines bytes beg ≤ n
      · have hb := hbegins hfound
        have hb1 := hb.one_lt
        rw [if_pos (hzero.mpr hfound)]
        constructor
        · rintro ⟨r', hr', ⟨hn0, -⟩ | ⟨-, hrlim, hb'⟩ | ⟨-, -, hr''⟩⟩ <;> obtain rfl := Option.some.inj hr'
          · exact absurd hn0 hn
          · have hcount := hb.count
            have hcount' := hb'.count
            have hmax := hb'.le_iff.mp hrlim
            exact Or.inr ⟨hgt, Or.inr (Or.inr ⟨by omega, hfound, hmax⟩)⟩
          · omega
        · rintro (⟨hlt, -⟩ | ⟨-, hneg | ⟨hless, -⟩ | ⟨hv1, -, hmax⟩⟩)
          · omega
          · omega
          · omega
          · have hb' : BeginsLine bytes (newlines bytes beg + n) r.1 := by rwa [hv1, add_comm]
            exact ⟨r.1, rfl, Or.inr (Or.inl ⟨by omega, hb'.le_iff.mpr hmax, hb'⟩)⟩
      · rw [if_neg fun h0 => hfound (hzero.mp h0)]
        constructor
        · rintro ⟨r', hr', ⟨hn0, -⟩ | ⟨-, -, hb'⟩ | ⟨-, hnone, -⟩⟩ <;> obtain rfl := Option.some.inj hr'
          · exact absurd hn0 hn
          · have := hb'.one_lt
            omega
          · exact Or.inr ⟨hgt, hnone.imp id fun hless => Or.inl ⟨by omega, hless⟩⟩
        · rintro (⟨hlt, -⟩ | ⟨-, hneg | ⟨-, hless⟩ | ⟨-, hvn, -⟩⟩)
          · omega
          · exact ⟨-1, rfl, Or.inr (Or.inr ⟨hn, Or.inl hneg, rfl⟩)⟩
          · exact ⟨-1, rfl, Or.inr (Or.inr ⟨hn, Or.inr hless, rfl⟩)⟩
          · omega

namespace LineBuffer

variable {rep : UInt8 → ℕ} {b b' b₀ : LineBuffer rep} {calls : List (LineCall rep)} {cachep respectNarrowing : Bool}

def lineBeg (b : LineBuffer rep) (respectNarrowing : Bool) : ℤ := if respectNarrowing then b.byteBegv else 1

def lineLim (b : LineBuffer rep) (respectNarrowing : Bool) : ℤ := if respectNarrowing then b.byteZv else 1 + b.bytes.length

/-- The cache that `byte_beginning_of_line` looks into. -/
def lineCache (b : LineBuffer rep) : LineNumberCache :=
  (b.cache.getD (.allocate b.byteBegv)).known b.bytes b.byteBegv

def pick (b : LineBuffer rep) (n : ℤ) (respectNarrowing : Bool) : ℤ ⊕ (ℤ × ℤ) :=
  closestLine n b.lineCache.ring |n - b.lineCache.begv| (b.lineBeg respectNarrowing) b.lineCache.begv

/-- The call gives the same as without the cache, and what it promises. -/
def Agrees (b : LineBuffer rep) (n : ℤ) (cachep respectNarrowing : Bool) : Prop :=
  ∃ r, (b.beginningOfLine n cachep respectNarrowing).map Prod.fst = some r ∧
    (b.beginningOfLine n false respectNarrowing).map Prod.fst = some r ∧
    IsBeginning b.bytes (b.lineBeg respectNarrowing) (b.lineLim respectNarrowing) n r

/-- Line 0 is asked for, or the cache is not used, or no branch that goes wrong is taken. -/
def LineAgrees (b : LineBuffer rep) (n : ℤ) (cachep respectNarrowing : Bool) : Prop :=
  n = 0 ∨ ¬ usesLineCache b.byteBegv cachep respectNarrowing ∨
    PickAgrees b.bytes (b.lineLim respectNarrowing) (newlines b.bytes b.byteBegv) n (b.pick n respectNarrowing)

/-- The call is answered by a scan backward over more than `LINE_NUMBER_FAR`, and the beginning of the
line after is entered in the ring. -/
def AddsWrongLine (b : LineBuffer rep) (n : ℤ) (cachep respectNarrowing : Bool) : Prop :=
  n ≠ 0 ∧ usesLineCache b.byteBegv cachep respectNarrowing ∧
    match b.pick n respectNarrowing with
    | .inl _ => False
    | .inr (pos, line) => n < line ∧ newlines b.bytes b.byteBegv ≤ n ∧
        ∃ q, BeginsLine b.bytes (n + 1) q ∧ pos - q > lineNumberFar

/-- A call or event that leaves the cache right. -/
def KeepsLines (b : LineBuffer rep) : LineCall rep → Prop
  | .event e => b.Keeps e
  | .beginningOfLine n cachep respectNarrowing => ¬ b.AddsWrongLine n cachep respectNarrowing

theorem lineBeg_range (b : LineBuffer rep) (respectNarrowing : Bool) :
    1 ≤ b.lineBeg respectNarrowing ∧ b.lineBeg respectNarrowing ≤ 1 + b.bytes.length := by
  rw [lineBeg]
  split_ifs
  · exact b.byteBegv_range
  · omega

theorem lineLim_range (h : b.Sound) (respectNarrowing : Bool) :
    b.lineBeg respectNarrowing ≤ b.lineLim respectNarrowing ∧ b.lineLim respectNarrowing ≤ 1 + b.bytes.length := by
  rw [lineBeg, lineLim]
  split_ifs
  · exact ⟨bytePos_le_of_le (h.inRange.begv_le_pt.trans h.inRange.pt_le_zv), bytePos_le_end _⟩
  · omega

theorem lineBeg_of_uses (huse : usesLineCache b.byteBegv cachep respectNarrowing) :
    b.lineBeg respectNarrowing = b.byteBegv := by
  rw [lineBeg]
  rcases huse.2 with hnarrow | hone
  · rw [if_pos hnarrow]
  · rw [hone, ite_self]

theorem lineCache_counts (h : b.Sound) : (∀ pair ∈ b.lineCache.ring, pair.Counts b.bytes) ∧
    b.lineCache.begv = newlines b.bytes b.byteBegv :=
  (getD_allocate_counts h.holds).known b.small b.byteBegv_range

theorem beginningOfLine_uncached {n : ℤ} (hn : n ≠ 0) (huse : ¬ usesLineCache b.byteBegv cachep respectNarrowing) :
    b.beginningOfLine n cachep respectNarrowing =
      (scanLine b.bytes (b.lineBeg respectNarrowing) (b.lineLim respectNarrowing) n (b.lineBeg respectNarrowing) 0).map
        fun r => (if r.2 = 0 then r.1 else -1, b.cache) := by
  rw [beginningOfLine, byteBeginningOfLine]
  simp only [if_neg hn, if_neg huse, lineBeg, lineLim]

theorem beginningOfLine_cached {n : ℤ} (hn : n ≠ 0) (huse : usesLineCache b.byteBegv cachep respectNarrowing) :
    b.beginningOfLine n cachep respectNarrowing =
      match b.pick n respectNarrowing with
      | .inl pos => some (pos, some b.lineCache)
      | .inr (pos, line) =>
        (scanLine b.bytes (b.lineBeg respectNarrowing) (b.lineLim respectNarrowing) n pos line).map fun r =>
          if r.2 = 0 then (r.1, some (b.lineCache.addLine n pos line r.1)) else (-1, some b.lineCache) := by
  rw [beginningOfLine, byteBeginningOfLine]
  simp only [if_neg hn, if_pos huse]
  rfl

theorem uncached_isBeginning (h : b.Sound) (n : ℤ) (huse : ¬ usesLineCache b.byteBegv cachep respectNarrowing) :
    ∃ r, (b.beginningOfLine n cachep respectNarrowing).map Prod.fst = some r ∧
      IsBeginning b.bytes (b.lineBeg respectNarrowing) (b.lineLim respectNarrowing) n r := by
  by_cases hn : n = 0
  · subst hn
    exact ⟨_, rfl, Or.inl ⟨rfl, rfl⟩⟩
  · obtain ⟨r, hr, hb⟩ := scanLine_isBeginning (b.lineBeg_range respectNarrowing) (lineLim_range h respectNarrowing).2 hn
    rw [beginningOfLine_uncached hn huse, hr]
    exact ⟨_, rfl, hb⟩

theorem not_usesLineCache (begv : ℤ) (respectNarrowing : Bool) : ¬ usesLineCache begv false respectNarrowing :=
  fun huse => Bool.false_ne_true huse.1

theorem cached_eq_pickResult {n : ℤ} (hn : n ≠ 0) (huse : usesLineCache b.byteBegv cachep respectNarrowing) :
    (b.beginningOfLine n cachep respectNarrowing).map Prod.fst =
      pickResult b.bytes (b.lineBeg respectNarrowing) (b.lineLim respectNarrowing) n (b.pick n respectNarrowing) := by
  rw [beginningOfLine_cached hn huse]
  cases b.pick n respectNarrowing with
  | inl pos => rfl
  | inr known =>
    obtain ⟨pos, line⟩ := known
    rw [pickResult]
    dsimp only
    rw [Option.map_map]
    congr 1
    funext r
    rw [Function.comp_apply]
    split_ifs <;> rfl

theorem agrees_iff (h : b.Sound) (n : ℤ) (cachep respectNarrowing : Bool) :
    b.Agrees n cachep respectNarrowing ↔ b.LineAgrees n cachep respectNarrowing := by
  obtain ⟨r₀, hr₀, hb₀⟩ := uncached_isBeginning h n (not_usesLineCache b.byteBegv respectNarrowing)
  by_cases hn : n = 0
  · subst hn
    exact ⟨fun _ => Or.inl rfl, fun _ => ⟨_, rfl, rfl, Or.inl ⟨rfl, rfl⟩⟩⟩
  by_cases huse : usesLineCache b.byteBegv cachep respectNarrowing
  · have hbeg := lineBeg_of_uses huse
    obtain ⟨hring, hbegv⟩ := lineCache_counts h
    have hiff := pickResult_isBeginning_iff |n - b.lineCache.begv| hring (b.lineBeg_range respectNarrowing)
      (lineLim_range h respectNarrowing) hn
    rw [hbeg, ← hbegv, ← hbeg] at hiff
    rw [Agrees, cached_eq_pickResult hn huse, LineAgrees, ← hbegv]
    constructor
    · rintro ⟨r, hr, -, hb⟩
      exact Or.inr (Or.inr (hiff.mp ⟨r, hr, hb⟩))
    · rintro (hzero | hnot | hpick)
      · exact absurd hzero hn
      · exact absurd huse hnot
      · obtain ⟨r, hr, hb⟩ := hiff.mpr hpick
        obtain rfl := hb.unique hb₀
        exact ⟨r, hr, hr₀, hb⟩
  · refine ⟨fun _ => Or.inr (Or.inl huse), fun _ => ?_⟩
    obtain ⟨r, hr, hb⟩ := uncached_isBeginning h n huse
    obtain rfl := hb.unique hb₀
    exact ⟨r, hr, hr₀, hb⟩

theorem Sound.beginningOfLine {n : ℤ} (h : b.Sound) (hok : ¬ b.AddsWrongLine n cachep respectNarrowing)
    {r : ℤ × Option LineNumberCache} (hr : b.beginningOfLine n cachep respectNarrowing = some r) :
    ∀ c ∈ r.2, c.Counts b.bytes b.byteBegv := by
  by_cases hn : n = 0
  · subst hn
    obtain rfl := Option.some.inj hr
    exact h.holds
  by_cases huse : usesLineCache b.byteBegv cachep respectNarrowing
  · have hbeg := lineBeg_of_uses huse
    obtain ⟨hring, hbegv⟩ := lineCache_counts h
    have hcounts : b.lineCache.Counts b.bytes b.byteBegv := ⟨hring, Or.inr hbegv⟩
    rw [beginningOfLine_cached hn huse] at hr
    have hpick := closestLine_counts (n := n) |n - b.lineCache.begv| hring (b.lineBeg_range respectNarrowing)
      (show b.lineCache.begv = newlines b.bytes (b.lineBeg respectNarrowing) by rw [hbegv, hbeg])
    rcases hpick with ⟨p, heq, -⟩ | ⟨p, l, heq, h1, hle, hl⟩
    · rw [pick, heq] at hr
      obtain rfl := Option.some.inj hr
      intro c hc
      rwa [← Option.some.inj hc]
    · have hpick' : b.pick n respectNarrowing = .inr (p, l) := heq
      rw [hpick'] at hr
      obtain ⟨scan, hscan, rfl⟩ := Option.map_eq_some_iff.mp hr
      by_cases hzero : scan.2 = 0
      · rw [if_pos hzero]
        intro c hc
        obtain rfl := Option.some.inj hc
        rw [LineNumberCache.addLine]
        rcases lt_trichotomy l n with hlt | rfl | hgt
        · obtain ⟨scan', hscan', hiff, hbegins⟩ := @scanLine_forward _ _ (b.lineBeg respectNarrowing) _ _ _ ⟨h1, hle⟩ hl
            (lineLim_range h respectNarrowing).2 hlt
          obtain rfl : scan = scan' := Option.some.inj (hscan.symm.trans hscan')
          have hb := hbegins (hiff.mp hzero)
          rw [if_pos hlt]
          split_ifs
          · exact hcounts.addPosition hb.one_lt.le hb.le hb.count.symm
          · exact hcounts
        · rw [scanLine, if_neg (lt_irrefl l), if_pos (sub_self l)] at hscan
          cases hscan
        · obtain ⟨scan', hscan', hiff, hbegins⟩ := @scanLine_backward _ _ _ (b.lineLim respectNarrowing) _ _ ⟨h1, hle⟩ hl
            (b.lineBeg_range respectNarrowing).1 hgt
          obtain rfl : scan = scan' := Option.some.inj (hscan.symm.trans hscan')
          have hfound := hiff.mp hzero
          rw [if_neg (show ¬ l < n by omega)]
          split_ifs with hfar
          · refine absurd ⟨hn, huse, ?_⟩ hok
            rw [hpick']
            exact ⟨hgt, by rw [← hbeg]; exact hfound, scan.1, hbegins hfound, hfar⟩
          · exact hcounts
      · rw [if_neg hzero]
        intro c hc
        rwa [← Option.some.inj hc]
  · rw [beginningOfLine_uncached hn huse] at hr
    obtain ⟨-, -, rfl⟩ := Option.map_eq_some_iff.mp hr
    exact h.holds

theorem Sound.callStep (h : b.Sound) {call : LineCall rep} (hok : b.KeepsLines call) (hs : b.callStep call = some b') :
    b'.Sound := by
  cases call with
  | event e => exact h.step hok hs
  | beginningOfLine n cachep respectNarrowing =>
    obtain ⟨r, hr, rfl⟩ := Option.map_eq_some_iff.mp hs
    exact ⟨h.inRange, h.beginningOfLine hok hr⟩

/-- In every run that keeps the cache right, the beginning of a line is the same with the cache
exactly where no branch is taken that goes wrong. -/
theorem run_beginningOfLine_iff (hrange : b₀.text.InRange) (hcache : b₀.cache = none)
    (hrun : Run LineBuffer.callStep KeepsLines b₀ calls b) (n : ℤ) (cachep respectNarrowing : Bool) :
    b.Agrees n cachep respectNarrowing ↔ b.LineAgrees n cachep respectNarrowing := by
  have hstart : b₀.Sound := ⟨hrange, fun c hc => by rw [hcache] at hc; contradiction⟩
  exact agrees_iff (hrun.invariant hstart fun _ _ _ h hok hs => h.callStep hok hs) n cachep respectNarrowing

def fourLines : LineBuffer repBytesByFirstByte where
  text := ⟨[lineFeed, lineFeed, lineFeed, lineFeed, letterA], 1, 1, 6, [⟨0, 1, false⟩], 0⟩
  cache := none
  small := by decide

theorem run_beginningOfLine_fourLines : ∃ b, Run LineBuffer.callStep KeepsLines fourLines
    [.event (.edit (.insert 1 [lineFeed] false)), .beginningOfLine 1 true true] b ∧ b.Agrees 2 true true := by
  have hrange : fourLines.text.InRange := ⟨by decide, by decide, by decide, by decide⟩
  have hexec : (fourLines.callStep (.event (.edit (.insert 1 [lineFeed] false)))).any (fun b₁ => decide
      (b₁.pick 1 true = .inr (1, 0) ∧ (b₁.callStep (.beginningOfLine 1 true true)).any
        (fun b => decide (b.byteBegv = 1 ∧ b.pick 2 true = .inr (1, 0))) = true)) = true := by
    decide +kernel
  obtain ⟨b₁, hs₁, h₁⟩ := (Option.any_eq_true _ _).mp hexec
  obtain ⟨hpick₁, h₁⟩ := of_decide_eq_true h₁
  obtain ⟨b, hs, h⟩ := (Option.any_eq_true _ _).mp h₁
  obtain ⟨hbegv, hpick⟩ := of_decide_eq_true h
  have hkeeps : b₁.KeepsLines (.beginningOfLine 1 true true) := by
    rintro ⟨-, -, hwrong⟩
    rw [hpick₁] at hwrong
    exact absurd hwrong.1 (by decide)
  have hrun : Run LineBuffer.callStep KeepsLines fourLines
      [.event (.edit (.insert 1 [lineFeed] false)), .beginningOfLine 1 true true] b :=
    .cons (show fourLines.Keeps (.edit (.insert 1 [lineFeed] false)) from id) hs₁ (.single hkeeps hs)
  refine ⟨b, hrun, (run_beginningOfLine_iff hrange rfl hrun 2 true true).mpr (Or.inr (Or.inr ?_))⟩
  rw [hpick, hbegv, newlines_one]
  exact Or.inl ⟨by decide, Or.inl rfl⟩

/-- The region behind two newlines: line 1 of it, at 4, is looked for from line 2 of the buffer back. -/
theorem fourLines_narrowed : ∃ b, Run LineBuffer.callStep anyStep fourLines [.event (.edit (.narrow 3 6))] b ∧
    (b.beginningOfLine 1 true true).map Prod.fst = some (-1) ∧
    (b.beginningOfLine 1 false true).map Prod.fst = some 4 ∧ ¬ b.Agrees 1 true true := by
  have hexec : (exec LineBuffer.callStep fourLines [.event (.edit (.narrow 3 6))]).any (fun b => decide
      ((b.beginningOfLine 1 true true).map Prod.fst = some (-1) ∧
        (b.beginningOfLine 1 false true).map Prod.fst = some 4)) = true := by
    decide +kernel
  obtain ⟨b, hrun, hcached, huncached⟩ := exists_run_of_exec hexec
  refine ⟨b, hrun, hcached, huncached, ?_⟩
  rintro ⟨r, hr, hr', -⟩
  rw [hcached] at hr
  rw [huncached] at hr'
  have := Option.some.inj (hr'.trans hr.symm)
  omega

end LineBuffer

end XEmacs.Text
