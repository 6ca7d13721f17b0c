import Mathlib.Data.List.TakeWhile
import XEmacs.Lib.Transition
import XEmacs.Text.LineNumber

/-! The line numbers that the cache gives are those that counting gives, as long as no
newline is overwritten, or written over another character, before a cached position: an
overwriting leaves the cache as it is. -/

namespace XEmacs.Text

open Lib

variable {bytes str : List UInt8} {pos beg start stop st q : ℤ} {fuel : ℕ}

def newlines (bytes : List UInt8) (pos : ℤ) : ℤ := (bytes.take (pos - 1).toNat).count newline

theorem newlines_nonneg (bytes : List UInt8) (pos : ℤ) : 0 ≤ newlines bytes pos := Int.natCast_nonneg _

@[simp] theorem newlines_one : newlines bytes 1 = 0 := by simp [newlines]

theorem newlines_lt (pos : ℤ) (h : bytes.length < mostPositiveFixnum) : newlines bytes pos < mostPositiveFixnum := by
  have hcount : (bytes.take (pos - 1).toNat).count newline ≤ (bytes.take (pos - 1).toNat).length := List.count_le_length
  have hlen : (bytes.take (pos - 1).toNat).length ≤ bytes.length := List.length_take_le' _ _
  unfold newlines
  omega

theorem newlines_succ (bytes : List UInt8) {pos : ℤ} (h1 : 1 ≤ pos) (hpos : pos ≤ bytes.length) :
    newlines bytes (pos + 1) = newlines bytes pos + if byteAt bytes pos = newline then 1 else 0 := by
  have hlt : (pos - 1).toNat < bytes.length := by omega
  have hstep : (pos + 1 - 1).toNat = (pos - 1).toNat + 1 := by omega
  have hbyte : byteAt bytes pos = bytes[(pos - 1).toNat] := by
    rw [byteAt, List.getD_eq_getElem?_getD, List.getElem?_eq_getElem hlt, Option.getD_some]
  rw [newlines, newlines, hstep, List.take_succ_eq_append_getElem hlt, List.count_append, List.count_singleton,
    hbyte, Nat.cast_add]
  by_cases hnew : bytes[(pos - 1).toNat] = newline
  · rw [if_pos hnew, if_pos (beq_iff_eq.mpr hnew), Nat.cast_one]
  · rw [if_neg hnew, if_neg (fun h => hnew (beq_iff_eq.mp h)), Nat.cast_zero]

theorem newlines_mono (bytes : List UInt8) {start stop : ℤ} (h : start ≤ stop) : newlines bytes start ≤ newlines bytes stop := by
  have hsub : (bytes.take (start - 1).toNat) <+: (bytes.take (stop - 1).toNat) := List.take_prefix_take_left (by omega)
  exact Int.ofNat_le.mpr (hsub.sublist.count_le newline)

theorem newlines_append_left {rest : List UInt8} (hpos : pos ≤ 1 + bytes.length) :
    newlines (bytes ++ rest) pos = newlines bytes pos := by
  rw [newlines, newlines, List.take_append_of_le_length (by omega)]

theorem newlines_append_right {rest : List UInt8} (h1 : 1 ≤ pos) :
    newlines (bytes ++ rest) (pos + bytes.length) = bytes.count newline + newlines rest pos := by
  have hnat : (pos + bytes.length - 1).toNat = bytes.length + (pos - 1).toNat := by omega
  rw [newlines, newlines, hnat, List.take_length_add_append, List.count_append, Nat.cast_add]

theorem scanForward_shortage (fuel : ℕ) {count : ℤ} (h1 : 1 ≤ st) (hend : st + fuel ≤ 1 + bytes.length) (hcount : 0 ≤ count) :
    (scanForward bytes newline fuel st count).2 = max 0 (count - (newlines bytes (st + fuel) - newlines bytes st)) := by
  induction fuel generalizing st count with
  | zero => simp [scanForward, hcount]
  | succ fuel ih =>
    have hsucc := newlines_succ bytes h1 (by omega)
    have hmono := newlines_mono bytes (show st + 1 ≤ st + (fuel + 1 : ℕ) by omega)
    have hshift : st + 1 + (fuel : ℤ) = st + (fuel + 1 : ℕ) := by omega
    rw [scanForward]
    split_ifs with hpos hbyte
    · rw [ih (by omega) (by omega) (by omega), hshift, hsucc, if_pos hbyte]
      congr 1
      omega
    · rw [ih (by omega) (by omega) hcount, hshift, hsucc, if_neg hbyte, add_zero]
    · have hzero : count = 0 := by omega
      split_ifs at hsucc <;> omega

theorem scanBackward_shortage (fuel : ℕ) {count : ℤ} (h1 : 1 ≤ st - fuel) (hend : st ≤ 1 + bytes.length) (hcount : count ≤ 0) :
    -(scanBackward bytes newline fuel st count).2 =
      max 0 (-count - (newlines bytes st - newlines bytes (st - fuel))) := by
  induction fuel generalizing st count with
  | zero => simp [scanBackward, hcount]
  | succ fuel ih =>
    have hsucc := newlines_succ bytes (show 1 ≤ st - 1 by omega) (by omega)
    rw [sub_add_cancel] at hsucc
    have hmono := newlines_mono bytes (show st - (fuel + 1 : ℕ) ≤ st - 1 by omega)
    have hshift : st - 1 - (fuel : ℤ) = st - (fuel + 1 : ℕ) := by omega
    rw [scanBackward]
    split_ifs with hneg hbyte
    · rw [ih (by omega) (by omega) (by omega), hshift, hsucc, if_pos hbyte]
      congr 1
      omega
    · rw [ih (by omega) (by omega) hcount, hshift, hsucc, if_neg hbyte, add_zero]
    · have hzero : count = 0 := by omega
      split_ifs at hsucc <;> omega

theorem countNewlines_eq (hsmall : bytes.length < mostPositiveFixnum) (hb1 : 1 ≤ beg) (hb : beg ≤ 1 + bytes.length)
    (hp1 : 1 ≤ pos) (hp : pos ≤ 1 + bytes.length) :
    countNewlines bytes beg pos = newlines bytes pos - newlines bytes beg := by
  have hbeg := newlines_nonneg bytes beg
  have hpos := newlines_nonneg bytes pos
  have hbeg' := newlines_lt beg hsmall
  have hpos' := newlines_lt pos hsmall
  have hmpf : 0 < mostPositiveFixnum := by decide
  unfold countNewlines byteScanBuffer
  rcases lt_or_ge beg pos with hlt | hge
  · have hfuel : beg + ((pos - beg).toNat : ℤ) = pos := by omega
    have hscan := scanForward_shortage (pos - beg).toNat hb1 (show _ ≤ 1 + (bytes.length : ℤ) by omega) hmpf.le
    rw [hfuel] at hscan
    simp only [if_pos hlt, if_pos hmpf, if_neg (by omega : ¬ beg > pos), hscan]
    omega
  · have hfuel : beg - ((beg - pos).toNat : ℤ) = pos := by omega
    have hscan := scanBackward_shortage (beg - pos).toNat (show 1 ≤ beg - _ by omega) hb
      (show -mostPositiveFixnum ≤ 0 by omega)
    rw [hfuel] at hscan
    simp only [if_neg (by omega : ¬ pos > beg), if_neg (by omega : ¬ -mostPositiveFixnum > 0), hscan]
    split_ifs with hgt
    · omega
    · rw [le_antisymm hge (by omega : beg ≤ pos)]
      omega

theorem newlines_eq_of_shortage (h1 : 1 ≤ start) (hle : start ≤ stop) (hstop : stop ≤ 1 + bytes.length)
    (h : (byteScanBuffer bytes newline start stop 1).2 ≠ 0) : newlines bytes stop = newlines bytes start := by
  have hfuel : start + ((stop - start).toNat : ℤ) = stop := by omega
  have hscan := scanForward_shortage (stop - start).toNat h1
    (show _ ≤ 1 + (bytes.length : ℤ) by omega) (show (0 : ℤ) ≤ 1 by omega)
  rw [hfuel] at hscan
  have hmono := newlines_mono bytes hle
  rw [byteScanBuffer, if_pos (by omega), hscan] at h
  omega

section Splice

variable {xs ys zs : List UInt8}

theorem newlines_splice_left (hq : q ≤ 1 + xs.length) : newlines (xs ++ ys ++ zs) q = newlines xs q := by
  rw [List.append_assoc, newlines_append_left hq]

theorem newlines_splice_right (xs ys zs : List UInt8) {q : ℤ} (hq : 1 + xs.length + ys.length ≤ q) :
    newlines (xs ++ ys ++ zs) q =
      xs.count newline + ys.count newline + newlines zs (q - (xs.length + ys.length)) := by
  have hlen : q = (q - (xs.length + ys.length)) + ((xs ++ ys).length : ℤ) := by
    rw [List.length_append]
    push_cast
    omega
  rw [hlen, newlines_append_right (by omega), List.count_append, List.length_append]
  push_cast
  congr 2
  omega

theorem newlines_end : newlines xs (1 + xs.length) = xs.count newline := by
  rw [newlines, add_sub_cancel_left, Int.toNat_natCast, List.take_length]

end Splice

theorem count_of_dropWhile_nil (h : str.dropWhile (· ≠ newline) = []) : str.count newline = 0 := by
  rw [List.dropWhile_eq_nil_iff] at h
  exact List.count_eq_zero.mpr fun hmem => of_decide_eq_true (h newline hmem) rfl

theorem count_of_dropWhile_cons {ch : UInt8} {rest : List UInt8} (h : str.dropWhile (· ≠ newline) = ch :: rest)
    (hrest : newline ∉ rest) : str.count newline = 1 := by
  have hsplit : str.takeWhile (· ≠ newline) ++ ch :: rest = str := h ▸ List.takeWhile_append_dropWhile
  have hfront : (str.takeWhile (· ≠ newline)).count newline = 0 :=
    List.count_eq_zero.mpr fun hmem => absurd (List.mem_takeWhile_imp hmem) (by simp)
  have hch : ch = newline := by
    have hhead := List.head?_dropWhile_not (fun x : UInt8 => decide (x ≠ newline)) str
    rw [h] at hhead
    simpa using hhead
  rw [← hsplit, List.count_append, hfront, List.count_cons, List.count_eq_zero.mpr hrest, hch, beq_self_eq_true,
    if_pos rfl]

def RingPair.Counts (bytes : List UInt8) (pair : RingPair) : Prop :=
  0 ≤ pair.start → 1 ≤ pair.start ∧ pair.start ≤ 1 + bytes.length ∧ pair.line = newlines bytes pair.start

structure LineNumberCache.Counts (bytes : List UInt8) (begv : ℤ) (c : LineNumberCache) : Prop where
  ring : ∀ pair ∈ c.ring, pair.Counts bytes
  begv : c.begv = -1 ∨ c.begv = newlines bytes begv

namespace RingPair

variable {xs ys ys' zs : List UInt8} {pair : RingPair}

theorem Counts.insert_before (h : pair.Counts (xs ++ zs)) (hpair : pair.start ≤ 1 + xs.length) :
    pair.Counts (xs ++ str ++ zs) := by
  intro hstart
  obtain ⟨h1, hle, hline⟩ := h hstart
  refine ⟨h1, ?_, ?_⟩
  · simp only [List.length_append, Nat.cast_add] at hle ⊢
    omega
  · rw [hline, newlines_append_left hpair, newlines_splice_left hpair]

theorem Counts.insert_behind (h : pair.Counts (xs ++ zs)) (hpair : 1 + xs.length ≤ pair.start) :
    Counts (xs ++ str ++ zs) ⟨pair.start + str.length, pair.line + str.count newline⟩ := by
  intro _
  obtain ⟨h1, hle, hline⟩ := h (by omega)
  refine ⟨by simp only; omega, ?_, ?_⟩
  · simp only [List.length_append, Nat.cast_add] at hle ⊢
    omega
  · show pair.line + str.count newline = newlines (xs ++ str ++ zs) (pair.start + str.length)
    have hbefore := newlines_splice_right xs [] zs (show _ ≤ pair.start by rw [List.length_nil]; omega)
    rw [List.append_nil, List.count_nil, List.length_nil] at hbefore
    have harg : pair.start + (str.length : ℤ) - (xs.length + str.length) = pair.start - (xs.length + (0 : ℕ)) := by
      omega
    rw [newlines_splice_right _ _ _ (by omega), hline, hbefore, harg]
    omega

theorem Counts.delete_before (h : pair.Counts (xs ++ ys ++ zs)) (hpair : pair.start ≤ 1 + xs.length) :
    pair.Counts (xs ++ zs) := by
  intro hstart
  obtain ⟨h1, hle, hline⟩ := h hstart
  refine ⟨h1, ?_, ?_⟩
  · simp only [List.length_append, Nat.cast_add] at hle ⊢
    omega
  · rw [hline, newlines_append_left hpair, newlines_splice_left hpair]

theorem Counts.delete_behind (h : pair.Counts (xs ++ ys ++ zs)) (hpair : 1 + xs.length + ys.length ≤ pair.start)
    (hys : ys.count newline = 0) : Counts (xs ++ zs) ⟨pair.start - ys.length, pair.line⟩ := by
  intro _
  obtain ⟨h1, hle, hline⟩ := h (by omega)
  refine ⟨by simp only; omega, ?_, ?_⟩
  · simp only [List.length_append, Nat.cast_add] at hle ⊢
    omega
  · have hafter := newlines_splice_right xs [] zs (show _ ≤ pair.start - ys.length by rw [List.length_nil]; omega)
    rw [List.append_nil, List.count_nil, List.length_nil] at hafter
    simp only [hline, newlines_splice_right _ _ _ hpair, hys, hafter]
    have harg : pair.start - ((xs.length : ℤ) + ys.length) = pair.start - ys.length - (xs.length + (0 : ℕ)) := by omega
    rw [harg]

theorem Counts.overwrite (h : pair.Counts (xs ++ ys ++ zs)) (hlen : ys'.length = ys.length)
    (hys : newline ∉ ys) (hys' : newline ∉ ys') : pair.Counts (xs ++ ys' ++ zs) := by
  intro hstart
  obtain ⟨h1, hle, hline⟩ := h hstart
  refine ⟨h1, ?_, hline.trans ?_⟩
  · simp only [List.length_append, Nat.cast_add, hlen] at hle ⊢
    omega
  · have hcount : ∀ n, (ys.take n).count newline = (ys'.take n).count newline := by
      intro n
      rw [List.count_eq_zero.mpr fun hmem => hys (List.mem_of_mem_take hmem),
        List.count_eq_zero.mpr fun hmem => hys' (List.mem_of_mem_take hmem)]
    simp only [newlines, List.take_append, List.count_append, List.length_append, hlen, hcount]

end RingPair

namespace LineNumberCache

variable {c : LineNumberCache} {begv : ℤ} {xs ys ys' zs : List UInt8}

theorem mem_invalidate {pair : RingPair} (h : pair ∈ (c.invalidate pos).ring) :
    pair ∈ c.ring ∧ pair.start < pos := by
  obtain ⟨hmem, hlt⟩ := List.mem_filter.mp h
  exact ⟨hmem, not_le.mp (of_decide_eq_true hlt)⟩

theorem Counts.insert (h : c.Counts (xs ++ zs) begv) (hpos : pos = 1 + xs.length) (hbegv : begv ≤ pos) :
    ((c.insertAdjust pos str).moveForInsertion pos str.length).Counts (xs ++ str ++ zs) begv := by
  subst hpos
  have hkeep : newlines (xs ++ str ++ zs) begv = newlines (xs ++ zs) begv := by
    rw [newlines_splice_left hbegv, newlines_append_left hbegv]
  -- the pairs left are in front of the new text
  have hdrop : ((c.invalidate (1 + xs.length)).moveForInsertion (1 + xs.length) str.length).Counts
      (xs ++ str ++ zs) begv := by
    refine ⟨fun pair hpair => ?_, hkeep ▸ h.begv⟩
    obtain ⟨old, hold, rfl⟩ := List.mem_map.mp hpair
    obtain ⟨hmem, hlt⟩ := mem_invalidate hold
    rw [if_neg (by omega)]
    exact (h.ring old hmem).insert_before (by omega)
  -- all pairs are left, with `str.count newline` added behind
  have hshift : ∀ c' : LineNumberCache, c'.begv = c.begv →
      c'.ring = c.ring.map (fun pair : RingPair =>
        if pair.start > 1 + (xs.length : ℤ) then { pair with line := pair.line + str.count newline } else pair) →
      (c'.moveForInsertion (1 + xs.length) str.length).Counts (xs ++ str ++ zs) begv := by
    intro c' hc' hring
    refine ⟨fun pair hpair => ?_, hkeep ▸ hc' ▸ h.begv⟩
    obtain ⟨old, hold, rfl⟩ := List.mem_map.mp hpair
    rw [hring] at hold
    obtain ⟨old, hmem, rfl⟩ := List.mem_map.mp hold
    by_cases hgt : old.start > 1 + xs.length
    · simp only [if_pos hgt]
      exact (h.ring old hmem).insert_behind (by omega)
    · rw [if_neg hgt, if_neg hgt]
      exact (h.ring old hmem).insert_before (by omega)
  unfold insertAdjust
  split_ifs with hlarge
  · exact hdrop
  · split
    · rename_i hnone
      refine hshift c rfl ?_
      simp [count_of_dropWhile_nil hnone]
    · rename_i ch rest hsome
      split_ifs with hmore
      · exact hdrop
      · refine hshift _ rfl ?_
        rw [count_of_dropWhile_cons hsome hmore]
        rfl

theorem Counts.delete (h : c.Counts bytes begv) (hbytes : xs ++ ys ++ zs = bytes) (hstart : start = 1 + xs.length)
    (hstop : stop = 1 + xs.length + ys.length) (hbegv : begv ≤ start) :
    ((c.deleteInvalidate bytes start stop).moveForDeletion start stop).Counts (xs ++ zs) begv := by
  subst hbytes hstart hstop
  have hkeep : newlines (xs ++ ys ++ zs) begv = newlines (xs ++ zs) begv := by
    rw [newlines_splice_left hbegv, newlines_append_left hbegv]
  have hdrop : ((c.invalidate (1 + xs.length)).moveForDeletion (1 + xs.length) (1 + xs.length + ys.length)).Counts
      (xs ++ zs) begv := by
    refine ⟨fun pair hpair => ?_, hkeep ▸ h.begv⟩
    obtain ⟨old, hold, rfl⟩ := List.mem_map.mp hpair
    obtain ⟨hmem, hlt⟩ := mem_invalidate hold
    rw [if_neg (by omega), if_neg (by omega)]
    exact (h.ring old hmem).delete_before (by omega)
  unfold deleteInvalidate
  split_ifs with hlarge hfound
  · exact hdrop
  · exact hdrop
  · have hys : ys.count newline = 0 := by
      have hsame := newlines_eq_of_shortage (by omega) (by omega)
        (by simp only [List.length_append]; push_cast; omega) hfound
      rw [newlines_splice_right _ _ _ le_rfl, newlines_splice_left le_rfl, newlines_end] at hsame
      have := newlines_nonneg zs (1 + (xs.length : ℤ) + ys.length - (xs.length + ys.length))
      omega
    refine ⟨fun pair hpair => ?_, hkeep ▸ h.begv⟩
    obtain ⟨old, hmem, rfl⟩ := List.mem_map.mp hpair
    split_ifs with hin hgt
    · exact fun hneg => absurd hneg (by simp)
    · have hlen : old.start - (1 + (xs.length : ℤ) + ys.length - (1 + xs.length)) = old.start - ys.length := by omega
      rw [hlen]
      exact (h.ring old hmem).delete_behind (by omega) hys
    · exact (h.ring old hmem).delete_before (by omega)

theorem Counts.overwrite (h : c.Counts (xs ++ ys ++ zs) begv) (hlen : ys'.length = ys.length)
    (hbegv : begv ≤ 1 + xs.length)
    (hok : (newline ∉ ys ∧ newline ∉ ys') ∨ ∀ pair ∈ c.ring, 0 ≤ pair.start → pair.start ≤ 1 + xs.length) :
    c.Counts (xs ++ ys' ++ zs) begv := by
  have hkeep : newlines (xs ++ ys' ++ zs) begv = newlines (xs ++ ys ++ zs) begv := by
    rw [newlines_splice_left hbegv, newlines_splice_left hbegv]
  refine ⟨fun pair hpair => ?_, hkeep ▸ h.begv⟩
  rcases hok with ⟨hys, hys'⟩ | hbefore
  · exact (h.ring pair hpair).overwrite hlen hys hys'
  · intro hstart
    obtain ⟨h1, hle, hline⟩ := h.ring pair hpair hstart
    have hpos := hbefore pair hpair hstart
    refine ⟨h1, ?_, ?_⟩
    · simp only [List.length_append, Nat.cast_add, hlen] at hle ⊢
      omega
    · rw [hline, newlines_splice_left hpos, newlines_splice_left hpos]

theorem Counts.narrow (h : c.Counts bytes begv) (begv' : ℤ) : (c.narrow begv').Counts bytes begv' := by
  refine ⟨h.ring, ?_⟩
  by_cases hbeg : begv' = 1
  · exact .inr (by simp [LineNumberCache.narrow, hbeg])
  · exact .inl (if_neg hbeg)

theorem allocate_counts (bytes : List UInt8) (begv : ℤ) : (allocate begv).Counts bytes begv :=
  (show Counts bytes 1 ⟨[], 0, by simp⟩ from ⟨fun _ hpair => absurd hpair List.not_mem_nil, .inr newlines_one.symm⟩).narrow begv

theorem nearest_counts {ring : List RingPair} (pos length : ℤ) {line : ℤ} (h : ∀ pair ∈ ring, pair.Counts bytes)
    (hbeg : 1 ≤ beg ∧ beg ≤ 1 + bytes.length ∧ line = newlines bytes beg) :
    1 ≤ (nearest pos ring length beg line).1 ∧ (nearest pos ring length beg line).1 ≤ 1 + bytes.length ∧
      (nearest pos ring length beg line).2 = newlines bytes (nearest pos ring length beg line).1 := by
  induction ring generalizing length beg line with
  | nil => exact hbeg
  | cons pair ring ih =>
    rw [List.forall_mem_cons] at h
    unfold nearest
    split_ifs with hneg
    · exact ih _ h.2 hbeg
    · dsimp only
      split_ifs
      · exact ih _ h.2 (h.1 (by omega))
      · exact ih _ h.2 hbeg

theorem Counts.addPosition {line : ℤ} (h : c.Counts bytes begv) (h1 : 1 ≤ pos) (hpos : pos ≤ 1 + bytes.length)
    (hline : line = newlines bytes pos) : (c.addPosition pos line).Counts bytes begv := by
  refine ⟨fun pair hpair => ?_, h.begv⟩
  rcases List.mem_cons.mp (List.mem_of_mem_take hpair) with rfl | hmem
  · exact fun _ => ⟨h1, hpos, hline⟩
  · exact h.ring pair hmem

end LineNumberCache

variable {c : LineNumberCache} {begv : ℤ} {cache : Option LineNumberCache}

theorem lineNumberFrom_eq (hsmall : bytes.length < mostPositiveFixnum) (hc : ∀ pair ∈ c.ring, pair.Counts bytes)
    (hbegv : 1 ≤ begv ∧ begv ≤ 1 + bytes.length) (hpos : 1 ≤ pos ∧ pos ≤ 1 + bytes.length)
    (cachep respectNarrowing : Bool) (hbeg : beg = if respectNarrowing then begv else 1)
    (hknown : usesCache begv beg pos cachep respectNarrowing → c.begv = newlines bytes begv) :
    (lineNumberFrom bytes begv c pos cachep respectNarrowing).1 = newlines bytes pos - newlines bytes beg ∧
      (∀ pair ∈ (lineNumberFrom bytes begv c pos cachep respectNarrowing).2.ring, pair.Counts bytes) ∧
      (lineNumberFrom bytes begv c pos cachep respectNarrowing).2.begv = c.begv := by
  have hrange : 1 ≤ beg ∧ beg ≤ 1 + (bytes.length : ℤ) := by
    rw [hbeg]
    split_ifs
    · exact hbegv
    · omega
  simp only [lineNumberFrom, ← hbeg]
  by_cases huse : usesCache begv beg pos cachep respectNarrowing
  · have hline : c.begv = newlines bytes beg := by
      rw [hknown huse]
      rcases huse.2.2 with hnarrow | hone
      · rw [hbeg, if_pos hnarrow]
      · rw [hbeg, hone, ite_self]
    obtain ⟨h1, hn, hnear⟩ := LineNumberCache.nearest_counts pos |pos - beg| hc
      ⟨hrange.1, hrange.2, hline⟩
    have hcount := countNewlines_eq hsmall h1 hn hpos.1 hpos.2
    rw [if_pos huse]
    refine ⟨?_, ?_, ?_⟩
    · simp only [LineNumberCache.getNearestLineNumber]
      omega
    · have hkept : ∀ line, line = newlines bytes pos → ∀ pair ∈ (c.addPosition pos line).ring, pair.Counts bytes :=
        fun line hline' => (LineNumberCache.Counts.addPosition ⟨hc, .inr (hknown huse)⟩ hpos.1 hpos.2 hline').ring
      split_ifs
      · refine hkept _ ?_
        simp only [LineNumberCache.getNearestLineNumber]
        omega
      · exact hc
    · split_ifs <;> rfl
  · rw [if_neg huse]
    exact ⟨countNewlines_eq hsmall hrange.1 hrange.2 hpos.1 hpos.2, hc, rfl⟩

theorem LineNumberCache.Counts.known (hsmall : bytes.length < mostPositiveFixnum)
    (hbegv : 1 ≤ begv ∧ begv ≤ 1 + bytes.length) (h : c.Counts bytes begv) :
    (∀ pair ∈ (c.known bytes begv).ring, pair.Counts bytes) ∧ (c.known bytes begv).begv = newlines bytes begv := by
  rw [LineNumberCache.known]
  by_cases hdirty : c.begv = -1
  · have hzero : usesCache begv 1 begv true false → 0 = newlines bytes begv := by
      rintro ⟨-, -, hcontra | hone⟩
      · exact absurd hcontra Bool.false_ne_true
      · rw [hone, newlines_one]
    obtain ⟨hline, hring, -⟩ := lineNumberFrom_eq (c := { c with begv := 0 }) hsmall h.ring hbegv hbegv true
      false (show (1 : ℤ) = if false then begv else 1 from rfl) hzero
    rw [if_pos hdirty]
    refine ⟨hring, hline.trans ?_⟩
    rw [newlines_one, sub_zero]
  · rw [if_neg hdirty]
    exact ⟨h.ring, h.begv.resolve_left hdirty⟩

theorem getD_allocate_counts (hc : ∀ c ∈ cache, c.Counts bytes begv) :
    (cache.getD (.allocate begv)).Counts bytes begv := by
  cases cache with
  | none => exact LineNumberCache.allocate_counts bytes begv
  | some c => exact hc c rfl

theorem bufferLineNumber_eq (hsmall : bytes.length < mostPositiveFixnum) (hc : ∀ c ∈ cache, c.Counts bytes begv)
    (hbegv : 1 ≤ begv ∧ begv ≤ 1 + bytes.length) (hpos : 1 ≤ pos ∧ pos ≤ 1 + bytes.length)
    (cachep respectNarrowing : Bool) (hbeg : beg = if respectNarrowing then begv else 1) :
    (bufferLineNumber bytes begv cache pos cachep respectNarrowing).1 = newlines bytes pos - newlines bytes beg ∧
      ∀ c ∈ (bufferLineNumber bytes begv cache pos cachep respectNarrowing).2, c.Counts bytes begv := by
  have hrange : 1 ≤ beg ∧ beg ≤ 1 + (bytes.length : ℤ) := by
    rw [hbeg]
    split_ifs
    · exact hbegv
    · omega
  have hget := getD_allocate_counts hc
  simp only [bufferLineNumber, ← hbeg]
  by_cases huse : usesCache begv beg pos cachep respectNarrowing
  · rw [if_pos huse]
    generalize cache.getD (.allocate begv) = c₀ at hget
    obtain ⟨hring, hknown⟩ := hget.known hsmall hbegv
    have hfold : (if c₀.begv = -1 then
        { (lineNumberFrom bytes begv { c₀ with begv := 0 } begv true false).2 with
          begv := (lineNumberFrom bytes begv { c₀ with begv := 0 } begv true false).1 }
        else c₀) = c₀.known bytes begv := rfl
    rw [hfold]
    obtain ⟨hline, hring', hbegv'⟩ := lineNumberFrom_eq hsmall hring hbegv hpos cachep respectNarrowing hbeg
      fun _ => hknown
    refine ⟨hline, fun c' hc' => ?_⟩
    obtain rfl := Option.some.inj hc'
    exact ⟨hring', .inr (hbegv'.trans hknown)⟩
  · rw [if_neg huse]
    exact ⟨countNewlines_eq hsmall hrange.1 hrange.2 hpos.1 hpos.2, hc⟩

end XEmacs.Text
