import XEmacs.Lib.Gap

/-! `do_marker_adjustment`, which insdel.c applies to the markers of a buffer and
array.c to the markers of a gap array, and what it does to the position that a
marker stands for in each of its uses: a gap moved left or right, text wiped out
around the gap or beyond it, and text inserted before the markers at the gap. -/

namespace XEmacs.Text

open Lib.Gap

/-- `do_marker_adjustment`: add `amount` to a position in `(start, stop]`; a position
past that interval in the direction of adjustment is first moved to its near end. -/
def doMarkerAdjustment (mpos start stop amount : ℤ) : ℤ :=
  let mpos :=
    if amount > 0 then
      if mpos > stop ∧ mpos < stop + amount then stop + amount else mpos
    else
      if mpos > start + amount ∧ mpos ≤ start then start + amount else mpos
  if mpos > start ∧ mpos ≤ stop then mpos + amount else mpos

/-- Where an insertion of `n` elements at `pos` puts a position: one at the insertion point
moves past them only if it is to come `after` them. -/
def insertPos (pos n : ℤ) (after : Bool) (m : ℤ) : ℤ :=
  if m < pos ∨ m = pos ∧ after = false then m else m + n

theorem insertPos_false (pos n m : ℤ) : insertPos pos n false m = if m ≤ pos then m else m + n := by
  unfold insertPos; grind

/-- Where a deletion of `[start, stop)` puts a position: one inside collapses to the start. -/
def deletePos (start stop m : ℤ) : ℤ :=
  if m ≤ start then m else if m ≤ stop then start else m - (stop - start)

variable {g g' k n m start stop : ℤ}

theorem decode_adjust_left (hg : g' ≤ g) (hk : 0 ≤ k) (m : ℤ) :
    decode g' k (doMarkerAdjustment m g' g k) = decode g k m := by
  unfold decode doMarkerAdjustment; grind

theorem decode_adjust_right (hg : g ≤ g') (hk : 0 ≤ k) (m : ℤ) :
    decode g' k (doMarkerAdjustment m (g + k) (g' + k) (-k)) = decode g k m := by
  unfold decode doMarkerAdjustment; grind

theorem offGap_adjust_left (hg : g' < g) (hk : 0 ≤ k) (m : ℤ) :
    OffGap g' k (doMarkerAdjustment m g' g k) := by
  unfold OffGap doMarkerAdjustment; grind

theorem offGap_adjust_right (hg : g < g') (hk : 0 ≤ k) (m : ℤ) :
    OffGap g' k (doMarkerAdjustment m (g + k) (g' + k) (-k)) := by
  unfold OffGap doMarkerAdjustment; grind

theorem decode_adjust_delete (h1 : start ≤ g) (h2 : g ≤ stop) (hk : 0 ≤ k) (m : ℤ) :
    decode start (k + (stop - start))
        (doMarkerAdjustment m (stop + k) (stop + k) (-(stop - start) - k)) =
      deletePos start stop (decode g k m) := by
  unfold decode doMarkerAdjustment deletePos; grind

theorem offGap_adjust_delete (m : ℤ) :
    OffGap start (k + (stop - start))
      (doMarkerAdjustment m (stop + k) (stop + k) (-(stop - start) - k)) := by
  unfold OffGap doMarkerAdjustment; grind

theorem decode_adjust_delete_end (h1 : g < start) (h2 : start ≤ stop) (hk : 0 ≤ k)
    (hm : decode g k m ≤ stop) :
    decode g k (doMarkerAdjustment m (stop + k) (stop + k) (-(stop - start))) =
      deletePos start stop (decode g k m) := by
  unfold decode doMarkerAdjustment deletePos at *; grind

/-! ### Insertion at the gap

The gap `[g, g + k)` has given its first `n` cells to the new text. -/

theorem decode_adjust_insert (hn : 0 ≤ n) (hk : n ≤ k) (m : ℤ) :
    decode (g + n) (k - n) (doMarkerAdjustment m (g - 1) g n) =
      insertPos g n true (decode g k m) := by
  unfold decode doMarkerAdjustment insertPos; grind

theorem offGap_adjust_insert (hn : 0 ≤ n) (hm : m ≤ g + n ∨ g + k ≤ m) :
    OffGap (g + n) (k - n) (doMarkerAdjustment m (g - 1) g n) := by
  unfold OffGap doMarkerAdjustment; grind

theorem decode_adjust_grow {z i : ℤ} (hg : g ≤ z) (hk : 0 ≤ k) (hi : 0 ≤ i) (hm : m ≤ z + k) :
    decode g (k + i) (doMarkerAdjustment m (g + k) (z + k) i) = decode g k m := by
  rw [decode_join hk hi, decode_adjust_left (by omega) hi, decode_of_le hm]

theorem adjust_grow_bound {z i : ℤ} (hi : 0 ≤ i) (hm : OffGap g k m) (hz : m ≤ z + k) :
    doMarkerAdjustment m (g + k) (z + k) i ≤ g ∨
      doMarkerAdjustment m (g + k) (z + k) i = g + k ∨
      g + (k + i) < doMarkerAdjustment m (g + k) (z + k) i := by
  unfold OffGap doMarkerAdjustment at *; grind

def BeforeGapEnd (g k m : ℤ) : Prop := m ≤ g ∨ g + k < m

theorem beforeGapEnd_adjust_left (hg : g' ≤ g) (hk : 0 ≤ k) (h : BeforeGapEnd g k m) :
    BeforeGapEnd g' k (doMarkerAdjustment m g' g k) := by
  unfold BeforeGapEnd doMarkerAdjustment at *; grind

theorem beforeGapEnd_adjust_right (hg : g ≤ g') (hk : 0 ≤ k) (h : BeforeGapEnd g k m) :
    BeforeGapEnd g' k (doMarkerAdjustment m (g + k) (g' + k) (-k)) := by
  unfold BeforeGapEnd doMarkerAdjustment at *; grind

theorem beforeGapEnd_adjust_grow {z i : ℤ} (hi : 0 ≤ i) (h : BeforeGapEnd g k m)
    (hz : m ≤ z + k) : BeforeGapEnd g (k + i) (doMarkerAdjustment m (g + k) (z + k) i) := by
  unfold BeforeGapEnd doMarkerAdjustment at *; grind

theorem beforeGapEnd_adjust_delete (m : ℤ) :
    BeforeGapEnd start (k + (stop - start))
      (doMarkerAdjustment m (stop + k) (stop + k) (-(stop - start) - k)) := by
  unfold BeforeGapEnd doMarkerAdjustment at *; grind

theorem beforeGapEnd_adjust_delete_end (h1 : g < start) (h2 : start ≤ stop)
    (h : BeforeGapEnd g k m) :
    BeforeGapEnd g k (doMarkerAdjustment m (stop + k) (stop + k) (-(stop - start))) := by
  unfold BeforeGapEnd doMarkerAdjustment at *; grind

end XEmacs.Text
