import XEmacs.Text.Buffer

/-! What a buffer stands for: a list of characters with point, an accessible region and
markers, all at character positions. `step` is what the editing operations are for.
`stepAsCoded` differs in one place: where `buffer_replace_char` deletes a character and
inserts one of another length, it moves the insertion point back when it has become the
end of the accessible region. -/

namespace XEmacs.Text

open Lib

structure TextMarker where
  addr : ℕ
  pos : ℤ
  insertionType : Bool
  deriving DecidableEq

structure EditedText (rep : UInt8 → ℕ) where
  chars : List (Ichar rep)
  pt : ℤ
  begv : ℤ
  zv : ℤ
  markers : List TextMarker
  pointMarker : ℕ
  deriving DecidableEq

variable {rep : UInt8 → ℕ}

namespace EditedText

/-- The end of the text. -/
def z (t : EditedText rep) : ℤ := 1 + t.chars.length

def mapMarkers (t : EditedText rep) (f : TextMarker → ℤ) : EditedText rep :=
  { t with markers := t.markers.map fun m => { m with pos := f m } }

def clipPos (t : EditedText rep) (pos : ℤ) : ℤ :=
  let pos := if pos < t.begv then t.begv else pos
  if pos > t.zv then t.zv else pos

def setPoint (t : EditedText rep) (pos : ℤ) : EditedText rep :=
  if pos = t.pt then t
  else { t.mapMarkers fun m => if m.addr = t.pointMarker then pos else m.pos with pt := pos }

/-- Insert `str` at a position of the accessible region. -/
def insertAt (t : EditedText rep) (p : ℤ) (str : List (Ichar rep)) (beforeMarkers : Bool) :
    EditedText rep :=
  { t.mapMarkers fun m => insertPos p str.length (m.insertionType || beforeMarkers) m.pos with
    chars := spliceIn t.chars p str
    pt := insertPos p str.length false t.pt
    zv := t.zv + str.length }

/-- Insert `str` at `pos`, or at point, which then ends after it. -/
def insert (t : EditedText rep) (pos : ℤ) (str : List (Ichar rep)) (beforeMarkers : Bool) :
    EditedText rep :=
  let p := t.clipPos (if pos = -1 then t.pt else pos)
  let t := t.insertAt p str beforeMarkers
  if pos = -1 then t.setPoint (p + str.length) else t

def deleteAt (t : EditedText rep) (start stop : ℤ) : EditedText rep :=
  { t.mapMarkers fun m => deletePos start stop m.pos with
    chars := cutOut t.chars start stop
    pt := deletePos start stop t.pt
    zv := t.zv - (stop - start) }

def delete (t : EditedText rep) (start stop : ℤ) : EditedText rep :=
  let start := if start < t.begv then t.begv else start
  let stop := if stop > t.zv then t.zv else stop
  if stop - start ≤ 0 then t else t.deleteAt start stop

/-- The number of bytes of the character at `pos`. -/
def charLenAt (t : EditedText rep) (pos : ℤ) : ℕ := (itextBytes (t.chars.drop (pos - 1).toNat |>.take 1)).length

/-- Overwrite the character at `pos`. -/
def overwrite (t : EditedText rep) (pos : ℤ) (ch : Ichar rep) : EditedText rep :=
  { t with chars := t.chars.set (pos - 1).toNat ch }

/-- Replace the character at `pos`. Point stays. For one of another length, markers move as
for a deletion and an insertion, and the point marker follows point. -/
def replace (t : EditedText rep) (pos : ℤ) (ch : Ichar rep) : EditedText rep :=
  if ch.bytes.length = t.charLenAt pos then t.overwrite pos ch
  else
    (t.overwrite pos ch).mapMarkers fun m =>
      if m.addr = t.pointMarker ∧ pos = t.pt - 1 then t.pt
      else insertPos pos 1 m.insertionType (deletePos pos (pos + 1) m.pos)

/-- What `buffer_replace_char` does instead. -/
def replaceAsCoded (t : EditedText rep) (pos : ℤ) (ch : Ichar rep) : EditedText rep :=
  if ch.bytes.length = t.charLenAt pos then t.overwrite pos ch
  else
    let d := t.delete pos (pos + 1)
    let p := if pos ≥ d.zv then d.zv - 1 else pos
    if p < d.begv then d else d.insert (if pos = t.pt - 1 then -1 else p) [ch] false

def narrow (t : EditedText rep) (start stop : ℤ) : EditedText rep :=
  let t := { t with begv := start, zv := stop }
  let t := if t.pt < start then t.setPoint start else t
  if t.pt > stop then t.setPoint stop else t

/-- One operation, with `replaceChar` for the replacement of a character. -/
def stepWith (replaceChar : EditedText rep → ℤ → Ichar rep → EditedText rep) (t : EditedText rep) :
    BufferOp rep → Option (EditedText rep)
  | .insert pos str beforeMarkers => some (t.insert pos str beforeMarkers)
  | .delete start stop => some (t.delete start stop)
  | .replace pos ch => if t.begv ≤ pos ∧ pos < t.zv then some (replaceChar t pos ch) else none
  | .moveGap pos _ => if 1 ≤ pos ∧ pos ≤ t.z then some t else none
  | .setPoint pos => if t.begv ≤ pos ∧ pos ≤ t.zv then some (t.setPoint pos) else none
  | .narrow start stop =>
    if 1 ≤ start ∧ start ≤ stop ∧ stop ≤ t.z then some (t.narrow start stop) else none
  | .makeMarker addr pos insertionType =>
    if 1 ≤ pos ∧ pos ≤ t.z then some { t with markers := ⟨addr, pos, insertionType⟩ :: t.markers }
    else none
  | .setMarker addr pos =>
    if 1 ≤ pos ∧ pos ≤ t.z then some (t.mapMarkers fun m => if m.addr = addr then pos else m.pos)
    else none
  | .unchainMarker addr => some { t with markers := t.markers.filter (·.addr ≠ addr) }

def step (t : EditedText rep) (op : BufferOp rep) : Option (EditedText rep) := t.stepWith replace op

/-- What they do. -/
def stepAsCoded (t : EditedText rep) (op : BufferOp rep) : Option (EditedText rep) :=
  t.stepWith replaceAsCoded op

def init (rep : UInt8 → ℕ) : EditedText rep := ⟨[], 1, 1, 1, [⟨0, 1, false⟩], 0⟩

/-- Point is in the accessible region, which is in the text, and so are the markers. -/
structure InRange (t : EditedText rep) : Prop where
  begv : 1 ≤ t.begv
  begv_le_pt : t.begv ≤ t.pt
  pt_le_zv : t.pt ≤ t.zv
  zv_le_z : t.zv ≤ t.z

theorem InRange.clipPos {t : EditedText rep} (h : t.InRange) (pos : ℤ) :
    t.begv ≤ t.clipPos pos ∧ t.clipPos pos ≤ t.zv := by
  have := h.begv_le_pt
  have := h.pt_le_zv
  simp only [EditedText.clipPos]
  split_ifs <;> omega

theorem clipPos_of_mem {t : EditedText rep} {pos : ℤ} (h1 : t.begv ≤ pos) (h2 : pos ≤ t.zv) :
    t.clipPos pos = pos := by
  rw [clipPos, if_neg (by omega), if_neg (by omega)]

@[simp] theorem setPoint_chars (t : EditedText rep) (pos : ℤ) : (t.setPoint pos).chars = t.chars := by
  unfold setPoint; split_ifs <;> rfl

@[simp] theorem setPoint_pt (t : EditedText rep) (pos : ℤ) : (t.setPoint pos).pt = pos := by
  unfold setPoint
  split_ifs with h
  · exact h.symm
  · rfl

theorem setPoint_self (t : EditedText rep) : t.setPoint t.pt = t := if_pos rfl

theorem setPoint_restrict (t : EditedText rep) (begv zv pos : ℤ) :
    { t with begv := begv, zv := zv }.setPoint pos = { t.setPoint pos with begv := begv, zv := zv } := by
  unfold setPoint; split_ifs <;> rfl

theorem narrow_eq (t : EditedText rep) {start stop : ℤ} (hle : start ≤ stop) :
    t.narrow start stop = { t with begv := start, zv := stop }.setPoint
      (if t.pt < start then start else if t.pt > stop then stop else t.pt) := by
  simp only [narrow]
  by_cases hlt : t.pt < start
  · rw [if_pos hlt, if_pos hlt, setPoint_pt, if_neg (by omega)]
  · rw [if_neg hlt, if_neg hlt]
    by_cases hgt : t.pt > stop
    · rw [if_pos hgt, if_pos hgt]
    · rw [if_neg hgt, if_neg hgt]
      exact (setPoint_self { t with begv := start, zv := stop }).symm

/-- Markers at or inside the text just inserted between `p` and `q` go past it. -/
def bumpMarkers (t : EditedText rep) (p q : ℤ) : EditedText rep :=
  t.mapMarkers fun m => if p ≤ m.pos ∧ m.pos < q then q else m.pos

theorem bump_insertPos {p n : ℤ} (hn : 0 ≤ n) (after : Bool) (m : ℤ) :
    (if p ≤ insertPos p n after m ∧ insertPos p n after m < p + n then p + n else insertPos p n after m) =
      insertPos p n true m := by
  unfold insertPos; grind

theorem insertAt_true (t : EditedText rep) (p : ℤ) (str : List (Ichar rep)) :
    (t.insertAt p str false).bumpMarkers p (p + str.length) = t.insertAt p str true := by
  simp only [bumpMarkers, insertAt, mapMarkers, List.map_map, Bool.or_false, Bool.or_true]
  simp only [EditedText.mk.injEq, true_and, and_true]
  refine List.map_congr_left fun m _ => ?_
  simp only [Function.comp_apply, bump_insertPos (show (0 : ℤ) ≤ str.length by omega)]

theorem bumpMarkers_setPoint (t : EditedText rep) (p q : ℤ) :
    (t.setPoint q).bumpMarkers p q = (t.bumpMarkers p q).setPoint q := by
  have hpt : (t.bumpMarkers p q).pt = t.pt := rfl
  by_cases hq : q = t.pt
  · rw [setPoint, setPoint, if_pos hq, if_pos (hq.trans hpt.symm)]
  · rw [setPoint, setPoint, if_neg hq, if_neg (hpt ▸ hq)]
    simp only [bumpMarkers, mapMarkers, List.map_map]
    simp only [EditedText.mk.injEq, true_and, and_true]
    refine List.map_congr_left fun m _ => ?_
    by_cases hm : m.addr = t.pointMarker <;> simp [hm]

theorem spliceIn_cutOut_char {cs : List (Ichar rep)} {p : ℤ} (c : Ichar rep) (h1 : 1 ≤ p)
    (hp : p ≤ cs.length) : spliceIn (cutOut cs p (p + 1)) p [c] = cs.set (p - 1).toNat c := by
  have hlt : (p - 1).toNat < cs.length := by omega
  have hstep : (p + 1 - 1).toNat = (p - 1).toNat + 1 := by omega
  have hlen : (cs.take (p - 1).toNat).length = (p - 1).toNat := by simp; omega
  rw [spliceIn, cutOut, hstep, List.take_append_of_le_length hlen.ge,
    List.drop_append_of_le_length hlen.ge, List.take_take, min_self,
    List.drop_eq_nil_of_le hlen.le, List.nil_append, List.append_assoc, List.singleton_append,
    List.set_eq_take_append_cons_drop, if_pos hlt]

theorem delete_char {t : EditedText rep} {pos : ℤ} (hpos : t.begv ≤ pos ∧ pos < t.zv) :
    t.delete pos (pos + 1) = t.deleteAt pos (pos + 1) := by
  have hstart : (if pos < t.begv then t.begv else pos) = pos := if_neg (by omega)
  have hstop : (if pos + 1 > t.zv then t.zv else pos + 1) = pos + 1 := if_neg (by omega)
  rw [delete]
  simp only [hstart, hstop]
  rw [if_neg (by omega)]

theorem insertPos_deletePos_char {pos m : ℤ} (hm : pos ≠ m - 1) :
    insertPos pos 1 false (deletePos pos (pos + 1) m) = m := by
  unfold insertPos deletePos; grind

theorem insert_deleteAt_char {t : EditedText rep} (h : t.InRange) {pos : ℤ} (ch : Ichar rep)
    (hpos : t.begv ≤ pos ∧ pos < t.zv) :
    (t.deleteAt pos (pos + 1)).insert (if pos = t.pt - 1 then -1 else pos) [ch] false =
      (t.overwrite pos ch).mapMarkers fun m =>
        if m.addr = t.pointMarker ∧ pos = t.pt - 1 then t.pt
        else insertPos pos 1 m.insertionType (deletePos pos (pos + 1) m.pos) := by
  obtain ⟨h1, h2, h3, h4⟩ := h
  have hlen : pos ≤ t.chars.length := by unfold z at h4; omega
  have hsplice := spliceIn_cutOut_char ch (show 1 ≤ pos by omega) hlen
  have hclip : (t.deleteAt pos (pos + 1)).clipPos pos = pos :=
    clipPos_of_mem hpos.1 (by simp only [deleteAt]; omega)
  by_cases hmove : pos = t.pt - 1
  · have hdel : (t.deleteAt pos (pos + 1)).pt = pos := by
      simp only [deleteAt, deletePos]; split_ifs <;> omega
    have hins : ((t.deleteAt pos (pos + 1)).insertAt pos [ch] false).pt = pos := by
      simp only [insertAt, hdel, insertPos]; simp
    rw [insert, if_pos hmove]
    simp only [if_true, hdel, hclip, List.length_singleton, Nat.cast_one]
    rw [setPoint, if_neg (by omega)]
    simp only [insertAt, deleteAt, mapMarkers, overwrite, hsplice, List.map_map, EditedText.mk.injEq,
      true_and, and_true, List.length_singleton, Nat.cast_one]
    refine ⟨by omega, by omega, List.map_congr_left fun m _ => ?_⟩
    by_cases hm : m.addr = t.pointMarker <;> simp [hm, hmove]
  · have hne : ¬ pos = -1 := by omega
    rw [insert, if_neg hmove]
    simp only [if_neg hne, hclip]
    simp only [insertAt, deleteAt, mapMarkers, overwrite, hsplice, List.map_map, EditedText.mk.injEq,
      true_and, and_true, List.length_singleton, Nat.cast_one]
    refine ⟨insertPos_deletePos_char hmove, by omega, List.map_congr_left fun m _ => ?_⟩
    simp [hmove]

theorem clipPos_deleteAt_char {t : EditedText rep} (h : t.InRange) {pos p : ℤ}
    (hpos : t.begv ≤ pos ∧ pos < t.zv)
    (hp : p = if pos ≥ (t.deleteAt pos (pos + 1)).zv then (t.deleteAt pos (pos + 1)).zv - 1 else pos)
    (hle : t.begv ≤ p) :
    let x := if pos = t.pt - 1 then -1 else p
    let q := (t.deleteAt pos (pos + 1)).clipPos (if x = -1 then (t.deleteAt pos (pos + 1)).pt else x)
    q ≤ pos ∧ (pos = t.pt - 1 → q = pos) := by
  have h1 := h.begv
  have hzv : (t.deleteAt pos (pos + 1)).zv = t.zv - 1 := by simp [deleteAt]
  by_cases hmove : pos = t.pt - 1
  · have hpt : (t.deleteAt pos (pos + 1)).pt = pos := by
      simp only [deleteAt, deletePos]; split_ifs <;> omega
    have hclip : (t.deleteAt pos (pos + 1)).clipPos pos = pos := clipPos_of_mem hpos.1 (by omega)
    simp only [if_pos hmove, if_true, hpt, hclip, le_refl, implies_true, and_self]
  · have hple : p ≤ pos ∧ p ≤ t.zv - 1 := by
      rw [hp, hzv]; split_ifs <;> omega
    have hclip : (t.deleteAt pos (pos + 1)).clipPos p = p := clipPos_of_mem hle (by omega)
    simp only [if_neg hmove, if_neg (show ¬ p = -1 by omega), hclip]
    exact ⟨hple.1, fun hc => absurd hc hmove⟩

def ReplaceMisses (t : EditedText rep) (pos : ℤ) (ch : Ichar rep) : Prop :=
  ch.bytes.length ≠ t.charLenAt pos ∧ pos = t.zv - 1 ∧ (t.pt ≠ t.zv ∨ pos = t.begv)

theorem replaceAsCoded_eq {t : EditedText rep} (h : t.InRange) {pos : ℤ} {ch : Ichar rep}
    (hpos : t.begv ≤ pos ∧ pos < t.zv) (hok : ¬ t.ReplaceMisses pos ch) :
    t.replaceAsCoded pos ch = t.replace pos ch := by
  by_cases hlen : ch.bytes.length = t.charLenAt pos
  · rw [replaceAsCoded, replace, if_pos hlen, if_pos hlen]
  · have hzv : (t.deleteAt pos (pos + 1)).zv = t.zv - 1 := by simp [deleteAt]
    have hbegv : (t.deleteAt pos (pos + 1)).begv = t.begv := rfl
    rw [replaceAsCoded, replace, if_neg hlen, if_neg hlen, ← insert_deleteAt_char h ch hpos]
    simp only [delete_char hpos, hzv, hbegv]
    by_cases hlast : pos = t.zv - 1
    · -- the insertion point has been moved back, but it is point that the code inserts at
      have hrest : t.pt = t.zv ∧ pos ≠ t.begv := by
        by_contra hc
        exact hok ⟨hlen, hlast, by tauto⟩
      rw [if_pos hlast.ge, if_neg (by omega), if_pos (by omega), if_pos (by omega)]
    · rw [if_neg (by omega : ¬ pos ≥ t.zv - 1), if_neg (by omega)]

theorem setPoint_begv (t : EditedText rep) (pos : ℤ) : (t.setPoint pos).begv = t.begv := by
  unfold setPoint; split_ifs <;> rfl

theorem setPoint_zv (t : EditedText rep) (pos : ℤ) : (t.setPoint pos).zv = t.zv := by
  unfold setPoint; split_ifs <;> rfl

theorem insert_chars (t : EditedText rep) (pos : ℤ) (str : List (Ichar rep)) (beforeMarkers : Bool) :
    (t.insert pos str beforeMarkers).chars = spliceIn t.chars (t.clipPos (if pos = -1 then t.pt else pos)) str := by
  simp only [insert]
  split_ifs
  · exact setPoint_chars _ _
  · rfl

theorem insert_begv (t : EditedText rep) (pos : ℤ) (str : List (Ichar rep)) (beforeMarkers : Bool) :
    (t.insert pos str beforeMarkers).begv = t.begv := by
  simp only [insert]
  split_ifs
  · exact setPoint_begv _ _
  · rfl

variable {t : EditedText rep} {pos start stop : ℤ}

theorem InRange.setPoint (h : t.InRange) (hpos : t.begv ≤ pos ∧ pos ≤ t.zv) : (t.setPoint pos).InRange := by
  refine ⟨?_, ?_, ?_, ?_⟩
  · rw [setPoint_begv]
    exact h.begv
  · rw [setPoint_begv, setPoint_pt]
    exact hpos.1
  · rw [setPoint_zv, setPoint_pt]
    exact hpos.2
  · rw [setPoint_zv, z, setPoint_chars]
    exact h.zv_le_z

theorem InRange.insertAt (h : t.InRange) {p : ℤ} (hp : t.begv ≤ p ∧ p ≤ t.zv) (str : List (Ichar rep))
    (beforeMarkers : Bool) : (t.insertAt p str beforeMarkers).InRange := by
  obtain ⟨h1, h2, h3, h4⟩ := h
  refine ⟨h1, ?_, ?_, ?_⟩
  · show t.begv ≤ insertPos p str.length false t.pt
    rw [insertPos_false]
    split_ifs <;> omega
  · show insertPos p str.length false t.pt ≤ t.zv + str.length
    rw [insertPos_false]
    split_ifs <;> omega
  · show t.zv + str.length ≤ 1 + ((spliceIn t.chars p str).length : ℤ)
    unfold z at h4
    rw [length_spliceIn]
    push_cast
    omega

theorem InRange.insert (h : t.InRange) (pos : ℤ) (str : List (Ichar rep)) (beforeMarkers : Bool) :
    (t.insert pos str beforeMarkers).InRange := by
  have hp := h.clipPos (if pos = -1 then t.pt else pos)
  have hat := h.insertAt hp str beforeMarkers
  simp only [EditedText.insert]
  split_ifs with hpoint
  · rw [if_pos hpoint] at hp hat
    refine hat.setPoint ⟨?_, ?_⟩
    · show t.begv ≤ _
      omega
    · show _ ≤ t.zv + str.length
      omega
  · rw [if_neg hpoint] at hat
    exact hat

theorem InRange.deleteAt (h : t.InRange) (hstart : t.begv ≤ start) (hle : start ≤ stop) (hstop : stop ≤ t.zv) :
    (t.deleteAt start stop).InRange := by
  obtain ⟨h1, h2, h3, h4⟩ := h
  have hlen := length_cutOut hle (h1.trans hstart) (hstop.trans h4)
  refine ⟨h1, ?_, ?_, ?_⟩
  · show t.begv ≤ deletePos start stop t.pt
    unfold deletePos
    split_ifs <;> omega
  · show deletePos start stop t.pt ≤ t.zv - (stop - start)
    unfold deletePos
    split_ifs <;> omega
  · show t.zv - (stop - start) ≤ 1 + ((cutOut t.chars start stop).length : ℤ)
    unfold z at h4
    omega

theorem clipRange (t : EditedText rep) (start stop : ℤ) :
    t.begv ≤ (if start < t.begv then t.begv else start) ∧ (if stop > t.zv then t.zv else stop) ≤ t.zv := by
  constructor <;> split_ifs <;> omega

theorem InRange.delete (h : t.InRange) (start stop : ℤ) : (t.delete start stop).InRange := by
  obtain ⟨hstart, hstop⟩ := t.clipRange start stop
  simp only [EditedText.delete]
  generalize (if start < t.begv then t.begv else start) = start at hstart
  generalize (if stop > t.zv then t.zv else stop) = stop at hstop
  split_ifs with hnone
  · exact h
  · exact h.deleteAt hstart (by omega) hstop

theorem InRange.overwrite (h : t.InRange) (pos : ℤ) (ch : Ichar rep) : (t.overwrite pos ch).InRange := by
  refine ⟨h.begv, h.begv_le_pt, h.pt_le_zv, h.zv_le_z.trans_eq ?_⟩
  simp only [z, EditedText.overwrite, List.length_set]

theorem InRange.replaceAsCoded (h : t.InRange) (pos : ℤ) (ch : Ichar rep) : (t.replaceAsCoded pos ch).InRange := by
  have hd := h.delete pos (pos + 1)
  by_cases hlen : ch.bytes.length = t.charLenAt pos
  · rw [EditedText.replaceAsCoded, if_pos hlen]
    exact h.overwrite pos ch
  · rw [EditedText.replaceAsCoded, if_neg hlen]
    dsimp only
    generalize (if pos ≥ (t.delete pos (pos + 1)).zv then (t.delete pos (pos + 1)).zv - 1 else pos) = p
    by_cases hp : p < (t.delete pos (pos + 1)).begv
    · rw [if_pos hp]
      exact hd
    · rw [if_neg hp]
      exact hd.insert _ _ _

theorem narrow_inRange (h1 : 1 ≤ start) (hle : start ≤ stop) (hstop : stop ≤ t.z) :
    (t.narrow start stop).InRange := by
  rw [narrow_eq t hle]
  refine ⟨?_, ?_, ?_, ?_⟩
  · rw [setPoint_begv]
    exact h1
  · rw [setPoint_begv, setPoint_pt]
    show start ≤ _
    split_ifs <;> omega
  · rw [setPoint_zv, setPoint_pt]
    show _ ≤ stop
    split_ifs <;> omega
  · rw [setPoint_zv, z, setPoint_chars]
    exact hstop

theorem InRange.stepAsCoded {t' : EditedText rep} {op : BufferOp rep} (h : t.InRange)
    (hs : t.stepAsCoded op = some t') : t'.InRange := by
  cases op with
  | insert pos str beforeMarkers =>
    obtain rfl := Option.some.inj hs
    exact h.insert pos str beforeMarkers
  | delete start stop =>
    obtain rfl := Option.some.inj hs
    exact h.delete start stop
  | unchainMarker addr =>
    obtain rfl := Option.some.inj hs
    exact ⟨h.begv, h.begv_le_pt, h.pt_le_zv, h.zv_le_z⟩
  | replace pos ch =>
    rw [EditedText.stepAsCoded, stepWith] at hs
    split_ifs at hs
    obtain rfl := Option.some.inj hs
    exact h.replaceAsCoded pos ch
  | setPoint pos =>
    rw [EditedText.stepAsCoded, stepWith] at hs
    split_ifs at hs with hpos
    obtain rfl := Option.some.inj hs
    exact h.setPoint hpos
  | narrow start stop =>
    rw [EditedText.stepAsCoded, stepWith] at hs
    split_ifs at hs with hrange
    obtain rfl := Option.some.inj hs
    exact narrow_inRange hrange.1 hrange.2.1 hrange.2.2
  | _ =>
    rw [EditedText.stepAsCoded, stepWith] at hs
    split_ifs at hs
    obtain rfl := Option.some.inj hs
    exact ⟨h.begv, h.begv_le_pt, h.pt_le_zv, h.zv_le_z⟩

end EditedText

end XEmacs.Text
