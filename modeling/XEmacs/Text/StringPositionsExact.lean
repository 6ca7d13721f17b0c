import XEmacs.Text.StringPositions

/-! When the byte version of a string position is the byte index of the character version. -/

namespace XEmacs.Text

variable {fmt : TextFormat}

namespace LispString

variable (s : LispString fmt) {i j : ℕ}

/-- The byte index of a character index, by a scan of the string and the zero byte after it. -/
def byteIndex (i : ℕ) : ℕ := charcountToBytecount fmt.rep s.data i

theorem byteIndex_eq (i : ℕ) : s.byteIndex i = (itextBytes ((s.chars ++ [nul fmt]).take i)).length :=
  charcountToBytecount_itextBytes _ i

theorem byteIndex_of_le (h : i ≤ s.chars.length) : s.byteIndex i = (itextBytes (s.chars.take i)).length := by
  rw [byteIndex_eq, List.take_append_of_le_length h]

@[simp] theorem byteIndex_zero : s.byteIndex 0 = 0 := by simp [byteIndex_eq]

@[simp] theorem byteIndex_length : s.byteIndex s.chars.length = s.length := by
  rw [byteIndex_of_le s (Nat.le_refl _), List.take_length, length]

theorem byteIndex_succ {c : Ichar fmt.rep} (h : (s.chars ++ [nul fmt])[i]? = some c) :
    s.byteIndex (i + 1) = s.byteIndex i + c.bytes.length := by
  rw [byteIndex_eq, byteIndex_eq, List.take_add_one, h, itextBytes_append, List.length_append]
  simp

theorem byteIndex_lt (hij : i < j) (hj : j ≤ s.chars.length + 1) : s.byteIndex i < s.byteIndex j := by
  induction j with
  | zero => cases hij
  | succ j ih =>
    have hlt : j < (s.chars ++ [nul fmt]).length := by
      rw [List.length_append, List.length_singleton]
      exact hj
    obtain ⟨c, hc⟩ : ∃ c, (s.chars ++ [nul fmt])[j]? = some c := ⟨_, List.getElem?_eq_getElem hlt⟩
    rw [s.byteIndex_succ hc]
    have := c.length_bytes_pos
    rcases Nat.lt_succ_iff_lt_or_eq.mp hij with hlt | rfl
    · have := ih hlt (Nat.le_of_succ_le hj)
      omega
    · omega

theorem getElem?_nul {c : Ichar fmt.rep} (h : s.chars[i]? = some c) : (s.chars ++ [nul fmt])[i]? = some c := by
  rw [List.getElem?_append_left (List.getElem?_eq_some_iff.mp h).1, h]

/-! ### The scans -/

theorem take_asciiEnd_length (h : i ≤ s.asciiEnd) : s.byteIndex i = i := by
  have hle : i ≤ s.chars.length := h.trans s.asciiEnd_le
  induction i with
  | zero => exact s.byteIndex_zero
  | succ i ih =>
    obtain ⟨c, hc⟩ : ∃ c, s.chars[i]? = some c := ⟨_, List.getElem?_eq_getElem hle⟩
    have hmem : c ∈ s.chars.take s.asciiEnd := by
      refine List.mem_of_getElem? (i := i) ?_
      rw [List.getElem?_take_of_lt h, hc]
    rw [s.byteIndex_succ (s.getElem?_nul hc), ih (Nat.le_of_succ_le h) (Nat.le_of_succ_le hle), Ichar.bytes, s.ascii c hmem]
    rfl

theorem drop_asciiEnd_data : s.data.drop s.asciiEnd = itextBytes (s.chars.drop s.asciiEnd ++ [nul fmt]) := by
  have hsplit : s.data = itextBytes (s.chars.take s.asciiEnd) ++
      itextBytes (s.chars.drop s.asciiEnd ++ [nul fmt]) := by
    rw [← itextBytes_append, ← List.append_assoc, List.take_append_drop, data]
  have hlen : (itextBytes (s.chars.take s.asciiEnd)).length = s.asciiEnd := by
    rw [← byteIndex_of_le s s.asciiEnd_le, take_asciiEnd_length s (Nat.le_refl _)]
  rw [hsplit, List.drop_left' hlen]

theorem stringIndexCharToByte_eq (h : i ≤ s.chars.length) : s.stringIndexCharToByte i = s.byteIndex i := by
  rw [stringIndexCharToByte]
  split_ifs with hascii
  · rw [take_asciiEnd_length s hascii]
  · have hlen : (itextBytes (s.chars.take s.asciiEnd)).length = s.asciiEnd := by
      rw [← byteIndex_of_le s s.asciiEnd_le, take_asciiEnd_length s (Nat.le_refl _)]
    have htake : s.chars.take i =
        s.chars.take s.asciiEnd ++ (s.chars.drop s.asciiEnd).take (i - s.asciiEnd) := by
      rw [← List.take_add]
      congr 1
      omega
    rw [drop_asciiEnd_data, charcountToBytecount_itextBytes, byteIndex_of_le s h, htake, itextBytes_append,
      List.length_append, hlen, List.take_append_of_le_length]
    rw [List.length_drop]
    omega

theorem stringCharLength_eq : s.stringCharLength = s.chars.length := by
  have hlen : (itextBytes (s.chars.take s.asciiEnd)).length = s.asciiEnd := by
    rw [← byteIndex_of_le s s.asciiEnd_le, take_asciiEnd_length s (Nat.le_refl _)]
  have hbytes : s.length = s.asciiEnd + (itextBytes (s.chars.drop s.asciiEnd)).length := by
    rw [length, ← hlen, ← List.length_append, ← itextBytes_append, hlen, List.take_append_drop]
  have hchars := s.asciiEnd_le
  have hle := length_le_length_itextBytes (s.chars.drop s.asciiEnd)
  rw [List.length_drop] at hle
  rw [stringCharLength, stringIndexByteToChar]
  split_ifs with hascii
  · have hdrop : (itextBytes (s.chars.drop s.asciiEnd)).length = 0 := by omega
    omega
  · rw [drop_asciiEnd_data, hbytes, Nat.add_sub_cancel_left, itextBytes_append, List.take_left,
      bytecountToCharcount_itextBytes, List.length_drop]
    omega

theorem firstByteP_data {c : Ichar fmt.rep} (h : s.chars[i]? = some c) {k : ℕ} (hk : k < c.bytes.length) :
    fmt.firstByteP (s.data.getD (s.byteIndex i + k) 0) = decide (k = 0) := by
  have hlt : i < s.chars.length := (List.getElem?_eq_some_iff.mp h).1
  have hsplit : s.data = itextBytes (s.chars.take i) ++
      (c.bytes ++ itextBytes (s.chars.drop (i + 1) ++ [nul fmt])) := by
    have hchars : s.chars = s.chars.take i ++ c :: s.chars.drop (i + 1) := by
      rw [← (List.getElem?_eq_some_iff.mp h).2, ← List.drop_eq_getElem_cons, List.take_append_drop]
    rw [data]
    nth_rewrite 1 [hchars]
    rw [List.append_assoc, itextBytes_append, List.cons_append, itextBytes_cons]
  have hvalid := s.valid c (List.mem_of_getElem? h)
  rw [hsplit, byteIndex_of_le s hlt.le, List.getD_eq_getElem?_getD,
    List.getElem?_append_right (Nat.le_add_right _ _), Nat.add_sub_cancel_left, List.getElem?_append_left hk]
  cases k with
  | zero => simpa [Ichar.bytes] using hvalid.1
  | succ k =>
    have hk' : k < c.rest.length := by simpa [Ichar.bytes] using hk
    have hbyte := hvalid.2 (c.rest[k]) (List.getElem_mem hk')
    simpa [Ichar.bytes, hk'] using hbyte

theorem prevStringIndex_succ (h : i < s.chars.length) :
    s.prevStringIndex (s.byteIndex (i + 1)) = s.byteIndex i := by
  obtain ⟨c, hc⟩ : ∃ c, s.chars[i]? = some c := ⟨_, List.getElem?_eq_getElem h⟩
  have main : ∀ k < c.bytes.length, s.prevStringIndex (s.byteIndex i + (k + 1)) = s.byteIndex i := by
    intro k
    induction k with
    | zero =>
      intro hk
      have hfirst := s.firstByteP_data hc hk
      rw [Nat.add_zero] at hfirst
      rw [Nat.zero_add, prevStringIndex, hfirst]
      rfl
    | succ k ih =>
      intro hk
      rw [← Nat.add_assoc, prevStringIndex, s.firstByteP_data hc hk]
      exact ih (Nat.lt_of_succ_lt hk)
  have hpos := c.length_bytes_pos
  rw [s.byteIndex_succ (s.getElem?_nul hc)]
  obtain ⟨k, hk⟩ : ∃ k, c.bytes.length = k + 1 := ⟨c.bytes.length - 1, by omega⟩
  rw [hk]
  exact main k (by omega)

theorem walkBack_eq (n : ℕ) : ∀ i ≤ s.chars.length, s.walkBack n (s.byteIndex i) = (n - i, s.byteIndex (i - n)) := by
  induction n with
  | zero => intro i _; simp [walkBack]
  | succ n ih =>
    intro i hi
    rw [walkBack]
    cases i with
    | zero => simp
    | succ i =>
      have hpos : s.byteIndex (i + 1) > 0 := by
        have hlt := s.byteIndex_lt (Nat.succ_pos i) (Nat.le_succ_of_le hi)
        rwa [byteIndex_zero] at hlt
      rw [if_pos hpos, s.prevStringIndex_succ hi, ih i (Nat.le_of_succ_le hi)]
      congr 1
      · omega
      · rw [Nat.add_sub_add_right]

theorem length_le : s.length ≤ fmt.maxIcharLen * s.chars.length := by
  have main : ∀ cs : List (Ichar fmt.rep), (∀ c ∈ cs, c.Valid fmt.firstByteP) →
      (itextBytes cs).length ≤ fmt.maxIcharLen * cs.length := by
    intro cs
    induction cs with
    | nil => intro _; simp
    | cons c cs ih =>
      intro hvalid
      obtain ⟨hc, hcs⟩ := List.forall_mem_cons.mp hvalid
      have := fmt.rep_le c.first hc.1
      rw [itextBytes_cons, List.length_append, c.length_bytes, List.length_cons, Nat.mul_succ]
      have := ih hcs
      omega
  exact main s.chars s.valid

theorem rep_headD_data : fmt.rep (s.data.headD 0) = s.byteIndex 1 := by
  rw [byteIndex_eq, data]
  cases s.chars with
  | nil => simp [nul, Ichar.bytes, fmt.rep_zero]
  | cons c cs => simp [Ichar.bytes, ← c.size]

theorem prevStringIndex_length (h : 0 < s.chars.length) :
    s.prevStringIndex s.length = s.byteIndex (s.chars.length - 1) := by
  have hprev := s.prevStringIndex_succ (i := s.chars.length - 1) (by omega)
  rwa [Nat.sub_add_cancel h, byteIndex_length] at hprev

theorem length_div_le : (s.length : ℤ) / fmt.maxIcharLen ≤ s.chars.length := by
  have hle := s.length_le
  refine Int.ediv_le_of_le_mul ?_ ?_
  · have := fmt.rep_le 0 fmt.firstByteP_zero
    rw [fmt.rep_zero] at this
    omega
  · rw [Int.mul_comm]
    exact_mod_cast hle

/-! ### What the byte version computes -/

def maxAllowed (flags : PosFlags) : ℤ := s.chars.length - flagInt flags.needCharAfter

/-- The byte version, with the length in characters known. -/
def decodeByte (flags : PosFlags) (ccpos : ℤ) : Except PosError ℤ :=
  if ccpos < flagInt flags.needCharBefore then
    if flags.coerceRange then .ok (s.byteIndex (flagInt flags.needCharBefore).toNat) else badPos flags
  else if ccpos > s.maxAllowed flags then
    if flags.coerceRange ∧ s.maxAllowed flags ≥ 0 then .ok (s.byteIndex (s.maxAllowed flags).toNat)
    else badPos flags
  else .ok (s.byteIndex ccpos.toNat)

variable {flags : PosFlags} {ccpos charLength maxCposAllowed : ℤ}

theorem flagInt_nonneg (b : Bool) : 0 ≤ flagInt b := by cases b <;> decide

theorem le_maxAllowed (h : ¬ ccpos > (s.length : ℤ) / fmt.maxIcharLen - fmt.maxIcharLen * flagInt flags.needCharAfter) :
    ccpos ≤ s.maxAllowed flags := by
  have hdiv := s.length_div_le
  have hlen : (1 : ℤ) ≤ fmt.maxIcharLen := by
    have := fmt.rep_le 0 fmt.firstByteP_zero
    rw [fmt.rep_zero] at this
    exact_mod_cast this
  rw [maxAllowed]
  cases hafter : flags.needCharAfter with
  | false =>
    rw [hafter] at h
    simp only [flagInt, Bool.false_eq_true, ↓reduceIte, Int.mul_zero] at h ⊢
    omega
  | true =>
    rw [hafter] at h
    simp only [flagInt, ↓reduceIte, Int.mul_one] at h ⊢
    omega

theorem toNat_le_length (h : ccpos ≤ s.maxAllowed flags) : ccpos.toNat ≤ s.chars.length := by
  have := flagInt_nonneg flags.needCharAfter
  rw [maxAllowed] at h
  omega

theorem minByte_eq (flags : PosFlags) : (if flags.needCharBefore then (fmt.rep (s.data.headD 0) : ℤ) else 0) =
    s.byteIndex (flagInt flags.needCharBefore).toNat := by
  cases flags.needCharBefore with
  | false => simp [flagInt]
  | true => rw [if_pos rfl, rep_headD_data]; rfl

theorem maxByte_eq (h : s.maxAllowed flags ≥ 0) :
    (if flags.needCharAfter then (s.prevStringIndex s.length : ℤ) else s.length) =
      s.byteIndex (s.maxAllowed flags).toNat := by
  rw [maxAllowed] at h ⊢
  cases hafter : flags.needCharAfter with
  | false => simp [flagInt]
  | true =>
    rw [hafter, flagInt, if_pos rfl] at h
    rw [if_pos rfl, prevStringIndex_length s (by omega), flagInt, if_pos rfl]
    congr 2
    omega

theorem checkPosByte_eq (h : (charLength < 0 ∧ ccpos ≤ maxCposAllowed) ∨
    (0 ≤ charLength ∧ maxCposAllowed = s.maxAllowed flags)) :
    s.checkPosByte flags ccpos charLength maxCposAllowed = s.decodeByte flags ccpos := by
  rw [checkPosByte, decodeByte]
  by_cases hlow : ccpos < flagInt flags.needCharBefore
  · rw [if_pos hlow, if_pos hlow, minByte_eq]
  rw [if_neg hlow, if_neg hlow]
  simp only [stringCharLength_eq]
  set maxCpos := if charLength < 0 ∧
      ccpos > (s.length : ℤ) / fmt.maxIcharLen - fmt.maxIcharLen * flagInt flags.needCharAfter then
      (s.chars.length : ℤ) - flagInt flags.needCharAfter
    else maxCposAllowed with hmaxCpos
  have hcases : maxCpos = s.maxAllowed flags ∨ (ccpos ≤ maxCpos ∧ ccpos ≤ s.maxAllowed flags) := by
    rw [hmaxCpos]
    split_ifs with hcount
    · exact Or.inl rfl
    · rcases h with ⟨hneg, hle⟩ | ⟨-, hmax⟩
      · exact Or.inr ⟨hle, s.le_maxAllowed fun hlt => hcount ⟨hneg, hlt⟩⟩
      · exact Or.inl hmax
  rcases hcases with hmax | ⟨hle, hle'⟩
  · rw [hmax]
    by_cases hhigh : ccpos > s.maxAllowed flags
    · rw [if_pos hhigh, if_pos hhigh]
      by_cases hcoerce : flags.coerceRange = true ∧ s.maxAllowed flags ≥ 0
      · rw [if_pos hcoerce, if_pos hcoerce, maxByte_eq s hcoerce.2]
      · rw [if_neg hcoerce, if_neg hcoerce]
    · rw [if_neg hhigh, if_neg hhigh, s.stringIndexCharToByte_eq (toNat_le_length s (Int.not_lt.mp hhigh))]
  · rw [if_neg (Int.not_lt.mpr hle), if_neg (Int.not_lt.mpr hle'),
      s.stringIndexCharToByte_eq (toNat_le_length s hle')]

def shifted (pos : Fixnum) (flags : PosFlags) : ℤ :=
  if pos.val < 0 ∧ flags.negativeFromEnd then pos.val + s.chars.length else pos.val

theorem shortcut_eq {pos : Fixnum} {bpos : ℕ} (h : s.shortcut pos flags = some bpos) (hpos : pos.val < 0) :
    s.decodeByte flags (pos.val + s.chars.length) = .ok bpos := by
  rw [shortcut] at h
  split_ifs at h with hflags
  rw [← byteIndex_length, walkBack_eq s _ _ (Nat.le_refl _)] at h
  simp only at h
  split_ifs at h with hwalk
  obtain rfl := Option.some.inj h
  have hle : pos.val.natAbs ≤ s.chars.length := by omega
  obtain ⟨-, hafter, hbefore⟩ := hflags
  rw [Bool.not_eq_true'] at hafter hbefore
  rw [decodeByte, maxAllowed, hafter, hbefore]
  simp only [flagInt, Bool.false_eq_true, ↓reduceIte]
  rw [if_neg (by omega), if_neg (by omega)]
  congr 3
  omega

theorem getStringPosByte1_eq {pos : Fixnum} (h : charLength = -1 ∨ charLength = s.chars.length) :
    s.getStringPosByte1 pos flags charLength = s.decodeByte flags (s.shifted pos flags) := by
  rw [getStringPosByte1, shifted]
  by_cases hneg : pos.val < 0 ∧ flags.negativeFromEnd = true
  · rw [if_pos hneg, if_pos hneg]
    split
    · next bpos hshort =>
      split_ifs at hshort with hlength
      exact (shortcut_eq s hshort hneg.1).symm
    · simp only [stringCharLength_eq]
      have hlength : (if charLength < 0 then (s.chars.length : ℤ) else charLength) = s.chars.length := by
        rcases h with rfl | rfl
        · rfl
        · rw [if_neg (by omega)]
      rw [hlength]
      exact s.checkPosByte_eq (Or.inr ⟨by omega, rfl⟩)
  · rw [if_neg hneg, if_neg hneg]
    refine s.checkPosByte_eq ?_
    rcases h with rfl | rfl
    · have := pos.le
      exact Or.inl ⟨by decide, by rw [if_pos (by decide)]; omega⟩
    · exact Or.inr ⟨by omega, by rw [if_neg (by omega)]; rfl⟩

/-! ### The two versions -/

/-- The byte index of a position that was decoded, where -1 is no position. -/
def toByte (cpos : ℤ) : ℤ := if cpos < 0 then cpos else s.byteIndex cpos.toNat

/-- The character version, once a negative position has been dealt with. -/
def decodeChar (flags : PosFlags) (ccpos : ℤ) : Except PosError ℤ :=
  if ccpos < flagInt flags.needCharBefore ∨ ccpos > s.maxAllowed flags then
    if flags.coerceRange then
      .ok (if ccpos < flagInt flags.needCharBefore then flagInt flags.needCharBefore else s.maxAllowed flags)
    else badPos flags
  else .ok ccpos

theorem getStringPosChar1_eq (pos : Fixnum) (flags : PosFlags) :
    getStringPosChar1 pos flags s.chars.length = s.decodeChar flags
      (if pos.val < 0 ∧ flags.negativeFromEnd then pos.val + s.maxAllowed flags else pos.val) := by
  have hmax : (if flags.needCharAfter then (s.chars.length : ℤ) - 1 else s.chars.length) = s.maxAllowed flags := by
    rw [maxAllowed]
    cases flags.needCharAfter <;> simp [flagInt]
  rw [getStringPosChar1, hmax, decodeChar]

theorem toByte_of_nonneg {cpos : ℤ} (h : 0 ≤ cpos) : s.toByte cpos = s.byteIndex cpos.toNat :=
  if_neg (Int.not_lt.mpr h)

theorem toByte_neg : s.toByte (-1) = -1 := rfl

theorem map_badPos (flags : PosFlags) : (badPos flags).map s.toByte = badPos flags := by
  rw [badPos]
  cases flags.noErrorIfBad <;> rfl

theorem maxAllowed_ge (flags : PosFlags) : -1 ≤ s.maxAllowed flags := by
  rw [maxAllowed]
  cases flags.needCharAfter <;> simp only [flagInt] <;> omega

theorem decodeByte_eq_iff (ccpos : ℤ) : s.decodeByte flags ccpos = (s.decodeChar flags ccpos).map s.toByte ↔
    ¬ (s.maxAllowed flags < 0 ∧ flags.coerceRange = true ∧ flags.noErrorIfBad = false ∧
      flagInt flags.needCharBefore ≤ ccpos) := by
  have hmin := flagInt_nonneg flags.needCharBefore
  rw [decodeByte, decodeChar]
  by_cases hlow : ccpos < flagInt flags.needCharBefore
  · rw [if_pos hlow, if_pos (Or.inl hlow), if_pos hlow]
    refine iff_of_true ?_ fun h => absurd h.2.2.2 (by omega)
    by_cases hcoerce : flags.coerceRange = true
    · rw [if_pos hcoerce, if_pos hcoerce, ← s.toByte_of_nonneg hmin]
      rfl
    · rw [if_neg hcoerce, if_neg hcoerce, map_badPos]
  rw [if_neg hlow, if_neg hlow]
  by_cases hhigh : ccpos > s.maxAllowed flags
  · rw [if_pos hhigh, if_pos (Or.inr hhigh)]
    by_cases hcoerce : flags.coerceRange = true
    · rw [if_pos hcoerce]
      by_cases hmax : s.maxAllowed flags ≥ 0
      · rw [if_pos ⟨hcoerce, hmax⟩, ← s.toByte_of_nonneg hmax]
        exact iff_of_true rfl fun h => absurd h.1 (by omega)
      · have hneg : s.maxAllowed flags = -1 := by
          have := s.maxAllowed_ge flags
          omega
        rw [if_neg fun h => hmax h.2, hneg, badPos, Except.map, toByte_neg]
        cases hbad : flags.noErrorIfBad with
        | true => exact iff_of_true rfl fun h => absurd h.2.2.1 (by decide)
        | false =>
          refine iff_of_false (fun h => by cases h) (not_not_intro ⟨by decide, hcoerce, rfl, ?_⟩)
          omega
    · rw [if_neg fun h => hcoerce h.1, if_neg hcoerce, map_badPos]
      exact iff_of_true rfl fun h => hcoerce h.2.1
  · rw [if_neg hhigh, if_neg (not_or.mpr ⟨hlow, hhigh⟩), Except.map, s.toByte_of_nonneg (by omega)]
    refine iff_of_true rfl fun h => ?_
    omega

/-- A negative position that the character version counts from one character before the end, and
which ends up elsewhere for it. -/
def Misplaced (pos : Fixnum) (flags : PosFlags) : Prop :=
  pos.val < 0 ∧ flags.negativeFromEnd = true ∧ flags.needCharAfter = true ∧
    flagInt flags.needCharBefore ≤ pos.val + s.chars.length ∧
    ¬ (flags.coerceRange = true ∧ pos.val + s.chars.length = flagInt flags.needCharBefore)

/-- A position in an empty string that has to have a character after it. -/
def CoercedToNone (pos : Fixnum) (flags : PosFlags) : Prop :=
  s.chars = [] ∧ flags.needCharAfter = true ∧ flags.coerceRange = true ∧ flags.noErrorIfBad = false ∧
    flagInt flags.needCharBefore ≤ pos.val

theorem toByte_lt {a b : ℤ} (ha : -1 ≤ a) (hab : a < b) (hb : b ≤ s.chars.length + 1) : s.toByte a < s.toByte b := by
  rw [s.toByte_of_nonneg (show 0 ≤ b by omega), toByte]
  split_ifs with hneg
  · omega
  · exact_mod_cast s.byteIndex_lt (show a.toNat < b.toNat by omega) (by omega)

theorem maxAllowed_neg_iff : s.maxAllowed flags < 0 ↔ s.chars = [] ∧ flags.needCharAfter = true := by
  rw [maxAllowed, ← List.length_eq_zero_iff]
  cases flags.needCharAfter <;> simp [flagInt]

theorem misplaced_values {pos : Fixnum} (h : s.Misplaced pos flags) :
    s.decodeByte flags (s.shifted pos flags) = .ok (s.toByte (pos.val + s.chars.length)) ∧
      0 ≤ pos.val + s.chars.length ∧
      ((∃ c, getStringPosChar1 pos flags s.chars.length = .ok c ∧ -1 ≤ c ∧ c < pos.val + s.chars.length) ∨
        getStringPosChar1 pos flags s.chars.length = .error .argsOutOfRange) := by
  obtain ⟨hneg, hfrom, hafter, hmin, hnot⟩ := h
  have hnonneg := flagInt_nonneg flags.needCharBefore
  have hmax : s.maxAllowed flags = s.chars.length - 1 := by rw [maxAllowed, hafter]; rfl
  refine ⟨?_, by omega, ?_⟩
  · rw [shifted, if_pos ⟨hneg, hfrom⟩, decodeByte, if_neg (by omega), if_neg (by omega), s.toByte_of_nonneg (by omega)]
  · rw [getStringPosChar1_eq, if_pos ⟨hneg, hfrom⟩, decodeChar, hmax]
    by_cases hlow : pos.val + ((s.chars.length : ℤ) - 1) < flagInt flags.needCharBefore
    · rw [if_pos (Or.inl hlow), if_neg fun hcoerce => hnot ⟨hcoerce, by omega⟩, badPos]
      cases flags.noErrorIfBad with
      | true => exact Or.inl ⟨-1, rfl, by decide, by omega⟩
      | false => exact Or.inr rfl
    · rw [if_neg (by omega)]
      exact Or.inl ⟨_, rfl, by omega, by omega⟩

theorem not_misplaced_eq {pos : Fixnum} (h : ¬ s.Misplaced pos flags) (hnone : ¬ s.CoercedToNone pos flags) :
    s.decodeByte flags (s.shifted pos flags) =
      (getStringPosChar1 pos flags s.chars.length).map s.toByte := by
  rw [getStringPosChar1_eq, shifted]
  by_cases hneg : pos.val < 0 ∧ flags.negativeFromEnd = true
  · rw [if_pos hneg, if_pos hneg]
    cases hafter : flags.needCharAfter with
    | false =>
      have hmax : s.maxAllowed flags = s.chars.length := by
        rw [maxAllowed, hafter]
        simp [flagInt]
      rw [hmax, decodeByte_eq_iff, hmax]
      omega
    | true =>
      have hmax : s.maxAllowed flags = s.chars.length - 1 := by rw [maxAllowed, hafter]; rfl
      have hnonneg := flagInt_nonneg flags.needCharBefore
      rw [decodeByte, decodeChar, hmax]
      by_cases hlow : pos.val + (s.chars.length : ℤ) < flagInt flags.needCharBefore
      · have hlow' : pos.val + ((s.chars.length : ℤ) - 1) < flagInt flags.needCharBefore := by omega
        rw [if_pos hlow, if_pos (Or.inl hlow'), if_pos hlow', ← s.toByte_of_nonneg hnonneg]
        by_cases hcoerce : flags.coerceRange = true
        · rw [if_pos hcoerce, if_pos hcoerce]
          rfl
        · rw [if_neg hcoerce, if_neg hcoerce, map_badPos]
      · obtain ⟨hcoerce, hmin⟩ : flags.coerceRange = true ∧
            pos.val + s.chars.length = flagInt flags.needCharBefore := by
          by_contra hnot
          exact h ⟨hneg.1, hneg.2, hafter, by omega, hnot⟩
        have hlow' : pos.val + ((s.chars.length : ℤ) - 1) < flagInt flags.needCharBefore := by omega
        rw [if_neg hlow, if_neg (by omega), if_pos (Or.inl hlow'), if_pos hcoerce, if_pos hlow', hmin,
          ← s.toByte_of_nonneg hnonneg]
        rfl
  · rw [if_neg hneg, if_neg hneg, decodeByte_eq_iff, maxAllowed_neg_iff]
    rintro ⟨⟨hempty, hafter⟩, hcoerce, hbad, hmin⟩
    exact hnone ⟨hempty, hafter, hcoerce, hbad, hmin⟩

theorem getStringPos_iff (pos : Fixnum) (flags : PosFlags) :
    s.getStringPosByte pos flags = (s.getStringPosChar pos flags).map s.toByte ↔
      ¬ s.Misplaced pos flags ∧ ¬ s.CoercedToNone pos flags := by
  rw [getStringPosByte, s.getStringPosByte1_eq (Or.inl rfl), getStringPosChar, stringCharLength_eq]
  constructor
  · refine fun heq => ⟨fun hmis => ?_, fun hnone => ?_⟩
    · obtain ⟨hbyte, hnonneg, ⟨c, hc, hge, hlt⟩ | herror⟩ := s.misplaced_values hmis
      · rw [hbyte, hc] at heq
        have hval : s.toByte (pos.val + s.chars.length) = s.toByte c := Except.ok.inj heq
        have := s.toByte_lt hge hlt (by have := hmis.1; omega)
        omega
      · rw [hbyte, herror] at heq
        cases heq
    · obtain ⟨hempty, hafter, hcoerce, hbad, hmin⟩ := hnone
      have hnonneg := flagInt_nonneg flags.needCharBefore
      rw [getStringPosChar1_eq, shifted, if_neg (by omega), if_neg (by omega), decodeByte_eq_iff,
        maxAllowed_neg_iff] at heq
      exact heq ⟨⟨hempty, hafter⟩, hcoerce, hbad, hmin⟩
  · rintro ⟨hmis, hnone⟩
    exact s.not_misplaced_eq hmis hnone

/-! ### Ranges -/

/-- A position that the byte version takes for out of range and does not coerce. -/
def OutOfRange (pos : Fixnum) (flags : PosFlags) : Prop :=
  (s.shifted pos flags < flagInt flags.needCharBefore ∧ flags.coerceRange = false) ∨
    (flagInt flags.needCharBefore ≤ s.shifted pos flags ∧ s.shifted pos flags > s.maxAllowed flags ∧
      ¬ (flags.coerceRange = true ∧ s.maxAllowed flags ≥ 0))

theorem decodeByte_ok {pos : Fixnum} (h : flags.noErrorIfBad = true) :
    ∃ b, s.decodeByte flags (s.shifted pos flags) = .ok b ∧ (b < 0 ↔ s.OutOfRange pos flags) := by
  have hbad : badPos flags = .ok (-1) := if_pos h
  rw [decodeByte, OutOfRange]
  by_cases hlow : s.shifted pos flags < flagInt flags.needCharBefore
  · rw [if_pos hlow]
    by_cases hcoerce : flags.coerceRange = true
    · rw [if_pos hcoerce]
      refine ⟨_, rfl, iff_of_false (by omega) ?_⟩
      rintro (⟨-, hnot⟩ | ⟨hge, -⟩)
      · rw [hcoerce] at hnot
        cases hnot
      · omega
    · rw [if_neg hcoerce, hbad]
      exact ⟨-1, rfl, iff_of_true (by decide) (Or.inl ⟨hlow, Bool.eq_false_iff.mpr hcoerce⟩)⟩
  · rw [if_neg hlow]
    by_cases hhigh : s.shifted pos flags > s.maxAllowed flags
    · rw [if_pos hhigh]
      by_cases hcoerce : flags.coerceRange = true ∧ s.maxAllowed flags ≥ 0
      · rw [if_pos hcoerce]
        refine ⟨_, rfl, iff_of_false (by omega) ?_⟩
        rintro (⟨hlt, -⟩ | ⟨-, -, hnot⟩)
        · exact hlow hlt
        · exact hnot hcoerce
      · rw [if_neg hcoerce, hbad]
        exact ⟨-1, rfl, iff_of_true (by decide) (Or.inr ⟨Int.not_lt.mp hlow, hhigh, hcoerce⟩)⟩
    · rw [if_neg hhigh]
      refine ⟨_, rfl, iff_of_false (by omega) ?_⟩
      rintro (⟨hlt, -⟩ | ⟨-, hgt, -⟩)
      · exact hlow hlt
      · exact hhigh hgt

theorem getStringPosChar1_ok {pos : Fixnum} (h : flags.noErrorIfBad = true) :
    ∃ c, getStringPosChar1 pos flags s.chars.length = .ok c ∧ -1 ≤ c ∧ c ≤ s.chars.length + 1 := by
  have hbad : badPos flags = .ok (-1) := if_pos h
  have hmax := s.maxAllowed_ge flags
  have hle : s.maxAllowed flags ≤ s.chars.length := by
    have := flagInt_nonneg flags.needCharAfter
    rw [maxAllowed]
    omega
  have hmin : 0 ≤ flagInt flags.needCharBefore ∧ flagInt flags.needCharBefore ≤ 1 := by
    cases flags.needCharBefore <;> decide
  rw [getStringPosChar1_eq, decodeChar, hbad]
  split_ifs
  · exact ⟨_, rfl, by omega, by omega⟩
  · exact ⟨_, rfl, by omega, by omega⟩
  · exact ⟨-1, rfl, by omega, by omega⟩
  · exact ⟨_, rfl, by omega, by omega⟩
  all_goals exact ⟨_, rfl, by omega, by omega⟩

structure RangeValues (pos : Fixnum) (flags : PosFlags) (b c : ℤ) : Prop where
  byte : s.decodeByte { flags with noErrorIfBad := true } (s.shifted pos flags) = .ok b
  char : getStringPosChar1 pos { flags with noErrorIfBad := true } s.chars.length = .ok c
  out : b < 0 ↔ s.OutOfRange pos flags
  ge : -1 ≤ c
  le : c ≤ s.chars.length + 1
  eq : ¬ s.Misplaced pos flags → b = s.toByte c
  lt : s.Misplaced pos flags → s.toByte c < b ∧ 0 ≤ b

theorem exists_rangeValues (pos : Fixnum) (flags : PosFlags) : ∃ b c, s.RangeValues pos flags b c := by
  obtain ⟨b, hb, hout⟩ := @decodeByte_ok _ s { flags with noErrorIfBad := true } pos rfl
  obtain ⟨c, hc, hge, hle⟩ := @getStringPosChar1_ok _ s { flags with noErrorIfBad := true } pos rfl
  refine ⟨b, c, hb, hc, hout, hge, hle, fun hmis => ?_, fun hmis => ?_⟩
  · have heq := @not_misplaced_eq _ s { flags with noErrorIfBad := true } pos hmis fun hnone => by
      cases hnone.2.2.2.1
    rw [hb, hc] at heq
    exact Except.ok.inj heq
  · have hlen := hmis.1
    obtain ⟨hbyte, hnonneg, ⟨c', hc', hge', hlt'⟩ | herror⟩ :=
      @misplaced_values _ s { flags with noErrorIfBad := true } pos hmis
    · obtain rfl : c' = c := Except.ok.inj (hc'.symm.trans hc)
      obtain rfl : b = s.toByte (pos.val + s.chars.length) := Except.ok.inj (hb.symm.trans hbyte)
      refine ⟨s.toByte_lt hge hlt' (by omega), ?_⟩
      rw [s.toByte_of_nonneg hnonneg]
      omega
    · rw [hc] at herror
      cases herror

theorem toByte_neg_iff {c : ℤ} : s.toByte c < 0 ↔ c < 0 := by
  rw [toByte]
  split_ifs with h <;> omega

theorem toByte_lt_iff {a b : ℤ} (ha : -1 ≤ a) (ha' : a ≤ s.chars.length + 1) (hb : -1 ≤ b)
    (hb' : b ≤ s.chars.length + 1) : s.toByte a < s.toByte b ↔ a < b := by
  refine ⟨fun hlt => ?_, fun hlt => s.toByte_lt ha hlt hb'⟩
  by_contra hle
  rcases Int.le_iff_lt_or_eq.mp (Int.not_lt.mp hle) with hlt' | rfl
  · have := s.toByte_lt hb hlt' ha'
    omega
  · omega

theorem orderRange_toByte {c c' : ℤ} (hc : -1 ≤ c ∧ c ≤ s.chars.length + 1)
    (hc' : -1 ≤ c' ∧ c' ≤ s.chars.length + 1) (flags : RangeFlags) :
    orderRange flags (s.toByte c) (s.toByte c') = (orderRange flags c c').map (Prod.map s.toByte s.toByte) := by
  simp only [orderRange, s.toByte_neg_iff, ge_iff_le, ← Int.not_lt, gt_iff_lt,
    s.toByte_lt_iff hc'.1 hc'.2 hc.1 hc.2]
  split_ifs <;> rfl

theorem orderRange_error {flags : RangeFlags} {b b' : ℤ} (hneg : b < 0 ∨ b' < 0) (h : flags.noErrorIfBad = false) :
    orderRange flags b b' = .error .argsOutOfRange := by
  rw [orderRange, h]
  exact if_pos ⟨hneg, rfl⟩

theorem orderRange_ok {flags : RangeFlags} {b b' : ℤ} (horder : flags.checkOrder = false)
    (h : ¬ (flags.noErrorIfBad = false ∧ (b < 0 ∨ b' < 0))) : ∃ r, orderRange flags b b' = .ok r := by
  rw [orderRange, if_neg fun hneg => h ⟨by simpa using hneg.2, hneg.1⟩, horder]
  simp only [Bool.false_eq_true, ↓reduceIte]
  split_ifs
  · exact ⟨_, rfl⟩
  · exact ⟨_, rfl⟩

theorem orderRange_sum {flags : RangeFlags} {b b' : ℤ} {r : ℤ × ℤ} (h : orderRange flags b b' = .ok r) :
    r = (b, b') ∨ r = (b', b) := by
  rw [orderRange] at h
  split_ifs at h
  · exact Or.inr (Except.ok.inj h).symm
  · exact Or.inl (Except.ok.inj h).symm

theorem getStringRange_values {start stop : Fixnum} {flags : PosFlags} {b c b' c' : ℤ}
    (h : s.RangeValues start flags b c) (h' : s.RangeValues stop flags b' c') :
    s.getStringRangeByte (some start) (some stop) ⟨flags, false, false⟩ = orderRange ⟨flags, false, false⟩ b b' ∧
      s.getStringRangeChar (some start) (some stop) ⟨flags, false, false⟩ =
        orderRange ⟨flags, false, false⟩ c c' := by
  have hlength : s.rangeCharLength ⟨flags, false, false⟩ (some start) = -1 ∨
      s.rangeCharLength ⟨flags, false, false⟩ (some start) = s.chars.length := by
    rw [rangeCharLength, stringCharLength_eq]
    split_ifs
    · exact Or.inr rfl
    · exact Or.inl rfl
  constructor
  · simp only [getStringRangeByte, rangePos]
    rw [s.getStringPosByte1_eq hlength, s.getStringPosByte1_eq hlength]
    have hb := h.byte
    have hb' := h'.byte
    simp only [shifted] at hb hb' ⊢
    simp only [hb, hb']
  · simp only [getStringRangeChar, rangePos, stringCharLength_eq, h.char, h'.char]

theorem getStringRange_iff (start stop : Fixnum) (flags : PosFlags) :
    s.getStringRangeByte (some start) (some stop) ⟨flags, false, false⟩ =
        (s.getStringRangeChar (some start) (some stop) ⟨flags, false, false⟩).map (Prod.map s.toByte s.toByte) ↔
      (flags.noErrorIfBad = false ∧ (s.OutOfRange start flags ∨ s.OutOfRange stop flags)) ∨
        (¬ s.Misplaced start flags ∧ ¬ s.Misplaced stop flags) := by
  obtain ⟨b, c, h⟩ := s.exists_rangeValues start flags
  obtain ⟨b', c', h'⟩ := s.exists_rangeValues stop flags
  obtain ⟨hbyte, hchar⟩ := s.getStringRange_values h h'
  rw [hbyte, hchar]
  by_cases hout : flags.noErrorIfBad = false ∧ (s.OutOfRange start flags ∨ s.OutOfRange stop flags)
  · refine iff_of_true ?_ (Or.inl hout)
    have hneg : ∀ {pos : Fixnum} {b c : ℤ}, s.RangeValues pos flags b c → b < 0 → c < 0 := by
      intro pos b c h hlt
      rw [h.eq fun hmis => by have := (h.lt hmis).2; omega, toByte_neg_iff] at hlt
      exact hlt
    obtain ⟨hbad, hout⟩ := hout
    rw [← h.out, ← h'.out] at hout
    rw [orderRange_error hout hbad, orderRange_error (hout.imp (hneg h) (hneg h')) hbad]
    rfl
  by_cases hmis : ¬ s.Misplaced start flags ∧ ¬ s.Misplaced stop flags
  · refine iff_of_true ?_ (Or.inr hmis)
    rw [h.eq hmis.1, h'.eq hmis.2]
    exact s.orderRange_toByte ⟨h.ge, h.le⟩ ⟨h'.ge, h'.le⟩ _
  · refine iff_of_false (fun heq => ?_) (not_or.mpr ⟨hout, hmis⟩)
    -- a misplaced end makes the sum of the two ends smaller for the character version
    have hle : ∀ {pos : Fixnum} {b c : ℤ}, s.RangeValues pos flags b c →
        s.toByte c ≤ b ∧ (s.Misplaced pos flags → s.toByte c < b) := by
      intro pos b c h
      refine ⟨?_, fun hmis => (h.lt hmis).1⟩
      by_cases hmis : s.Misplaced pos flags
      · exact (h.lt hmis).1.le
      · exact (h.eq hmis).ge
    rw [← h.out, ← h'.out] at hout
    obtain ⟨r, hr⟩ := @orderRange_ok ⟨flags, false, false⟩ b b' rfl hout
    rw [hr] at heq
    cases hr' : orderRange ⟨flags, false, false⟩ c c' with
    | error e =>
      rw [hr'] at heq
      cases heq
    | ok r' =>
      rw [hr'] at heq
      obtain rfl : r = Prod.map s.toByte s.toByte r' := Except.ok.inj heq
      have hsum : s.toByte r'.1 + s.toByte r'.2 = s.toByte c + s.toByte c' := by
        rcases orderRange_sum hr' with rfl | rfl
        · rfl
        · exact Int.add_comm _ _
      have hsum' : s.toByte r'.1 + s.toByte r'.2 = b + b' := by
        rcases orderRange_sum hr with heq' | heq'
        · exact congrArg₂ (· + ·) (congrArg Prod.fst heq') (congrArg Prod.snd heq')
        · rw [Int.add_comm b]
          exact congrArg₂ (· + ·) (congrArg Prod.fst heq') (congrArg Prod.snd heq')
      obtain ⟨hle₁, hlt₁⟩ := hle h
      obtain ⟨hle₂, hlt₂⟩ := hle h'
      rcases not_and_or.mp hmis with hmis | hmis
      · have := hlt₁ (not_not.mp hmis)
        omega
      · have := hlt₂ (not_not.mp hmis)
        omega

/-- The byte version of a position is the byte index of the character version exactly if neither is
misplaced, nor the string empty and the position coerced. -/
theorem stringPositions_iff (pos start stop : Fixnum) (flags : PosFlags) :
    (s.getStringPosByte pos flags = (s.getStringPosChar pos flags).map s.toByte ↔
      ¬ s.Misplaced pos flags ∧ ¬ s.CoercedToNone pos flags) ∧
    (s.getStringRangeByte (some start) (some stop) ⟨flags, false, false⟩ =
        (s.getStringRangeChar (some start) (some stop) ⟨flags, false, false⟩).map
          (Prod.map s.toByte s.toByte) ↔
      (flags.noErrorIfBad = false ∧ (s.OutOfRange start flags ∨ s.OutOfRange stop flags)) ∨
        (¬ s.Misplaced start flags ∧ ¬ s.Misplaced stop flags)) :=
  ⟨s.getStringPos_iff pos flags, s.getStringRange_iff start stop flags⟩

/-- The string `ab`. -/
def ab : LispString muleFormat where
  chars := [⟨97, [], rfl⟩, ⟨98, [], rfl⟩]
  asciiEnd := 2
  valid := by decide +kernel
  asciiEnd_le := by decide
  ascii := by decide +kernel

/-- Position -1 of `ab` with a character after it: `a` for the character version, `b` for the byte
version. -/
theorem ab_misplaced :
    getStringPosChar ab ⟨-1, by decide, by decide⟩ ⟨true, false, false, false, true⟩ = .ok 0 ∧
      getStringPosByte ab ⟨-1, by decide, by decide⟩ ⟨true, false, false, false, true⟩ = .ok 1 ∧
      ab.toByte 0 = 0 := by decide +kernel

end LispString

end XEmacs.Text
