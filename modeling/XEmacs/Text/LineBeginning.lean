import XEmacs.Text.LineNumberRuns

/-! The beginning of a line, as line-number.c finds it with the help of the cache. No result stands
for a scan for no newline at all, which `byte_scan_buffer` asserts against. -/

namespace XEmacs.Text

open Lib

/-- The loop that looks for the ring entry closest to a line: the position of an entry of that
line, or what to scan from and its line. -/
def closestLine (lineNumber : ℤ) : List RingPair → ℤ → ℤ → ℤ → ℤ ⊕ (ℤ × ℤ)
  | [], _, pos, line => .inr (pos, line)
  | pair :: ring, closest, pos, line =>
    if pair.start < 0 then closestLine lineNumber ring closest pos line
    else
      let howfar := pair.line - lineNumber
      if howfar = 0 then .inl pair.start
      else if |howfar| < closest then closestLine lineNumber ring |howfar| pair.start pair.line
      else closestLine lineNumber ring closest pos line

/-- Whether `byte_beginning_of_line` uses the cache. -/
def usesLineCache (begv : ℤ) (cachep respectNarrowing : Bool) : Prop :=
  cachep = true ∧ (respectNarrowing = true ∨ begv = 1)

instance (begv : ℤ) (cachep respectNarrowing : Bool) : Decidable (usesLineCache begv cachep respectNarrowing) :=
  inferInstanceAs (Decidable (_ ∧ _))

/-- The scan from a position of a known line: where it ends, and the shortage. -/
def scanLine (bytes : List UInt8) (beg lim lineNumber pos line : ℤ) : Option (ℤ × ℤ) :=
  if line < lineNumber then some (byteScanBuffer bytes newline pos lim (lineNumber - line))
  else if lineNumber - line = 0 then none
  else some (byteScanBuffer bytes newline pos beg (lineNumber - line))

def LineNumberCache.addLine (c : LineNumberCache) (lineNumber pos line result : ℤ) : LineNumberCache :=
  if (if line < lineNumber then result - pos else pos - result) > lineNumberFar then c.addPosition result lineNumber
  else c

/-- `byte_beginning_of_line`, with the cache after it. -/
def byteBeginningOfLine (bytes : List UInt8) (begv zv : ℤ) (cache : Option LineNumberCache) (lineNumber : ℤ)
    (cachep respectNarrowing : Bool) : Option (ℤ × Option LineNumberCache) :=
  let beg := if respectNarrowing then begv else 1
  let lim := if respectNarrowing then zv else 1 + bytes.length
  if lineNumber = 0 then some (beg, cache)
  else if usesLineCache begv cachep respectNarrowing then
    let c := (cache.getD (.allocate begv)).known bytes begv
    match closestLine lineNumber c.ring |lineNumber - c.begv| beg c.begv with
    | .inl pos => some (pos, some c)
    | .inr (pos, line) =>
      (scanLine bytes beg lim lineNumber pos line).map fun r =>
        if r.2 = 0 then (r.1, some (c.addLine lineNumber pos line r.1)) else (-1, some c)
  else
    (scanLine bytes beg lim lineNumber beg 0).map fun r => (if r.2 = 0 then r.1 else -1, cache)

/-- An event, or a call of `byte_beginning_of_line`. -/
inductive LineCall (rep : UInt8 → ℕ)
  | event (e : LineEvent rep)
  | beginningOfLine (lineNumber : ℤ) (cachep respectNarrowing : Bool)

namespace LineBuffer

variable {rep : UInt8 → ℕ}

/-- `BYTE_BUF_ZV`. -/
def byteZv (b : LineBuffer rep) : ℤ := bytePos b.text.chars b.text.zv

def beginningOfLine (b : LineBuffer rep) (lineNumber : ℤ) (cachep respectNarrowing : Bool) :
    Option (ℤ × Option LineNumberCache) :=
  byteBeginningOfLine b.bytes b.byteBegv b.byteZv b.cache lineNumber cachep respectNarrowing

def callStep (b : LineBuffer rep) : LineCall rep → Option (LineBuffer rep)
  | .event e => b.step e
  | .beginningOfLine lineNumber cachep respectNarrowing =>
    (b.beginningOfLine lineNumber cachep respectNarrowing).map fun r => { b with cache := r.2 }

end LineBuffer

variable {bytes : List UInt8} {n p q q' st : ℤ}

/-- Position `q` is just after the `n`-th newline of all. -/
structure BeginsLine (bytes : List UInt8) (n q : ℤ) : Prop where
  one_lt : 1 < q
  le : q ≤ 1 + bytes.length
  newline : byteAt bytes (q - 1) = newline
  count : newlines bytes q = n

theorem BeginsLine.count_before (h : BeginsLine bytes n q) : newlines bytes (q - 1) = n - 1 := by
  have hlt := h.one_lt
  have hle := h.le
  have hsucc := newlines_succ bytes (show 1 ≤ q - 1 by omega) (by omega)
  rw [sub_add_cancel, h.count, if_pos h.newline] at hsucc
  omega

theorem BeginsLine.le_iff (h : BeginsLine bytes n q) : q ≤ p ↔ n ≤ newlines bytes p := by
  constructor
  · intro hqp
    rw [← h.count]
    exact newlines_mono bytes hqp
  · intro hn
    by_contra hpq
    have hmono := newlines_mono bytes (show p ≤ q - 1 by omega)
    have hbefore := h.count_before
    omega

theorem BeginsLine.unique (h : BeginsLine bytes n q) (h' : BeginsLine bytes n q') : q = q' :=
  le_antisymm (h.le_iff.mpr (le_of_eq h'.count.symm)) (h'.le_iff.mpr (le_of_eq h.count.symm))

theorem scanForward_beginsLine (fuel : ℕ) {count : ℤ} (h1 : 1 ≤ st) (hend : st + fuel ≤ 1 + bytes.length)
    (hcount : 0 < count) (hfound : newlines bytes st + count ≤ newlines bytes (st + fuel)) :
    BeginsLine bytes (newlines bytes st + count) (scanForward bytes newline fuel st count).1 := by
  induction fuel generalizing st count with
  | zero =>
    rw [Nat.cast_zero, add_zero] at hfound
    omega
  | succ fuel ih =>
    have hsucc := newlines_succ bytes h1 (by omega)
    have hshift : st + 1 + (fuel : ℤ) = st + (fuel + 1 : ℕ) := by omega
    rw [scanForward, if_pos hcount]
    by_cases hbyte : byteAt bytes st = newline
    · rw [if_pos hbyte] at hsucc ⊢
      by_cases hlast : count = 1
      · have hstop : scanForward bytes newline fuel (st + 1) (count - 1) = (st + 1, count - 1) := by
          cases fuel with
          | zero => rfl
          | succ fuel => rw [scanForward, if_neg (by omega)]
        rw [hstop]
        refine ⟨by omega, by omega, ?_, by rw [hsucc, hlast]⟩
        rw [add_sub_cancel_right, hbyte]
      · have hrest := @ih (st + 1) (count - 1) (by omega) (by omega) (by omega) (by rw [hshift]; omega)
        rwa [hsucc, show newlines bytes st + 1 + (count - 1) = newlines bytes st + count by omega] at hrest
    · rw [if_neg hbyte] at hsucc ⊢
      have hrest := @ih (st + 1) count (by omega) (by omega) hcount (by rw [hshift]; omega)
      rwa [hsucc, add_zero] at hrest

theorem scanBackward_beginsLine (fuel : ℕ) {count : ℤ} (h1 : 1 ≤ st - fuel) (hend : st ≤ 1 + bytes.length)
    (hcount : count < 0) (hfound : newlines bytes (st - fuel) ≤ newlines bytes st + count) :
    BeginsLine bytes (newlines bytes st + count + 1) ((scanBackward bytes newline fuel st count).1 + 1) := by
  induction fuel generalizing st count with
  | zero =>
    rw [Nat.cast_zero, sub_zero] at hfound
    omega
  | succ fuel ih =>
    have hsucc := newlines_succ bytes (show 1 ≤ st - 1 by omega) (by omega)
    rw [sub_add_cancel] at hsucc
    have hshift : st - 1 - (fuel : ℤ) = st - (fuel + 1 : ℕ) := by omega
    rw [scanBackward, if_pos hcount]
    by_cases hbyte : byteAt bytes (st - 1) = newline
    · rw [if_pos hbyte] at hsucc ⊢
      by_cases hlast : count = -1
      · have hstop : scanBackward bytes newline fuel (st - 1) (count + 1) = (st - 1, count + 1) := by
          cases fuel with
          | zero => rfl
          | succ fuel => rw [scanBackward, if_neg (by omega)]
        rw [hstop]
        refine ⟨by omega, by omega, ?_, ?_⟩
        · rw [show st - 1 + 1 - 1 = st - 1 by omega, hbyte]
        · rw [sub_add_cancel]
          omega
      · have hrest := @ih (st - 1) (count + 1) (by omega) (by omega) (by omega) (by rw [hshift]; omega)
        rwa [show newlines bytes (st - 1) + (count + 1) + 1 = newlines bytes st + count + 1 by omega] at hrest
    · rw [if_neg hbyte] at hsucc ⊢
      have hrest := @ih (st - 1) count (by omega) (by omega) hcount (by rw [hshift]; omega)
      rwa [show newlines bytes (st - 1) + count + 1 = newlines bytes st + count + 1 by omega] at hrest

end XEmacs.Text
