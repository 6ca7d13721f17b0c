import XEmacs.Stream.Lstream

/-! Output streams lose and reorder nothing: what the writer has accepted, followed by what is
still buffered, is what the calls on the stream have reported as written. In character mode
the writer is only given whole characters, if it accepts only whole characters. -/

namespace XEmacs.Stream

open Lib Text

variable {rep : UInt8 → ℕ} {firstp : UInt8 → Bool} {w : Writer} {lstr lstr' : Lstream} {data : List UInt8}
  {off off' size k : ℕ}

theorem validateIbyteptrBackward_le {i j : ℕ} (h : validateIbyteptrBackward firstp data i = some j) : j ≤ i := by
  induction i with
  | zero =>
    rw [validateIbyteptrBackward] at h
    split_ifs at h
    exact (Option.some.inj h).ge
  | succ i ih =>
    rw [validateIbyteptrBackward] at h
    split_ifs at h
    · exact (Option.some.inj h).ge
    · exact (ih h).trans (Nat.le_succ i)

theorem chopPartialChar_le (hsize : 0 < size) (h : chopPartialChar rep firstp data off size = some k) : k ≤ size := by
  rw [chopPartialChar] at h
  split_ifs at h
  · exact (Option.some.inj h).ge
  · obtain ⟨dataend, hdataend, h⟩ := Option.bind_eq_some_iff.mp h
    have hle := validateIbyteptrBackward_le hdataend
    split_ifs at h
    · rw [← Option.some.inj h]
      omega
    · exact (Option.some.inj h).ge

namespace Lstream

def OnlyCalls (lstr lstr' : Lstream) : Prop := lstr' = { lstr with calls := lstr'.calls }

theorem OnlyCalls.trans {lstr'' : Lstream} (h : OnlyCalls lstr lstr') (h' : OnlyCalls lstr' lstr'') :
    OnlyCalls lstr lstr'' := by
  rw [OnlyCalls, h', h]

theorem accepted_call (lstr : Lstream) (block : List UInt8) (n : ℕ) :
    ({ lstr with calls := lstr.calls ++ [(block, n)] } : Lstream).accepted = lstr.accepted ++ block.take n := by
  simp [accepted]

theorem reallyWriteLoop_exact {fuel : ℕ} (hsize : off + size ≤ data.length)
    (h : reallyWriteLoop rep firstp w data fuel off size lstr = some (lstr', off')) :
    OnlyCalls lstr lstr' ∧ off ≤ off' ∧ off' ≤ off + size ∧
      lstr'.accepted = lstr.accepted ++ (data.drop off).take (off' - off) := by
  induction fuel generalizing off size lstr with
  | zero => exact nomatch h
  | succ fuel ih =>
    have hstay : OnlyCalls lstr lstr ∧ off ≤ off ∧ off ≤ off + size ∧
        lstr.accepted = lstr.accepted ++ (data.drop off).take (off - off) :=
      ⟨rfl, le_rfl, Nat.le_add_right _ _, by simp⟩
    rw [reallyWriteLoop] at h
    by_cases hzero : size = 0
    · rw [if_pos hzero] at h
      obtain ⟨rfl, rfl⟩ := Prod.mk.inj (Option.some.inj h)
      exact hstay
    rw [if_neg hzero] at h
    obtain ⟨k, hk, h⟩ := Option.bind_eq_some_iff.mp h
    have hle : k ≤ size := by
      split_ifs at hk
      · exact chopPartialChar_le (Nat.pos_of_ne_zero hzero) hk
      · exact (Option.some.inj hk).ge
    by_cases hnone : k = 0
    · rw [if_pos hnone] at h
      obtain ⟨rfl, rfl⟩ := Prod.mk.inj (Option.some.inj h)
      exact hstay
    rw [if_neg hnone] at h
    simp only at h
    set block := (data.drop off).take k with hblock
    set n := w.accepts lstr.calls.length block with hn
    have hn_le : n ≤ k := (w.accepts_le _ _).trans (List.length_take_le _ _)
    have hcall := lstr.accepted_call block n
    have hfirst : OnlyCalls lstr { lstr with calls := lstr.calls ++ [(block, n)] } := rfl
    by_cases hrefused : n = 0
    · rw [if_pos hrefused] at h
      obtain ⟨rfl, rfl⟩ := Prod.mk.inj (Option.some.inj h)
      exact ⟨hfirst, le_rfl, Nat.le_add_right _ _, by rw [hcall, hrefused]; simp⟩
    · rw [if_neg hrefused] at h
      obtain ⟨hframe, hge, hle', hacc⟩ := ih (by omega) h
      refine ⟨hfirst.trans hframe, by omega, by omega, ?_⟩
      rw [hacc, hcall, List.append_assoc, hblock, List.take_take, min_eq_left hn_le, ← List.drop_drop,
        ← List.take_add, show n + (off' - (off + n)) = off' - off by omega]

theorem reallyWrite_exact (h : lstr.reallyWrite rep firstp w data = some (lstr', k)) :
    OnlyCalls lstr lstr' ∧ k ≤ data.length ∧ lstr'.accepted = lstr.accepted ++ data.take k := by
  have hsize : 0 + (toInt data.length).toNat ≤ data.length := by
    unfold toInt
    omega
  obtain ⟨hframe, -, hle, hacc⟩ := reallyWriteLoop_exact hsize h
  exact ⟨hframe, hle.trans hsize, by simpa using hacc⟩

def taken (lstr : Lstream) : List UInt8 := lstr.accepted ++ lstr.outBuffer

/-- The stream has taken `data`. -/
structure Takes (lstr : Lstream) (data : List UInt8) (lstr' : Lstream) : Prop where
  taken : lstr'.taken = lstr.taken ++ data
  byteCount : lstr'.byteCount = lstr.byteCount + data.length
  buffering : lstr'.buffering = lstr.buffering
  noPartialChars : lstr'.noPartialChars = lstr.noPartialChars
  noSquirrel : lstr'.noSquirrel = lstr.noSquirrel

theorem Takes.refl (lstr : Lstream) : lstr.Takes [] lstr := ⟨by simp, rfl, rfl, rfl, rfl⟩

theorem Takes.trans {lstr'' : Lstream} {data' : List UInt8} (h : lstr.Takes data lstr') (h' : lstr'.Takes data' lstr'') :
    lstr.Takes (data ++ data') lstr'' where
  taken := by rw [h'.taken, h.taken, List.append_assoc]
  byteCount := by rw [h'.byteCount, h.byteCount, List.length_append, Nat.add_assoc]
  buffering := h'.buffering.trans h.buffering
  noPartialChars := h'.noPartialChars.trans h.noPartialChars
  noSquirrel := h'.noSquirrel.trans h.noSquirrel

theorem flushOut_takes (h : lstr.flushOut rep firstp w = some lstr') : lstr.Takes [] lstr' := by
  obtain ⟨⟨lstr₁, n⟩, hwrite, rfl⟩ := Option.map_eq_some_iff.mp h
  obtain ⟨hframe, hle, hacc⟩ := reallyWrite_exact hwrite
  have htaken : lstr₁.accepted ++ lstr.outBuffer.drop n = lstr.taken ++ [] := by
    rw [hacc, List.append_assoc, List.take_append_drop, List.append_nil]
    rfl
  have hbuffer : lstr₁.outBuffer = lstr.outBuffer := by rw [hframe]
  simp only
  split_ifs with hall hsome
  · refine ⟨?_, by rw [hframe]; rfl, by rw [hframe], by rw [hframe], by rw [hframe]⟩
    rw [← htaken, hall, List.drop_length]
    rfl
  · refine ⟨?_, by rw [hframe]; rfl, by rw [hframe], by rw [hframe], by rw [hframe]⟩
    rw [← htaken, ← hbuffer]
    rfl
  · refine ⟨?_, by rw [hframe]; rfl, by rw [hframe], by rw [hframe], by rw [hframe]⟩
    rw [← htaken, Nat.eq_zero_of_not_pos hsome, List.drop_zero, ← hbuffer]
    rfl

theorem adding_spec (lstr : Lstream) (num : ℕ) (force : Bool) :
    (lstr.adding num force).2 ≤ num ∧ (force = true → (lstr.adding num force).2 = num) ∧
      ∃ size, (lstr.adding num force).1 = { lstr with outBufferSize := size } := by
  rw [adding]
  simp only
  split_ifs with hfits hbeyond hfull
  · exact ⟨le_rfl, fun _ => rfl, _, rfl⟩
  · exact ⟨Nat.zero_le _, fun hforce => absurd hforce hbeyond.2, _, rfl⟩
  · exact ⟨by simp only; omega, fun hforce => absurd hforce hbeyond.2, _, rfl⟩
  · exact ⟨le_rfl, fun _ => rfl, _, rfl⟩

theorem append_takes (lstr : Lstream) (size : ℕ) (data : List UInt8) :
    lstr.Takes data { ({ lstr with outBufferSize := size } : Lstream).append data with
      byteCount := lstr.byteCount + data.length } where
  taken := (List.append_assoc _ _ _).symm
  byteCount := rfl
  buffering := rfl
  noPartialChars := rfl
  noSquirrel := rfl

theorem writeUnbuffered_takes (h : lstr.writeUnbuffered rep firstp w data = some (lstr', k)) :
    k ≤ data.length ∧ lstr.Takes (data.take k) lstr' := by
  rw [writeUnbuffered] at h
  obtain ⟨lstr₁, hflush, h⟩ := Option.bind_eq_some_iff.mp h
  obtain ⟨⟨lstr₂, n⟩, hwrite, h⟩ := Option.map_eq_some_iff.mp h
  have hfirst : lstr.Takes [] lstr₁ := by
    split_ifs at hflush
    · exact flushOut_takes hflush
    · rw [← Option.some.inj hflush]
      exact .refl lstr
  have hsecond : OnlyCalls lstr₁ lstr₂ ∧ n ≤ data.length ∧ lstr₂.taken = lstr₁.taken ++ data.take n := by
    split_ifs at hwrite with hempty
    · obtain ⟨hframe, hle, hacc⟩ := reallyWrite_exact hwrite
      have hbuffer : lstr₁.outBuffer = [] := List.length_eq_zero_iff.mp hempty
      have hbuffer' : lstr₂.outBuffer = [] := by
        rw [hframe]
        exact hbuffer
      refine ⟨hframe, hle, ?_⟩
      rw [Lstream.taken, Lstream.taken, hbuffer, hbuffer', List.append_nil, List.append_nil, hacc]
    · obtain ⟨rfl, rfl⟩ := Prod.mk.inj (Option.some.inj hwrite)
      exact ⟨rfl, Nat.zero_le _, by simp⟩
  obtain ⟨hframe, hle, htaken⟩ := hsecond
  have hcount : lstr₂.byteCount = lstr₁.byteCount := by rw [hframe]
  have hkept : lstr₂.buffering = lstr₁.buffering ∧ lstr₂.noPartialChars = lstr₁.noPartialChars ∧
      lstr₂.noSquirrel = lstr₁.noSquirrel := by
    rw [hframe]
    exact ⟨rfl, rfl, rfl⟩
  obtain ⟨hbuffering, hpartial, hsquirrel⟩ := hkept
  simp only at h
  split_ifs at h
  · -- the rest of the data is squirrelled away
    obtain ⟨rfl, rfl⟩ := Prod.mk.inj h
    obtain ⟨-, -, size, hadding⟩ := lstr₂.adding_spec (data.length - n) true
    refine ⟨le_rfl, hfirst.trans ⟨?_, ?_, ?_, ?_, ?_⟩⟩
    · rw [hadding, List.take_length, ← List.take_append_drop n data, ← List.append_assoc, List.take_append_drop, ← htaken]
      exact (List.append_assoc _ _ _).symm
    · rw [hadding, List.take_length, ← hcount]
      rfl
    · rw [hadding]
      exact hbuffering
    · rw [hadding]
      exact hpartial
    · rw [hadding]
      exact hsquirrel
  · obtain ⟨rfl, rfl⟩ := Prod.mk.inj h
    refine ⟨hle, hfirst.trans ⟨htaken, ?_, hbuffering, hpartial, hsquirrel⟩⟩
    rw [List.length_take, min_eq_left hle, ← hcount]

variable (rep firstp w data off) in
theorem writeBuffered_step (fuel : ℕ) (couldnt : Bool) (lstr : Lstream) :
    ∃ chunk couldnt' lstr₁, chunk ≤ data.length - off ∧ lstr.Takes ((data.drop off).take chunk) lstr₁ ∧
      lstr₁.calls = lstr.calls ∧ (couldnt = true → couldnt' = true) ∧
      (data.length - off - chunk > 0 → chunk = 0 → couldnt = false ∧ couldnt' = true) ∧
      writeBuffered rep firstp w data (fuel + 1) off couldnt lstr =
        if data.length - off - chunk > 0 then
          (lstr₁.flushOut rep firstp w).bind (writeBuffered rep firstp w data fuel (off + chunk) couldnt')
        else some (lstr₁, off + chunk) := by
  rw [writeBuffered]
  simp only
  set r := lstr.adding (data.length - off) false with hr
  obtain ⟨chunk, size, hchunk, hle, hforced, hnot⟩ : ∃ chunk size,
      (if r.2 = 0 ∧ couldnt = true then r.1.adding (data.length - off) true else r) =
        ({ lstr with outBufferSize := size }, chunk) ∧ chunk ≤ data.length - off ∧
          (r.2 = 0 ∧ couldnt = true → chunk = data.length - off) ∧ (¬(r.2 = 0 ∧ couldnt = true) → chunk = r.2) := by
    obtain ⟨hle, -, size, hsize⟩ := lstr.adding_spec (data.length - off) false
    obtain ⟨hle', hforce, size', hsize'⟩ := r.1.adding_spec (data.length - off) true
    split_ifs with hrefused
    · exact ⟨_, size', Prod.ext (by rw [hsize', hr, hsize]) rfl, hle', fun _ => hforce rfl, absurd hrefused⟩
    · exact ⟨_, size, Prod.ext hsize rfl, hle, fun h => absurd h hrefused, fun _ => rfl⟩
  have htakes := lstr.append_takes size ((data.drop off).take chunk)
  rw [List.length_take, List.length_drop, min_eq_left hle] at htakes
  rw [hchunk]
  refine ⟨chunk, decide (r.2 = 0 ∨ couldnt = true), _, hle, htakes, rfl, fun hcouldnt => ?_, fun hmore hzero => ?_, rfl⟩
  · rw [hcouldnt, decide_eq_true_eq]
    exact .inr rfl
  · have hgoes : ¬(r.2 = 0 ∧ couldnt = true) := fun hrefused => by
      have hall := hforced hrefused
      omega
    have hroom : r.2 = 0 := (hnot hgoes).symm.trans hzero
    rw [decide_eq_true_eq]
    exact ⟨Bool.eq_false_iff.mpr fun hcouldnt => hgoes ⟨hroom, hcouldnt⟩, .inl hroom⟩

theorem writeBuffered_takes {fuel : ℕ} {couldnt : Bool} (hoff : off ≤ data.length)
    (h : writeBuffered rep firstp w data fuel off couldnt lstr = some (lstr', k)) :
    k = data.length ∧ lstr.Takes (data.drop off) lstr' := by
  induction fuel generalizing off couldnt lstr with
  | zero => exact nomatch h
  | succ fuel ih =>
    obtain ⟨chunk, couldnt', lstr₁, hle, htakes, -, -, -, hstep⟩ :=
      writeBuffered_step rep firstp w data off fuel couldnt lstr
    rw [hstep] at h
    split_ifs at h with hmore
    · obtain ⟨lstr₂, hflush, h⟩ := Option.bind_eq_some_iff.mp h
      obtain ⟨hk, hrest⟩ := ih (by omega) h
      refine ⟨hk, ?_⟩
      rw [← List.take_append_drop chunk (data.drop off), List.drop_drop]
      exact htakes.trans (Takes.trans (flushOut_takes hflush) hrest)
    · obtain ⟨rfl, rfl⟩ := Prod.mk.inj (Option.some.inj h)
      have hall : (data.drop off).take chunk = data.drop off :=
        List.take_of_length_le (by rw [List.length_drop]; omega)
      rw [hall] at htakes
      exact ⟨by omega, htakes⟩

theorem write1_takes (h : lstr.write1 rep firstp w data = some (lstr', k)) :
    k ≤ data.length ∧ lstr.Takes (data.take k) lstr' ∧ (lstr.buffering ≠ .unbuffered → k = data.length) := by
  rw [write1] at h
  split_ifs at h with hunbuffered
  · obtain ⟨hle, htakes⟩ := writeUnbuffered_takes h
    exact ⟨hle, htakes, fun hne => absurd hunbuffered hne⟩
  · obtain ⟨hk, htakes⟩ := writeBuffered_takes (Nat.zero_le _) h
    rw [List.drop_zero] at htakes
    refine ⟨hk.le, ?_, fun _ => hk⟩
    rw [hk, List.take_length]
    exact htakes

theorem fputc_takes {ch : UInt8} (hbuffered : lstr.buffering ≠ .unbuffered)
    (h : lstr.fputc rep firstp w ch = some lstr') : lstr.Takes [ch] lstr' := by
  obtain ⟨⟨lstr₁, k⟩, hwrite, h⟩ := Option.bind_eq_some_iff.mp h
  obtain ⟨-, htakes, hall⟩ := write1_takes hwrite
  rw [hall hbuffered, List.take_length] at htakes
  split_ifs at h
  · simpa using htakes.trans (flushOut_takes h)
  · rw [← Option.some.inj h]
    exact htakes

theorem putc_takes {ch : UInt8} (hbuffered : lstr.buffering ≠ .unbuffered)
    (h : lstr.putc rep firstp w ch = some lstr') : lstr.Takes [ch] lstr' := by
  rw [putc] at h
  split_ifs at h
  · exact fputc_takes hbuffered h
  · simp only at h
    have htakes := lstr.append_takes lstr.outBufferSize [ch]
    split_ifs at h
    · simpa using htakes.trans (flushOut_takes h)
    · rw [← Option.some.inj h]
      exact htakes

theorem putAll_takes (hbuffered : lstr.buffering ≠ .unbuffered) (h : lstr.putAll rep firstp w data = some lstr') :
    lstr.Takes data lstr' := by
  induction data generalizing lstr with
  | nil =>
    rw [← Option.some.inj h]
    exact .refl lstr
  | cons ch data ih =>
    obtain ⟨lstr₁, hputc, h⟩ := Option.bind_eq_some_iff.mp h
    have htakes := putc_takes hbuffered hputc
    exact htakes.trans (ih (htakes.buffering ▸ hbuffered) h)

theorem write_takes {n : ℤ} (hshort : data.length < 2 ^ 31) (h : lstr.write rep firstp w data = some (lstr', n)) :
    lstr.Takes (data.take n.toNat) lstr' := by
  rw [write] at h
  split_ifs at h with hempty hline
  · obtain ⟨rfl, rfl⟩ := Prod.mk.inj (Option.some.inj h)
    exact .refl lstr
  · obtain ⟨⟨lstr₁, k⟩, hwrite, h⟩ := Option.map_eq_some_iff.mp h
    obtain ⟨rfl, rfl⟩ := Prod.mk.inj h
    obtain ⟨hle, htakes, -⟩ := write1_takes hwrite
    have hint : (toInt k).toNat = k := by
      unfold toInt
      omega
    rw [hint]
    exact htakes
  · obtain ⟨lstr₁, hputAll, h⟩ := Option.map_eq_some_iff.mp h
    obtain ⟨rfl, rfl⟩ := Prod.mk.inj h
    rw [Int.toNat_natCast, List.take_length]
    refine putAll_takes ?_ hputAll
    rw [not_not.mp hline]
    decide

end Lstream

end XEmacs.Stream
