import Mathlib.Data.List.GetD
import XEmacs.Stream.LstreamExact

/-! In character mode the writer is only given whole characters: a partial character at the
end of a block is kept back, and none is at the beginning if the writer accepts whole
characters. -/

namespace XEmacs.Stream

open Lib Text

variable {rep : UInt8 → ℕ} {firstp : UInt8 → Bool} {w : Writer} {lstr lstr' : Lstream}
  {data l l' pre post rest : List UInt8} {off off' size k : ℕ}

def WholeChars (rep : UInt8 → ℕ) (firstp : UInt8 → Bool) (l : List UInt8) : Prop :=
  ∃ cs : List (Ichar rep), (∀ c ∈ cs, c.Valid firstp) ∧ l = itextBytes cs

def TextBegins (rep : UInt8 → ℕ) (firstp : UInt8 → Bool) (l : List UInt8) : Prop :=
  ∃ t, WholeChars rep firstp t ∧ l <+: t

def AsciiOneByte (rep : UInt8 → ℕ) (firstp : UInt8 → Bool) : Prop :=
  ∀ c : UInt8, c < 0x80 → firstp c = true ∧ rep c = 1

theorem WholeChars.nil : WholeChars rep firstp [] := ⟨[], fun _ h => (nomatch h), rfl⟩

theorem WholeChars.append (h : WholeChars rep firstp l) (h' : WholeChars rep firstp l') :
    WholeChars rep firstp (l ++ l') := by
  obtain ⟨cs, hcs, rfl⟩ := h
  obtain ⟨ds, hds, rfl⟩ := h'
  refine ⟨cs ++ ds, fun c hc => ?_, (itextBytes_append cs ds).symm⟩
  rcases List.mem_append.mp hc with hc | hc
  · exact hcs c hc
  · exact hds c hc

theorem WholeChars.textBegins (h : WholeChars rep firstp l) : TextBegins rep firstp l := ⟨l, h, List.prefix_rfl⟩

theorem TextBegins.mono (h : TextBegins rep firstp l') (hl : l <+: l') : TextBegins rep firstp l := by
  obtain ⟨t, ht, hpre⟩ := h
  exact ⟨t, ht, hl.trans hpre⟩

theorem bytes_eq_of_append {c d : Ichar rep} (h : c.bytes ++ l = d.bytes ++ l') : c = d ∧ l = l' := by
  obtain ⟨c₁, cs, hc⟩ := c
  obtain ⟨d₁, ds, hd⟩ := d
  simp only [Ichar.bytes, List.cons_append, List.cons.injEq] at h
  obtain ⟨rfl, h⟩ := h
  obtain ⟨rfl, rfl⟩ := List.append_inj h (by omega)
  exact ⟨rfl, rfl⟩

theorem TextBegins.strip (hl : WholeChars rep firstp l) (h : TextBegins rep firstp (l ++ rest)) :
    TextBegins rep firstp rest := by
  obtain ⟨cs, -, rfl⟩ := hl
  obtain ⟨t, ⟨ds, hds, rfl⟩, hpre⟩ := h
  induction cs generalizing ds with
  | nil => exact ⟨_, ⟨ds, hds, rfl⟩, hpre⟩
  | cons c cs ih =>
    obtain ⟨u, hu⟩ := hpre
    cases ds with
    | nil => simp [Ichar.bytes] at hu
    | cons d ds =>
      rw [itextBytes_cons, itextBytes_cons, List.append_assoc, List.append_assoc] at hu
      obtain ⟨-, hrest⟩ := bytes_eq_of_append hu
      exact ih ds (fun c hc => hds c (List.mem_cons_of_mem _ hc)) ⟨u, by rw [← hrest, List.append_assoc]⟩

theorem TextBegins.split (h : TextBegins rep firstp l) : ∃ l₁ p, l = l₁ ++ p ∧ WholeChars rep firstp l₁ ∧
    (p = [] ∨ ∃ c : Ichar rep, c.Valid firstp ∧ p ≠ [] ∧ p <+: c.bytes ∧ p.length < c.bytes.length) := by
  obtain ⟨t, ⟨cs, hcs, rfl⟩, hpre⟩ := h
  induction cs generalizing l with
  | nil =>
    have hnil : l = [] := List.prefix_nil.mp hpre
    exact ⟨[], [], by rw [hnil]; rfl, .nil, .inl rfl⟩
  | cons c cs ih =>
    rw [itextBytes_cons] at hpre
    have hc := hcs c List.mem_cons_self
    by_cases hlen : l.length < c.bytes.length
    · have hshort : l <+: c.bytes := List.prefix_of_prefix_length_le hpre (List.prefix_append _ _) hlen.le
      by_cases hnil : l = []
      · exact ⟨[], [], by rw [hnil]; rfl, .nil, .inl rfl⟩
      · exact ⟨[], l, rfl, .nil, .inr ⟨c, hc, hnil, hshort, hlen⟩⟩
    · obtain ⟨u, rfl⟩ : c.bytes <+: l :=
        List.prefix_of_prefix_length_le (List.prefix_append _ _) hpre (not_lt.mp hlen)
      obtain ⟨l₁, p, hsplit, hl₁, hp⟩ := ih (fun d hd => hcs d (List.mem_cons_of_mem _ hd))
        ((List.prefix_append_right_inj _).mp hpre)
      refine ⟨c.bytes ++ l₁, p, by rw [hsplit, List.append_assoc], .append ?_ hl₁, hp⟩
      exact ⟨[c], fun d hd => List.mem_singleton.mp hd ▸ hc, by simp⟩

theorem validateIbyteptrBackward_eq {i j : ℕ} (hj : j ≤ i) (hfirst : firstp (data.getD j 0) = true)
    (hrest : ∀ t, j < t → t ≤ i → firstp (data.getD t 0) = false) :
    validateIbyteptrBackward firstp data i = some j := by
  induction i with
  | zero =>
    obtain rfl : j = 0 := Nat.le_zero.mp hj
    rw [validateIbyteptrBackward, if_pos hfirst]
  | succ i ih =>
    rw [validateIbyteptrBackward]
    by_cases hlast : j = i + 1
    · rw [← hlast, if_pos hfirst]
    · rw [if_neg (by rw [hrest (i + 1) (by omega) le_rfl]; exact Bool.false_ne_true)]
      exact ih (by omega) fun t h1 h2 => hrest t h1 (by omega)

theorem validateIbyteptrBackward_char {c : Ichar rep} (hc : c.Valid firstp) {q : List UInt8} (hq : q <+: c.rest) :
    validateIbyteptrBackward firstp (pre ++ (c.first :: q) ++ post) (pre.length + q.length) = some pre.length := by
  have hget (t : ℕ) (ht : t ≤ q.length) : (pre ++ (c.first :: q) ++ post).getD (pre.length + t) 0 =
      (c.first :: q).getD t 0 := by
    rw [List.append_assoc, List.getD_append_right _ _ _ _ (Nat.le_add_right _ _), Nat.add_sub_cancel_left,
      List.getD_append _ _ _ _ (by rw [List.length_cons]; omega)]
  refine validateIbyteptrBackward_eq (Nat.le_add_right _ _) ?_ fun t h1 h2 => ?_
  · have hzero := hget 0 (Nat.zero_le _)
    rw [Nat.add_zero] at hzero
    rw [hzero]
    exact hc.1
  · obtain ⟨t', rfl⟩ : ∃ t', t = pre.length + (t' + 1) := ⟨t - pre.length - 1, by omega⟩
    rw [hget _ (by omega), List.getD_cons_succ, List.getD_eq_getElem _ _ (by omega)]
    exact hc.2 _ (hq.subset (List.getElem_mem _))

theorem chopPartialChar_char (hascii : AsciiOneByte rep firstp) {c : Ichar rep} (hc : c.Valid firstp) {q : List UInt8}
    (hq : q <+: c.rest) (hdata : data = pre ++ l ++ (c.first :: q) ++ post) :
    chopPartialChar rep firstp data pre.length (l ++ c.first :: q).length =
      some (if q.length = c.rest.length then (l ++ c.first :: q).length else l.length) := by
  have hlast : pre.length + (l ++ c.first :: q).length - 1 = (pre ++ l).length + q.length := by
    rw [List.length_append, List.length_append, List.length_cons]
    omega
  have hget (t : ℕ) (ht : t ≤ q.length) : data.getD ((pre ++ l).length + t) 0 = (c.first :: q).getD t 0 := by
    rw [hdata, List.append_assoc, List.getD_append_right _ _ _ _ (Nat.le_add_right _ _), Nat.add_sub_cancel_left,
      List.getD_append _ _ _ _ (by rw [List.length_cons]; omega)]
  have hfirst : data.getD (pre ++ l).length 0 = c.first := by
    have hzero := hget 0 (Nat.zero_le _)
    rwa [Nat.add_zero] at hzero
  have hsize := c.size
  have hqlen := hq.length_le
  rw [chopPartialChar, hlast, hget _ le_rfl]
  by_cases hlow : (c.first :: q).getD q.length 0 < 0x80
  · -- an ASCII byte is a whole character
    rw [if_pos hlow]
    have hnil : q = [] := by
      by_contra hne
      obtain ⟨n, hn⟩ := Nat.exists_eq_succ_of_ne_zero (mt List.length_eq_zero_iff.mp hne)
      rw [hn, List.getD_cons_succ, List.getD_eq_getElem _ _ (by omega)] at hlow
      have hmem : q[n] ∈ c.rest := hq.subset (List.getElem_mem _)
      exact absurd ((hc.2 _ hmem).symm.trans (hascii _ hlow).1) Bool.false_ne_true
    subst hnil
    have hone := (hascii c.first hlow).2
    rw [List.length_nil, if_pos (by omega)]
  · rw [if_neg hlow, hdata, validateIbyteptrBackward_char hc hq, Option.bind_some, ← hdata, hfirst, ← hsize]
    rw [List.length_append, List.length_append, List.length_cons]
    by_cases hwhole : q.length = c.rest.length
    · rw [if_neg (by omega), if_pos hwhole]
    · rw [if_pos (by omega), if_pos (by omega), if_neg hwhole]
      congr 1
      omega

theorem chopPartialChar_whole (hascii : AsciiOneByte rep firstp) (hl : TextBegins rep firstp l) (hne : l ≠ [])
    (hdata : data = pre ++ l ++ post) : ∃ k, chopPartialChar rep firstp data pre.length l.length = some k ∧
      k ≤ l.length ∧ WholeChars rep firstp (l.take k) := by
  obtain ⟨l₁, p, rfl, hl₁, rfl | ⟨c, hc, hp, hpre, hlt⟩⟩ := hl.split
  · rw [List.append_nil] at hne hdata ⊢
    obtain ⟨cs, hcs, rfl⟩ := hl₁
    have hcsne : cs ≠ [] := by
      rintro rfl
      exact hne rfl
    obtain ⟨ds, c, rfl⟩ := List.eq_nil_or_concat' cs |>.resolve_left hcsne
    have hc := hcs c (List.mem_append_right _ (List.mem_singleton.mpr rfl))
    have hbytes : itextBytes (ds ++ [c]) = itextBytes ds ++ c.first :: c.rest := by simp [Ichar.bytes]
    rw [hbytes] at hdata ⊢
    refine ⟨_, chopPartialChar_char hascii hc List.prefix_rfl (by rw [hdata, ← List.append_assoc pre]), ?_, ?_⟩
    · rw [if_pos rfl]
    · rw [if_pos rfl, List.take_length, ← hbytes]
      exact ⟨_, hcs, rfl⟩
  · obtain ⟨first, q, rfl⟩ := List.exists_cons_of_ne_nil hp
    obtain ⟨rfl, hq⟩ : first = c.first ∧ q <+: c.rest := List.cons_prefix_cons.mp hpre
    have hshort : q.length ≠ c.rest.length := by
      simp only [Ichar.bytes, List.length_cons] at hlt
      omega
    refine ⟨_, chopPartialChar_char hascii hc hq (by rw [hdata, ← List.append_assoc pre]), ?_, ?_⟩
    · rw [if_neg hshort, List.length_append]
      exact Nat.le_add_right _ _
    · rw [if_neg hshort, List.take_left]
      exact hl₁

/-! ### Calls that are defined -/

def Writer.AcceptsWholeChars (rep : UInt8 → ℕ) (firstp : UInt8 → Bool) (w : Writer) : Prop :=
  ∀ n block, WholeChars rep firstp block → WholeChars rep firstp (block.take (w.accepts n block))

namespace Lstream

variable (lstr data off size) in
theorem reallyWriteLoop_whole (hascii : AsciiOneByte rep firstp) (fuel : ℕ) (hfuel : size < fuel)
    (hsize : off + size ≤ data.length)
    (hchars : lstr.noPartialChars = true → w.AcceptsWholeChars rep firstp ∧
      TextBegins rep firstp ((data.drop off).take size)) :
    ∃ lstr' off', reallyWriteLoop rep firstp w data fuel off size lstr = some (lstr', off') ∧
      (lstr.noPartialChars = true → (∀ call ∈ lstr.calls, WholeChars rep firstp call.1) →
        (∀ call ∈ lstr'.calls, WholeChars rep firstp call.1) ∧
          WholeChars rep firstp ((data.drop off).take (off' - off))) := by
  induction fuel generalizing off size lstr with
  | zero => exact absurd hfuel (Nat.not_lt_zero _)
  | succ fuel ih =>
    rw [reallyWriteLoop]
    have hstay {lstr' : Lstream} (hcalls : ∀ call ∈ lstr'.calls, WholeChars rep firstp call.1) :
        (∀ call ∈ lstr'.calls, WholeChars rep firstp call.1) ∧
          WholeChars rep firstp ((data.drop off).take (off - off)) :=
      ⟨hcalls, by rw [Nat.sub_self, List.take_zero]; exact .nil⟩
    by_cases hzero : size = 0
    · rw [if_pos hzero]
      exact ⟨_, _, rfl, fun _ hcalls => hstay hcalls⟩
    rw [if_neg hzero]
    obtain ⟨k, hk, hle, hwhole⟩ : ∃ k, (if lstr.noPartialChars = true then chopPartialChar rep firstp data off size
        else some size) = some k ∧ k ≤ size ∧
          (lstr.noPartialChars = true → WholeChars rep firstp ((data.drop off).take k)) := by
      by_cases hmode : lstr.noPartialChars = true
      · have hblock := (hchars hmode).2
        have hlen : ((data.drop off).take size).length = size := by
          rw [List.length_take, List.length_drop]
          omega
        have hpre : (data.take off).length = off := by
          rw [List.length_take]
          omega
        have hsplit : data = data.take off ++ (data.drop off).take size ++ (data.drop off).drop size := by
          rw [List.append_assoc, List.take_append_drop, List.take_append_drop]
        obtain ⟨k, hk, hle, hwhole⟩ := chopPartialChar_whole hascii hblock
          (fun hnil => hzero (by rw [← hlen, hnil, List.length_nil])) hsplit
        rw [hpre, hlen] at hk
        rw [hlen] at hle
        rw [List.take_take, min_eq_left hle] at hwhole
        exact ⟨k, by rw [if_pos hmode, hk], hle, fun _ => hwhole⟩
      · exact ⟨size, if_neg hmode, le_rfl, fun htrue => absurd htrue hmode⟩
    rw [hk, Option.bind_some]
    by_cases hnone : k = 0
    · rw [if_pos hnone]
      exact ⟨_, _, rfl, fun _ hcalls => hstay hcalls⟩
    rw [if_neg hnone]
    simp only
    set block := (data.drop off).take k with hblock
    set n := w.accepts lstr.calls.length block with hn
    have hn_le : n ≤ k := (w.accepts_le _ _).trans (List.length_take_le _ _)
    have hcalls' (hmode : lstr.noPartialChars = true) (hcalls : ∀ call ∈ lstr.calls, WholeChars rep firstp call.1) :
        ∀ call ∈ lstr.calls ++ [(block, n)], WholeChars rep firstp call.1 := fun call hcall => by
      rcases List.mem_append.mp hcall with hcall | hcall
      · exact hcalls call hcall
      · rw [List.mem_singleton.mp hcall]
        exact hwhole hmode
    by_cases hrefused : n = 0
    · rw [if_pos hrefused]
      exact ⟨_, _, rfl, fun hmode hcalls => hstay (hcalls' hmode hcalls)⟩
    · rw [if_neg hrefused]
      have hfirst : block.take n = (data.drop off).take n := by rw [hblock, List.take_take, min_eq_left hn_le]
      have hrest : block = (data.drop off).take n ++ (data.drop (off + n)).take (k - n) := by
        rw [hblock, ← List.drop_drop, ← List.take_add, Nat.add_sub_cancel' hn_le]
      have haccepted (hmode : lstr.noPartialChars = true) : WholeChars rep firstp ((data.drop off).take n) := by
        rw [← hfirst]
        exact (hchars hmode).1 _ _ (hwhole hmode)
      obtain ⟨lstr', off', hloop, hresult⟩ := ih { lstr with calls := lstr.calls ++ [(block, n)] }
        (off + n) (k - n) (by omega) (by omega) fun hmode => ⟨(hchars hmode).1, by
          have hbegins := (hwhole hmode).textBegins
          rw [hrest] at hbegins
          exact hbegins.strip (haccepted hmode)⟩
      obtain ⟨-, hge, -, -⟩ := reallyWriteLoop_exact (by omega) hloop
      refine ⟨lstr', off', hloop, fun hmode hcalls => ?_⟩
      obtain ⟨hnew, hlater⟩ := hresult hmode (hcalls' hmode hcalls)
      refine ⟨hnew, ?_⟩
      have hboth := (haccepted hmode).append hlater
      rw [← List.drop_drop, ← List.take_add, show n + (off' - (off + n)) = off' - off by omega] at hboth
      exact hboth

/-- In character mode all blocks so far, and all that was accepted, are whole characters, and
what the stream has taken and `rest` begin a text. -/
def Whole (rep : UInt8 → ℕ) (firstp : UInt8 → Bool) (w : Writer) (lstr : Lstream) (rest : List UInt8) : Prop :=
  lstr.noPartialChars = true → w.AcceptsWholeChars rep firstp ∧
    (∀ call ∈ lstr.calls, WholeChars rep firstp call.1) ∧ WholeChars rep firstp lstr.accepted ∧
    TextBegins rep firstp (lstr.taken ++ rest)

theorem Whole.takes (h : lstr.Whole rep firstp w (data ++ rest)) (htakes : lstr.Takes data lstr')
    (hcalls : lstr'.calls = lstr.calls) : lstr'.Whole rep firstp w rest := by
  intro hmode
  obtain ⟨hw, hblocks, haccepted, hbegins⟩ := h (htakes.noPartialChars.symm.trans hmode)
  refine ⟨hw, hcalls ▸ hblocks, ?_, ?_⟩
  · rw [accepted, hcalls]
    exact haccepted
  · rwa [htakes.taken, List.append_assoc]

theorem Whole.reallyWrite (hascii : AsciiOneByte rep firstp) (h : lstr.Whole rep firstp w rest)
    (hdata : lstr.noPartialChars = true → TextBegins rep firstp (lstr.accepted ++ data)) :
    ∃ lstr' k, lstr.reallyWrite rep firstp w data = some (lstr', k) ∧
      (lstr.noPartialChars = true → (∀ call ∈ lstr'.calls, WholeChars rep firstp call.1) ∧
        WholeChars rep firstp lstr'.accepted) := by
  have hsize : (toInt data.length).toNat ≤ data.length := by
    unfold toInt
    omega
  obtain ⟨lstr', k, hloop, hresult⟩ := reallyWriteLoop_whole lstr data 0
    (toInt data.length).toNat hascii (data.length + 1) (by omega) (by omega) fun hmode => by
      obtain ⟨hw, -, haccepted, -⟩ := h hmode
      refine ⟨hw, ((hdata hmode).strip haccepted).mono ?_⟩
      rw [List.drop_zero]
      exact List.take_prefix _ _
  refine ⟨lstr', k, hloop, fun hmode => ?_⟩
  obtain ⟨-, hblocks, haccepted, -⟩ := h hmode
  obtain ⟨hblocks', hmore⟩ := hresult hmode hblocks
  refine ⟨hblocks', ?_⟩
  rw [(reallyWrite_exact hloop).2.2]
  exact haccepted.append (by simpa using hmore)

theorem Whole.flushOut (hascii : AsciiOneByte rep firstp) (h : lstr.Whole rep firstp w rest) :
    ∃ lstr', lstr.flushOut rep firstp w = some lstr' ∧ lstr'.Whole rep firstp w rest := by
  have hbuffer (hmode : lstr.noPartialChars = true) : TextBegins rep firstp (lstr.accepted ++ lstr.outBuffer) :=
    (h hmode).2.2.2.mono (List.prefix_append _ _)
  obtain ⟨lstr₁, k, hwrite, hwhole⟩ := h.reallyWrite hascii hbuffer
  have hflush : lstr.flushOut rep firstp w = some _ := congrArg (Option.map _) hwrite
  have htakes := flushOut_takes hflush
  refine ⟨_, hflush, fun hmode => ?_⟩
  have hmode' := htakes.noPartialChars.symm.trans hmode
  obtain ⟨hblocks, haccepted⟩ := hwhole hmode'
  obtain ⟨hw, -, -, hbegins⟩ := h hmode'
  rw [htakes.taken, List.append_nil]
  refine ⟨hw, ?_, ?_, hbegins⟩
  · simp only
    split_ifs <;> exact hblocks
  · simp only
    split_ifs <;> exact haccepted

theorem Whole.writeUnbuffered (hascii : AsciiOneByte rep firstp) (h : lstr.Whole rep firstp w data) :
    ∃ lstr' k, lstr.writeUnbuffered rep firstp w data = some (lstr', k) ∧ lstr'.Whole rep firstp w [] := by
  obtain ⟨lstr₁, hfirst, h₁, htakes₁⟩ : ∃ lstr₁, (if lstr.outBuffer.length > 0 then lstr.flushOut rep firstp w
      else some lstr) = some lstr₁ ∧ lstr₁.Whole rep firstp w data ∧ lstr.Takes [] lstr₁ := by
    split_ifs
    · obtain ⟨lstr₁, hflush, h₁⟩ := h.flushOut hascii
      exact ⟨lstr₁, hflush, h₁, flushOut_takes hflush⟩
    · exact ⟨lstr, rfl, h, .refl lstr⟩
  obtain ⟨lstr₂, n, hsecond, hwhole⟩ : ∃ lstr₂ n, (if lstr₁.outBuffer.length = 0 then
      lstr₁.reallyWrite rep firstp w data else some (lstr₁, 0)) = some (lstr₂, n) ∧
        (lstr₁.noPartialChars = true → (∀ call ∈ lstr₂.calls, WholeChars rep firstp call.1) ∧
          WholeChars rep firstp lstr₂.accepted) := by
    split_ifs with hempty
    · refine h₁.reallyWrite hascii fun hmode => ?_
      have hbegins := (h₁ hmode).2.2.2
      rwa [Lstream.taken, List.length_eq_zero_iff.mp hempty, List.append_nil] at hbegins
    · exact ⟨lstr₁, 0, rfl, fun hmode => ⟨(h₁ hmode).2.1, (h₁ hmode).2.2.1⟩⟩
  obtain ⟨lstr', k, hwrite, hcalls⟩ : ∃ lstr' k, lstr.writeUnbuffered rep firstp w data = some (lstr', k) ∧
      lstr'.calls = lstr₂.calls := by
    obtain ⟨-, -, size, hadding⟩ := lstr₂.adding_spec (data.length - n) true
    rw [Lstream.writeUnbuffered, hfirst, Option.bind_some, hsecond, Option.map_some]
    refine ⟨_, _, rfl, ?_⟩
    simp only
    split_ifs
    · rw [hadding]
      rfl
    · rfl
  obtain ⟨-, htakes⟩ := writeUnbuffered_takes hwrite
  refine ⟨lstr', k, hwrite, fun hmode => ?_⟩
  have hmode' := htakes.noPartialChars.symm.trans hmode
  obtain ⟨hw, -, -, hbegins⟩ := h hmode'
  obtain ⟨hblocks, haccepted⟩ := hwhole (htakes₁.noPartialChars.trans hmode')
  rw [htakes.taken, List.append_nil, accepted, hcalls]
  exact ⟨hw, hblocks, haccepted, hbegins.mono ((List.prefix_append_right_inj _).mpr (List.take_prefix _ _))⟩

theorem Whole.writeBuffered (hascii : AsciiOneByte rep firstp) {fuel : ℕ} {couldnt : Bool} (hoff : off ≤ data.length)
    (hfuel : data.length - off + (if couldnt then 0 else 1) < fuel)
    (h : lstr.Whole rep firstp w (data.drop off ++ rest)) :
    ∃ lstr' k, writeBuffered rep firstp w data fuel off couldnt lstr = some (lstr', k) ∧
      lstr'.Whole rep firstp w rest := by
  induction fuel generalizing off couldnt lstr with
  | zero => exact absurd hfuel (Nat.not_lt_zero _)
  | succ fuel ih =>
    obtain ⟨chunk, couldnt', lstr₁, hle, htakes, hcalls, hkept, hgrows, hstep⟩ :=
      writeBuffered_step rep firstp w data off fuel couldnt lstr
    rw [← List.take_append_drop chunk (data.drop off), List.append_assoc, List.drop_drop] at h
    have h₁ := h.takes htakes hcalls
    rw [hstep]
    split_ifs with hmore
    · obtain ⟨lstr₂, hflush, h₂⟩ := h₁.flushOut hascii
      rw [hflush, Option.bind_some]
      refine ih (by omega) ?_ h₂
      by_cases hzero : chunk = 0
      · obtain ⟨hbefore, hafter⟩ := hgrows hmore hzero
        rw [hbefore, if_neg Bool.false_ne_true] at hfuel
        rw [hafter, if_pos rfl]
        omega
      · cases couldnt with
        | true =>
          rw [if_pos rfl] at hfuel
          rw [hkept rfl, if_pos rfl]
          omega
        | false =>
          rw [if_neg Bool.false_ne_true] at hfuel
          split_ifs <;> omega
    · have hnil : data.drop (off + chunk) = [] := List.drop_eq_nil_of_le (by omega)
      rw [hnil] at h₁
      exact ⟨_, _, rfl, h₁⟩

theorem Whole.nil (h : lstr.Whole rep firstp w data) : lstr.Whole rep firstp w [] := fun hmode => by
  obtain ⟨hw, hblocks, haccepted, hbegins⟩ := h hmode
  exact ⟨hw, hblocks, haccepted, hbegins.mono ((List.prefix_append_right_inj _).mpr List.nil_prefix)⟩

theorem Whole.write1 (hascii : AsciiOneByte rep firstp) (h : lstr.Whole rep firstp w (data ++ rest))
    (hrest : lstr.buffering = .unbuffered → rest = []) :
    ∃ lstr' k, lstr.write1 rep firstp w data = some (lstr', k) ∧ lstr'.Whole rep firstp w rest := by
  rw [Lstream.write1]
  split_ifs with hunbuffered
  · rw [hrest hunbuffered, List.append_nil] at h
    rw [hrest hunbuffered]
    exact h.writeUnbuffered hascii
  · exact Whole.writeBuffered hascii (Nat.zero_le _) (by rw [if_neg Bool.false_ne_true]; omega)
      (by rwa [List.drop_zero])

theorem Whole.fputc (hascii : AsciiOneByte rep firstp) {ch : UInt8} (hbuffered : lstr.buffering ≠ .unbuffered)
    (h : lstr.Whole rep firstp w (ch :: rest)) :
    ∃ lstr', lstr.fputc rep firstp w ch = some lstr' ∧ lstr'.Whole rep firstp w rest := by
  obtain ⟨lstr₁, k, hwrite, h₁⟩ : ∃ lstr₁ k, lstr.write1 rep firstp w [ch] = some (lstr₁, k) ∧
      lstr₁.Whole rep firstp w rest :=
    Whole.write1 hascii h fun hunbuffered => absurd hunbuffered hbuffered
  rw [Lstream.fputc, hwrite, Option.bind_some]
  split_ifs
  · exact h₁.flushOut hascii
  · exact ⟨lstr₁, rfl, h₁⟩

theorem Whole.putc (hascii : AsciiOneByte rep firstp) {ch : UInt8} (hbuffered : lstr.buffering ≠ .unbuffered)
    (h : lstr.Whole rep firstp w (ch :: rest)) :
    ∃ lstr', lstr.putc rep firstp w ch = some lstr' ∧ lstr'.Whole rep firstp w rest := by
  rw [Lstream.putc]
  split_ifs with hfull
  · exact h.fputc hascii hbuffered
  · have h₁ := Whole.takes h (lstr.append_takes lstr.outBufferSize [ch]) rfl
    simp only
    split_ifs
    · exact h₁.flushOut hascii
    · exact ⟨_, rfl, h₁⟩

theorem Whole.putAll (hascii : AsciiOneByte rep firstp) (hbuffered : lstr.buffering ≠ .unbuffered)
    (h : lstr.Whole rep firstp w data) :
    ∃ lstr', lstr.putAll rep firstp w data = some lstr' ∧ lstr'.Whole rep firstp w [] := by
  induction data generalizing lstr with
  | nil => exact ⟨lstr, rfl, h⟩
  | cons ch data ih =>
    obtain ⟨lstr₁, hputc, h₁⟩ := h.putc hascii hbuffered
    rw [Lstream.putAll, hputc, Option.bind_some]
    exact ih ((putc_takes hbuffered hputc).buffering ▸ hbuffered) h₁

theorem Whole.write (hascii : AsciiOneByte rep firstp) (h : lstr.Whole rep firstp w data) :
    ∃ lstr' n, lstr.write rep firstp w data = some (lstr', n) ∧ lstr'.Whole rep firstp w [] := by
  rw [Lstream.write]
  split_ifs with hempty hline
  · exact ⟨lstr, 0, rfl, h.nil⟩
  · rw [← List.append_nil data] at h
    obtain ⟨lstr₁, k, hwrite, h₁⟩ := h.write1 hascii fun _ => rfl
    rw [hwrite, Option.map_some]
    exact ⟨_, _, rfl, h₁⟩
  · obtain ⟨lstr₁, hputAll, h₁⟩ := h.putAll hascii (by rw [not_not.mp hline]; decide)
    rw [hputAll, Option.map_some]
    exact ⟨_, _, rfl, h₁⟩

end Lstream

/-! ### Runs -/

/-- No write is of as many bytes as an `int` cannot count. -/
def LstreamOp.Short : LstreamOp → Prop
  | .write data => data.length < 2 ^ 31
  | .flushOut => True

namespace Output

variable {x x' : Output} {op : LstreamOp} {ops : List LstreamOp}

/-- In character mode, what has been written is a beginning of a text, also with what is to be
written next. -/
def ContinuesText (rep : UInt8 → ℕ) (firstp : UInt8 → Bool) (x : Output) : LstreamOp → Prop
  | .write data => x.lstr.noPartialChars = true → TextBegins rep firstp (x.reported ++ data)
  | .flushOut => True

/-- Nothing is lost, doubled or out of order, and the bytes are counted. -/
def Exact (x : Output) : Prop := x.lstr.taken = x.reported ∧ x.lstr.byteCount = x.reported.length

theorem step_takes (hshort : op.Short) (hstep : x.step rep firstp w op = some x') :
    ∃ data, x.lstr.Takes data x'.lstr ∧ x'.reported = x.reported ++ data := by
  cases op with
  | write data =>
    rw [Output.step] at hstep
    obtain ⟨⟨lstr, n⟩, hwrite, rfl⟩ := Option.map_eq_some_iff.mp hstep
    rw [LstreamOp.Short] at hshort
    exact ⟨data.take n.toNat, Lstream.write_takes hshort hwrite, rfl⟩
  | flushOut =>
    rw [Output.step] at hstep
    obtain ⟨lstr, hflush, rfl⟩ := Option.map_eq_some_iff.mp hstep
    exact ⟨[], Lstream.flushOut_takes hflush, (List.append_nil _).symm⟩

theorem Exact.step (h : x.Exact) (hshort : op.Short) (hstep : x.step rep firstp w op = some x') : x'.Exact := by
  obtain ⟨data, htakes, hreported⟩ := step_takes hshort hstep
  constructor
  · rw [htakes.taken, h.1, hreported]
  · rw [htakes.byteCount, h.2, hreported, List.length_append]

theorem exists_step (hascii : AsciiOneByte rep firstp) (hexact : x.Exact) (hwhole : x.lstr.Whole rep firstp w [])
    (htext : x.ContinuesText rep firstp op) :
    ∃ x', x.step rep firstp w op = some x' ∧ x'.lstr.Whole rep firstp w [] := by
  cases op with
  | write data =>
    have hdata : x.lstr.Whole rep firstp w data := fun hmode => by
      obtain ⟨hw, hblocks, haccepted, -⟩ := hwhole hmode
      exact ⟨hw, hblocks, haccepted, hexact.1 ▸ htext hmode⟩
    obtain ⟨lstr, n, hwrite, h⟩ := hdata.write hascii
    rw [Output.step, hwrite, Option.map_some]
    exact ⟨_, rfl, h⟩
  | flushOut =>
    obtain ⟨lstr, hflush, h⟩ := hwhole.flushOut hascii
    rw [Output.step, hflush, Option.map_some]
    exact ⟨_, rfl, h⟩

theorem init_exact (noPartialChars noSquirrel : Bool) (buffering : LstreamBuffering) (bufferingSize : ℤ) :
    (⟨.new noPartialChars noSquirrel buffering bufferingSize, []⟩ : Output).Exact := by
  cases buffering <;> exact ⟨rfl, rfl⟩

/-- The writer splits a character. -/
theorem splits_character : (exec (Output.step repBytesByFirstByte ibyteFirstByteP
      ⟨fun _ block => min 1 block.length, fun _ _ => min_le_right _ _⟩)
      ⟨.new true false .unbuffered 0, []⟩ [.write [0x81, 0xe9]]).map (·.lstr.calls) =
        some [([0x81, 0xe9], 1), ([0xe9], 1)] ∧ ibyteFirstByteP 0xe9 = false := by
  decide

/-- What was accepted and what is buffered is what was reported as written; in character mode the
writer is given whole characters. -/
theorem output_exact (hascii : AsciiOneByte rep firstp) (noPartialChars noSquirrel : Bool) (buffering : LstreamBuffering)
    (bufferingSize : ℤ) :
    (∀ ops x, Run (Output.step rep firstp w) (fun _ op => op.Short)
        ⟨.new noPartialChars noSquirrel buffering bufferingSize, []⟩ ops x →
      x.lstr.accepted ++ x.lstr.outBuffer = x.reported ∧ x.lstr.byteCount = x.reported.length) ∧
    ((noPartialChars = true → w.AcceptsWholeChars rep firstp) →
      ∀ ops x, Run (Output.step rep firstp w) (fun x op => op.Short ∧ x.ContinuesText rep firstp op)
        ⟨.new noPartialChars noSquirrel buffering bufferingSize, []⟩ ops x →
      (noPartialChars = true → ∀ call ∈ x.lstr.calls, WholeChars rep firstp call.1) ∧
        ∀ op, x.ContinuesText rep firstp op → ∃ x', x.step rep firstp w op = some x') := by
  have hinit := init_exact noPartialChars noSquirrel buffering bufferingSize
  refine ⟨fun ops x hrun => ?_, fun hw ops x hrun => ?_⟩
  · exact hrun.invariant (I := Exact) hinit fun t op u h hshort hstep => h.step hshort hstep
  · have hwhole : x.Exact ∧ x.lstr.Whole rep firstp w [] ∧ x.lstr.noPartialChars = noPartialChars := by
      refine hrun.invariant (I := fun x => x.Exact ∧ x.lstr.Whole rep firstp w [] ∧ x.lstr.noPartialChars = noPartialChars)
        ⟨hinit, fun hmode => ?_, by cases buffering <;> rfl⟩ fun t op u ⟨hexact, hwhole, hmode⟩ ⟨hshort, htext⟩ hstep => ?_
      · have hcalls : (Lstream.new noPartialChars noSquirrel buffering bufferingSize).calls = [] := by
          cases buffering <;> rfl
        have htaken : (Lstream.new noPartialChars noSquirrel buffering bufferingSize).taken = [] := by
          cases buffering <;> rfl
        refine ⟨hw (by cases buffering <;> exact hmode), ?_, ?_, ?_⟩
        · rw [hcalls]
          exact fun call hcall => (nomatch hcall)
        · rw [Lstream.accepted, hcalls]
          exact .nil
        · rw [htaken]
          exact WholeChars.nil.textBegins
      · obtain ⟨u', hu', hwhole'⟩ := exists_step hascii hexact hwhole htext
        obtain rfl := Option.some.inj (hstep.symm.trans hu')
        obtain ⟨data, htakes, -⟩ := step_takes hshort hstep
        exact ⟨hexact.step hshort hstep, hwhole', htakes.noPartialChars.trans hmode⟩
    obtain ⟨hexact, hwhole, hmode⟩ := hwhole
    refine ⟨fun htrue => (hwhole (hmode.trans htrue)).2.1, fun op htext => ?_⟩
    obtain ⟨x', hstep, -⟩ := exists_step hascii hexact hwhole htext
    exact ⟨x', hstep⟩

theorem asciiOneByte : AsciiOneByte repBytesByFirstByte ibyteFirstByteP := fun c hc => by
  have hlow : c < 0xa0 := UInt8.lt_trans hc (by decide)
  refine ⟨decide_eq_true hlow, ?_⟩
  rw [repBytesByFirstByte, if_pos hc]

def accepting : Writer := ⟨fun _ block => block.length, fun _ _ => le_rfl⟩

theorem output_exact_accepting : ∃ x : Output, Output.step repBytesByFirstByte ibyteFirstByteP accepting
      ⟨.new true false .unbuffered 0, []⟩ (.write [0x81, 0xe9]) = some x ∧
    x.lstr.accepted ++ x.lstr.outBuffer = x.reported ∧
    ∀ call ∈ x.lstr.calls, WholeChars repBytesByFirstByte ibyteFirstByteP call.1 := by
  obtain ⟨hexact, hwhole⟩ := output_exact (w := accepting) asciiOneByte true false .unbuffered 0
  have haccepts : accepting.AcceptsWholeChars repBytesByFirstByte ibyteFirstByteP := fun _ block hblock => by
    rwa [show accepting.accepts _ block = block.length from rfl, List.take_length]
  have hsize : [(0xe9 : UInt8)].length + 1 = repBytesByFirstByte 0x81 := by decide
  have hvalid : (⟨0x81, [0xe9], hsize⟩ : Ichar repBytesByFirstByte).Valid ibyteFirstByteP :=
    ⟨rfl, List.forall_mem_singleton.mpr rfl⟩
  have htext : ContinuesText repBytesByFirstByte ibyteFirstByteP ⟨.new true false .unbuffered 0, []⟩
      (.write [0x81, 0xe9]) := fun _ =>
    ⟨[0x81, 0xe9], ⟨[⟨0x81, [0xe9], hsize⟩], List.forall_mem_singleton.mpr hvalid, rfl⟩, List.prefix_rfl⟩
  have hshort : (LstreamOp.write [0x81, 0xe9]).Short := by
    rw [LstreamOp.Short, List.length_cons, List.length_singleton]
    decide
  obtain ⟨x, hx⟩ := (hwhole (fun _ => haccepts) [] _ .nil).2 _ htext
  exact ⟨x, hx, (hexact _ x (.single hshort hx)).1, (hwhole (fun _ => haccepts) _ x (.single ⟨hshort, htext⟩ hx)).1 rfl⟩

end Output

end XEmacs.Stream
