import XEmacs.Extent.BufferExtentsRuns

/-! What a deletion does to each extent. A zero-length extent next to the deleted text is detached
whatever its endpoints are, since in a region it counts as closed at both ends. -/

namespace XEmacs.Extents

open Lib Lib.Gap Text

variable {b : Buffer} {x : Extent} {start stop : ℤ}

theorem in_region_of_inside (hst : Indexable (b.bytebposToMembpos start)) (hen : Indexable (b.bytebposToMembpos stop))
    (hx : Indexable x.start ∧ Indexable x.stop) (hle : x.start ≤ x.stop)
    (hin : b.bytebposToMembpos start ≤ x.start ∧ x.stop ≤ b.bytebposToMembpos stop) :
    extentInRegionP b x start stop processFlags = true := by
  have hstartOpen : (if start = stop then false else processFlags.startOpen) = false := by split_ifs <;> rfl
  have hendClosed : (if start = stop then true else processFlags.endClosed) = true := by split_ifs <;> rfl
  have hopenness : x.start = x.stop → x.openness processFlags.allExtents = (false, false) := fun heq => by
    rw [Extent.openness.eq_def, if_pos heq]
  rw [extentInRegionP, hstartOpen, hendClosed]
  simp only [memxposToStartind_eq hst.1 hst.2, memxposToEndind_eq hen.1 hen.2, memxposToStartind_eq hx.1.1 hx.1.2,
    memxposToEndind_eq hx.2.1 hx.2.2, Bool.not_true, Bool.false_eq_true, if_false, add_zero, sub_zero]
  have hmeets : ¬ ((2 * x.start + if (x.openness processFlags.allExtents).1 = true then 1 else 0) >
      2 * b.bytebposToMembpos stop ∨
        (2 * x.stop - if (x.openness processFlags.allExtents).2 = true then 1 else 0) < 2 * b.bytebposToMembpos start) := by
    rcases hle.eq_or_lt with heq | hlt
    · rw [hopenness heq]
      simp only [Bool.false_eq_true, if_false]
      omega
    · split_ifs <;> omega
  rw [if_neg hmeets]
  rfl

theorem Deletable.byte_adjusted {byteFrom byteTo m : ℤ} {doMoveGap : Bool} (hd : Deletable b byteFrom byteTo doMoveGap)
    (hm : b.validMembposP m) (start stop : ℤ) :
    (b.deleteAtGap start stop byteFrom byteTo doMoveGap).membposToBytebpos (doMarkerAdjustment m (byteTo + b.gapSize)
      (byteTo + b.gapSize) (deletionAmount b byteFrom byteTo doMoveGap)) =
        deletePos byteFrom byteTo (b.membposToBytebpos m) := by
  have hbyte {g k m : ℤ} (hk : 0 ≤ k) (hoff : BeforeGapEnd g k m) : (if m > g then m - k else m) = decode g k m := by
    unfold BeforeGapEnd at hoff
    unfold decode
    split_ifs <;> omega
  obtain ⟨hlayout, -, -, hle, -, hgap⟩ := hd
  have hpos := hlayout.gap_pos
  obtain ⟨hoff, -, hz⟩ := (Buffer.validMembposP_iff hlayout).mp hm
  rw [Buffer.membposToBytebpos_eq hlayout hm, Buffer.deleteAtGap_eq, Buffer.membposToBytebpos, deletionAmount]
  cases doMoveGap with
  | true =>
    simp only [if_true] at hgap ⊢
    rw [hbyte (by omega) (beforeGapEnd_adjust_delete m)]
    exact decode_adjust_delete hgap.1 hgap.2 (by omega) m
  | false =>
    simp only [Bool.false_eq_true, if_false, sub_zero] at hgap ⊢
    rw [hbyte (by omega) (beforeGapEnd_adjust_delete_end hgap.2 hle hoff)]
    exact decode_adjust_delete_end hgap.2 hle (by omega) (hz.trans hgap.1.ge)

namespace BufferExtents

variable {rep : UInt8 → ℕ} {s s' : BufferExtents} {t : EditedText rep} {stamp : ℕ → ℤ} {byteFrom byteTo cfrom cto : ℤ}
  {doMoveGap : Bool} {fuel : ℕ} {e : ℕ}

def endpointByte (s : BufferExtents) (e : ℕ) (endp : Bool) : ℤ := s.buf.membposToBytebpos ((s.info.ext e).endpoint endp)

def InsideDeleted (s : BufferExtents) (byteFrom byteTo : ℤ) (e : ℕ) : Prop :=
  byteFrom ≤ s.endpointByte e false ∧ s.endpointByte e true ≤ byteTo

/-- On a side of the zero-length extent text is deleted, and that endpoint is closed. -/
def ClosedToDeletion (s : BufferExtents) (byteFrom byteTo : ℤ) (e : ℕ) : Prop :=
  byteFrom < s.endpointByte e false ∧ (s.info.ext e).startOpen = false ∨
    s.endpointByte e true < byteTo ∧ (s.info.ext e).endOpen = false

/-- The rules for a deletion: what is left of an extent is where the text around it is, and a
detachable extent of the deleted text is detached unless it was empty and open there. -/
structure FollowsDeletionRules (s s' : BufferExtents) (byteFrom byteTo : ℤ) : Prop where
  moved : ∀ e ∈ s'.info.attached, e ∈ s.info.attached ∧
    ∀ endp, s'.endpointByte e endp = deletePos byteFrom byteTo (s.endpointByte e endp)
  extended : ∀ e ∈ s.info.attached, (s.info.ext e).internal = false → (s.info.ext e).start < (s.info.ext e).stop →
    (e ∉ s'.info.attached ↔ s.InsideDeleted byteFrom byteTo e ∧ (s.info.ext e).detachable = true)
  zeroLength : ∀ e ∈ s.info.attached, (s.info.ext e).internal = false → (s.info.ext e).start = (s.info.ext e).stop →
    e ∉ s'.info.attached → s.InsideDeleted byteFrom byteTo e ∧ (s.info.ext e).detachable = true ∧
      s.ClosedToDeletion byteFrom byteTo e

theorem membpos_le_iff {m : ℤ} (hb : b.Layout) (hm : b.validMembposP m) (p : ℤ) :
    (p ≤ b.membposToBytebpos m ↔ b.bytebposToMembpos p ≤ m) ∧ (b.membposToBytebpos m ≤ p ↔ m ≤ b.bytebposToMembpos p) := by
  have hgap := hb.gap_pos
  unfold Buffer.validMembposP at hm
  unfold Buffer.membposToBytebpos Buffer.bytebposToMembpos
  split_ifs <;> omega

theorem deleteAtGap_left (hord : s.info.Ordered stamp) (hd : Deletable s.buf byteFrom byteTo doMoveGap)
    (hvalid : ∀ e ∈ s.info.attached, s.buf.validMembposP (s.info.ext e).start ∧ s.buf.validMembposP (s.info.ext e).stop)
    (hfuel : s.info.extents.numEls < fuel) (cfrom cto : ℤ) :
    ∃ s', s.deleteAtGap fuel cfrom cto byteFrom byteTo doMoveGap = some s' ∧
      (∀ e, e ∈ s'.info.attached ↔ e ∈ s.info.attached ∧ ¬ ((s.info.ext e).internal = false ∧
        s.InsideDeleted byteFrom byteTo e ∧ (s.info.ext e).detachable = true)) ∧
      ∀ e ∈ s'.info.attached, ∀ endp, s'.endpointByte e endp = deletePos byteFrom byteTo (s.endpointByte e endp) := by
  obtain ⟨info, info', stamp', hdelete, hdone, -, -, hatt, hext⟩ := @deleteAtGap_info _ cfrom cto _ _ _ _ _ hord hd hvalid hfuel
  refine ⟨_, hdelete, fun e => ?_, fun e he endp => ?_⟩
  · have hin (he : e ∈ s.info.attached) : e ∈ visited s.buf processFlags byteFrom byteTo s.info ∧
        detachedBy (s.buf.bytebposToMembpos byteFrom) (s.buf.bytebposToMembpos byteTo) (s.info.ext e) = true ↔
          (s.info.ext e).internal = false ∧ s.InsideDeleted byteFrom byteTo e ∧ (s.info.ext e).detachable = true := by
      obtain ⟨hstart, hstop⟩ := hvalid e he
      have hinside : s.InsideDeleted byteFrom byteTo e ↔ s.buf.bytebposToMembpos byteFrom ≤ (s.info.ext e).start ∧
          (s.info.ext e).stop ≤ s.buf.bytebposToMembpos byteTo :=
        and_congr (membpos_le_iff hd.layout hstart byteFrom).1 (membpos_le_iff hd.layout hstop byteTo).2
      have hregion (hmem : s.buf.bytebposToMembpos byteFrom ≤ (s.info.ext e).start ∧
          (s.info.ext e).stop ≤ s.buf.bytebposToMembpos byteTo) :=
        in_region_of_inside (hd.indexable hd.one_le (hd.le.trans hd.le_z)) (hd.indexable (hd.one_le.trans hd.le) hd.le_z)
          ⟨hd.indexable_of_valid hstart, hd.indexable_of_valid hstop⟩ (hord.proper e he) hmem
      rw [mem_visited hord, toVisit_none, detachedBy, hinside]
      simp only [Bool.and_eq_true, decide_eq_true_eq]
      constructor
      · rintro ⟨⟨-, hinternal, -⟩, hmem, hdetachable⟩
        exact ⟨by simpa [processFlags, MapFlags.zero] using hinternal, hmem, hdetachable⟩
      · rintro ⟨hinternal, hmem, hdetachable⟩
        exact ⟨⟨he, by simp [hinternal], hregion hmem⟩, hmem, hdetachable⟩
    rw [hatt, hdone.mem_attached]
    exact and_congr_right fun he => not_congr (hin he)
  · rw [hatt] at he
    obtain ⟨hstart, hstop⟩ := hvalid e (hdone.attached_subset he)
    rw [endpointByte, endpointByte]
    simp only [hext e he]
    cases endp with
    | false => exact hd.byte_adjusted hstart cfrom cto
    | true => exact hd.byte_adjusted hstop cfrom cto

/-- A deletion follows the rules just if no detachable zero-length extent with open ends is next to
or in the deleted text. -/
theorem deletion_follows_rules_iff (hord : s.info.Ordered stamp) (hd : Deletable s.buf byteFrom byteTo doMoveGap)
    (hvalid : ∀ e ∈ s.info.attached, s.buf.validMembposP (s.info.ext e).start ∧ s.buf.validMembposP (s.info.ext e).stop)
    (hfuel : s.info.extents.numEls < fuel) (cfrom cto : ℤ) :
    ∃ s', s.deleteAtGap fuel cfrom cto byteFrom byteTo doMoveGap = some s' ∧
      (FollowsDeletionRules s s' byteFrom byteTo ↔
        ∀ e ∈ s.info.attached, (s.info.ext e).internal = false → (s.info.ext e).detachable = true →
          (s.info.ext e).start = (s.info.ext e).stop → s.InsideDeleted byteFrom byteTo e →
            s.ClosedToDeletion byteFrom byteTo e) := by
  obtain ⟨s', hs', hleft, hmoved⟩ := deleteAtGap_left hord hd hvalid hfuel cfrom cto
  refine ⟨s', hs', fun h e he hinternal hdetachable hzero hinside => ?_, fun h => ⟨fun e he => ?_, fun e he hinternal _ => ?_, ?_⟩⟩
  · refine (h.zeroLength e he hinternal hzero fun hmem => ?_).2.2
    exact ((hleft e).mp hmem).2 ⟨hinternal, hinside, hdetachable⟩
  · exact ⟨((hleft e).mp he).1, hmoved e he⟩
  · rw [hleft]
    tauto
  · intro e he hinternal hzero hout
    rw [hleft] at hout
    have hdetached := not_not.mp fun hnot => hout ⟨he, hnot⟩
    exact ⟨hdetached.2.1, hdetached.2.2, h e he hinternal hdetached.2.2 hzero hdetached.2.1⟩

def overlapping : List (BufferExtentsOp repBytesByFirstByte) :=
  [.insert 1 [LineBuffer.letterA, LineBuffer.letterA, LineBuffer.letterA] false 5, .makeExtent 1 3 closedOpen,
    .makeExtent 2 4 closedOpen, .moveGap 3 Buffer.inhibitQuit]

theorem deletion_follows_rules_overlapping : ∃ s s' : BufferExtents, (s.info.ext 0).stop = 3 ∧
    s.deleteAtGap (s.info.extents.numEls + 1) 2 3 2 3 true = some s' ∧
      (FollowsDeletionRules s s' 2 3 ↔
        ∀ e ∈ s.info.attached, (s.info.ext e).internal = false → (s.info.ext e).detachable = true →
          (s.info.ext e).start = (s.info.ext e).stop → s.InsideDeleted 2 3 e → s.ClosedToDeletion 2 3 e) := by
  have hexec : (execOk BufferExtents.step Adjusts (init fun _ => 0) overlapping).any (fun s =>
      decide ((s.info.ext 0).stop = 3 ∧ s.buf.allocated < 2 ^ 30 ∧ s.buf.gpt = 3 ∧ s.buf.z = 4)) = true := by decide +kernel
  obtain ⟨s, hrun, hstop, hfit, hgpt, hz⟩ := exists_run_of_execOk hexec
  obtain ⟨t, stamp, ht⟩ := holds_of_run hrun
  have hd : Deletable s.buf 2 3 true :=
    ⟨ht.text.layout, hfit, by decide, by decide, by rw [hz]; decide, by rw [if_pos rfl, hgpt]; decide⟩
  obtain ⟨s', hs', hrules⟩ := deletion_follows_rules_iff ht.ordered hd
    (fun e he => ⟨(ht.atChar e he).1.valid ht.text, (ht.atChar e he).2.valid ht.text⟩) (Nat.lt_succ_self _) 2 3
  exact ⟨s, s', hstop, hs', hrules⟩

/-- A zero-length extent that is open at the end, in front of a character. -/
def emptyExtent : List (BufferExtentsOp repBytesByFirstByte) :=
  [.insert 1 [LineBuffer.letterA, LineBuffer.letterA] false 5, .makeExtent 2 2 closedOpen]

/-- The character after the open end is deleted, and the extent is detached. -/
theorem emptyExtent_detached : ∃ s s' : BufferExtents, Run BufferExtents.step anyStep (init fun _ => 0) emptyExtent s ∧
    s.step (.delete 2 3 5 : BufferExtentsOp repBytesByFirstByte) = some s' ∧ (s.info.ext 0).endOpen = true ∧
      ¬ FollowsDeletionRules s s' 2 3 := by
  have hexec : (exec BufferExtents.step (init fun _ => 0) emptyExtent).any (fun s => decide
      ((0 ≤ (s.info.ext 0).start ∧ (s.info.ext 0).internal = false ∧ (s.info.ext 0).start = (s.info.ext 0).stop) ∧
        (s.info.ext 0).endOpen = true ∧ s.endpointByte 0 false = 2 ∧
          (s.step (.delete 2 3 5 : BufferExtentsOp repBytesByFirstByte)).any fun s' => (s'.info.ext 0).detachedP)) = true := by
    decide +kernel
  obtain ⟨s, hrun, ⟨hatt, hinternal, hzero⟩, hopen, hbyte, hany⟩ := exists_run_of_exec hexec
  obtain ⟨s', hs', hdetached⟩ := (Option.any_eq_true _ _).mp hany
  refine ⟨s, s', hrun, hs', hopen, fun hrules => ?_⟩
  rcases (hrules.zeroLength 0 hatt hinternal hzero (ExtentInfo.detachedP_iff.mp hdetached)).2.2 with ⟨hlt, -⟩ | ⟨-, hclosed⟩
  · rw [hbyte] at hlt
    exact lt_irrefl _ hlt
  · exact Bool.false_ne_true (hclosed.symm.trans hopen)

end BufferExtents

end XEmacs.Extents
