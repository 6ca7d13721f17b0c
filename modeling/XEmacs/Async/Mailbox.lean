import XEmacs.Async.Steps

/-! Delivery of messages. What a plain receiver has received and what is in its mailbox is
what has been sent to it, until it is woken from a receive: then the message it returns is
in the mailbox too, and the next receive returns it again. -/

namespace XEmacs.Async

open Lib

/-- The messages sent to `c`, in order. -/
def sentTo (c : CoroId) (log : List Event) : List LispObject :=
  log.filterMap fun
    | .sent target msg => if target = c then some msg else none
    | _ => none

/-- The messages that `c` has received, in order. -/
def receivedBy (c : CoroId) (log : List Event) : List LispObject :=
  log.filterMap fun
    | .received receiver msg _ => if receiver = c then some msg else none
    | _ => none

/-- A receive of `c` has waited and returned. -/
def HasWaited (c : CoroId) (log : List Event) : Prop :=
  log.any fun
    | .received receiver _ true => receiver = c
    | _ => false

instance (c : CoroId) (log : List Event) : Decidable (HasWaited c log) :=
  inferInstanceAs (Decidable (_ = true))

/-- The logs say the same about the messages of `c`. -/
structure SameMessages (c : CoroId) (log log' : List Event) : Prop where
  sent : sentTo c log' = sentTo c log
  received : receivedBy c log' = receivedBy c log
  waited : HasWaited c log' ↔ HasWaited c log

section Log

variable (c : CoroId) (log : List Event) (t : CoroId) (msg : LispObject)

theorem hasWaited_append (e : Event) :
    HasWaited c (log ++ [e]) ↔ HasWaited c log ∨ ∃ msg, e = .received c msg true := by
  simp only [HasWaited, List.any_append, Bool.or_eq_true]
  refine or_congr_right ?_
  cases e with
  | received r msg b => cases b <;> simp
  | _ => simp

theorem SameMessages.refl : SameMessages c log log := ⟨rfl, rfl, Iff.rfl⟩

theorem SameMessages.trans {log log' log'' : List Event} (h : SameMessages c log log')
    (h' : SameMessages c log' log'') : SameMessages c log log'' :=
  ⟨h'.sent.trans h.sent, h'.received.trans h.received, h'.waited.trans h.waited⟩

theorem sameMessages_append {e : Event} (hs : ∀ msg, e ≠ .sent c msg)
    (hr : ∀ msg b, e ≠ .received c msg b) : SameMessages c log (log ++ [e]) where
  sent := by
    cases e with
    | sent t msg =>
      have hne : t ≠ c := fun heq => hs msg (by rw [heq])
      simp [sentTo, hne]
    | _ => simp [sentTo]
  received := by
    cases e with
    | received t msg b =>
      have hne : t ≠ c := fun heq => hr msg b (by rw [heq])
      simp [receivedBy, hne]
    | _ => simp [receivedBy]
  waited := by
    rw [hasWaited_append]
    exact or_iff_left fun ⟨msg, hmsg⟩ => hr msg true hmsg

theorem sentTo_sent : sentTo c (log ++ [.sent c msg]) = sentTo c log ++ [msg] := by
  simp [sentTo]

theorem receivedBy_received (b : Bool) :
    receivedBy c (log ++ [.received c msg b]) = receivedBy c log ++ [msg] := by
  simp [receivedBy]

theorem receivedBy_sent : receivedBy c (log ++ [.sent t msg]) = receivedBy c log := by
  simp [receivedBy]

theorem sentTo_received (b : Bool) : sentTo c (log ++ [.received t msg b]) = sentTo c log := by
  simp [sentTo]

theorem hasWaited_sent : HasWaited c (log ++ [.sent t msg]) ↔ HasWaited c log := by
  simp [hasWaited_append]

theorem hasWaited_received : HasWaited c (log ++ [.received c msg false]) ↔ HasWaited c log := by
  simp [hasWaited_append]

theorem hasWaited_of_waited : HasWaited c (log ++ [.received c msg true]) := by
  simp [hasWaited_append]

end Log

/-- A coroutine, given the messages sent to it and received by it and whether it has waited. -/
structure Delivers (k : Coro) (sent received : List LispObject) (waited : Prop) : Prop where
  queue : ¬ waited → sent = received ++ k.mailbox
  waited : waited → k.frame ≠ .receive
  waiting : k.frame = .receive → k.state = .suspended → k.waitReason = .mailbox ∧ k.mailbox = []
  woken : k.frame = .receive → k.state = .runnable → k.mailbox.head? = some k.result

structure Mailbox (c : CoroId) (v : View) : Prop where
  unborn : v.allocated ≤ c → sentTo c v.log = [] ∧ receivedBy c v.log = [] ∧ ¬ HasWaited c v.log
  delivered : receivedBy c v.log <+: sentTo c v.log
  delivers : ∀ k, v.core c = some k →
    Delivers k (sentTo c v.log) (receivedBy c v.log) (HasWaited c v.log)

variable {c t : CoroId} {v v' : View} {l : Label} {k k' : Coro}

theorem Mailbox.congr (h : Mailbox c v) (hcore : v'.core c = v.core c)
    (halloc : v.allocated ≤ v'.allocated) (hlog : SameMessages c v.log v'.log) : Mailbox c v' where
  unborn hc := by
    rw [hlog.sent, hlog.received, hlog.waited]
    exact h.unborn (Nat.le_trans halloc hc)
  delivered := by
    rw [hlog.sent, hlog.received]
    exact h.delivered
  delivers k hk := by
    rw [hlog.sent, hlog.received, propext hlog.waited]
    exact h.delivers k (hcore ▸ hk)

theorem Mailbox.of_delivers {k' : Coro} (hfresh : c < v'.allocated) (hcore : v'.core c = some k')
    (hd : receivedBy c v'.log <+: sentTo c v'.log)
    (hk : Delivers k' (sentTo c v'.log) (receivedBy c v'.log) (HasWaited c v'.log)) :
    Mailbox c v' where
  unborn hc := absurd hc (Nat.not_le.mpr hfresh)
  delivered := hd
  delivers _ hk' := Option.some.inj (hcore.symm.trans hk') ▸ hk

theorem Mailbox.keep (h : Mailbox c v) (hk : v.core c = some k) (hfresh : c < v'.allocated)
    (hcore : v'.core c = some k') (hlog : SameMessages c v.log v'.log)
    (hmail : k'.mailbox = k.mailbox)
    (hframe : k'.frame = .receive → k.frame = .receive ∧ k'.state = k.state ∧
      k'.waitReason = k.waitReason ∧ k'.result = k.result) : Mailbox c v' := by
  have hd := h.delivers k hk
  refine .of_delivers hfresh hcore (by rw [hlog.sent, hlog.received]; exact h.delivered) ?_
  rw [hlog.sent, hlog.received, propext hlog.waited]
  refine ⟨fun hw => by rw [hmail]; exact hd.queue hw, fun hw hf => hd.waited hw (hframe hf).1,
    fun hf hs => ?_, fun hf hs => ?_⟩
  · obtain ⟨hf', hs', hr', -⟩ := hframe hf
    rw [hmail, hr']
    exact hd.waiting hf' (hs' ▸ hs)
  · obtain ⟨hf', hs', -, hres⟩ := hframe hf
    rw [hmail, hres]
    exact hd.woken hf' (hs' ▸ hs)

theorem Mailbox.freed (h : Mailbox c v) (hfresh : c < v'.allocated) (hcore : v'.core c = none)
    (hlog : SameMessages c v.log v'.log) : Mailbox c v' where
  unborn hc := absurd hc (Nat.not_le.mpr hfresh)
  delivered := by
    rw [hlog.sent, hlog.received]
    exact h.delivered
  delivers k hk := by simp [hcore] at hk

def PlainLabel (c : CoroId) (v : View) (l : Label) : Prop :=
  (l = .take c → ¬ HasWaited c v.log) ∧
    ∀ reason, l = .block c reason .receive → reason = .mailbox ∧ ¬ HasWaited c v.log

theorem Mailbox.effect (h : Mailbox c v) (hl : v.Linked) (hok : PlainLabel c v l)
    (he : Effect v l v') : Mailbox c v' := by
  have hfresh : ∀ {k}, v.core c = some k → c < v.allocated := fun {k} hk =>
    Nat.lt_of_not_le fun hle => by simp [hl.fresh c hle] at hk
  have hrefl := SameMessages.refl c v.log
  cases he with
  | quiet => exact h
  | walkEnd =>
    exact h.congr rfl (Nat.le_refl _) (sameMessages_append c v.log (by simp) (by simp))
  | @spawn fn arg isActor hnew =>
    by_cases hc : c = v.allocated
    · obtain ⟨h1, h2, h3⟩ := h.unborn (Nat.le_of_eq hc.symm)
      have hcore : (v.set v.allocated (.new fn arg isActor)).core c = some (.new fn arg isActor) := by
        rw [hc]
        exact v.set_core_self _ _
      refine .of_delivers (Nat.lt_succ_of_le (Nat.le_of_eq hc)) hcore h.delivered ?_
      show Delivers _ (sentTo c v.log) (receivedBy c v.log) (HasWaited c v.log)
      rw [h1, h2]
      exact ⟨fun _ => rfl, fun hw => absurd hw h3, fun hf => by simp [Coro.new] at hf,
        fun hf => by simp [Coro.new] at hf⟩
    · exact h.congr (v.set_core_of_ne hc _) (Nat.le_succ _) hrefl
  | @deliver t k msg hk hw =>
    by_cases hc : c = t
    · subst hc
      have hd := h.delivers k hk
      refine .of_delivers (hfresh hk) (v.set_core_self _ _) ?_ ?_
      · show receivedBy c (v.log ++ [.sent c msg]) <+: sentTo c (v.log ++ [.sent c msg])
        rw [receivedBy_sent, sentTo_sent]
        exact h.delivered.trans (List.prefix_append ..)
      · show Delivers _ (sentTo c (v.log ++ [.sent c msg])) (receivedBy c (v.log ++ [.sent c msg]))
          (HasWaited c (v.log ++ [.sent c msg]))
        rw [receivedBy_sent, sentTo_sent, propext (hasWaited_sent c v.log c msg)]
        refine ⟨fun hn => ?_, hd.waited, fun hf hs => ?_, fun hf hs => ?_⟩
        · rw [hd.queue hn, List.append_assoc]
        · exact absurd ⟨hs, (hd.waiting hf hs).1⟩ hw
        · have hhead := hd.woken hf hs
          rw [List.head?_append, hhead]
          rfl
    · exact h.congr (v.set_core_of_ne hc _) (Nat.le_refl _)
        (sameMessages_append c v.log (by simp [Ne.symm hc]) (by simp))
  | @wake t k msg hk hsus hr =>
    by_cases hc : c = t
    · subst hc
      have hd := h.delivers k hk
      have hwaits := hl.suspended c k hk hsus
      have hf : k.frame = .receive := by
        rw [hr] at hwaits
        cases hf : k.frame <;> simp [hf, Frame.waits] at hwaits ⊢
      have hn : ¬ HasWaited c v.log := fun hw => hd.waited hw hf
      have hempty := (hd.waiting hf hsus).2
      have hsame : SameMessages c (v.log ++ [.sent c msg]) (v.log ++ [.sent c msg] ++ [.resumed c .nil]) :=
        sameMessages_append c _ (by simp) (by simp)
      have hqueue := hd.queue hn
      rw [hempty, List.append_nil] at hqueue
      refine .of_delivers (hfresh hk) (v.set_core_self _ _) ?_ ?_
      · show receivedBy c (v.log ++ [.sent c msg] ++ [.resumed c .nil]) <+:
          sentTo c (v.log ++ [.sent c msg] ++ [.resumed c .nil])
        rw [hsame.received, hsame.sent, receivedBy_sent, sentTo_sent]
        exact h.delivered.trans (List.prefix_append ..)
      · show Delivers _ (sentTo c (v.log ++ [.sent c msg] ++ [.resumed c .nil]))
          (receivedBy c (v.log ++ [.sent c msg] ++ [.resumed c .nil]))
          (HasWaited c (v.log ++ [.sent c msg] ++ [.resumed c .nil]))
        rw [hsame.received, hsame.sent, propext hsame.waited, receivedBy_sent, sentTo_sent,
          propext (hasWaited_sent c v.log c msg)]
        refine ⟨fun _ => ?_, fun hw => absurd hw hn, fun _ hs => by simp [Coro.resumed] at hs,
          fun _ _ => ?_⟩
        · simp [Coro.resumed, hqueue, hempty]
        · simp [Coro.resumed, hempty]
    · refine h.congr (v.set_core_of_ne hc _) (Nat.le_refl _) ?_
      exact (sameMessages_append c v.log (by simp [Ne.symm hc]) (by simp)).trans c
        (sameMessages_append c _ (by simp) (by simp))
  | @monitor t k ws hk =>
    by_cases hc : c = t
    · subst hc
      exact h.keep hk (hfresh hk) (v.set_core_self _ _) hrefl rfl fun hf => ⟨hf, rfl, rfl, rfl⟩
    · exact h.congr (v.set_core_of_ne hc _) (Nat.le_refl _) hrefl
  | @resume t k result error hk hsus hf =>
    have hlog : SameMessages c v.log (v.log ++ [.resumed t error]) :=
      sameMessages_append c v.log (by simp) (by simp)
    by_cases hc : c = t
    · subst hc
      refine h.keep hk (hfresh hk) (v.set_core_self _ _) hlog rfl fun hr => ?_
      -- a plain receive is not resumed by a timer
      have hr' : k.frame = .receive := hr
      have hreason := ((h.delivers k hk).waiting hr' hsus).1
      simp [hr', hreason] at hf
    · exact h.congr (v.set_core_of_ne hc _) (Nat.le_refl _) hlog
  | @take t k msg rest hcur hk hm =>
    by_cases hc : c = t
    · subst hc
      have hd := h.delivers k hk
      have hn : ¬ HasWaited c v.log := hok.1 rfl
      have hqueue := hd.queue hn
      have hactive := hl.active c k hk ((hl.running c k hk).mpr hcur)
      refine .of_delivers (hfresh hk) (v.set_core_self _ _) ?_ ?_
      · show receivedBy c (v.log ++ [.received c msg false]) <+: sentTo c (v.log ++ [.received c msg false])
        rw [receivedBy_received, sentTo_received, hqueue, hm]
        exact ⟨rest, by simp⟩
      · show Delivers _ (sentTo c (v.log ++ [.received c msg false]))
          (receivedBy c (v.log ++ [.received c msg false])) (HasWaited c (v.log ++ [.received c msg false]))
        rw [receivedBy_received, sentTo_received, propext (hasWaited_received c v.log msg)]
        refine ⟨fun _ => by rw [hqueue, hm]; simp, fun hw => absurd hw hn, fun hf => ?_, fun hf => ?_⟩ <;>
          exact absurd (hactive.symm.trans hf) (by simp)
    · refine h.congr (v.set_core_of_ne hc _) (Nat.le_refl _) ?_
      exact sameMessages_append c v.log (by simp) (by simp [Ne.symm hc])
  | @block t k reason frame deadline hcur hk hs hw hj hm =>
    by_cases hc : c = t
    · subst hc
      have hd := h.delivers k hk
      refine .of_delivers (hfresh hk) (v.set_core_self _ _) h.delivered ?_
      show Delivers _ (sentTo c v.log) (receivedBy c v.log) (HasWaited c v.log)
      refine ⟨hd.queue, fun hwait hf => ?_, fun hf _ => ?_, fun _ hs => by simp [Coro.blocked] at hs⟩
      · obtain rfl : frame = .receive := hf
        exact (hok.2 reason rfl).2 hwait
      · obtain rfl : frame = .receive := hf
        exact ⟨(hok.2 reason rfl).1, hm rfl⟩
    · exact h.congr (v.set_core_of_ne hc _) (Nat.le_refl _) hrefl
  | @register r t k kt frame hcur ht hdead hj hk hs =>
    have hframe : frame ≠ .receive := by
      rcases hj with rfl | rfl <;> simp
    by_cases hc : c = r
    · subst hc
      by_cases hct : c = t
      · subst hct
        obtain rfl : k = { kt with joinWaiter := some c } :=
          (Option.some.inj ((v.set_core_self _ _).symm.trans hk)).symm
        exact h.keep ht (hfresh ht) (View.set_core_self _ _ _) hrefl rfl fun hf => absurd hf hframe
      · have hk' := (v.set_core_of_ne hct _).symm.trans hk
        exact h.keep hk' (hfresh hk') (View.set_core_self _ _ _) hrefl rfl fun hf => absurd hf hframe
    · by_cases hct : c = t
      · subst hct
        exact h.keep ht (hfresh ht) ((View.set_core_of_ne _ hc _).trans (v.set_core_self _ _)) hrefl rfl
          fun hf => ⟨hf, rfl, rfl, rfl⟩
      · exact h.congr ((View.set_core_of_ne _ hc _).trans (v.set_core_of_ne hct _)) (Nat.le_refl _) hrefl
  | @reap r t kt hcur ht hdead =>
    by_cases hc : c = t
    · subst hc
      exact h.freed (hfresh ht) (Function.update_self ..) hrefl
    · exact h.congr (Function.update_of_ne hc ..) (Nat.le_refl _) hrefl
  | @reapAwait r t k kt hcur hk ht hdead hne =>
    have hlog : SameMessages c v.log (v.log ++ [.awaited r t (State.awaitOutcome k.error kt.result)]) :=
      sameMessages_append c v.log (by simp) (by simp)
    by_cases hc : c = t
    · subst hc
      exact h.freed (hfresh ht) (Function.update_self ..) hlog
    · exact h.congr (Function.update_of_ne hc ..) (Nat.le_refl _) hlog
  | @switch t k hcur hk hs =>
    have hran : SameMessages c v.log (v.log ++ [.ran t]) := sameMessages_append c v.log (by simp) (by simp)
    by_cases hr : t = c ∧ k.frame = .receive
    · obtain ⟨rfl, hf⟩ := hr
      have hd := h.delivers k hk
      have hn : ¬ HasWaited t v.log := fun hw => hd.waited hw hf
      have hqueue := hd.queue hn
      have hhead := hd.woken hf hs
      have hlog : (({ v.set t k.switched with current := some t }.emit (.ran t)).returned t k).log =
          v.log ++ [.ran t] ++ [.received t k.result true] := by
        simp only [View.returned, hf]; rfl
      refine .of_delivers (by rw [View.returned]; split <;> exact hfresh hk)
        (by rw [View.returned_core]; exact v.set_core_self _ _) ?_ ?_
      · rw [hlog, receivedBy_received, sentTo_received, hran.received, hran.sent, hqueue]
        cases hmail : k.mailbox with
        | nil => simp [hmail] at hhead
        | cons msg rest =>
          simp only [hmail, List.head?_cons, Option.some.injEq] at hhead
          exact ⟨rest, by simp [hhead]⟩
      · rw [hlog]
        exact ⟨fun hw => absurd (hasWaited_of_waited ..) hw, fun _ hf => by simp [Coro.switched] at hf,
          fun hf => by simp [Coro.switched] at hf, fun hf => by simp [Coro.switched] at hf⟩
    · have hlog : SameMessages c v.log
          (({ v.set t k.switched with current := some t }.emit (.ran t)).returned t k).log := by
        rw [View.returned]
        split
        · rename_i hf
          refine hran.trans c (sameMessages_append c _ (by simp) ?_)
          intro msg b heq
          simp only [Event.received.injEq] at heq
          exact hr ⟨heq.1, hf⟩
        · exact hran.trans c (sameMessages_append c _ (by simp) (by simp))
        · exact hran
      have halloc : (({ v.set t k.switched with current := some t }.emit (.ran t)).returned t k).allocated =
          v.allocated := by
        rw [View.returned]; split <;> rfl
      by_cases hc : c = t
      · subst hc
        have hcore : (({ v.set c k.switched with current := some c }.emit (.ran c)).returned c k).core c =
            some k.switched := by
          rw [View.returned_core]; exact v.set_core_self c k.switched
        exact h.keep hk (halloc ▸ hfresh hk) hcore hlog rfl fun hf => by simp [Coro.switched] at hf
      · exact h.congr (by rw [View.returned_core]; exact v.set_core_of_ne hc _) (Nat.le_of_eq halloc.symm) hlog
  | @finish t k outcome hcur hk hs hw =>
    have hlog : SameMessages c v.log (v.log ++ [.exited t outcome]) :=
      sameMessages_append c v.log (by simp) (by simp)
    by_cases hc : c = t
    · subst hc
      exact h.keep hk (hfresh hk) (v.set_core_self _ _) hlog rfl fun hf =>
        absurd ((hl.active c k hk hs).symm.trans hf) (by simp)
    · exact h.congr (v.set_core_of_ne hc _) (Nat.le_refl _) hlog
  | @finishWake t w k kw outcome hcur hk hs hw hkw hsw hj hne =>
    have hlog : SameMessages c v.log (v.log ++ [.exited t outcome] ++ [.resumed w (k.exitError outcome)]) :=
      (sameMessages_append c v.log (by simp) (by simp)).trans c
        (sameMessages_append c _ (by simp) (by simp))
    by_cases hc : c = w
    · subst hc
      refine h.keep hkw (hfresh hkw) (View.set_core_self _ _ _) hlog rfl fun hf => ?_
      have hf' : kw.frame = .receive := hf
      rcases hj with hj | hj <;> simp [hj] at hf'
    · by_cases hct : c = t
      · subst hct
        exact h.keep hk (hfresh hk) ((View.set_core_of_ne _ hc _).trans (v.set_core_self _ _)) hlog rfl
          fun hf => absurd ((hl.active c k hk hs).symm.trans hf) (by simp)
      · exact h.congr ((View.set_core_of_ne _ hc _).trans (v.set_core_of_ne hct _)) (Nat.le_refl _) hlog
  | @die t k hcur hk hs hw =>
    by_cases hc : c = t
    · subst hc
      exact h.keep hk (hfresh hk) (v.set_core_self _ _) hrefl rfl fun hf =>
        absurd ((hl.active c k hk hs).symm.trans hf) (by simp)
    · exact h.congr (v.set_core_of_ne hc _) (Nat.le_refl _) hrefl

theorem Mailbox.effects (h : Mailbox c v) (hl : v.Linked) (hok : PlainLabel c v l)
    (he : Effects v l v') : Mailbox c v' := by
  have hboth := he.invariant (I := fun v => Mailbox c v ∧ v.Linked)
    (fun v' heff => ⟨h.effect hl hok heff, hl.effect heff⟩) fun u u' l' hsettle hu heff => by
      refine ⟨hu.1.effect hu.2 ?_ heff, hu.2.effect heff⟩
      rcases hsettle with ⟨t, msg, rfl⟩ | ⟨x, rfl⟩ <;> exact ⟨by simp, by simp⟩
  exact hboth.1

/-- A receive of `c` is a plain one, and none comes after one that has waited. -/
def ReceivesBeforeWaiting (c : CoroId) (s : State) : Action → Prop
  | .receive timeoutMs _ => s.control.current = some c → timeoutMs ≤ 0 ∧ ¬ HasWaited c s.log
  | _ => True

instance (c : CoroId) (s : State) : (a : Action) → Decidable (ReceivesBeforeWaiting c s a)
  | .receive .. => inferInstanceAs (Decidable (_ → _ ∧ _))
  | .spawn .. | .actorSpawn .. | .send .. | .monitor .. | .tick | .leaveHttpTick .. | .continueTick
  | .httpComplete .. | .yield | .join .. | .await .. | .httpStart | .exit .. => isTrue trivial

theorem plainLabel_of_does {s : State} {a : Action} (hok : ReceivesBeforeWaiting c s a)
    (hd : s.Does a l) : PlainLabel c s.view l := by
  cases hd with
  | plain hl => rcases hl with rfl | rfl | ⟨t, msg, rfl⟩ | rfl | rfl | ⟨x, rfl⟩ <;> exact ⟨by simp, by simp⟩
  | take hc =>
    refine ⟨fun heq => (hok ?_).2, by simp⟩
    rw [hc]
    simpa [Control.current] using heq
  | @receive r n ms now hc =>
    refine ⟨by simp, fun reason heq => ?_⟩
    simp only [Label.block.injEq, and_true] at heq
    obtain ⟨hms, hno⟩ := hok (by rw [hc, ← heq.1]; rfl)
    exact ⟨by rw [← heq.2, if_neg (by omega)], hno⟩
  | yield | http | join | await | reap | reapAwait | finish => exact ⟨by simp, by simp⟩

/-- As long as no receive comes after one that has waited, what a plain receiver has received is the
beginning of what was sent to it. -/
theorem run_receives_in_order {s : State} {as : List Action}
    (h : Run State.step (ReceivesBeforeWaiting c) .init as s) :
    receivedBy c s.log <+: sentTo c s.log ∧
      (¬ HasWaited c s.log → ∀ k, s.heap c = some k →
        sentTo c s.log = receivedBy c s.log ++ k.mailbox) := by
  have hinv : Mailbox c s.view ∧ s.view.Linked := by
    refine h.invariant (I := fun s => Mailbox c s.view ∧ s.view.Linked) ⟨?_, State.linked_init⟩
      fun s a s' hi hok hs => ?_
    · exact ⟨fun _ => ⟨rfl, rfl, by simp [State.view, State.init, HasWaited]⟩, ⟨[], rfl⟩,
        fun k hk => by simp [State.view, State.init] at hk⟩
    · obtain ⟨l, hd, he⟩ := State.step_effects hi.2 hs
      exact ⟨hi.1.effects hi.2 (plainLabel_of_does hok hd) he, hi.2.effects he⟩
  exact ⟨hinv.1.delivered, fun hno k hk => (hinv.1.delivers _ (State.core_eq hk)).queue hno⟩

theorem run_receives_in_order_two :
    ∃ s : State, receivedBy 0 s.log = [.fixnum 1, .fixnum 2] ∧
      sentTo 0 s.log = [.fixnum 1, .fixnum 2, .fixnum 3] ∧ receivedBy 0 s.log <+: sentTo 0 s.log := by
  have hexec : (execOk State.step (ReceivesBeforeWaiting 0) .init
      [.actorSpawn (.function 0) [], .send 0 (.fixnum 1), .send 0 (.fixnum 2), .tick, .leaveHttpTick 0,
        .continueTick, .continueTick, .continueTick, .continueTick, .continueTick, .receive 0 0,
        .receive 0 0, .receive 0 0, .continueTick, .send 0 (.fixnum 3)]).any
      (fun s => decide (receivedBy 0 s.log = [.fixnum 1, .fixnum 2] ∧
        sentTo 0 s.log = [.fixnum 1, .fixnum 2, .fixnum 3])) = true := by decide +kernel
  obtain ⟨s, hs, hr, hsent⟩ := exists_run_of_execOk hexec
  exact ⟨s, hr, hsent, (run_receives_in_order hs).1⟩

/-- An actor waits for a message, is woken by it, and receives twice. -/
def waitThenReceive : List Action :=
  [.actorSpawn (.function 0) [], .tick, .leaveHttpTick 0, .continueTick, .continueTick, .continueTick,
    .continueTick, .continueTick, .receive 0 0, .continueTick, .send 0 (.fixnum 7), .tick,
    .leaveHttpTick 0, .continueTick, .continueTick, .continueTick, .continueTick, .continueTick,
    .receive 0 0]

/-- One message is sent, and it is received twice. -/
theorem waitThenReceive_receives_twice :
    ∃ s, Run State.step anyStep .init waitThenReceive s ∧ sentTo 0 s.log = [.fixnum 7] ∧
      receivedBy 0 s.log = [.fixnum 7, .fixnum 7] := by
  have hexec : (exec State.step .init waitThenReceive).any (fun s => decide
      (sentTo 0 s.log = [.fixnum 7] ∧ receivedBy 0 s.log = [.fixnum 7, .fixnum 7])) = true := by
    decide +kernel
  exact exists_run_of_exec hexec

end XEmacs.Async
