import XEmacs.Symbol.BufferLocalCache

/-! Every call on buffer-local variables is a call on the variables they represent, if it does
not miss a default value that was assigned in the record only. So in a run of such calls the
values returned are those of a default value and a map from buffers to local values. -/

namespace XEmacs.Symbols

open Lib

variable {Sym Buf V : Type} [DecidableEq Sym] [DecidableEq Buf] {s s' : Globals Sym Buf V} {m m' : Variables Sym Buf V}
  {a a' : Alists Sym Buf V} {x y : Sym} {b : Buf} {el : ℕ} {v d : V} {l : Buf → Option V} {bfwd : BufferLocal Buf V}

def SymbolValue.record : SymbolValue Buf V → Option (BufferLocal Buf V)
  | .plain _ => none
  | .bufferLocal bfwd => some bfwd

/-- The call does not miss a default value that was assigned in the record only. -/
def Globals.Keeps (s : Globals Sym Buf V) : Call Sym Buf V → Prop
  | .makeLocalVariable sym => ∀ bfwd ∈ (s.value sym).record, bfwd.type = .someBufferLocal →
      bufferLocalAlistElement s.currentBuffer sym bfwd s.alists = none → ¬bfwd.Unwritten
  | .killLocalVariable sym => ∀ bfwd ∈ (s.value sym).record,
      bfwd.currentBuffer = some s.currentBuffer → ¬bfwd.Unwritten
  | .symbolValueInBuffer sym buffer => ∀ bfwd ∈ (s.value sym).record, bfwd.currentBuffer ≠ some buffer →
      bufferLocalAlistElement buffer sym bfwd s.alists = none → ¬bfwd.Unwritten
  | _ => True

/-! ### One variable -/

theorem Represents.setUp (h : Represents s m) (hvalue : s.value x = .bufferLocal bfwd) (newAlistEl : Option ℕ)
    (setItP : Bool) (hel : bfwd.currentBuffer ≠ some b →
      (if newAlistEl = none ∧ setItP = true then s.alists.assq x b else newAlistEl) = s.alists.assq x b) :
    ∃ bfwd' a', setUpBufferLocalCache x bfwd b newAlistEl setItP s.alists = (bfwd', a') ∧
      Represents (s.store x (bfwd', a')) m ∧ s.alists.Writes a' x ∧ bfwd'.currentBuffer = some b ∧
      bfwd'.type = bfwd.type ∧ bfwd'.currentValue = m.value x b := by
  have hx := h.shows x
  rw [hvalue] at hx
  obtain ⟨hcached, hauto⟩ := hx
  obtain ⟨bfwd', a', hsetUp, hwrites, hcached', hbuf, htype⟩ := hcached.setUp h.wf newAlistEl setItP hel
  refine ⟨bfwd', a', hsetUp, ?_, hwrites, hbuf, htype, hcached'.current b hbuf⟩
  have hput := h.store_writes hwrites hcached' (hauto.trans (by rw [htype]))
  rwa [m.put_self x] at hput

theorem Represents.findSymbolValue (h : Represents s m) (x : Sym) :
    Represents (s.findSymbolValue x).1 m ∧ (s.findSymbolValue x).2 = m.value x m.current ∧
      (s.findSymbolValue x).1.currentBuffer = s.currentBuffer := by
  rw [Globals.findSymbolValue, Globals.findSymbolValue1, h.current]
  have hx := h.shows x
  cases hvalue : s.value x with
  | plain v =>
    rw [hvalue] at hx
    obtain ⟨hv, hl, -, -⟩ := hx
    exact ⟨h, by rw [Variables.value, hl, Option.getD_none, hv], rfl⟩
  | bufferLocal bfwd =>
    obtain ⟨bfwd', a', hsetUp, hrep, -, -, -, hcurrent⟩ :=
      h.setUp hvalue (b := s.currentBuffer) none true fun _ => if_pos ⟨rfl, rfl⟩
    simp only [if_pos, hsetUp]
    exact ⟨hrep, hcurrent, rfl⟩

theorem Represents.set (h : Represents s m) (x : Sym) (v : V) : Represents (s.set x v) (m.call (.set x v)).1 := by
  have hx := h.shows x
  rw [Globals.set, Variables.call]
  simp only [Variables.setLocal, Variables.assignDefault, h.current]
  cases hvalue : s.value x with
  | plain v₀ =>
    rw [hvalue] at hx
    obtain ⟨-, hl, hnone, hauto⟩ := hx
    rw [if_neg (by simp [hl, hauto])]
    refine ⟨h.wf, h.current, fun y => ?_⟩
    rw [Variables.put]
    by_cases hy : y = x
    · subst hy
      simp only [Function.update_self]
      exact ⟨rfl, hl, hnone, hauto⟩
    · simp only [Function.update_of_ne hy]
      exact h.shows y
  | bufferLocal bfwd =>
    rw [hvalue] at hx
    obtain ⟨hcached, hauto⟩ := hx
    have hlocal : m.auto x = true ∨ m.locals x s.currentBuffer ≠ none ↔
        bfwd.type ≠ .someBufferLocal ∨ s.alists.assq x s.currentBuffer ≠ none := by
      rw [hauto, decide_eq_true_eq, ne_eq (m.locals _ _), ← hcached.has]
      cases bfwd.type <;> simp
    simp only [hlocal]
    by_cases hvalid : bfwd.currentBuffer = some s.currentBuffer ∧
        (bfwd.type = .someBufferLocal ∨ bfwd.currentAlistElement ≠ none)
    · obtain ⟨hbuf, hkind⟩ := hvalid
      rw [if_pos ⟨hbuf, hkind⟩]
      rw [hcached.element _ hbuf] at hkind
      by_cases hassq : s.alists.assq x s.currentBuffer = none
      · have hsome : bfwd.type = .someBufferLocal := hkind.resolve_right fun hne => hne hassq
        rw [if_neg (by simp [hsome, hassq])]
        have hel := (hcached.element _ hbuf).trans hassq
        exact h.store_writes (.refl _ _) (hcached.assign_default hbuf hel v) hauto
      · rw [if_pos (.inr hassq)]
        have hel : bfwd.currentAlistElement ≠ none := by rwa [hcached.element _ hbuf]
        exact h.store_writes (.refl _ _) (hcached.assign_local hbuf hel v) hauto
    · rw [if_neg hvalid]
      obtain ⟨a', hwrite, hwrites, hstored⟩ := hcached.writeOut h.wf
      have hsettled : Settled a' x { bfwd with defaultValue := m.default x } (m.default x) (m.locals x) := ⟨rfl, hstored⟩
      have hfind : bufferLocalAlistElement s.currentBuffer x { bfwd with defaultValue := m.default x } a' =
          a'.assq x s.currentBuffer := by
        rw [bufferLocalAlistElement]
        split_ifs with hbuf
        · rw [hwrites.assq]
          exact hcached.element _ hbuf
        · rfl
      rw [hwrite]
      simp only [hfind, ← hwrites.assq x s.currentBuffer]
      cases hassq : a'.assq x s.currentBuffer with
      | none =>
        by_cases hsome : bfwd.type = .someBufferLocal
        · rw [if_neg (by simp [hsome]), if_neg (by simp [hsome])]
          exact h.store_writes hwrites (hsettled.assign_default hassq v) hauto
        · rw [if_pos hsome, if_pos (Or.inl hsome)]
          have hsets := (hwrites.wf h.wf).push hassq bfwd.currentValue
          have hcached' := (hsettled.of_sets hsets).assign_local hsets.assq v
          rw [Function.update_idem] at hcached'
          refine h.store hsets.wf (fun y hy b => ?_) (fun y hy b => ?_) hcached' hauto
          · rw [hsets.assq_of_ne y b fun heq => absurd heq hy, hwrites.assq]
          · rw [hsets.stored_of_ne y b fun heq => absurd heq hy, hwrites.stored y hy]
      | some el =>
        rw [if_pos (Or.inr (Option.some_ne_none el))]
        exact h.store_writes hwrites (hsettled.assign_local hassq v) hauto

omit [DecidableEq Buf] in
theorem Represents.defaultValue (h : Represents s m) (x : Sym) : s.defaultValue x = m.default x := by
  have hx := h.shows x
  rw [Globals.defaultValue]
  cases hvalue : s.value x with
  | plain v =>
    rw [hvalue] at hx
    exact hx.1
  | bufferLocal bfwd =>
    rw [hvalue] at hx
    obtain ⟨hcached, -⟩ := hx
    simp only
    cases hel : bfwd.currentAlistElement with
    | none => exact hcached.currentValue_eq hel
    | some el => exact hcached.default (by rw [hel]; exact Option.some_ne_none el)

theorem Represents.setDefault (h : Represents s m) (x : Sym) (v : V) :
    Represents (s.setDefault x v) (m.assignDefault x v) := by
  have hx := h.shows x
  have hset := h.set x v
  rw [Globals.setDefault]
  cases hvalue : s.value x with
  | plain v₀ =>
    rw [hvalue] at hx
    obtain ⟨-, hl, -, hauto⟩ := hx
    rwa [Variables.call, if_neg (by simp [hl, hauto])] at hset
  | bufferLocal bfwd =>
    rw [hvalue] at hx
    obtain ⟨hcached, hauto⟩ := hx
    rw [Variables.assignDefault]
    simp only
    cases hel : bfwd.currentAlistElement with
    | none =>
      have hcached' := hcached.setDefault hel v
      rw [hel] at hcached'
      exact h.store_writes (.refl _ _) hcached' hauto
    | some el =>
      have hcached' := hcached.setDefault_slot (by rw [hel]; exact Option.some_ne_none el) v
      rw [hel] at hcached'
      exact h.store_writes (.refl _ _) hcached' hauto

omit [DecidableEq Buf] in
theorem Represents.makeVariableBufferLocal (h : Represents s m) (x : Sym) :
    Represents (s.makeVariableBufferLocal x) (m.put x (m.default x) (m.locals x) true) := by
  have hx := h.shows x
  rw [Globals.makeVariableBufferLocal]
  cases hvalue : s.value x with
  | plain v =>
    rw [hvalue] at hx
    obtain ⟨hv, hl, hnone, -⟩ := hx
    exact h.store_writes (.refl _ _) (.plain hv hl hnone) rfl
  | bufferLocal bfwd =>
    rw [hvalue] at hx
    obtain ⟨hcached, hauto⟩ := hx
    simp only
    cases htype : bfwd.type with
    | bufferLocal =>
      have htrue : true = m.auto x := by rw [hauto, htype]; rfl
      rw [htrue, Variables.put_self]
      exact h
    | someBufferLocal => exact h.store_writes (.refl _ _) (hcached.of_type .bufferLocal) rfl

theorem Represents.giveLocalValue (h : Represents s m) (hcached : Cached s.alists x bfwd (m.default x) (m.locals x))
    (hauto : m.auto x = decide (bfwd.type = .bufferLocal)) (hassq : s.alists.assq x s.currentBuffer = none)
    (hwritten : ¬bfwd.Unwritten) : Represents (s.giveLocalValue x bfwd) (m.setLocal x (some (m.default x))) := by
  have hdefault := not_not.mp (hcached.unwritten.not.mp hwritten)
  have hsets := h.wf.push hassq bfwd.defaultValue
  rw [Globals.giveLocalValue, Variables.setLocal, h.current]
  split_ifs with hbuf
  · have hel := (hcached.element _ hbuf).trans hassq
    have hcached' := (hcached.flush hel hdefault).of_sets hsets nofun
    rw [hdefault] at hcached' hsets ⊢
    exact h.store_sets hsets hcached' hauto
  · have hcached' := hcached.of_sets hsets hbuf
    rw [hdefault] at hcached' hsets ⊢
    exact h.store_sets hsets hcached' hauto

theorem Represents.makeLocalVariable (h : Represents s m) (x : Sym) (hkeeps : s.Keeps (.makeLocalVariable x)) :
    Represents (s.makeLocalVariable x) (m.setLocal x (some (m.value x m.current))) := by
  have hx := h.shows x
  rw [Globals.makeLocalVariable]
  cases hvalue : s.value x with
  | plain v =>
    rw [hvalue] at hx
    obtain ⟨hv, hl, hnone, hauto⟩ := hx
    rw [Variables.value, hl, Option.getD_none]
    exact h.giveLocalValue (.plain hv hl hnone) hauto (hnone _) fun hunwritten => hunwritten.1 rfl
  | bufferLocal bfwd =>
    rw [hvalue] at hx
    obtain ⟨hcached, hauto⟩ := hx
    simp only
    cases htype : bfwd.type with
    | bufferLocal =>
      obtain ⟨hfound, hreturned, -⟩ := h.findSymbolValue x
      have hset := hfound.set x (s.findSymbolValue x).2
      rw [Variables.call, if_pos (.inl (by rw [hauto, htype]; rfl))] at hset
      rw [← hreturned]
      exact hset
    | someBufferLocal =>
      simp only [hcached.find]
      cases hassq : s.alists.assq x s.currentBuffer with
      | none =>
        have hwritten : ¬bfwd.Unwritten := hkeeps bfwd (by rw [hvalue]; rfl) htype ((hcached.find _).trans hassq)
        have hnone := (hcached.has _).mp hassq
        rw [Variables.value, h.current, hnone, Option.getD_none]
        exact h.giveLocalValue hcached hauto hassq hwritten
      | some el =>
        obtain ⟨v, hv⟩ := Option.ne_none_iff_exists'.mp fun hnone => Option.some_ne_none el
          (hassq.symm.trans ((hcached.has _).mpr hnone))
        rw [Variables.value, Variables.setLocal, h.current, hv, Option.getD_some, ← hv, Function.update_eq_self,
          Variables.put_self]
        exact h

theorem Represents.forget (h : Represents s m) (hvalue : s.value x = .bufferLocal bfwd)
    (hsets : s.alists.Sets a x s.currentBuffer none none)
    (hwritten : bfwd.currentBuffer = some s.currentBuffer → ¬bfwd.Unwritten) (setItP : Bool) :
    ∃ bfwd' a', setUpBufferLocalCache x
        (if bfwd.currentBuffer = some s.currentBuffer then { bfwd with currentBuffer := none } else bfwd)
        s.currentBuffer none setItP a = (bfwd', a') ∧
      a.Writes a' x ∧ Represents (s.store x (bfwd', a')) (m.setLocal x none) := by
  have hx := h.shows x
  rw [hvalue] at hx
  obtain ⟨hcached, hauto⟩ := hx
  rw [Variables.setLocal, h.current]
  have hstore {bfwd' : BufferLocal Buf V} {a' : Alists Sym Buf V} (hwrites : a.Writes a' x)
      (hcached' : Cached a' x bfwd' (m.default x) (Function.update (m.locals x) s.currentBuffer none))
      (htype : bfwd'.type = bfwd.type) : Represents (s.store x (bfwd', a'))
        (m.put x (m.default x) (Function.update (m.locals x) s.currentBuffer none) (m.auto x)) := by
    refine h.store (hwrites.wf hsets.wf) (fun y hy b => ?_) (fun y hy b => ?_) hcached' (by rw [hauto, htype])
    · rw [hwrites.assq, hsets.assq_of_ne y b fun heq => absurd heq hy]
    · rw [hwrites.stored y hy, hsets.stored_of_ne y b fun heq => absurd heq hy]
  by_cases hbuf : bfwd.currentBuffer = some s.currentBuffer
  · rw [if_pos hbuf]
    have hdefault := not_not.mp (hcached.unwritten.not.mp (hwritten hbuf))
    have hwrite : writeOutBufferLocalCache { bfwd with currentBuffer := none } a =
        ({ bfwd with currentBuffer := none, defaultValue := m.default x }, a) := by
      rw [← hdefault]
      rfl
    have hsettled : Settled a x { bfwd with currentBuffer := none, defaultValue := m.default x } (m.default x)
        (Function.update (m.locals x) s.currentBuffer none) := by
      refine ⟨rfl, fun b => ?_⟩
      by_cases hb : b = s.currentBuffer
      · rw [hb, Function.update_self, hsets.stored]
      · rw [Function.update_of_ne hb, hsets.stored_of_ne x b fun _ => hb]
        exact hcached.stored b fun heq => hb (Option.some.inj (heq.symm.trans hbuf))
    obtain ⟨bfwd', hsetUp, hcached', -, htype⟩ := Settled.setUp hwrite hsettled nofun none setItP
      (by rw [hsets.assq, ite_self])
    exact ⟨bfwd', a, hsetUp, .refl a x, hstore (.refl a x) hcached' htype⟩
  · rw [if_neg hbuf]
    obtain ⟨bfwd', a', hsetUp, hwrites, hcached', -, htype⟩ :=
      (hcached.of_sets hsets hbuf).setUp hsets.wf none setItP
        fun _ => by rw [hsets.assq, ite_self]
    exact ⟨bfwd', a', hsetUp, hwrites, hstore hwrites hcached' htype⟩

theorem Represents.killLocalVariable (h : Represents s m) (x : Sym) (hkeeps : s.Keeps (.killLocalVariable x)) :
    Represents (s.killLocalVariable x) (m.setLocal x none) := by
  have hx := h.shows x
  rw [Globals.killLocalVariable]
  cases hvalue : s.value x with
  | plain v =>
    rw [hvalue] at hx
    obtain ⟨-, hl, -, -⟩ := hx
    rw [Variables.setLocal, ← hl m.current, Function.update_eq_self, Variables.put_self]
    exact h
  | bufferLocal bfwd =>
    rw [hvalue] at hx
    obtain ⟨hcached, hauto⟩ := hx
    have hwritten : bfwd.currentBuffer = some s.currentBuffer → ¬bfwd.Unwritten := hkeeps bfwd (by rw [hvalue]; rfl)
    simp only [hcached.find]
    cases hassq : s.alists.assq x s.currentBuffer with
    | none =>
      have hsets : s.alists.Sets s.alists x s.currentBuffer none none :=
        ⟨h.wf, hassq, by rw [Alists.stored, hassq, Option.map_none], fun _ _ _ => rfl, fun _ _ _ => rfl⟩
      obtain ⟨bfwd', a', hsetUp, -, hrep⟩ := h.forget hvalue hsets hwritten true
      rwa [← hsetUp] at hrep
    | some el =>
      obtain ⟨bfwd', a', hsetUp, -, hrep⟩ := h.forget hvalue (h.wf.delq hassq) hwritten true
      rwa [← hsetUp] at hrep

/-! ### All variables of a buffer -/

omit [DecidableEq Buf] in
theorem Shows.has {value : SymbolValue Buf V} {auto : Bool} (h : Shows a x value d l auto) (b : Buf) :
    a.assq x b = none ↔ l b = none := by
  cases value with
  | plain v => exact ⟨fun _ => h.2.1 b, fun _ => h.2.2.1 b⟩
  | bufferLocal bfwd => exact h.1.has b

omit [DecidableEq Buf] in
theorem Represents.record (h : Represents s m) (hassq : s.alists.assq x b = some el) :
    ∃ bfwd, s.value x = .bufferLocal bfwd := by
  have hx := h.shows x
  cases hvalue : s.value x with
  | plain v =>
    rw [hvalue] at hx
    exact nomatch hassq.symm.trans (hx.2.2.1 b)
  | bufferLocal bfwd => exact ⟨bfwd, rfl⟩

theorem Represents.killBufferLocalVariables {alist : List ℕ} (h : Represents s m)
    (halist : s.alists.localVarAlist s.currentBuffer = alist) :
    ∃ s', Globals.killBufferLocalVariables alist s = some s' ∧
      Represents s' { m with locals := fun sym => Function.update (m.locals sym) m.current none } := by
  induction alist generalizing s m with
  | nil =>
    have hnone (x : Sym) : m.locals x m.current = none := by
      refine ((h.shows x).has _).mp (Alists.assq_eq_none.mpr fun el hel => ?_)
      rw [h.current, halist] at hel
      exact nomatch hel
    have hsame : (fun sym => Function.update (m.locals sym) m.current none) = m.locals := by
      funext x
      rw [← hnone x, Function.update_eq_self]
    exact ⟨s, rfl, by rwa [hsame]⟩
  | cons el alist ih =>
    set x := s.alists.car el with hx
    have hassq : s.alists.assq x s.currentBuffer = some el :=
      h.wf.assq_iff.mpr ⟨by rw [halist]; exact List.mem_cons_self, rfl⟩
    obtain ⟨bfwd, hvalue⟩ := h.record hassq
    have hcached : Cached s.alists x bfwd (m.default x) (m.locals x) := by
      have hshows := h.shows x
      rw [hvalue] at hshows
      exact hshows.1
    have hwritten (hbuf : bfwd.currentBuffer = some s.currentBuffer) : ¬bfwd.Unwritten := fun hunwritten =>
      nomatch hassq.symm.trans ((hcached.element _ hbuf).symm.trans hunwritten.2.1)
    have hdelq : ({ s.alists with
        localVarAlist := Function.update s.alists.localVarAlist s.currentBuffer alist } : Alists Sym Buf V) =
        s.alists.delq el s.currentBuffer := by
      have honce := (List.nodup_cons.mp (halist ▸ (h.wf.once s.currentBuffer).of_map)).1
      have hfilter : alist.filter (· ≠ el) = alist :=
        List.filter_eq_self.mpr fun el' hel' => decide_eq_true fun heq => honce (heq ▸ hel')
      rw [Alists.delq, halist, List.filter_cons_of_neg (by simp), hfilter]
    have hsets := h.wf.delq hassq
    rw [← hdelq] at hsets
    obtain ⟨bfwd', a', hsetUp, hwrites, hrep⟩ := h.forget hvalue hsets hwritten false
    have hrest : (s.store x (bfwd', a')).alists.localVarAlist (s.store x (bfwd', a')).currentBuffer = alist :=
      (congrFun hwrites.localVarAlist _).trans (Function.update_self _ _ _)
    obtain ⟨s', hkill, hrep'⟩ := ih hrep hrest
    refine ⟨s', ?_, ?_⟩
    · rw [Globals.killBufferLocalVariables, ← hx, hvalue]
      simp only [hsetUp]
      exact hkill
    · have hforget : (fun sym => Function.update ((m.setLocal x none).locals sym) m.current none) =
          fun sym => Function.update (m.locals sym) m.current none := by
        funext y
        by_cases hy : y = x
        · simp [Variables.setLocal, Variables.put, hy]
        · simp [Variables.setLocal, Variables.put, hy]
      have hsame : { m.setLocal x none with
          locals := fun sym => Function.update ((m.setLocal x none).locals sym) m.current none } =
          { m with locals := fun sym => Function.update (m.locals sym) m.current none } := by
        rw [hforget]
        simp [Variables.setLocal, Variables.put]
      rwa [← hsame]

omit [DecidableEq Buf] in
theorem Globals.store_value_self (s : Globals Sym Buf V) (x : Sym) (p : BufferLocal Buf V × Alists Sym Buf V) :
    (s.store x p).value x = .bufferLocal p.1 := Function.update_self _ _ _

omit [DecidableEq Buf] in
theorem Globals.store_value_of_ne (hy : y ≠ x) (p : BufferLocal Buf V × Alists Sym Buf V) :
    (s.store x p).value y = s.value y := Function.update_of_ne hy _ _

def Globals.CachedIn (s : Globals Sym Buf V) (x : Sym) : Prop :=
  ∀ bfwd, s.value x = .bufferLocal bfwd → bfwd.currentBuffer = some s.currentBuffer

structure References (s s' : Globals Sym Buf V) : Prop where
  localVarAlist : s'.alists.localVarAlist = s.alists.localVarAlist
  car : s'.alists.car = s.alists.car
  currentBuffer : s'.currentBuffer = s.currentBuffer
  cachedIn : ∀ x, s.CachedIn x → s'.CachedIn x

omit [DecidableEq Sym] [DecidableEq Buf] in
theorem References.trans {s'' : Globals Sym Buf V} (h : References s s') (h' : References s' s'') : References s s'' :=
  ⟨h'.localVarAlist.trans h.localVarAlist, h'.car.trans h.car, h'.currentBuffer.trans h.currentBuffer,
    fun x hx => h'.cachedIn x (h.cachedIn x hx)⟩

omit [DecidableEq Buf] in
theorem References.assq (h : References s s') (x : Sym) (b : Buf) : s'.alists.assq x b = s.alists.assq x b := by
  rw [Alists.assq, Alists.assq, h.localVarAlist, h.car]

theorem Represents.reference (h : Represents s m) (findItP : Bool) (tail : List ℕ)
    (htail : ∀ el ∈ tail, s.CachedIn (s.alists.car el) ∨
      s.alists.assq (s.alists.car el) s.currentBuffer = if findItP then some el else none) :
    Represents (s.reference findItP tail) m ∧ References s (s.reference findItP tail) ∧
      ∀ el ∈ tail, (s.reference findItP tail).CachedIn (s.alists.car el) := by
  induction tail generalizing s with
  | nil => exact ⟨h, ⟨rfl, rfl, rfl, fun _ hx => hx⟩, fun _ hel => nomatch hel⟩
  | cons el tail ih =>
    obtain ⟨hel, htail⟩ := List.forall_mem_cons.mp htail
    set x := s.alists.car el with hx
    rw [Globals.reference, ← hx]
    cases hvalue : s.value x with
    | plain v =>
      obtain ⟨hrep, hrefs, hcachedIn⟩ := ih h htail
      refine ⟨hrep, hrefs, List.forall_mem_cons.mpr ⟨hrefs.cachedIn x fun bfwd hbfwd => ?_, hcachedIn⟩⟩
      exact nomatch hvalue.symm.trans hbfwd
    | bufferLocal bfwd =>
      have hfound (hbuf : bfwd.currentBuffer ≠ some s.currentBuffer) :
          (if (if findItP then some el else none) = none ∧ findItP = true then s.alists.assq x s.currentBuffer
            else if findItP then some el else none) = s.alists.assq x s.currentBuffer := by
        rw [hel.resolve_left fun hcachedIn => hbuf (hcachedIn bfwd hvalue)]
        cases findItP <;> simp
      obtain ⟨bfwd', a', hsetUp, hrep, hwrites, hbuf, -, -⟩ := h.setUp hvalue _ findItP hfound
      have hself : (s.store x (bfwd', a')).CachedIn x := fun bfwd'' hbfwd => by
        rw [Globals.store_value_self] at hbfwd
        rw [← SymbolValue.bufferLocal.inj hbfwd]
        exact hbuf
      have hrefs : References s (s.store x (bfwd', a')) := by
        refine ⟨hwrites.localVarAlist, hwrites.car, rfl, fun y hy => ?_⟩
        by_cases heq : y = x
        · rw [heq]
          exact hself
        · intro bfwd'' hbfwd
          rw [Globals.store_value_of_ne heq] at hbfwd
          exact hy bfwd'' hbfwd
      obtain ⟨hrep', hrefs', hcachedIn⟩ := ih hrep fun el' hel' => by
        rw [hrefs.assq, hrefs.car]
        exact (htail el' hel').imp_left fun hcached => hrefs.cachedIn _ hcached
      simp only [Globals.findSymbolValue1, hvalue, if_true, hsetUp]
      rw [hrefs.car] at hcachedIn
      exact ⟨hrep', hrefs.trans hrefs', List.forall_mem_cons.mpr ⟨hrefs'.cachedIn x hself, hcachedIn⟩⟩

theorem Represents.setBufferInternal (h : Represents s m) (b : Buf) :
    Represents (s.setBufferInternal b) { m with current := b } := by
  rw [Globals.setBufferInternal]
  split_ifs with hsame
  · rw [← hsame, ← h.current]
    exact h
  · have hswitched : Represents { s with currentBuffer := b } { m with current := b } := ⟨h.wf, rfl, h.shows⟩
    obtain ⟨hrep, hrefs, hcachedIn⟩ := hswitched.reference true (s.alists.localVarAlist b) fun el hel =>
      .inr (h.wf.assq_iff.mpr ⟨hel, rfl⟩)
    refine (hrep.reference false _ fun el _ => ?_).1
    rw [hrefs.assq, hrefs.car, hrefs.currentBuffer]
    cases hassq : s.alists.assq (s.alists.car el) b with
    | none => exact .inr rfl
    | some el' =>
      obtain ⟨hmem, hcar⟩ := Alists.mem_of_assq hassq
      rw [← hcar]
      exact .inl (hcachedIn el' hmem)

theorem Represents.symbolValueInBuffer (h : Represents s m) (x : Sym) (b : Buf) :
    s.symbolValueInBuffer x b = m.value x b ↔ s.Keeps (.symbolValueInBuffer x b) := by
  have hx := h.shows x
  rw [Globals.symbolValueInBuffer, Globals.findSymbolValue1, Globals.Keeps, Variables.value]
  cases hvalue : s.value x with
  | plain v =>
    rw [hvalue] at hx
    obtain ⟨hv, hl, -, -⟩ := hx
    rw [hl, Option.getD_none]
    exact iff_of_true hv fun bfwd hrecord => absurd hrecord.symm (Option.some_ne_none bfwd)
  | bufferLocal bfwd =>
    rw [hvalue] at hx
    obtain ⟨hcached, -⟩ := hx
    simp only [SymbolValue.record, Option.mem_some_iff, forall_eq', hcached.find, hcached.unwritten, not_not]
    by_cases hbuf : bfwd.currentBuffer = some b
    · simp only [Bool.false_eq_true, if_false, if_pos hbuf]
      exact iff_of_true (hcached.current b hbuf) fun hne => absurd hbuf hne
    · have hstored := hcached.stored b hbuf
      simp only [Bool.false_eq_true, if_false, if_neg hbuf]
      cases hassq : s.alists.assq x b with
      | none =>
        rw [(hcached.has b).mp hassq, Option.getD_none]
        exact ⟨fun hdefault _ _ => hdefault, fun hdefault => hdefault hbuf rfl⟩
      | some el =>
        rw [Alists.stored, hassq, Option.map_some] at hstored
        rw [← hstored, Option.getD_some]
        exact iff_of_true rfl fun _ hnone => absurd hnone (Option.some_ne_none el)

theorem Represents.call (h : Represents s m) (op : Call Sym Buf V) (hkeeps : s.Keeps op) :
    ∃ s', s.call op = some (s', (m.call op).2) ∧ Represents s' (m.call op).1 := by
  cases op with
  | set x v => exact ⟨_, rfl, h.set x v⟩
  | setDefault x v => exact ⟨_, rfl, h.setDefault x v⟩
  | makeVariableBufferLocal x => exact ⟨_, rfl, h.makeVariableBufferLocal x⟩
  | makeLocalVariable x => exact ⟨_, rfl, h.makeLocalVariable x hkeeps⟩
  | killLocalVariable x => exact ⟨_, rfl, h.killLocalVariable x hkeeps⟩
  | killAllLocalVariables =>
    obtain ⟨s', hkill, hrep⟩ := h.killBufferLocalVariables rfl
    exact ⟨s', congrArg (Option.map (·, none)) hkill, hrep⟩
  | setBuffer b => exact ⟨_, rfl, h.setBufferInternal b⟩
  | symbolValue x =>
    obtain ⟨hrep, hreturned, -⟩ := h.findSymbolValue x
    exact ⟨_, congrArg (fun v => some (_, some v)) hreturned, hrep⟩
  | symbolValueInBuffer x b =>
    exact ⟨s, congrArg (fun v => some (s, some v)) ((h.symbolValueInBuffer x b).mpr hkeeps), h⟩
  | defaultValue x => exact ⟨s, congrArg (fun v => some (s, some v)) (h.defaultValue x), h⟩

theorem Represents.makeLocalVariable_misses (h : Represents s m) (hmisses : ¬s.Keeps (.makeLocalVariable x)) :
    ¬Represents (s.makeLocalVariable x) (m.setLocal x (some (m.value x m.current))) := by
  rw [Globals.Keeps] at hmisses
  push Not at hmisses
  obtain ⟨bfwd, hrecord, htype, hfind, hunwritten⟩ := hmisses
  have hx := h.shows x
  cases hvalue : s.value x with
  | plain v =>
    rw [hvalue] at hrecord
    exact absurd hrecord.symm (Option.some_ne_none bfwd)
  | bufferLocal bfwd₀ =>
    rw [hvalue] at hx hrecord
    obtain rfl := Option.some.inj hrecord
    obtain ⟨hcached, -⟩ := hx
    have hassq := (hcached.find _).symm.trans hfind
    have hmade : s.makeLocalVariable x = s.giveLocalValue x bfwd₀ := by
      simp only [Globals.makeLocalVariable, hvalue, htype, hfind]
    intro hrep
    have hshows := hrep.shows x
    rw [hmade, Globals.giveLocalValue, Globals.store_value_self] at hshows
    obtain ⟨hafter, -⟩ := hshows
    have hstored := hafter.stored s.currentBuffer (by split_ifs with hbuf <;> simp [hbuf])
    rw [Variables.value, h.current, (hcached.has _).mp hassq, Option.getD_none] at hstored
    refine hcached.unwritten.mp hunwritten (Option.some.inj ?_)
    have hpushed := (h.wf.push hassq bfwd₀.defaultValue).stored
    simp only [Variables.setLocal, Variables.put, h.current, Function.update_self] at hstored
    exact hpushed.symm.trans hstored

theorem Represents.killLocalVariable_misses (h : Represents s m) (hmisses : ¬s.Keeps (.killLocalVariable x)) :
    ¬Represents (s.killLocalVariable x) (m.setLocal x none) := by
  rw [Globals.Keeps] at hmisses
  push Not at hmisses
  obtain ⟨bfwd, hrecord, hbuf, hunwritten⟩ := hmisses
  have hx := h.shows x
  cases hvalue : s.value x with
  | plain v =>
    rw [hvalue] at hrecord
    exact absurd hrecord.symm (Option.some_ne_none bfwd)
  | bufferLocal bfwd₀ =>
    rw [hvalue] at hx hrecord
    obtain rfl := Option.some.inj hrecord
    obtain ⟨hcached, -⟩ := hx
    have hassq := (hcached.element _ hbuf).symm.trans hunwritten.2.1
    have hfind : bufferLocalAlistElement s.currentBuffer x
        { bfwd₀ with currentBuffer := none } s.alists = none := hassq
    have hkilled : s.killLocalVariable x = s.store x ({ bfwd₀ with
        currentAlistElement := none, currentBuffer := some s.currentBuffer, currentValue := bfwd₀.defaultValue },
          s.alists) := by
      simp only [Globals.killLocalVariable, hvalue, hcached.find, hassq, if_pos hbuf, setUpBufferLocalCache,
        writeOutBufferLocalCache, hfind]
      simp
    intro hrep
    have hshows := hrep.shows x
    rw [hkilled, Globals.store_value_self] at hshows
    obtain ⟨hafter, -⟩ := hshows
    have hcurrent := hafter.currentValue_eq rfl
    simp only [Variables.setLocal, Variables.put, Function.update_self] at hcurrent
    exact hcached.unwritten.mp hunwritten hcurrent

/-- All variables are plain. -/
structure Globals.Fresh (s : Globals Sym Buf V) (values : Sym → V) : Prop where
  value : ∀ x, s.value x = .plain (values x)
  localVarAlist : ∀ b, s.alists.localVarAlist b = []

/-- The variables that have these values in all buffers. -/
def Variables.init (values : Sym → V) (b : Buf) : Variables Sym Buf V :=
  ⟨values, fun _ _ => none, fun _ => false, b⟩

omit [DecidableEq Buf] in
theorem Globals.Fresh.represents {values : Sym → V} (h : s.Fresh values) :
    Represents s (.init values s.currentBuffer) := by
  refine ⟨⟨fun b el hel => ?_, fun b => ?_, fun b b' el hel => ?_⟩, rfl, fun x => ?_⟩
  · exact nomatch h.localVarAlist b ▸ hel
  · rw [h.localVarAlist]
    exact List.nodup_nil
  · exact nomatch h.localVarAlist b ▸ hel
  · rw [h.value x]
    exact ⟨rfl, fun _ => rfl, fun b => by rw [Alists.assq, h.localVarAlist, List.find?_nil], rfl⟩

theorem Represents.call_isSome (h : Represents s m) (op : Call Sym Buf V) : (s.call op).isSome = true := by
  cases op with
  | killAllLocalVariables =>
    obtain ⟨s', hkill, -⟩ := h.killBufferLocalVariables rfl
    exact congrArg (fun r => Option.isSome (Option.map (·, none) r)) hkill
  | _ => rfl

instance [DecidableEq V] (bfwd : BufferLocal Buf V) : Decidable bfwd.Unwritten :=
  inferInstanceAs (Decidable (_ ∧ _ ∧ _))

instance [DecidableEq V] (s : Globals Sym Buf V) : (op : Call Sym Buf V) → Decidable (s.Keeps op)
  | .makeLocalVariable sym => inferInstanceAs (Decidable (∀ bfwd ∈ (s.value sym).record, _ → _ → ¬bfwd.Unwritten))
  | .killLocalVariable sym => inferInstanceAs (Decidable (∀ bfwd ∈ (s.value sym).record, _ → ¬bfwd.Unwritten))
  | .symbolValueInBuffer sym _ =>
    inferInstanceAs (Decidable (∀ bfwd ∈ (s.value sym).record, _ → _ → ¬bfwd.Unwritten))
  | .set _ _ => isTrue trivial
  | .setDefault _ _ => isTrue trivial
  | .makeVariableBufferLocal _ => isTrue trivial
  | .killAllLocalVariables => isTrue trivial
  | .setBuffer _ => isTrue trivial
  | .symbolValue _ => isTrue trivial
  | .defaultValue _ => isTrue trivial

/-- A variable that is local in the first buffer is assigned in the second. -/
def assigned : List (Call Unit (Fin 3) ℕ) := [.makeLocalVariable (), .setBuffer 1, .set () 5]

def threeBuffers : Globals Unit (Fin 3) ℕ := ⟨fun _ => .plain 0, ⟨fun _ => [], fun _ => (), fun _ => 0, 0⟩, 0⟩

theorem threeBuffers_fresh : threeBuffers.Fresh fun _ => 0 := ⟨fun _ => rfl, fun _ => rfl⟩

/-- The values returned by the code, and those of the variables. -/
def returned (ops : List (Call Unit (Fin 3) ℕ)) : Option (List (Option ℕ)) × Option (List (Option ℕ)) :=
  ((exec Globals.step (threeBuffers, []) ops).map (·.2),
    (exec Variables.step (Variables.init (fun _ => 0) 0, []) ops).map (·.2))

/-- The assignment is missed in all three ways. -/
theorem assigned_missed :
    returned (assigned ++ [.makeLocalVariable (), .symbolValue ()]) =
      (some [none, none, some 5, none, some 0], some [none, none, some 5, none, some 5]) ∧
    returned (assigned ++ [.killLocalVariable (), .symbolValue ()]) =
      (some [none, none, some 5, none, some 0], some [none, none, some 5, none, some 5]) ∧
    returned (assigned ++ [.symbolValueInBuffer () 2]) =
      (some [none, none, some 5, some 0], some [none, none, some 5, some 5]) := by
  decide

/-- In a run of calls that do not miss a default value assigned in the record only, the values
returned are those of the variables. -/
theorem buffer_locals_transparent {values : Sym → V} {ops : List (Call Sym Buf V)} {out : List (Option V)}
    (hfresh : s.Fresh values) (hrun : Run Globals.step (fun x op => x.1.Keeps op) (s, []) ops (s', out)) :
    (∃ m', Run Variables.step anyStep (Variables.init values s.currentBuffer, []) ops (m', out) ∧ Represents s' m') ∧
      ∀ op, (s'.call op).isSome = true := by
  obtain ⟨⟨m', out'⟩, hvariables, hrep, rfl⟩ := hrun.simulation
    (R := fun x y => Represents x.1 y.1 ∧ x.2 = y.2) (x := (Variables.init values s.currentBuffer, []))
    ⟨hfresh.represents, rfl⟩ fun x op x' y hrep hkeeps hstep => by
      obtain ⟨hrep, hout⟩ := hrep
      obtain ⟨s'', hcall, hrep'⟩ := hrep.call op hkeeps
      rw [Globals.step, hcall, Option.map_some] at hstep
      obtain rfl := Option.some.inj hstep
      exact ⟨((y.1.call op).1, y.2 ++ [(y.1.call op).2]), rfl, hrep', by rw [hout]⟩
  exact ⟨⟨m', hvariables, hrep⟩, hrep.call_isSome⟩

theorem buffer_locals_transparent_assigned : ∃ s' m',
    Run Variables.step anyStep (Variables.init (fun _ => 0) threeBuffers.currentBuffer, [])
      (assigned ++ [.setBuffer 0, .symbolValue (), .setBuffer 2, .makeLocalVariable (), .defaultValue ()])
      (m', [none, none, some 5, none, some 0, none, none, some 5]) ∧ Represents s' m' := by
  obtain ⟨⟨s', out⟩, hrun, rfl⟩ : ∃ x, Run Globals.step (fun x op => x.1.Keeps op) (threeBuffers, [])
      (assigned ++ [.setBuffer 0, .symbolValue (), .setBuffer 2, .makeLocalVariable (), .defaultValue ()]) x ∧
        x.2 = [none, none, some 5, none, some 0, none, none, some 5] :=
    exists_run_of_execOk (by decide)
  obtain ⟨⟨m', hvariables, hrep⟩, -⟩ := buffer_locals_transparent threeBuffers_fresh hrun
  exact ⟨s', m', hvariables, hrep⟩

end XEmacs.Symbols
