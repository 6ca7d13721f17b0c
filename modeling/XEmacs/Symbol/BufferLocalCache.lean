import Mathlib.Data.List.Nodup
import XEmacs.Symbol.BufferLocal

/-! The record of a buffer-local variable caches the value in one buffer. Every call keeps what is
cached right, except where a default value that was assigned in the record only is looked for in its
own slot. -/

namespace XEmacs.Symbols

open Lib

variable {Sym Buf V : Type} [DecidableEq Sym] {a a' : Alists Sym Buf V} {x y : Sym} {b b' : Buf}
  {el : ℕ} {v d : V} {l : Buf → Option V} {bfwd : BufferLocal Buf V}

/-! ### Alists -/

namespace Alists

/-- A symbol is in an alist once, and no cons is in two alists. -/
structure Wf (a : Alists Sym Buf V) : Prop where
  used : ∀ b, ∀ el ∈ a.localVarAlist b, el < a.next
  once : ∀ b, ((a.localVarAlist b).map a.car).Nodup
  apart : ∀ b b' el, el ∈ a.localVarAlist b → el ∈ a.localVarAlist b' → b = b'

theorem mem_of_assq (h : a.assq x b = some el) : el ∈ a.localVarAlist b ∧ a.car el = x :=
  ⟨List.mem_of_find?_eq_some h, by simpa using List.find?_some h⟩

theorem assq_eq_none : a.assq x b = none ↔ ∀ el ∈ a.localVarAlist b, a.car el ≠ x := by
  simp [assq]

theorem Wf.assq_iff (h : a.Wf) : a.assq x b = some el ↔ el ∈ a.localVarAlist b ∧ a.car el = x := by
  refine ⟨mem_of_assq, fun ⟨hel, hcar⟩ => ?_⟩
  cases hassq : a.assq x b with
  | none => exact absurd hcar (assq_eq_none.mp hassq el hel)
  | some el' =>
    obtain ⟨hel', hcar'⟩ := mem_of_assq hassq
    rw [List.inj_on_of_nodup_map (h.once b) hel' hel (hcar'.trans hcar.symm)]

def stored (a : Alists Sym Buf V) (x : Sym) (b : Buf) : Option V := (a.assq x b).map a.cdr

/-- Only the element of `x` in `b` is changed. -/
structure Sets (a a' : Alists Sym Buf V) (x : Sym) (b : Buf) (el : Option ℕ) (v : Option V) : Prop where
  wf : a'.Wf
  assq : a'.assq x b = el
  stored : a'.stored x b = v
  assq_of_ne : ∀ y b', (y = x → b' ≠ b) → a'.assq y b' = a.assq y b'
  stored_of_ne : ∀ y b', (y = x → b' ≠ b) → a'.stored y b' = a.stored y b'

theorem Wf.sets (h : a.Wf) (h' : a'.Wf) {el : Option ℕ} (hassq : a'.assq x b = el) {v : Option V}
    (hv : el.map a'.cdr = v) (hother : ∀ y b', (y = x → b' ≠ b) → ∀ el,
      (el ∈ a'.localVarAlist b' ∧ a'.car el = y ↔ el ∈ a.localVarAlist b' ∧ a.car el = y) ∧
        (el ∈ a.localVarAlist b' → a.car el = y → a'.cdr el = a.cdr el)) : a.Sets a' x b el v := by
  have hsame (y : Sym) (b' : Buf) (hne : y = x → b' ≠ b) : a'.assq y b' = a.assq y b' :=
    Option.ext fun el => by rw [h'.assq_iff, h.assq_iff, (hother y b' hne el).1]
  refine ⟨h', hassq, by rw [Alists.stored, hassq, hv], hsame, fun y b' hne => ?_⟩
  rw [Alists.stored, Alists.stored, hsame y b' hne]
  refine Option.map_congr fun el hel => ?_
  obtain ⟨hmem, hcar⟩ := mem_of_assq hel
  exact (hother y b' hne el).2 hmem hcar

theorem Wf.setcdr (h : a.Wf) (hel : a.assq x b = some el) (v : V) :
    a.Sets (a.setcdr el v) x b (some el) (some v) := by
  have hwf : (a.setcdr el v).Wf := ⟨h.used, h.once, h.apart⟩
  refine h.sets hwf hel (congrArg some (Function.update_self _ _ _)) fun y b' hne el' => ⟨Iff.rfl, ?_⟩
  intro hmem' hcar'
  refine Function.update_of_ne (fun heq => ?_) _ _
  obtain ⟨hmem, hcar⟩ := mem_of_assq hel
  rw [heq] at hmem' hcar'
  exact hne (hcar'.symm.trans hcar) (h.apart _ _ _ hmem' hmem)

variable [DecidableEq Buf]

theorem Wf.push (h : a.Wf) (hnone : a.assq x b = none) (v : V) :
    a.Sets (a.push x v b) x b (some a.next) (some v) := by
  have hcar {b' : Buf} {el : ℕ} (hel : el ∈ a.localVarAlist b') : (a.push x v b).car el = a.car el :=
    Function.update_of_ne (Nat.ne_of_lt (h.used b' el hel)) _ _
  have hmem (b' : Buf) (el : ℕ) : el ∈ (a.push x v b).localVarAlist b' ↔
      b' = b ∧ el = a.next ∨ el ∈ a.localVarAlist b' := by
    by_cases hb : b' = b
    · subst hb
      simp [Alists.push]
    · simp [Alists.push, hb]
  have hwf : (a.push x v b).Wf := by
    refine ⟨fun b' el hel => ?_, fun b' => ?_, fun b₁ b₂ el h₁ h₂ => ?_⟩
    · rcases (hmem b' el).mp hel with ⟨-, rfl⟩ | hel
      · exact Nat.lt_succ_self _
      · exact Nat.lt_succ_of_lt (h.used b' el hel)
    · have hold : (a.localVarAlist b').map (a.push x v b).car = (a.localVarAlist b').map a.car :=
        List.map_congr_left fun el hel => hcar hel
      by_cases hb : b' = b
      · subst hb
        have hlist : (a.push x v b').localVarAlist b' = a.next :: a.localVarAlist b' := Function.update_self _ _ _
        have hnew : (a.push x v b').car a.next = x := Function.update_self _ _ _
        rw [hlist, List.map_cons, hold, hnew, List.nodup_cons]
        refine ⟨fun hx => ?_, h.once b'⟩
        obtain ⟨el, hel, hx⟩ := List.mem_map.mp hx
        exact assq_eq_none.mp hnone el hel hx
      · have hlist : (a.push x v b).localVarAlist b' = a.localVarAlist b' := Function.update_of_ne hb _ _
        rw [hlist, hold]
        exact h.once b'
    · rcases (hmem b₁ el).mp h₁ with ⟨hb₁, hnew₁⟩ | hold₁ <;> rcases (hmem b₂ el).mp h₂ with ⟨hb₂, hnew₂⟩ | hold₂
      · exact hb₁.trans hb₂.symm
      · exact absurd hnew₁ (Nat.ne_of_lt (h.used _ _ hold₂))
      · exact absurd hnew₂ (Nat.ne_of_lt (h.used _ _ hold₁))
      · exact h.apart _ _ _ hold₁ hold₂
  have hassq : (a.push x v b).assq x b = some a.next :=
    hwf.assq_iff.mpr ⟨(hmem b a.next).mpr (.inl ⟨rfl, rfl⟩), Function.update_self _ _ _⟩
  refine h.sets hwf hassq (congrArg some (Function.update_self _ _ _)) fun y b' hne el => ⟨?_, fun hel _ => ?_⟩
  · rw [hmem]
    constructor
    · rintro ⟨⟨rfl, rfl⟩ | hel, rfl⟩
      · exact absurd rfl (hne (Function.update_self _ _ _))
      · exact ⟨hel, (hcar hel).symm⟩
    · rintro ⟨hel, rfl⟩
      exact ⟨.inr hel, hcar hel⟩
  · exact Function.update_of_ne (Nat.ne_of_lt (h.used b' el hel)) _ _

theorem Wf.delq (h : a.Wf) (hel : a.assq x b = some el) : a.Sets (a.delq el b) x b none none := by
  have hmem (b' : Buf) (el' : ℕ) : el' ∈ (a.delq el b).localVarAlist b' ↔
      el' ∈ a.localVarAlist b' ∧ (b' = b → el' ≠ el) := by
    by_cases hb : b' = b
    · subst hb
      simp [Alists.delq]
    · simp [Alists.delq, hb]
  have hwf : (a.delq el b).Wf := by
    refine ⟨fun b' el' hel' => h.used b' el' ((hmem b' el').mp hel').1, fun b' => ?_, fun b₁ b₂ el' h₁ h₂ => ?_⟩
    · have hsub : ((a.delq el b).localVarAlist b').Sublist (a.localVarAlist b') := by
        by_cases hb : b' = b
        · subst hb
          simp [Alists.delq]
        · simp [Alists.delq, hb]
      exact (h.once b').sublist (hsub.map _)
    · exact h.apart b₁ b₂ el' ((hmem b₁ el').mp h₁).1 ((hmem b₂ el').mp h₂).1
  have hassq : (a.delq el b).assq x b = none := by
    refine assq_eq_none.mpr fun el' hel' hcar => ?_
    obtain ⟨hold, hne⟩ := (hmem b el').mp hel'
    obtain rfl := Option.some.inj ((h.assq_iff.mpr ⟨hold, hcar⟩).symm.trans hel)
    exact hne rfl rfl
  refine h.sets hwf hassq rfl fun y b' hne el' => ⟨?_, fun _ _ => rfl⟩
  rw [hmem]
  refine and_congr_left fun hcar => and_iff_left_of_imp fun _ hb heq => hne ?_ hb
  exact (hcar.symm.trans (congrArg a.car heq)).trans (mem_of_assq hel).2

/-- The values of `x` in the alists may have been written, and nothing else. -/
structure Writes (a a' : Alists Sym Buf V) (x : Sym) : Prop where
  localVarAlist : a'.localVarAlist = a.localVarAlist
  car : a'.car = a.car
  next : a'.next = a.next
  stored : ∀ y, y ≠ x → ∀ b, a'.stored y b = a.stored y b

omit [DecidableEq Buf] in
theorem Writes.refl (a : Alists Sym Buf V) (x : Sym) : a.Writes a x := ⟨rfl, rfl, rfl, fun _ _ _ => rfl⟩

omit [DecidableEq Buf] in
theorem Writes.assq (h : a.Writes a' x) (y : Sym) (b : Buf) : a'.assq y b = a.assq y b := by
  rw [Alists.assq, Alists.assq, h.localVarAlist, h.car]

omit [DecidableEq Buf] in
theorem Writes.wf (h : a.Writes a' x) (hwf : a.Wf) : a'.Wf := by
  obtain ⟨hlist, hcar, hnext, -⟩ := h
  refine ⟨fun b el hel => ?_, fun b => ?_, fun b b' el hel hel' => ?_⟩
  · rw [hlist] at hel
    rw [hnext]
    exact hwf.used b el hel
  · rw [hlist, hcar]
    exact hwf.once b
  · rw [hlist] at hel hel'
    exact hwf.apart b b' el hel hel'

end Alists

/-! ### The record -/

/-- The record caches the value of `x` in its buffer, where `d` is the default value and `l` are
the local values. -/
structure Cached (a : Alists Sym Buf V) (x : Sym) (bfwd : BufferLocal Buf V) (d : V) (l : Buf → Option V) : Prop where
  element : ∀ b, bfwd.currentBuffer = some b → bfwd.currentAlistElement = a.assq x b
  flushed : bfwd.currentBuffer = none →
    bfwd.currentAlistElement = none ∧ bfwd.currentValue = d ∧ bfwd.defaultValue = d
  current : ∀ b, bfwd.currentBuffer = some b → bfwd.currentValue = (l b).getD d
  default : bfwd.currentAlistElement ≠ none → bfwd.defaultValue = d
  stored : ∀ b, bfwd.currentBuffer ≠ some b → a.stored x b = l b
  has : ∀ b, a.assq x b = none ↔ l b = none

theorem Cached.of_same (h : Cached a x bfwd d l) (hassq : ∀ b, a'.assq x b = a.assq x b)
    (hstored : ∀ b, a'.stored x b = a.stored x b) : Cached a' x bfwd d l where
  element b hb := (h.element b hb).trans (hassq b).symm
  flushed := h.flushed
  current := h.current
  default := h.default
  stored b hb := (hstored b).trans (h.stored b hb)
  has b := by rw [hassq]; exact h.has b

theorem Cached.currentValue_eq (h : Cached a x bfwd d l) (hel : bfwd.currentAlistElement = none) :
    bfwd.currentValue = d := by
  rcases hbuf : bfwd.currentBuffer with _ | b
  · exact (h.flushed hbuf).2.1
  · rw [h.current b hbuf, (h.has b).mp ((h.element b hbuf).symm.trans hel), Option.getD_none]

theorem Cached.of_type (h : Cached a x bfwd d l) (type : MagicType) : Cached a x { bfwd with type := type } d l where
  element := h.element
  flushed := h.flushed
  current := h.current
  default := h.default
  stored := h.stored
  has := h.has

theorem Cached.plain {type : MagicType} (hv : v = d) (hl : ∀ b, l b = none) (hnone : ∀ b, a.assq x b = none) :
    Cached a x ⟨type, v, v, none, none⟩ d l where
  element _ hb := nomatch hb
  flushed _ := ⟨rfl, hv, hv⟩
  current _ hb := nomatch hb
  default hne := absurd rfl hne
  stored b _ := by rw [Alists.stored, hnone, Option.map_none, hl]
  has b := ⟨fun _ => hl b, fun _ => hnone b⟩

/-- The values in the slot and in the alists are right. -/
structure Settled (a : Alists Sym Buf V) (x : Sym) (bfwd : BufferLocal Buf V) (d : V) (l : Buf → Option V) : Prop where
  default : bfwd.defaultValue = d
  stored : ∀ b, a.stored x b = l b

theorem Settled.has (h : Settled a x bfwd d l) (b : Buf) : a.assq x b = none ↔ l b = none := by
  rw [← h.stored b, Alists.stored, Option.map_eq_none_iff]

theorem Cached.writeOut (h : Cached a x bfwd d l) (hwf : a.Wf) : ∃ a', writeOutBufferLocalCache bfwd a =
    ({ bfwd with defaultValue := d }, a') ∧ a.Writes a' x ∧ ∀ b, a'.stored x b = l b := by
  have hslot (hdefault : bfwd.defaultValue = d) : bfwd = { bfwd with defaultValue := d } := by
    rw [← hdefault]
  rcases hbuf : bfwd.currentBuffer with _ | b₀
  · have hwrite : writeOutBufferLocalCache bfwd a = (bfwd, a) := by
      rw [writeOutBufferLocalCache, hbuf]
    refine ⟨a, ?_, .refl a x, fun b => h.stored b (by simp [hbuf])⟩
    rw [hwrite, ← hbuf, ← hslot (h.flushed hbuf).2.2]
  · 
    have hother (b : Buf) (hb : b ≠ b₀) : a.stored x b = l b :=
      h.stored b (by rw [hbuf]; exact fun heq => hb (Option.some.inj heq).symm)
    rcases hel : bfwd.currentAlistElement with _ | el
    · have hassq : a.assq x b₀ = none := (h.element b₀ hbuf).symm.trans hel
      have hnone := (h.has b₀).mp hassq
      have hcurrent := h.currentValue_eq hel
      have hwrite : writeOutBufferLocalCache bfwd a = ({ bfwd with defaultValue := bfwd.currentValue }, a) := by
        rw [writeOutBufferLocalCache, hbuf, hel]
      refine ⟨a, by rw [hwrite, hcurrent, hbuf, hel], .refl a x, fun b => ?_⟩
      by_cases hb : b = b₀
      · rw [hb, hnone, Alists.stored, hassq, Option.map_none]
      · exact hother b hb
    · have hassq : a.assq x b₀ = some el := (h.element b₀ hbuf).symm.trans hel
      have hsets := hwf.setcdr hassq bfwd.currentValue
      obtain ⟨v, hv⟩ := Option.ne_none_iff_exists'.mp fun hnone => Option.some_ne_none el (hassq.symm.trans
        ((h.has b₀).mpr hnone))
      have hcurrent : bfwd.currentValue = v := by rw [h.current b₀ hbuf, hv, Option.getD_some]
      have hwrite : writeOutBufferLocalCache bfwd a = (bfwd, a.setcdr el bfwd.currentValue) := by
        rw [writeOutBufferLocalCache, hbuf, hel]
      refine ⟨a.setcdr el bfwd.currentValue, ?_, ⟨rfl, rfl, rfl, fun y hy b =>
        hsets.stored_of_ne y b fun heq => absurd heq hy⟩, fun b => ?_⟩
      · rw [hwrite, ← hbuf, ← hel, ← hslot (h.default (by rw [hel]; exact Option.some_ne_none el))]
      · by_cases hb : b = b₀
        · rw [hb, hsets.stored, hcurrent, hv]
        · rw [hsets.stored_of_ne x b fun _ => hb, hother b hb]

section

variable [DecidableEq Buf]

theorem Settled.assign_local (h : Settled a x bfwd d l) (hel : a.assq x b = some el) (v : V) :
    Cached a x { bfwd with currentAlistElement := some el, currentBuffer := some b, currentValue := v } d
      (Function.update l b (some v)) where
  element b' hb' := by rw [← Option.some.inj hb', hel]
  flushed hnone := nomatch hnone
  current b' hb' := by rw [← Option.some.inj hb', Function.update_self, Option.getD_some]
  default _ := h.default
  stored b' hb' := by
    rw [Function.update_of_ne fun heq => hb' (congrArg some heq.symm)]
    exact h.stored b'
  has b' := by
    by_cases hb : b' = b
    · rw [hb, hel, Function.update_self]
      exact ⟨nofun, nofun⟩
    · rw [Function.update_of_ne hb]
      exact h.has b'

omit [DecidableEq Buf] in
theorem Settled.assign_default (h : Settled a x bfwd d l) (hel : a.assq x b = none) (v : V) :
    Cached a x { bfwd with currentAlistElement := none, currentBuffer := some b, currentValue := v } v l where
  element b' hb' := by rw [← Option.some.inj hb', hel]
  flushed hnone := nomatch hnone
  current b' hb' := by rw [← Option.some.inj hb', (h.has b).mp hel, Option.getD_none]
  default hne := absurd rfl hne
  stored b' _ := h.stored b'
  has := h.has

theorem Settled.setUp (hwrite : writeOutBufferLocalCache bfwd a = ({ bfwd with defaultValue := d }, a'))
    (h : Settled a' x { bfwd with defaultValue := d } d l) (hbuf : bfwd.currentBuffer ≠ some b) (newAlistEl : Option ℕ)
    (setItP : Bool) (hel : (if newAlistEl = none ∧ setItP = true then a'.assq x b else newAlistEl) = a'.assq x b) :
    ∃ bfwd', setUpBufferLocalCache x bfwd b newAlistEl setItP a = (bfwd', a') ∧ Cached a' x bfwd' d l ∧
      bfwd'.currentBuffer = some b ∧ bfwd'.type = bfwd.type := by
  have hfind : bufferLocalAlistElement b x { bfwd with defaultValue := d } a' = a'.assq x b := if_neg hbuf
  rw [setUpBufferLocalCache, if_neg hbuf, hwrite]
  simp only [hfind, hel]
  refine ⟨_, rfl, ?_, rfl, rfl⟩
  cases hassq : a'.assq x b with
  | none => exact h.assign_default hassq d
  | some el =>
    have hl : l b = some (a'.cdr el) := by rw [← h.stored b, Alists.stored, hassq, Option.map_some]
    have hcached := h.assign_local hassq (a'.cdr el)
    rwa [← hl, Function.update_eq_self] at hcached

theorem Cached.setUp (h : Cached a x bfwd d l) (hwf : a.Wf) (newAlistEl : Option ℕ) (setItP : Bool)
    (hel : bfwd.currentBuffer ≠ some b →
      (if newAlistEl = none ∧ setItP = true then a.assq x b else newAlistEl) = a.assq x b) :
    ∃ bfwd' a', setUpBufferLocalCache x bfwd b newAlistEl setItP a = (bfwd', a') ∧ a.Writes a' x ∧
      Cached a' x bfwd' d l ∧ bfwd'.currentBuffer = some b ∧ bfwd'.type = bfwd.type := by
  by_cases hbuf : bfwd.currentBuffer = some b
  · rw [setUpBufferLocalCache, if_pos hbuf]
    exact ⟨bfwd, a, rfl, .refl a x, h, hbuf, rfl⟩
  · obtain ⟨a', hwrite, hwrites, hstored⟩ := h.writeOut hwf
    obtain ⟨bfwd', hsetUp, hcached⟩ := Settled.setUp hwrite ⟨rfl, hstored⟩ hbuf newAlistEl setItP
      (by rw [hwrites.assq]; exact hel hbuf)
    exact ⟨bfwd', a', hsetUp, hwrites, hcached⟩

/-- The default value has been assigned in the record only. -/
def BufferLocal.Unwritten (bfwd : BufferLocal Buf V) : Prop :=
  bfwd.currentBuffer ≠ none ∧ bfwd.currentAlistElement = none ∧ bfwd.currentValue ≠ bfwd.defaultValue

omit [DecidableEq Buf] in
theorem Cached.unwritten (h : Cached a x bfwd d l) : bfwd.Unwritten ↔ bfwd.defaultValue ≠ d := by
  cases hbuf : bfwd.currentBuffer with
  | none => simp [BufferLocal.Unwritten, hbuf, (h.flushed hbuf).2.2]
  | some b =>
    cases hel : bfwd.currentAlistElement with
    | none =>
      have hcurrent := h.currentValue_eq hel
      simp [BufferLocal.Unwritten, hbuf, hel, hcurrent, ne_comm]
    | some el =>
      have hdefault := h.default (by rw [hel]; exact Option.some_ne_none el)
      simp [BufferLocal.Unwritten, hel, hdefault]

theorem Settled.of_sets (h : Settled a x bfwd d l) {el : Option ℕ} {v : Option V} (hsets : a.Sets a' x b el v) :
    Settled a' x bfwd d (Function.update l b v) := by
  refine ⟨h.default, fun b' => ?_⟩
  by_cases hb : b' = b
  · rw [hb, Function.update_self, hsets.stored]
  · rw [Function.update_of_ne hb, hsets.stored_of_ne x b' fun _ => hb, h.stored]

theorem Cached.of_sets (h : Cached a x bfwd d l) {el : Option ℕ} {v : Option V} (hsets : a.Sets a' x b el v)
    (hbuf : bfwd.currentBuffer ≠ some b) : Cached a' x bfwd d (Function.update l b v) where
  element b' hb' := by
    have hne : b' ≠ b := fun heq => hbuf (heq ▸ hb')
    rw [hsets.assq_of_ne x b' fun _ => hne, h.element b' hb']
  flushed := h.flushed
  current b' hb' := by
    have hne : b' ≠ b := fun heq => hbuf (heq ▸ hb')
    rw [Function.update_of_ne hne, h.current b' hb']
  default := h.default
  stored b' hb' := by
    by_cases hb : b' = b
    · rw [hb, Function.update_self, hsets.stored]
    · rw [Function.update_of_ne hb, hsets.stored_of_ne x b' fun _ => hb, h.stored b' hb']
  has b' := by
    by_cases hb : b' = b
    · rw [hb, Function.update_self, ← hsets.stored, Alists.stored, Option.map_eq_none_iff]
    · rw [Function.update_of_ne hb, hsets.assq_of_ne x b' fun _ => hb, h.has b']

theorem Cached.find (h : Cached a x bfwd d l) (b : Buf) : bufferLocalAlistElement b x bfwd a = a.assq x b := by
  rw [bufferLocalAlistElement]
  split_ifs with hbuf
  · exact h.element b hbuf
  · rfl

omit [DecidableEq Buf] in
theorem Cached.flush (h : Cached a x bfwd d l) (hel : bfwd.currentAlistElement = none)
    (hdefault : bfwd.defaultValue = d) : Cached a x { bfwd with currentBuffer := none } d l where
  element _ hb := nomatch hb
  flushed _ := ⟨hel, h.currentValue_eq hel, hdefault⟩
  current _ hb := nomatch hb
  default := h.default
  stored b _ := by
    by_cases hbuf : bfwd.currentBuffer = some b
    · have hassq := (h.element b hbuf).symm.trans hel
      rw [Alists.stored, hassq, Option.map_none, (h.has b).mp hassq]
    · exact h.stored b hbuf
  has := h.has

theorem Cached.assign_local (h : Cached a x bfwd d l) (hbuf : bfwd.currentBuffer = some b)
    (hel : bfwd.currentAlistElement ≠ none) (v : V) :
    Cached a x { bfwd with currentValue := v } d (Function.update l b (some v)) where
  element := h.element
  flushed hnone := nomatch hbuf.symm.trans hnone
  current b' hb' := by
    rw [← Option.some.inj (hbuf.symm.trans hb'), Function.update_self, Option.getD_some]
  default := h.default
  stored b' hb' := by
    have hne : b' ≠ b := fun heq => hb' (heq ▸ hbuf)
    rw [Function.update_of_ne hne, h.stored b' hb']
  has b' := by
    by_cases hb : b' = b
    · rw [hb, Function.update_self, ← h.element b hbuf]
      exact ⟨fun hnone => absurd hnone hel, nofun⟩
    · rw [Function.update_of_ne hb, h.has b']

omit [DecidableEq Buf] in
theorem Cached.assign_default (h : Cached a x bfwd d l) (hbuf : bfwd.currentBuffer = some b)
    (hel : bfwd.currentAlistElement = none) (v : V) : Cached a x { bfwd with currentValue := v } v l where
  element := h.element
  flushed hnone := nomatch hbuf.symm.trans hnone
  current b' hb' := by
    rw [(h.has b').mp ((h.element b' hb').symm.trans hel), Option.getD_none]
  default hne := absurd hel hne
  stored := h.stored
  has := h.has

end

theorem Cached.setDefault (h : Cached a x bfwd d l) (hel : bfwd.currentAlistElement = none) (v : V) :
    Cached a x { bfwd with defaultValue := v, currentValue := v } v l where
  element := h.element
  flushed _ := ⟨hel, rfl, rfl⟩
  current b hb := by
    rw [(h.has b).mp ((h.element b hb).symm.trans hel), Option.getD_none]
  default _ := rfl
  stored := h.stored
  has := h.has

theorem Cached.setDefault_slot (h : Cached a x bfwd d l) (hel : bfwd.currentAlistElement ≠ none) (v : V) :
    Cached a x { bfwd with defaultValue := v } v l where
  element := h.element
  flushed hnone := absurd (h.flushed hnone).1 hel
  current b hb := by
    obtain ⟨w, hw⟩ := Option.ne_none_iff_exists'.mp fun hnone => hel ((h.element b hb).trans ((h.has b).mpr hnone))
    rw [h.current b hb, hw, Option.getD_some, Option.getD_some]
  default _ := rfl
  stored := h.stored
  has := h.has

/-- What the value slot of a symbol says about its values. -/
def Shows (a : Alists Sym Buf V) (x : Sym) : SymbolValue Buf V → V → (Buf → Option V) → Bool → Prop
  | .plain v, d, l, auto => v = d ∧ (∀ b, l b = none) ∧ (∀ b, a.assq x b = none) ∧ auto = false
  | .bufferLocal bfwd, d, l, auto => Cached a x bfwd d l ∧ auto = decide (bfwd.type = .bufferLocal)

/-- The state represents the variables `m`. -/
structure Represents (s : Globals Sym Buf V) (m : Variables Sym Buf V) : Prop where
  wf : s.alists.Wf
  current : m.current = s.currentBuffer
  shows : ∀ x, Shows s.alists x (s.value x) (m.default x) (m.locals x) (m.auto x)

variable {s s' : Globals Sym Buf V} {m m' : Variables Sym Buf V} {auto : Bool}

theorem Variables.put_self (m : Variables Sym Buf V) (x : Sym) :
    m.put x (m.default x) (m.locals x) (m.auto x) = m := by
  simp [Variables.put]

theorem Shows.of_same {value : SymbolValue Buf V} (h : Shows a x value d l auto)
    (hassq : ∀ b, a'.assq x b = a.assq x b) (hstored : ∀ b, a'.stored x b = a.stored x b) :
    Shows a' x value d l auto := by
  cases value with
  | plain v =>
    obtain ⟨hv, hl, hnone, hauto⟩ := h
    exact ⟨hv, hl, fun b => (hassq b).trans (hnone b), hauto⟩
  | bufferLocal bfwd => exact ⟨h.1.of_same hassq hstored, h.2⟩

theorem Represents.store (h : Represents s m) (hwf : a'.Wf)
    (hassq : ∀ y, y ≠ x → ∀ b, a'.assq y b = s.alists.assq y b)
    (hstored : ∀ y, y ≠ x → ∀ b, a'.stored y b = s.alists.stored y b) (hcached : Cached a' x bfwd d l)
    (hauto : auto = decide (bfwd.type = .bufferLocal)) : Represents (s.store x (bfwd, a')) (m.put x d l auto) := by
  refine ⟨hwf, h.current, fun y => ?_⟩
  rw [Globals.store, Variables.put]
  by_cases hy : y = x
  · subst hy
    simp only [Function.update_self]
    exact ⟨hcached, hauto⟩
  · simp only [Function.update_of_ne hy]
    exact (h.shows y).of_same (hassq y hy) (hstored y hy)

theorem Represents.store_sets (h : Represents s m) {el : Option ℕ} {v : Option V} (hsets : s.alists.Sets a' x b el v)
    (hcached : Cached a' x bfwd d l) (hauto : auto = decide (bfwd.type = .bufferLocal)) :
    Represents (s.store x (bfwd, a')) (m.put x d l auto) :=
  h.store hsets.wf (fun y hy b' => hsets.assq_of_ne y b' fun heq => absurd heq hy)
    (fun y hy b' => hsets.stored_of_ne y b' fun heq => absurd heq hy) hcached hauto

theorem Represents.store_writes (h : Represents s m) (hwrites : s.alists.Writes a' x) (hcached : Cached a' x bfwd d l)
    (hauto : auto = decide (bfwd.type = .bufferLocal)) : Represents (s.store x (bfwd, a')) (m.put x d l auto) :=
  h.store (hwrites.wf h.wf) (fun y _ => hwrites.assq y) hwrites.stored hcached hauto

end XEmacs.Symbols
