import Mathlib.Tactic.Common
import Mathlib.Tactic.SplitIfs
import Mathlib.Algebra.Order.Ring.Int

/-! Arrays with a gap. A memory `ℤ → α` holds a sequence with `k` unused cells
between positions `g - 1` and `g`; `view` reads the sequence through the gap.
Moving the gap is a `memmove` that keeps the view, writing into the gap and
letting it shrink inserts, letting it grow over cells deletes. A memory position
is turned back into a position of the sequence by `decode`, under which every
cell of the gap stands for the position `g`. -/

namespace XEmacs.Lib.Gap

variable {α : Type*}

/-- Copy `n` cells from `src` to `dst`, which may overlap. -/
def memmove (dst src n : ℤ) (mem : ℤ → α) : ℤ → α :=
  fun a => if dst ≤ a ∧ a < dst + n then mem (a - dst + src) else mem a

/-- Copy `n` cells one by one, the last one first, between regions that end at `src` and `dst`. -/
def copyDown : ℕ → ℤ → ℤ → (ℤ → α) → ℤ → α
  | 0, _, _, mem => mem
  | n + 1, dst, src, mem => copyDown n (dst - 1) (src - 1) (Function.update mem (dst - 1) (mem (src - 1)))

/-- Copy `n` cells one by one, the first one first, between regions that start at `src` and `dst`. -/
def copyUp : ℕ → ℤ → ℤ → (ℤ → α) → ℤ → α
  | 0, _, _, mem => mem
  | n + 1, dst, src, mem => copyUp n (dst + 1) (src + 1) (Function.update mem dst (mem src))

/-- Copy the elements `xs` to `dst`. -/
def memcpy (dst : ℤ) (xs : List α) (mem : ℤ → α) : ℤ → α :=
  fun a => if dst ≤ a then xs.getD (a - dst).toNat (mem a) else mem a

/-- Position `p` of the sequence with a gap of `k` cells at `g`. -/
def view (mem : ℤ → α) (g k p : ℤ) : α := if p < g then mem p else mem (p + k)

/-- The first `n` elements of a sequence. -/
def slice (f : ℤ → α) (n : ℤ) : List α := (List.range n.toNat).map fun i : ℕ => f i

theorem memcpy_of_lt {dst a : ℤ} {xs : List α} {mem : ℤ → α} (h : a < dst) :
    memcpy dst xs mem a = mem a := by
  simp [memcpy, show ¬ dst ≤ a by omega]

theorem memcpy_of_ge {dst a : ℤ} {xs : List α} {mem : ℤ → α} (h : dst + xs.length ≤ a) :
    memcpy dst xs mem a = mem a := by
  have hle : dst ≤ a := by omega
  rw [memcpy, if_pos hle, List.getD_eq_getElem?_getD, List.getElem?_eq_none (by omega)]
  rfl

theorem memcpy_of_mem {dst : ℤ} {xs : List α} {mem : ℤ → α} {i : ℕ} (h : i < xs.length) :
    memcpy dst xs mem (dst + i) = xs[i] := by
  simp [memcpy, h]

theorem copyDown_eq_memmove (n : ℕ) {dst src : ℤ} (h : src ≤ dst) (mem : ℤ → α) :
    copyDown n dst src mem = memmove (dst - n) (src - n) n mem := by
  induction n generalizing dst src mem with
  | zero => funext a; simp only [copyDown, memmove]; rw [if_neg (by omega)]
  | succ n ih =>
    rw [copyDown, ih (by omega)]
    funext a
    simp only [memmove, Nat.cast_add, Nat.cast_one, Function.update_apply]
    split_ifs <;> first | omega | rfl | (congr 1; omega)

theorem copyUp_eq_memmove (n : ℕ) {dst src : ℤ} (h : dst ≤ src) (mem : ℤ → α) :
    copyUp n dst src mem = memmove dst src n mem := by
  induction n generalizing dst src mem with
  | zero => funext a; simp only [copyUp, memmove]; rw [if_neg (by omega)]
  | succ n ih =>
    rw [copyUp, ih (by omega)]
    funext a
    simp only [memmove, Nat.cast_add, Nat.cast_one, Function.update_apply]
    split_ifs <;> first | omega | rfl | (congr 1; omega)

theorem memmove_of_not_mem {dst src n a : ℤ} {mem : ℤ → α} (h : a < dst ∨ dst + n ≤ a) :
    memmove dst src n mem a = mem a := by
  rw [memmove, if_neg (by omega)]

theorem view_congr {f f' : ℤ → α} {g k n p : ℤ} (hk : 0 ≤ k) (h : ∀ q, q < n + k → f' q = f q)
    (hp : p < n) : view f' g k p = view f g k p := by
  unfold view
  split_ifs
  · exact h p (by omega)
  · exact h (p + k) (by omega)

theorem view_move_left {g g' k : ℤ} (mem : ℤ → α) (hg : g' ≤ g) (hk : 0 ≤ k) (p : ℤ) :
    view (memmove (g' + k) g' (g - g') mem) g' k p = view mem g k p := by
  unfold view memmove
  split_ifs <;> first | omega | rfl | (congr 1; omega)

theorem view_move_right {g g' k : ℤ} (mem : ℤ → α) (hg : g ≤ g') (hk : 0 ≤ k) (p : ℤ) :
    view (memmove g (g + k) (g' - g) mem) g' k p = view mem g k p := by
  unfold view memmove
  split_ifs <;> first | omega | rfl | (congr 1; omega)

theorem view_update_gap (mem : ℤ → α) {g k a : ℤ} (v : α) (h1 : g ≤ a) (h2 : a < g + k) (p : ℤ) :
    view (Function.update mem a v) g k p = view mem g k p := by
  unfold view
  split_ifs <;> exact Function.update_of_ne (by omega) _ _

theorem view_update_end (mem : ℤ → α) {g k n a p : ℤ} (v : α) (hk : 0 ≤ k) (hp : p < n)
    (ha : n + k ≤ a) : view (Function.update mem a v) g k p = view mem g k p :=
  view_congr hk (fun _ hq => Function.update_of_ne (by omega) _ _) hp

/-- Two gaps that lie side by side read as one. -/
theorem view_join (mem : ℤ → α) {g k i : ℤ} (hk : 0 ≤ k) (p : ℤ) :
    view mem g (k + i) p = view (view mem (g + k) i) g k p := by
  unfold view
  split_ifs <;> first | omega | rfl | (congr 1; omega)

theorem view_insert (mem : ℤ → α) {g k : ℤ} {xs : List α} (hk : xs.length ≤ k) (p : ℤ) :
    view (memcpy g xs mem) (g + xs.length) (k - xs.length) p =
      if p < g then view mem g k p
      else if p < g + xs.length then xs.getD (p - g).toNat (mem p)
      else view mem g k (p - xs.length) := by
  unfold view
  split_ifs with h1 h2 h3 h4 <;> try omega
  · exact memcpy_of_lt h2
  · rw [memcpy, if_pos (by omega)]
  · rw [memcpy_of_ge (by omega)]; congr 1; omega

theorem view_delete (mem : ℤ → α) {g k start n : ℤ} (h1 : start ≤ g) (h2 : g ≤ start + n) (p : ℤ) :
    view mem start (k + n) p = if p < start then view mem g k p else view mem g k (p + n) := by
  unfold view
  split_ifs <;> first | omega | rfl | (congr 1; omega)

@[simp] theorem length_slice (f : ℤ → α) (n : ℤ) : (slice f n).length = n.toNat := by
  simp [slice]

theorem getElem_slice (f : ℤ → α) {n : ℤ} {i : ℕ} (h : i < (slice f n).length) :
    (slice f n)[i] = f i := by
  simp [slice]

theorem slice_congr {f f' : ℤ → α} {n : ℤ} (h : ∀ p, 0 ≤ p → p < n → f' p = f p) :
    slice f' n = slice f n := by
  apply List.map_congr_left
  intro i hi
  rw [List.mem_range] at hi
  exact h i (by omega) (by omega)

/-- `m` elements from position `i` on replaced by others. -/
theorem slice_splice {f f' : ℤ → α} {n i m : ℤ} {xs : List α} (h0 : 0 ≤ i) (hm : 0 ≤ m) (hi : i + m ≤ n)
    (hbefore : ∀ p, 0 ≤ p → p < i → f' p = f p)
    (hnew : ∀ j (h : j < xs.length), f' (i + j) = xs[j])
    (hafter : ∀ p, i + m ≤ p → p < n → f' (p - m + xs.length) = f p) :
    slice f' (n - m + xs.length) = (slice f n).take i.toNat ++ xs ++ (slice f n).drop (i + m).toNat := by
  apply List.ext_getElem
  · simp only [length_slice, List.length_append, List.length_take, List.length_drop]; omega
  · intro j h1 h2
    simp only [length_slice] at h1
    rw [getElem_slice]
    rcases lt_or_ge j i.toNat with hj | hj
    · rw [List.getElem_append_left (by simp; omega), List.getElem_append_left (by simp; omega),
        List.getElem_take, getElem_slice]
      exact hbefore j (by omega) (by omega)
    · rcases lt_or_ge j (i.toNat + xs.length) with hj' | hj'
      · rw [List.getElem_append_left (by simp; omega), List.getElem_append_right (by simp; omega)]
        have := hnew (j - i.toNat) (by omega)
        rw [show i + ((j - i.toNat : ℕ) : ℤ) = j by omega] at this
        simp only [this, List.length_take, length_slice]
        congr 1; omega
      · rw [List.getElem_append_right (by simp; omega), List.getElem_drop, getElem_slice]
        have := hafter (j - xs.length + m) (by omega) (by omega)
        rw [show (j : ℤ) - xs.length + m - m + xs.length = j by omega] at this
        rw [this]
        congr 1
        simp only [List.length_append, List.length_take, length_slice]
        omega

theorem slice_insert {f f' : ℤ → α} {n i : ℤ} {xs : List α} (h0 : 0 ≤ i) (hi : i ≤ n)
    (hbefore : ∀ p, 0 ≤ p → p < i → f' p = f p)
    (hnew : ∀ j (h : j < xs.length), f' (i + j) = xs[j])
    (hafter : ∀ p, i ≤ p → p < n → f' (p + xs.length) = f p) :
    slice f' (n + xs.length) =
      (slice f n).take i.toNat ++ xs ++ (slice f n).drop i.toNat := by
  have hsplice := slice_splice h0 le_rfl (by omega : i + 0 ≤ n) hbefore hnew fun p hp hn => by
    rw [sub_zero]
    exact hafter p (by omega) hn
  rwa [sub_zero, add_zero] at hsplice

theorem slice_delete {f f' : ℤ → α} {n i m : ℤ} (h0 : 0 ≤ i) (hm : 0 ≤ m) (hi : i + m ≤ n)
    (hbefore : ∀ p, 0 ≤ p → p < i → f' p = f p)
    (hafter : ∀ p, i ≤ p → p < n - m → f' p = f (p + m)) :
    slice f' (n - m) = (slice f n).take i.toNat ++ (slice f n).drop (i + m).toNat := by
  have hsplice := @slice_splice α f f' n i m [] h0 hm hi hbefore (fun j h => absurd h (Nat.not_lt_zero j)) fun p hp hn => by
    rw [List.length_nil, Nat.cast_zero, add_zero, hafter (p - m) (by omega) (by omega), sub_add_cancel]
  rwa [List.length_nil, Nat.cast_zero, add_zero, List.append_nil] at hsplice

theorem slice_overwrite {f f' : ℤ → α} {n i : ℤ} {xs : List α} (h0 : 0 ≤ i)
    (hi : i + xs.length ≤ n)
    (hnew : ∀ j (h : j < xs.length), f' (i + j) = xs[j])
    (hother : ∀ p, 0 ≤ p → p < n → p < i ∨ i + xs.length ≤ p → f' p = f p) :
    slice f' n = (slice f n).take i.toNat ++ xs ++ (slice f n).drop (i + xs.length).toNat := by
  have hsplice := slice_splice h0 (Int.natCast_nonneg _) hi (fun p hp hlt => hother p hp (by omega) (.inl hlt)) hnew
    fun p hp hn => by
      rw [sub_add_cancel]
      exact hother p (by omega) hn (.inr hp)
  rwa [sub_add_cancel] at hsplice

/-- The position of the sequence that memory position `m` stands for. -/
def decode (g k m : ℤ) : ℤ := if m ≤ g then m else if m ≤ g + k then g else m - k

def OffGap (g k m : ℤ) : Prop := m ≤ g ∨ g + k ≤ m

theorem decode_of_le {g k m : ℤ} (h : m ≤ g) : decode g k m = m := if_pos h

theorem decode_of_ge {g k m : ℤ} (hk : 0 ≤ k) (h : g + k ≤ m) : decode g k m = m - k := by
  unfold decode; split_ifs <;> omega

theorem decode_join {g k i : ℤ} (hk : 0 ≤ k) (hi : 0 ≤ i) (m : ℤ) :
    decode g (k + i) m = decode g k (decode (g + k) i m) := by
  unfold decode; split_ifs <;> omega

end XEmacs.Lib.Gap
