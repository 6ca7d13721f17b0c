import Mathlib.Tactic.Common
import Mathlib.Tactic.SplitIfs
import Mathlib.Algebra.Order.Ring.Int
import Mathlib.Data.List.Basic

/-! Internal-format text: a character is a first byte, which gives the number of bytes,
and the rest of them. The table `rep_bytes_by_first_byte` is a parameter, as it depends on
the build. Positions count from 1, in characters or in bytes; `bytePos` turns one into the
other, and is strictly increasing and commutes with splicing. -/

namespace XEmacs.Text

/-- The table of a build without `UNICODE_INTERNAL` and composite characters; no character
starts with a byte from 0xA0 on. -/
def repBytesByFirstByte (c : UInt8) : ℕ :=
  if c < 0x80 then 1 else if c < 0x8e then 2 else if c < 0x9f then 3 else if c = 0x9f then 4 else 0

/-- A character in internal format. -/
structure Ichar (rep : UInt8 → ℕ) where
  first : UInt8
  rest : List UInt8
  size : rest.length + 1 = rep first
  deriving DecidableEq

variable {rep : UInt8 → ℕ}

def Ichar.bytes (c : Ichar rep) : List UInt8 := c.first :: c.rest

def itextBytes (cs : List (Ichar rep)) : List UInt8 := cs.flatMap Ichar.bytes

/-- `charcount_to_bytecount`: skip `len` characters by `INC_IBYTEPTR`. -/
def charcountToBytecount (rep : UInt8 → ℕ) : List UInt8 → ℕ → ℕ
  | _, 0 => 0
  | [], _ + 1 => 0
  | c :: ptr, len + 1 => rep c + charcountToBytecount rep ((c :: ptr).drop (rep c)) len

/-- The loop of `bytecount_to_charcount` over the bytes that are left, in at most
`fuel` characters. -/
def bytecountToCharcountLoop (rep : UInt8 → ℕ) : ℕ → List UInt8 → ℕ
  | 0, _ => 0
  | _ + 1, [] => 0
  | fuel + 1, c :: ptr => 1 + bytecountToCharcountLoop rep fuel ((c :: ptr).drop (rep c))

def bytecountToCharcount (rep : UInt8 → ℕ) (bytes : List UInt8) : ℕ :=
  bytecountToCharcountLoop rep bytes.length bytes

theorem Ichar.length_bytes (c : Ichar rep) : c.bytes.length = rep c.first := by
  simp [bytes, c.size]

theorem Ichar.length_bytes_pos (c : Ichar rep) : 0 < c.bytes.length := by
  simp [bytes]

@[simp] theorem itextBytes_nil : itextBytes ([] : List (Ichar rep)) = [] := rfl

@[simp] theorem itextBytes_cons (c : Ichar rep) (cs : List (Ichar rep)) :
    itextBytes (c :: cs) = c.bytes ++ itextBytes cs := rfl

@[simp] theorem itextBytes_append (cs ds : List (Ichar rep)) :
    itextBytes (cs ++ ds) = itextBytes cs ++ itextBytes ds := by
  simp [itextBytes]

theorem length_le_length_itextBytes (cs : List (Ichar rep)) : cs.length ≤ (itextBytes cs).length := by
  induction cs with
  | nil => simp
  | cons c cs ih =>
    have := c.length_bytes_pos
    simp only [itextBytes_cons, List.length_append, List.length_cons]
    omega

theorem drop_bytes (c : Ichar rep) (cs : List (Ichar rep)) :
    (itextBytes (c :: cs)).drop (rep c.first) = itextBytes cs := by
  rw [itextBytes_cons, ← c.length_bytes, List.drop_left]

theorem charcountToBytecount_itextBytes (cs : List (Ichar rep)) (n : ℕ) :
    charcountToBytecount rep (itextBytes cs) n = (itextBytes (cs.take n)).length := by
  induction n generalizing cs with
  | zero => simp [charcountToBytecount]
  | succ n ih =>
    cases cs with
    | nil => simp [charcountToBytecount]
    | cons c cs =>
      have hdrop := drop_bytes c cs
      have hlen : (itextBytes (c :: cs.take n)).length = rep c.first + (itextBytes (cs.take n)).length := by
        rw [itextBytes_cons, List.length_append, c.length_bytes]
      rw [List.take_succ_cons, hlen, ← ih cs]
      rw [itextBytes_cons, Ichar.bytes, List.cons_append] at hdrop ⊢
      rw [charcountToBytecount, hdrop]

theorem bytecountToCharcountLoop_itextBytes (cs : List (Ichar rep)) {fuel : ℕ}
    (h : cs.length ≤ fuel) : bytecountToCharcountLoop rep fuel (itextBytes cs) = cs.length := by
  induction cs generalizing fuel with
  | nil => cases fuel <;> rfl
  | cons c cs ih =>
    cases fuel with
    | zero => simp at h
    | succ fuel =>
      have hdrop := drop_bytes c cs
      rw [itextBytes_cons, Ichar.bytes, List.cons_append] at hdrop ⊢
      rw [bytecountToCharcountLoop, hdrop, ih (by simpa using h), List.length_cons, add_comm]

theorem bytecountToCharcount_itextBytes (cs : List (Ichar rep)) :
    bytecountToCharcount rep (itextBytes cs) = cs.length :=
  bytecountToCharcountLoop_itextBytes cs (length_le_length_itextBytes cs)

def bytePos (cs : List (Ichar rep)) (p : ℤ) : ℤ := 1 + (itextBytes (cs.take (p - 1).toNat)).length

variable {cs : List (Ichar rep)} {p q : ℤ}

@[simp] theorem bytePos_one : bytePos cs 1 = 1 := by simp [bytePos]

theorem bytePos_end : bytePos cs (1 + cs.length) = 1 + (itextBytes cs).length := by
  simp [bytePos]

theorem bytePos_append_right (cs xs : List (Ichar rep)) (hp : 1 ≤ p) :
    bytePos (cs ++ xs) (p + cs.length) = (itextBytes cs).length + bytePos xs p := by
  have hnat : (p + cs.length - 1).toNat = cs.length + (p - 1).toNat := by omega
  simp only [bytePos, hnat, List.take_length_add_append, itextBytes_append, List.length_append,
    Nat.cast_add]
  omega

theorem bytePos_le_of_le (hpq : p ≤ q) : bytePos cs p ≤ bytePos cs q := by
  have hsub : (cs.take (p - 1).toNat) <+: (cs.take (q - 1).toNat) :=
    List.take_prefix_take_left (by omega)
  obtain ⟨t, ht⟩ := hsub
  rw [bytePos, bytePos, ← ht, itextBytes_append, List.length_append]
  omega

theorem bytePos_lt_of_lt (h1 : 1 ≤ p) (hpq : p < q) (hq : q ≤ 1 + cs.length) :
    bytePos cs p < bytePos cs q := by
  refine lt_of_lt_of_le ?_ (bytePos_le_of_le (show p + 1 ≤ q by omega))
  have hlt : (p - 1).toNat < cs.length := by omega
  have hstep : (p + 1 - 1).toNat = (p - 1).toNat + 1 := by omega
  rw [bytePos, bytePos, hstep, List.take_succ_eq_append_getElem hlt, itextBytes_append,
    List.length_append]
  have := (cs[(p - 1).toNat]).length_bytes_pos
  simp only [itextBytes_cons, itextBytes_nil, List.append_nil]
  omega

theorem bytePos_le_iff (hp : p ≤ 1 + cs.length) (hq : 1 ≤ q) :
    bytePos cs p ≤ bytePos cs q ↔ p ≤ q := by
  constructor
  · intro h
    by_contra hlt
    have := bytePos_lt_of_lt hq (show q < p by omega) hp
    omega
  · exact bytePos_le_of_le

theorem bytePos_lt_iff (hp : 1 ≤ p) (hq : q ≤ 1 + cs.length) :
    bytePos cs p < bytePos cs q ↔ p < q := by
  rw [← not_le, ← not_le, bytePos_le_iff hq hp]

theorem bytePos_inj (hp : 1 ≤ p ∧ p ≤ 1 + cs.length) (hq : 1 ≤ q ∧ q ≤ 1 + cs.length) :
    bytePos cs p = bytePos cs q ↔ p = q := by
  rw [le_antisymm_iff, bytePos_le_iff hp.2 hq.1, bytePos_le_iff hq.2 hp.1, ← le_antisymm_iff]

theorem one_le_bytePos : 1 ≤ bytePos cs p := by
  unfold bytePos; omega

theorem bytePos_le_end (p : ℤ) : bytePos cs p ≤ 1 + (itextBytes cs).length := by
  have hsub := List.take_prefix (p - 1).toNat cs
  obtain ⟨t, ht⟩ := hsub
  conv_rhs => rw [← ht]
  rw [bytePos, itextBytes_append, List.length_append]
  omega

theorem take_itextBytes (cs : List (Ichar rep)) (p : ℤ) :
    (itextBytes cs).take (bytePos cs p - 1).toNat = itextBytes (cs.take (p - 1).toNat) := by
  have hnat : (bytePos cs p - 1).toNat = (itextBytes (cs.take (p - 1).toNat)).length := by
    unfold bytePos; omega
  conv_lhs => rw [hnat, ← List.take_append_drop (p - 1).toNat cs, itextBytes_append]
  simp

theorem drop_itextBytes (cs : List (Ichar rep)) (p : ℤ) :
    (itextBytes cs).drop (bytePos cs p - 1).toNat = itextBytes (cs.drop (p - 1).toNat) := by
  have hnat : (bytePos cs p - 1).toNat = (itextBytes (cs.take (p - 1).toNat)).length := by
    unfold bytePos; omega
  conv_lhs => rw [hnat, ← List.take_append_drop (p - 1).toNat cs, itextBytes_append]
  simp

/-- The characters `xs` spliced in at position `p`. -/
def spliceIn (cs : List (Ichar rep)) (p : ℤ) (xs : List (Ichar rep)) : List (Ichar rep) :=
  cs.take (p - 1).toNat ++ xs ++ cs.drop (p - 1).toNat

/-- The characters from `p` up to `q` cut out. -/
def cutOut (cs : List (Ichar rep)) (p q : ℤ) : List (Ichar rep) :=
  cs.take (p - 1).toNat ++ cs.drop (q - 1).toNat

theorem length_spliceIn (xs : List (Ichar rep)) : (spliceIn cs p xs).length = cs.length + xs.length := by
  simp only [spliceIn, List.length_append, List.length_take, List.length_drop]; omega

theorem length_cutOut (hpq : p ≤ q) (h1 : 1 ≤ p) (hq : q ≤ 1 + cs.length) :
    ((cutOut cs p q).length : ℤ) = cs.length - (q - p) := by
  simp only [cutOut, List.length_append, List.length_take, List.length_drop]; omega

theorem itextBytes_spliceIn (xs : List (Ichar rep)) :
    itextBytes (spliceIn cs p xs) =
      (itextBytes cs).take (bytePos cs p - 1).toNat ++ itextBytes xs ++
        (itextBytes cs).drop (bytePos cs p - 1).toNat := by
  rw [spliceIn, itextBytes_append, itextBytes_append, take_itextBytes, drop_itextBytes]

theorem itextBytes_cutOut :
    itextBytes (cutOut cs p q) =
      (itextBytes cs).take (bytePos cs p - 1).toNat ++ (itextBytes cs).drop (bytePos cs q - 1).toNat := by
  rw [cutOut, itextBytes_append, take_itextBytes, drop_itextBytes]

theorem bytePos_spliceIn_of_le {xs : List (Ichar rep)} {m : ℤ} (hm : m ≤ p) (hp : p ≤ 1 + cs.length) :
    bytePos (spliceIn cs p xs) m = bytePos cs m := by
  have htake : (spliceIn cs p xs).take (m - 1).toNat = cs.take (m - 1).toNat := by
    rw [spliceIn, List.append_assoc, List.take_append_of_le_length (by simp; omega), List.take_take,
      min_eq_left (by omega)]
  rw [bytePos, bytePos, htake]

theorem bytePos_spliceIn_of_ge {xs : List (Ichar rep)} {m : ℤ} (h1 : 1 ≤ p) (hm : p ≤ m)
    (hp : p ≤ 1 + cs.length) :
    bytePos (spliceIn cs p xs) (m + xs.length) = bytePos cs m + (itextBytes xs).length := by
  have hlen : (cs.take (p - 1).toNat).length = (p - 1).toNat := by simp; omega
  have hcs := List.take_append_drop (p - 1).toNat cs
  have hleft : m + xs.length = (m - p + 1) + ((cs.take (p - 1).toNat ++ xs).length : ℤ) := by
    rw [List.length_append, hlen]; omega
  have hright : bytePos cs m =
      (itextBytes (cs.take (p - 1).toNat)).length + bytePos (cs.drop (p - 1).toNat) (m - p + 1) := by
    have := bytePos_append_right (cs.take (p - 1).toNat) (cs.drop (p - 1).toNat)
      (show (1 : ℤ) ≤ m - p + 1 by omega)
    rw [hlen, hcs] at this
    rw [← this]; congr 1; omega
  rw [spliceIn, hleft, bytePos_append_right _ _ (by omega), hright, itextBytes_append,
    List.length_append]
  omega

theorem bytePos_cutOut_of_le {m : ℤ} (hm : m ≤ p) (hp : p ≤ 1 + cs.length) :
    bytePos (cutOut cs p q) m = bytePos cs m := by
  have htake : (cutOut cs p q).take (m - 1).toNat = cs.take (m - 1).toNat := by
    rw [cutOut, List.take_append_of_le_length (by simp; omega), List.take_take, min_eq_left (by omega)]
  rw [bytePos, bytePos, htake]

theorem bytePos_cutOut_of_ge {m : ℤ} (h1 : 1 ≤ p) (hpq : p ≤ q) (hm : q ≤ m) (hq : q ≤ 1 + cs.length) :
    bytePos (cutOut cs p q) (m - (q - p)) = bytePos cs m - (bytePos cs q - bytePos cs p) := by
  have hlen : (cs.take (p - 1).toNat).length = (p - 1).toNat := by simp; omega
  have hlenq : (cs.take (q - 1).toNat).length = (q - 1).toNat := by simp; omega
  have hcs := List.take_append_drop (q - 1).toNat cs
  have hleft : m - (q - p) = (m - q + 1) + ((cs.take (p - 1).toNat).length : ℤ) := by
    rw [hlen]; omega
  have hright : bytePos cs m =
      (itextBytes (cs.take (q - 1).toNat)).length + bytePos (cs.drop (q - 1).toNat) (m - q + 1) := by
    have := bytePos_append_right (cs.take (q - 1).toNat) (cs.drop (q - 1).toNat)
      (show (1 : ℤ) ≤ m - q + 1 by omega)
    rw [hlenq, hcs] at this
    rw [← this]; congr 1; omega
  rw [cutOut, hleft, bytePos_append_right _ _ (by omega), hright]
  unfold bytePos
  omega

theorem length_itextBytes (cs : List (Ichar rep)) :
    (itextBytes cs).length = (cs.map fun c => c.bytes.length).sum := by
  simp [itextBytes, List.length_flatMap]

theorem bytePos_eq_sum (cs : List (Ichar rep)) (p : ℤ) :
    bytePos cs p = 1 + (((cs.map fun c => c.bytes.length).take (p - 1).toNat).sum : ℕ) := by
  rw [bytePos, length_itextBytes, List.map_take]

theorem drop_bytePos (hp : 1 ≤ p) (hz : p < 1 + cs.length) :
    ∃ c, cs[(p - 1).toNat]? = some c ∧ bytePos cs (p + 1) = bytePos cs p + c.bytes.length ∧
      (itextBytes cs).drop (bytePos cs p - 1).toNat = c.bytes ++ itextBytes (cs.drop p.toNat) := by
  have hlt : (p - 1).toNat < cs.length := by omega
  have hstep : (p + 1 - 1).toNat = (p - 1).toNat + 1 := by omega
  have hnat : p.toNat = (p - 1).toNat + 1 := by omega
  refine ⟨cs[(p - 1).toNat], List.getElem?_eq_getElem hlt, ?_, ?_⟩
  · rw [bytePos, bytePos, hstep, List.take_succ_eq_append_getElem hlt, itextBytes_append,
      List.length_append, itextBytes_cons, itextBytes_nil, List.append_nil]
    push_cast
    omega
  · rw [drop_itextBytes, List.drop_eq_getElem_cons hlt, itextBytes_cons, hnat]

theorem bytePos_set {i : ℕ} {c d : Ichar rep} (hc : cs[i]? = some c) (hlen : d.bytes.length = c.bytes.length)
    (m : ℤ) : bytePos (cs.set i d) m = bytePos cs m := by
  have hci := (List.getElem?_eq_some_iff.mp hc).2
  have hmap : (cs.set i d).map (fun c => c.bytes.length) = cs.map fun c => c.bytes.length := by
    apply List.ext_getElem (by simp)
    intro j h1 h2
    by_cases hj : i = j
    · subst hj; simp [hlen, hci]
    · simp [List.getElem_set_ne hj]
  rw [bytePos_eq_sum, bytePos_eq_sum, hmap]

theorem itextBytes_set {c d : Ichar rep} (hp : 1 ≤ p) (hc : cs[(p - 1).toNat]? = some c)
    (hlen : d.bytes.length = c.bytes.length) :
    itextBytes (cs.set (p - 1).toNat d) = (itextBytes cs).take (bytePos cs p - 1).toNat ++ d.bytes ++
      (itextBytes cs).drop (bytePos cs p - 1 + d.bytes.length).toNat := by
  have hlt := (List.getElem?_eq_some_iff.mp hc).1
  obtain ⟨c', hc', hnext, -⟩ := drop_bytePos hp (show p < 1 + cs.length by omega)
  obtain rfl : c = c' := Option.some.inj (hc.symm.trans hc')
  have hdrop : bytePos cs p - 1 + d.bytes.length = bytePos cs (p + 1) - 1 := by rw [hnext, hlen]; omega
  have hstep : (p + 1 - 1).toNat = (p - 1).toNat + 1 := by omega
  rw [hdrop, take_itextBytes, drop_itextBytes, hstep, List.set_eq_take_append_cons_drop, if_pos hlt]
  simp

end XEmacs.Text
