import XEmacs.Lisp.Hash
import Mathlib.Data.List.Basic

/-! Equal objects have equal hash codes. For `equalp` this fails where `internal_hash` has only one
or two levels left: there it hashes the elements of a vector as 0, but not the characters of a
string or the bits of a bit vector, which may be `equalp` to the vector. -/

namespace XEmacs.Lisp.LispObject

open Text

variable {rep : UInt8 → ℕ} {C : Charset rep} {D : Doubles} {α β : Type*}
  {equal : LispObject rep → LispObject rep → Option Bool} {hash hash₁ hash₂ : LispObject rep → UInt64}
  {a b car car' cdr cdr' : LispObject rep} {p p' : UInt64} {foldcase : Bool} {levels stack : ℕ}

theorem allEqual_cons {equal : α → α → Option Bool} {x y : α} {xs ys : List α}
    (h : allEqual equal (x :: xs) (y :: ys) = some true) :
    equal x y = some true ∧ allEqual equal xs ys = some true := by
  rw [allEqual] at h
  obtain ⟨same, hsame, h⟩ := Option.bind_eq_some_iff.mp h
  cases same with
  | true => exact ⟨hsame, h⟩
  | false => simp at h

theorem allEqual_getElem? {equal : α → α → Option Bool} {xs ys : List α} (h : allEqual equal xs ys = some true)
    {i : ℕ} {x y : α} (hx : xs[i]? = some x) (hy : ys[i]? = some y) : equal x y = some true := by
  induction xs generalizing ys i with
  | nil => simp at hx
  | cons x' xs ih =>
    cases ys with
    | nil => simp at hy
    | cons y' ys =>
      obtain ⟨hhead, htail⟩ := allEqual_cons h
      cases i with
      | zero =>
        obtain rfl := Option.some.inj hx
        obtain rfl := Option.some.inj hy
        exact hhead
      | succ i => exact ih htail hx hy

def consp : LispObject rep → Bool
  | cons .. => true
  | _ => false

theorem exists_of_consp (h : consp a = true) : ∃ p car cdr, a = cons p car cdr := by
  cases a with
  | cons p car cdr => exact ⟨p, car, cdr, rfl⟩
  | _ => simp [consp] at h

theorem consEqual_cons (h : consEqual equal (cons p car cdr) (cons p' car' cdr') = some true) :
    equal car car' = some true ∧
      ((consp cdr = true ∧ consp cdr' = true ∧ consEqual equal cdr cdr' = some true) ∨
        (¬ (consp cdr = true ∧ consp cdr' = true) ∧ equal cdr cdr' = some true)) := by
  unfold consEqual at h
  obtain ⟨same, hsame, h⟩ := Option.bind_eq_some_iff.mp h
  cases same with
  | false => simp at h
  | true =>
    refine ⟨hsame, ?_⟩
    simp only [if_true] at h
    split at h
    · exact .inl ⟨rfl, rfl, h⟩
    next hnot =>
      refine .inr ⟨fun hboth => ?_, h⟩
      obtain ⟨q, x, d, rfl⟩ := exists_of_consp hboth.1
      obtain ⟨q', x', d', rfl⟩ := exists_of_consp hboth.2
      exact hnot q x d q' x' d' rfl rfl

theorem consEqual_consp (h : consEqual equal a b = some true) : consp a = true ∧ consp b = true := by
  cases a <;> cases b <;> first | exact ⟨rfl, rfl⟩ | simp [consEqual] at h

/-- The pairs of elements of two lists that the loop of `internal_hash` hashes. -/
def restPairs : ℕ → LispObject rep → LispObject rep → List (LispObject rep × LispObject rep)
  | fuel + 1, cons _ car cdr, cons _ car' cdr' => (car, car') :: restPairs fuel cdr cdr'
  | _, _, _ => []

/-- The pairs of components of two conses that are hashed, one level down. -/
def consPairs : LispObject rep → LispObject rep → List (LispObject rep × LispObject rep)
  | cons _ car cdr, cons _ car' cdr' =>
    (car, car') ::
      match cdr, cdr' with
      | cons p a d, cons p' a' d' => restPairs 5 (cons p a d) (cons p' a' d')
      | cdr, cdr' => [(cdr, cdr')]
  | _, _ => []

/-- The pairs of elements of two vectors that are hashed, two levels down. -/
def vectorPairs : LispObject rep → LispObject rep → List (LispObject rep × LispObject rep)
  | vector _ v, vector _ v' =>
    (scattered v.length).filterMap fun i => v[i]?.bind fun x => v'[i]?.map fun y => (x, y)
  | _, _ => []

theorem internalArrayHash_congr {hash : α → UInt64} {hash' : β → UInt64} {xs : List α} {ys : List β}
    (hlen : xs.length = ys.length)
    (h : ∀ i ∈ scattered xs.length, xs[i]?.elim 0 hash = ys[i]?.elim 0 hash') :
    internalArrayHash hash xs = internalArrayHash hash' ys := by
  rw [internalArrayHash, internalArrayHash, ← hlen]
  exact List.foldl_ext _ _ _ fun acc i hi => by rw [h i hi]

theorem hashRest_of_not_consp (ha : consp a = false) (fuel : ℕ) (s h : UInt64) : hashRest hash fuel s h a = h := by
  cases fuel with
  | zero => rfl
  | succ fuel => cases a <;> first | rfl | simp [consp] at ha

theorem hashRest_congr (hconsp : ∀ x y, equal x y = some true → consp x = consp y) (fuel : ℕ) (s h : UInt64)
    (he : consEqual equal a b = some true) (hp : ∀ pr ∈ restPairs fuel a b, hash pr.1 = hash pr.2) :
    hashRest hash fuel s h a = hashRest hash fuel s h b := by
  induction fuel generalizing a b s h with
  | zero => rfl
  | succ fuel ih =>
    obtain ⟨ha, hb⟩ := consEqual_consp he
    obtain ⟨q, x, d, rfl⟩ := exists_of_consp ha
    obtain ⟨q', x', d', rfl⟩ := exists_of_consp hb
    obtain ⟨-, hrest⟩ := consEqual_cons he
    rw [restPairs] at hp
    rw [hashRest, hashRest, hp (x, x') List.mem_cons_self]
    rcases hrest with ⟨-, -, hrest⟩ | ⟨hnot, hrest⟩
    · exact ih _ _ hrest fun pr hpr => hp pr (List.mem_cons_of_mem _ hpr)
    · have hsame := hconsp d d' hrest
      have hd : consp d = false := by
        rw [Bool.eq_false_iff]
        exact fun hd => hnot ⟨hd, hsame ▸ hd⟩
      rw [hashRest_of_not_consp hd, hashRest_of_not_consp (hsame ▸ hd)]

theorem map_canoncase_of_qxetextcasecmp {s s' : List (Ichar rep)} (h : qxetextcasecmp C s s' = 0) :
    s.map (fun c => C.canoncase (C.itextIchar c)) = s'.map fun c => C.canoncase (C.itextIchar c) := by
  induction s generalizing s' with
  | nil =>
    cases s' with
    | nil => rfl
    | cons c' s' =>
      have hpos := c'.length_bytes_pos
      simp only [qxetextcasecmp, itextBytes_nil, itextBytes_cons, List.length_nil, List.length_append] at h
      omega
  | cons c s ih =>
    cases s' with
    | nil =>
      have hpos := c.length_bytes_pos
      simp only [qxetextcasecmp, itextBytes_nil, itextBytes_cons, List.length_nil, List.length_append] at h
      omega
    | cons c' s' =>
      rw [qxetextcasecmp] at h
      by_cases hdiff : (C.canoncase (C.itextIchar c) : ℤ) - C.canoncase (C.itextIchar c') = 0
      · simp only [hdiff, ne_eq, not_true_eq_false, if_false] at h
        rw [List.map_cons, List.map_cons, ih h, show C.canoncase (C.itextIchar c) = C.canoncase (C.itextIchar c') by omega]
      · simp only [ne_eq, hdiff, not_false_eq_true, if_true] at h

theorem foldl_range_getElem? (f : β → Option α → β) (init : β) (xs : List α) :
    (List.range xs.length).foldl (fun acc i => f acc xs[i]?) init = xs.foldl (fun acc x => f acc (some x)) init := by
  have hmap : (List.range xs.length).map (fun i => xs[i]?) = xs.map some := by
    apply List.ext_getElem
    · simp
    · intro i h₁ h₂
      simp at h₁ h₂ ⊢
  rw [← List.foldl_map (f := fun i => xs[i]?) (g := f), hmap, List.foldl_map]

theorem itextBytes_ascii (C : Charset rep) {data : List (Ichar rep)} (h : data.length = (itextBytes data).length) :
    (itextBytes data).map UInt8.toNat = data.map C.itextIchar := by
  induction data with
  | nil => rfl
  | cons c data ih =>
    have hle := length_le_length_itextBytes data
    have hpos := c.length_bytes_pos
    rw [itextBytes_cons, List.length_append, List.length_cons] at h
    have hrest : c.rest = [] := List.length_eq_zero_iff.mp (by rw [Ichar.bytes, List.length_cons] at h; omega)
    have hascii : c.first < 0x80 := C.ascii c.first (by rw [← c.size, hrest]; rfl)
    have hcode : C.itextIchar c = c.first.toNat := if_pos hascii
    rw [itextBytes_cons, List.map_append, ih (by omega), Ichar.bytes, hrest, List.map_cons, List.map_cons, hcode]
    rfl

theorem itextEqualpHash_eq (data : List (Ichar rep)) : itextEqualpHash C data =
    hash2 (UInt64.ofNat data.length) (internalArrayHash (fun c => charHash C (C.itextIchar c)) data) := by
  rw [itextEqualpHash, bytecountToCharcount_itextBytes]
  congr 1
  rw [internalArrayHash, scattered]
  split_ifs with hshort hascii
  · exact (foldl_range_getElem? (fun h c => hash2 h (c.elim 0 fun c => charHash C (C.itextIchar c))) 0 data).symm
  · rw [List.foldl_map]
    refine List.foldl_ext _ _ _ fun acc i _ => ?_
    have hget := congrArg (fun l => (l[i * data.length / 5]?).elim 0 (charHash C)) (itextBytes_ascii C hascii)
    simp only [List.getElem?_map, Option.elim_map] at hget
    exact congrArg (hash2 acc) hget
  · rw [List.foldl_map]

theorem hashNode_congr (hconsp : ∀ x y, equal x y = some true → consp x = consp y)
    (he : equalMethod C foldcase equal a b = some true)
    (hcons : ∀ pr ∈ consPairs a b, hash₁ pr.1 = hash₁ pr.2)
    (hvector : ∀ pr ∈ vectorPairs a b, hash₂ pr.1 = hash₂ pr.2) :
    hashNode C D foldcase hash₁ hash₂ a = hashNode C D foldcase hash₁ hash₂ b := by
  cases a <;> cases b <;> simp only [equalMethod, Option.some.injEq, Bool.false_eq_true] at he
  case string.string p s p' s' =>
    rw [hashNode, hashNode]
    split_ifs at he ⊢ with hfold
    · have hmap := map_canoncase_of_qxetextcasecmp (of_decide_eq_true (Option.some.inj he))
      have hlen := congrArg List.length hmap
      rw [List.length_map, List.length_map] at hlen
      rw [itextEqualpHash_eq, itextEqualpHash_eq, hlen]
      congr 1
      refine internalArrayHash_congr hlen fun i _ => ?_
      have hi := congrArg (fun l => l[i]?.elim 0 fun c => lispHash (char c : LispObject rep)) hmap
      simp only [List.getElem?_map, Option.elim_map] at hi
      exact hi
    · rw [of_decide_eq_true (Option.some.inj he)]
  case cons.cons p x d p' x' d' =>
    obtain ⟨-, hrest⟩ := consEqual_cons he
    have hx : hash₁ x = hash₁ x' := hcons (x, x') (by unfold consPairs; exact List.mem_cons_self)
    rcases hrest with ⟨hd, hd', hrest⟩ | ⟨hnot, hrest⟩
    · obtain ⟨q, y, t, rfl⟩ := exists_of_consp hd
      obtain ⟨q', y', t', rfl⟩ := exists_of_consp hd'
      rw [hashNode, hashNode, hx]
      exact hashRest_congr hconsp 5 1 _ hrest fun pr hpr => hcons pr (by
        rw [consPairs]
        exact List.mem_cons_of_mem _ hpr)
    · have hsame := hconsp d d' hrest
      have hd : consp d = false := by
        rw [Bool.eq_false_iff]
        exact fun hd => hnot ⟨hd, hsame ▸ hd⟩
      have hpair : (d, d') ∈ consPairs (cons p x d) (cons p' x' d') := by
        cases d <;> first | (simp [consp] at hd; done) | simp [consPairs]
      have hdd := hcons (d, d') hpair
      have hnode : ∀ {q : UInt64} {y t : LispObject rep}, consp t = false →
          hashNode C D foldcase hash₁ hash₂ (cons q y t) = hash2 (hash₁ y) (hash₁ t) := by
        intro q y t ht
        cases t <;> first | (simp [consp] at ht; done) | rfl
      rw [hnode hd, hnode (hsame ▸ hd), hx, hdd]
  case vector.vector p v p' v' =>
    have hlen : v.length = v'.length := by
      by_contra hlen
      simp [if_neg hlen] at he
    rw [hashNode, hashNode, hlen]
    congr 1
    refine internalArrayHash_congr hlen fun i hi => ?_
    cases hv : v[i]? with
    | none => rw [List.getElem?_eq_none (hlen ▸ List.getElem?_eq_none_iff.mp hv)]
    | some x =>
      have hlt := (List.getElem?_eq_some_iff.mp hv).1
      obtain ⟨y, hy⟩ : ∃ y, v'[i]? = some y := ⟨_, List.getElem?_eq_getElem (hlen ▸ hlt)⟩
      rw [hy]
      refine hvector (x, y) ?_
      rw [vectorPairs, List.mem_filterMap]
      exact ⟨i, hi, by rw [hv, hy]; rfl⟩
  case bitVector.bitVector p v p' v' =>
    rw [hashNode, hashNode, of_decide_eq_true he]

theorem restPairs_equal (fuel : ℕ) (he : consEqual equal a b = some true) :
    ∀ pr ∈ restPairs fuel a b, equal pr.1 pr.2 = some true := by
  induction fuel generalizing a b with
  | zero => simp [restPairs]
  | succ fuel ih =>
    obtain ⟨ha, hb⟩ := consEqual_consp he
    obtain ⟨q, x, d, rfl⟩ := exists_of_consp ha
    obtain ⟨q', x', d', rfl⟩ := exists_of_consp hb
    obtain ⟨hx, hrest⟩ := consEqual_cons he
    intro pr hpr
    rw [restPairs] at hpr
    rcases List.mem_cons.mp hpr with rfl | hpr
    · exact hx
    · rcases hrest with ⟨-, -, hrest⟩ | ⟨hnot, -⟩
      · exact ih hrest pr hpr
      · cases fuel with
        | zero => simp [restPairs] at hpr
        | succ fuel =>
          cases d <;> cases d' <;> first | simp [restPairs] at hpr; done | exact absurd ⟨rfl, rfl⟩ hnot

theorem equalMethod_pairs (he : equalMethod C foldcase equal a b = some true) :
    (∀ pr ∈ consPairs a b, equal pr.1 pr.2 = some true) ∧ ∀ pr ∈ vectorPairs a b, equal pr.1 pr.2 = some true := by
  constructor
  · intro pr hpr
    cases a <;> cases b <;> first | simp [consPairs] at hpr; done | skip
    case cons.cons p x d p' x' d' =>
      rw [equalMethod] at he
      obtain ⟨hx, hrest⟩ := consEqual_cons he
      unfold consPairs at hpr
      rcases List.mem_cons.mp hpr with rfl | hpr
      · exact hx
      · rcases hrest with ⟨hd, hd', hrest⟩ | ⟨hnot, hrest⟩
        · obtain ⟨q, y, t, rfl⟩ := exists_of_consp hd
          obtain ⟨q', y', t', rfl⟩ := exists_of_consp hd'
          exact restPairs_equal 5 hrest pr hpr
        · split at hpr
          · exact absurd ⟨rfl, rfl⟩ hnot
          · obtain rfl := List.mem_singleton.mp hpr
            exact hrest
  · intro pr hpr
    cases a <;> cases b <;> first | simp [vectorPairs] at hpr; done | skip
    case vector.vector p v p' v' =>
      rw [equalMethod] at he
      split_ifs at he
      · rw [vectorPairs, List.mem_filterMap] at hpr
        obtain ⟨i, -, hi⟩ := hpr
        obtain ⟨x, hx, hi⟩ := Option.bind_eq_some_iff.mp hi
        obtain ⟨y, hy, rfl⟩ := Option.map_eq_some_iff.mp hi
        exact allEqual_getElem? he hx hy
      · simp at he

theorem consp_of_equalMethod (he : equalMethod C foldcase equal a b = some true) : consp a = consp b := by
  cases a <;> cases b <;> first | rfl | simp [equalMethod] at he

theorem consp_of_internalEqual (h : internalEqual C stack a b = some true) : consp a = consp b := by
  cases stack with
  | zero => simp [internalEqual] at h
  | succ stack =>
    rw [internalEqual] at h
    split_ifs at h with heq
    · rw [heq]
    · exact consp_of_equalMethod h

theorem hashNode_of_internalEqual
    (h₁ : ∀ stack x y, internalEqual C stack x y = some true → hash₁ x = hash₁ y)
    (h₂ : ∀ stack x y, internalEqual C stack x y = some true → hash₂ x = hash₂ y)
    (h : internalEqual C stack a b = some true) :
    hashNode C D false hash₁ hash₂ a = hashNode C D false hash₁ hash₂ b := by
  cases stack with
  | zero => simp [internalEqual] at h
  | succ stack =>
    rw [internalEqual] at h
    split_ifs at h with heq
    · rw [heq]
    · obtain ⟨hcons, hvector⟩ := equalMethod_pairs h
      exact hashNode_congr (fun x y hxy => consp_of_internalEqual hxy) h
        (fun pr hpr => h₁ stack _ _ (hcons pr hpr)) fun pr hpr => h₂ stack _ _ (hvector pr hpr)

theorem internalHash_of_internalEqual (levels : ℕ) (h : internalEqual C stack a b = some true) :
    internalHash C D false levels a = internalHash C D false levels b := by
  induction levels using Nat.twoStepInduction generalizing stack a b with
  | zero => rfl
  | one => exact hashNode_of_internalEqual (fun _ _ _ _ => rfl) (fun _ _ _ _ => rfl) h
  | more levels ih₀ ih₁ =>
    exact hashNode_of_internalEqual (fun _ _ _ hxy => ih₁ hxy) (fun _ _ _ hxy => ih₀ hxy) h

/-- Fixnums and characters: what the elements of strings and bit vectors are. -/
def immediate : LispObject rep → Bool
  | fixnum _ => true
  | char _ => true
  | _ => false

/-- What a fixnum or a character hashes to by `equalp`. -/
def immediateHash (C : Charset rep) (D : Doubles) : LispObject rep → UInt64 :=
  hashNode C D true (fun _ => 0) fun _ => 0

theorem hashNode_immediate (h : immediate a = true) :
    hashNode C D true hash₁ hash₂ a = immediateHash C D a := by
  cases a <;> first | rfl | simp [immediate] at h

theorem internalEqualp_cases (h : internalEqualp C (stack + 1) a b = some true) :
    a = b ∨ (∃ c c', a = char c ∧ b = char c' ∧ C.canoncase c = C.canoncase c') ∨
      (arrayType a ≠ arrayType b ∧ arrayType a ≠ .none ∧ arrayType b ≠ .none ∧
        (elements C a).length = (elements C b).length ∧
        allEqual (internalEqualp C stack) (elements C a) (elements C b) = some true) ∨
      equalMethod C true (internalEqualp C stack) a b = some true := by
  unfold internalEqualp at h
  split at h
  next heq => exact .inl heq
  · split at h
    · exact .inl (by rw [of_decide_eq_true (Option.some.inj h)])
    · exact .inr (.inl ⟨_, _, rfl, rfl, of_decide_eq_true (Option.some.inj h)⟩)
    · split at h
      next harrays =>
        split at h
        next hlen => exact .inr (.inr (.inl ⟨harrays.1, harrays.2.1, harrays.2.2, hlen, h⟩))
        · simp at h
      · exact .inr (.inr (.inr h))

theorem consp_of_internalEqualp (h : internalEqualp C stack a b = some true) : consp a = consp b := by
  cases stack with
  | zero => simp [internalEqualp] at h
  | succ stack =>
    rcases internalEqualp_cases h with rfl | ⟨c, c', rfl, rfl, -⟩ | ⟨-, ha, hb, -⟩ | he
    · rfl
    · rfl
    · cases a <;> cases b <;> first | rfl | exact absurd rfl ha | exact absurd rfl hb
    · exact consp_of_equalMethod he

theorem immediateHash_of_internalEqualp (h : internalEqualp C stack a b = some true)
    (himm : immediate a = true ∨ immediate b = true) :
    immediate a = true ∧ immediate b = true ∧ immediateHash C D a = immediateHash C D b := by
  cases stack with
  | zero => simp [internalEqualp] at h
  | succ stack =>
    rcases internalEqualp_cases h with rfl | ⟨c, c', rfl, rfl, hcanon⟩ | ⟨-, ha, hb, -⟩ | he
    · rw [or_self] at himm
      exact ⟨himm, himm, rfl⟩
    · refine ⟨rfl, rfl, ?_⟩
      simp only [immediateHash, hashNode, charHash, if_true, hcanon]
    · cases a <;> cases b <;> first | exact absurd rfl ha | exact absurd rfl hb | simp [immediate] at himm
    · cases a <;> cases b <;> first | simp [equalMethod] at he; done | simp [immediate] at himm

/-- A string or bit vector with nothing but zeros where its hash looks. -/
def blank : LispObject rep → Bool
  | string _ s => s.isEmpty
  | bitVector _ v => (scattered v.length).all fun i => !v.getD i false
  | _ => true

/-- Not a vector and a string or bit vector with something else than zeros. -/
def unmixed (a b : LispObject rep) : Bool :=
  match arrayType a, arrayType b with
  | .vector, .string => blank b
  | .vector, .bitVector => blank b
  | .string, .vector => blank a
  | .bitVector, .vector => blank a
  | _, _ => true

def elementHash (C : Charset rep) (D : Doubles) (hash₂ : LispObject rep → UInt64) (a : LispObject rep) :
    LispObject rep → UInt64 :=
  if arrayType a = .vector then hash₂ else immediateHash C D

theorem internalArrayHash_map (hash : β → UInt64) (f : α → β) (xs : List α) :
    internalArrayHash hash (xs.map f) = internalArrayHash (hash ∘ f) xs := by
  apply internalArrayHash_congr (by simp)
  intro i _
  rw [List.getElem?_map, Option.elim_map]

theorem hashNode_array (ha : arrayType a ≠ .none) : hashNode C D true hash₁ hash₂ a =
    hash2 (UInt64.ofNat (elements C a).length)
      (internalArrayHash (elementHash C D hash₂ a) (elements C a)) := by
  cases a with
  | string p s =>
    rw [hashNode, if_pos rfl, itextEqualpHash_eq, elements, List.length_map, internalArrayHash_map]
    rfl
  | vector p v => rfl
  | bitVector p v =>
    rw [hashNode, if_pos rfl, bitVectorEqualpHash, elements, List.length_map, internalArrayHash_map]
    rfl
  | _ => exact absurd rfl ha

theorem immediate_elements (ha : arrayType a ≠ .vector) {x : LispObject rep} (hx : x ∈ elements C a) :
    immediate x = true := by
  cases a with
  | string p s =>
    obtain ⟨c, -, rfl⟩ := List.mem_map.mp hx
    rfl
  | bitVector p v =>
    obtain ⟨bit, -, rfl⟩ := List.mem_map.mp hx
    rfl
  | vector p v => exact absurd rfl ha
  | _ => simp [elements] at hx

theorem immediateHash_blank (ha : arrayType a ≠ .vector) (hblank : blank a = true) {i : ℕ} {x : LispObject rep}
    (hi : i ∈ scattered (elements C a).length) (hx : (elements C a)[i]? = some x) : immediateHash C D x = 0 := by
  cases a with
  | string p s =>
    rw [blank, List.isEmpty_iff] at hblank
    simp [elements, hblank] at hx
  | bitVector p v =>
    rw [elements, List.length_map] at hi
    have hbit := List.all_eq_true.mp hblank i hi
    rw [elements, List.getElem?_map] at hx
    obtain ⟨bit, hv, rfl⟩ := Option.map_eq_some_iff.mp hx
    rw [List.getD_eq_getElem?_getD, hv] at hbit
    have hbit : bit = false := by simpa using hbit
    rw [hbit, immediateHash, hashNode, if_pos rfl, if_neg (by decide), floatHashcode, D.exact 0 (by decide)]
    rfl
  | vector p v => exact absurd rfl ha
  | _ => simp [elements] at hx

theorem unmixed_comm (a b : LispObject rep) : unmixed a b = unmixed b a := by
  cases a <;> cases b <;> rfl

theorem blank_of_unmixed (ha : arrayType a = .vector) (h : unmixed a b = true) : blank b = true := by
  cases a <;> first | simp [arrayType] at ha; done | skip
  case vector p v => cases b <;> first | rfl | exact h

theorem elementHash_vector_congr {x y : LispObject rep} (ha : arrayType a = .vector) (hb : arrayType b ≠ .vector)
    (hxy : immediateHash C D x = immediateHash C D y) (himm : immediate x = true) {i : ℕ}
    (hi : i ∈ scattered (elements C b).length) (hy : (elements C b)[i]? = some y)
    (helements : (∀ x, immediate x = true → hash₂ x = immediateHash C D x) ∨
      ((∀ x, hash₂ x = 0) ∧ unmixed a b = true)) :
    elementHash C D hash₂ a x = elementHash C D hash₂ b y := by
  rw [elementHash, elementHash, if_pos ha, if_neg hb]
  rcases helements with hsame | ⟨hzero, hunmixed⟩
  · rw [hsame x himm, hxy]
  · rw [hzero, immediateHash_blank hb (blank_of_unmixed ha hunmixed) hi hy]

theorem elementHash_congr {x y : LispObject rep} (hne : arrayType a ≠ arrayType b)
    (hlen : (elements C a).length = (elements C b).length) {i : ℕ} (hi : i ∈ scattered (elements C a).length)
    (hx : (elements C a)[i]? = some x) (hy : (elements C b)[i]? = some y)
    (hxy : internalEqualp C stack x y = some true)
    (helements : (∀ x, immediate x = true → hash₂ x = immediateHash C D x) ∨
      ((∀ x, hash₂ x = 0) ∧ unmixed a b = true)) :
    elementHash C D hash₂ a x = elementHash C D hash₂ b y := by
  have himm : immediate x = true ∨ immediate y = true := by
    by_cases ha : arrayType a = .vector
    · exact .inr (immediate_elements (fun hb => hne (ha.trans hb.symm)) (List.mem_of_getElem? hy))
    · exact .inl (immediate_elements ha (List.mem_of_getElem? hx))
  obtain ⟨hxi, hyi, hsame⟩ := immediateHash_of_internalEqualp (D := D) hxy himm
  by_cases ha : arrayType a = .vector
  · exact elementHash_vector_congr ha (fun hb => hne (ha.trans hb.symm)) hsame hxi (hlen ▸ hi) hy helements
  · by_cases hb : arrayType b = .vector
    · rw [unmixed_comm] at helements
      exact (elementHash_vector_congr hb ha hsame.symm hyi hi hx helements).symm
    · rw [elementHash, elementHash, if_neg ha, if_neg hb, hsame]

theorem hashNode_of_internalEqualp (h : internalEqualp C (stack + 1) a b = some true)
    (h₁ : ∀ pr ∈ consPairs a b, internalEqualp C stack pr.1 pr.2 = some true → hash₁ pr.1 = hash₁ pr.2)
    (h₂ : ∀ pr ∈ vectorPairs a b, internalEqualp C stack pr.1 pr.2 = some true → hash₂ pr.1 = hash₂ pr.2)
    (helements : (∀ x, immediate x = true → hash₂ x = immediateHash C D x) ∨
      ((∀ x, hash₂ x = 0) ∧ unmixed a b = true)) :
    hashNode C D true hash₁ hash₂ a = hashNode C D true hash₁ hash₂ b := by
  rcases internalEqualp_cases h with rfl | ⟨c, c', rfl, rfl, hcanon⟩ | ⟨hne, ha, hb, hlen, hall⟩ | he
  · rfl
  · simp only [hashNode, if_true, charHash, hcanon]
  · rw [hashNode_array ha, hashNode_array hb, hlen]
    congr 1
    refine internalArrayHash_congr hlen fun i hi => ?_
    cases hx : (elements C a)[i]? with
    | none =>
      rw [List.getElem?_eq_none (hlen ▸ List.getElem?_eq_none_iff.mp hx)]
      rfl
    | some x =>
      have hlt := (List.getElem?_eq_some_iff.mp hx).1
      obtain ⟨y, hy⟩ : ∃ y, (elements C b)[i]? = some y := ⟨_, List.getElem?_eq_getElem (hlen ▸ hlt)⟩
      have hxy := allEqual_getElem? hall hx hy
      rw [hy]
      exact elementHash_congr hne hlen (hlen ▸ hi) hx hy hxy helements
  · obtain ⟨hcons, hvector⟩ := equalMethod_pairs he
    exact hashNode_congr (fun x y hxy => consp_of_internalEqualp hxy) he
      (fun pr hpr => h₁ pr hpr (hcons pr hpr)) fun pr hpr => h₂ pr hpr (hvector pr hpr)

/-- No two components at one place, where one or two levels are left, are a vector and a string or
bit vector whose own hash sees something else than zeros. -/
def unmixedBelow : ℕ → LispObject rep → LispObject rep → Bool
  | 0, _, _ => true
  | 1, a, b => unmixed a b
  | levels + 2, a, b =>
    (levels ≠ 0 || unmixed a b) && (consPairs a b).all (fun pr => unmixedBelow (levels + 1) pr.1 pr.2) &&
      (vectorPairs a b).all fun pr => unmixedBelow levels pr.1 pr.2

theorem internalHash_immediate (levels : ℕ) (h : immediate a = true) :
    internalHash C D true (levels + 1) a = immediateHash C D a := by
  cases levels with
  | zero => exact hashNode_immediate h
  | succ levels => exact hashNode_immediate h

theorem internalHash_of_internalEqualp (levels : ℕ) (h : internalEqualp C stack a b = some true)
    (hunmixed : unmixedBelow levels a b = true) :
    internalHash C D true levels a = internalHash C D true levels b := by
  induction levels using Nat.twoStepInduction generalizing stack a b with
  | zero => rfl
  | one =>
    cases stack with
    | zero => simp [internalEqualp] at h
    | succ stack =>
      exact hashNode_of_internalEqualp h (fun _ _ _ => rfl) (fun _ _ _ => rfl) (.inr ⟨fun _ => rfl, hunmixed⟩)
  | more levels ih₀ ih₁ =>
    cases stack with
    | zero => simp [internalEqualp] at h
    | succ stack =>
      simp only [unmixedBelow, Bool.and_eq_true, List.all_eq_true] at hunmixed
      obtain ⟨⟨hhere, hcons⟩, hvector⟩ := hunmixed
      refine hashNode_of_internalEqualp h (fun pr hpr hxy => ih₁ hxy (hcons pr hpr))
        (fun pr hpr hxy => ih₀ hxy (hvector pr hpr)) ?_
      cases levels with
      | zero => exact .inr ⟨fun _ => rfl, by simpa using hhere⟩
      | succ levels => exact .inl fun x hx => internalHash_immediate levels hx

/-- Equal objects have equal hash codes, and so do objects that are `equalp` unless an array is
compared with one of another type right above the depth limit. -/
theorem internalHash_eq (C : Charset rep) (D : Doubles) (stack levels : ℕ) (a b : LispObject rep) :
    (internalEqual C stack a b = some true → internalHash C D false levels a = internalHash C D false levels b) ∧
      (internalEqualp C stack a b = some true → unmixedBelow levels a b = true →
        internalHash C D true levels a = internalHash C D true levels b) :=
  ⟨internalHash_of_internalEqual levels, internalHash_of_internalEqualp levels⟩

def latinCharset : Charset repBytesByFirstByte where
  nonAsciiItextIchar c := c.bytes.foldl (fun n b => 0x80 * n + b.toNat % 0x80) 0
  canoncase c := if 0x41 ≤ c ∧ c ≤ 0x5a then c + 0x20 else c
  ascii b hb := by
    by_contra hascii
    rw [repBytesByFirstByte, if_neg hascii] at hb
    split_ifs at hb <;> omega

/-- Small integers, the only ones below, are converted exactly. -/
def exactDoubles : Doubles := ⟨id, fun _ _ => rfl⟩

def letter (b : UInt8) (h : 1 = repBytesByFirstByte b) : Ichar repBytesByFirstByte := ⟨b, [], h⟩

theorem internalHash_eq_arrays :
    let a := cons 8 (vector 16 [string 24 [letter 0x61 rfl, letter 0x62 rfl], fixnum 3])
      (vector 32 [char 0x61, char 0x62])
    let b := cons 40 (vector 48 [vector 56 [char 0x41, char 0x42], fixnum 3])
      (string 64 [letter 0x41 rfl, letter 0x42 rfl])
    let c := cons 72 (vector 80 [string 88 [letter 0x61 rfl, letter 0x62 rfl], fixnum 3])
      (vector 96 [char 0x61, char 0x62])
    equalHash latinCharset exactDoubles a = equalHash latinCharset exactDoubles c ∧
      equalpHash latinCharset exactDoubles a = equalpHash latinCharset exactDoubles b :=
  ⟨(internalHash_eq latinCharset exactDoubles 200 6 _ _).1 (by decide),
    (internalHash_eq latinCharset exactDoubles 200 6 _ _).2 (by decide) (by decide)⟩

/-- `[["a"]]` in a vector, which at the limit is a string, and `[[[?a]]]`, a vector there. -/
theorem equalpHash_ne :
    let a := vector 8 [vector 16 [string 24 [letter 0x61 rfl]]]
    let b := vector 32 [vector 40 [vector 48 [char 0x61]]]
    internalEqualp latinCharset 200 a b = some true ∧
      equalpHash latinCharset exactDoubles a ≠ equalpHash latinCharset exactDoubles b := by
  decide

end XEmacs.Lisp.LispObject
