import XEmacs.Lisp.PlistWalk

/-! The entries of a valid property list. A loop over the list stops at the first entry whose
property is looked for; `plist-get` reads the value there and `plist-remprop` links the list past it. -/

namespace XEmacs.Plists

open Lib

variable {α : Type}

/-- The conses of a property and of its value. -/
abbrev Entry : Type := ℕ × ℕ

def cells (l : List Entry) : List ℕ := l.flatMap fun e => [e.1, e.2]

theorem cells_cons (e : Entry) (l : List Entry) : cells (e :: l) = e.1 :: e.2 :: cells l := rfl

namespace Heap

def pair (h : Heap α) (e : Entry) : Obj α × Obj α := (h.car e.1, h.car e.2)

def Entries (h : Heap α) (o : Obj α) (l : List Entry) (o' : Obj α) : Prop := Leads h.cdr o (cells l) o'

variable {h h' : Heap α} {o o' o'' : Obj α} {l l' : List Entry} {e : Entry}

theorem entries_cons_iff : h.Entries o (e :: l) o' ↔ o = .cons e.1 ∧ h.cdr e.1 = .cons e.2 ∧ h.Entries (h.cdr e.2) l o' :=
  Iff.rfl

theorem entries_append_iff : h.Entries o (l ++ l') o'' ↔ ∃ o', h.Entries o l o' ∧ h.Entries o' l' o'' := by
  rw [Entries, cells, List.flatMap_append]
  exact Leads.append_iff

theorem Entries.congr (hl : h.Entries o l o') (heq : ∀ x ∈ cells l, h'.cdr x = h.cdr x) : h'.Entries o l o' :=
  Leads.congr hl heq

theorem Entries.nodup (hl : h.Entries o l nil) : (cells l).Nodup := Leads.nodup hl

theorem length_cells (l : List Entry) : (cells l).length = 2 * l.length := by
  induction l with
  | nil => rfl
  | cons e l ih =>
    rw [cells_cons, List.length_cons, List.length_cons, ih, List.length_cons]
    omega

theorem cells_injective {l l' : List Entry} (h : cells l = cells l') : l = l' := by
  induction l generalizing l' with
  | nil =>
    cases l' with
    | nil => rfl
    | cons e l' => exact absurd h.symm (List.cons_ne_nil _ _)
  | cons e l ih =>
    cases l' with
    | nil => exact absurd h (List.cons_ne_nil _ _)
    | cons e' l' =>
      rw [cells_cons, cells_cons, List.cons.injEq, List.cons.injEq] at h
      rw [Prod.ext h.1 h.2.1, ih h.2.2]

theorem Entries.unique (hl : h.Entries o l nil) (hl' : h.Entries o l' nil) : l = l' := cells_injective (Leads.unique hl hl').1

theorem validPlist_iff : h.ValidPlist o ↔ ∃ l, h.Entries o l nil := by
  constructor
  · rintro ⟨ns, hl, heven⟩
    obtain ⟨k, hk⟩ := heven
    induction k generalizing o ns with
    | zero =>
      obtain rfl := List.length_eq_zero_iff.mp hk
      exact ⟨[], hl⟩
    | succ k ih =>
      match ns, hl with
      | [], hl => exact ⟨[], hl⟩
      | [x], hl => simp only [List.length_singleton] at hk; omega
      | x :: y :: ns, ⟨hx, hy, hl⟩ =>
        simp only [List.length_cons] at hk
        obtain ⟨l, hl⟩ := ih ns hl (by omega)
        exact ⟨(x, y) :: l, hx, hy, hl⟩
  · rintro ⟨l, hl⟩
    exact ⟨cells l, hl, ⟨l.length, by rw [length_cells]; omega⟩⟩

end Heap

namespace Memory

def findPlace (m : Memory α) (test : Obj α → Bool) : Place → List Entry → LoopEnd α
  | _, [] => .ended
  | p, e :: l => if test (m.heap.car e.1) then .found p else findPlace m test (.cdr e.2) l

variable {m : Memory α} {plist tortoise hare : Place} {l : List Entry} {test : Obj α → Bool} {fuel i : ℕ}

theorem findPlace_false (m : Memory α) (place : Place) (l : List Entry) : m.findPlace (fun _ => false) place l = .ended := by
  induction l generalizing place with
  | nil => rfl
  | cons e l ih =>
    rw [findPlace, if_neg Bool.false_ne_true]
    exact ih _

theorem findPlace_spec (test : Obj α → Bool) (hl : m.heap.Entries (m.read plist) l nil) :
    (m.findPlace test plist l = .ended ∧ l.find? (fun e => test (m.heap.car e.1)) = none) ∨
    ∃ place e, m.findPlace test plist l = .found place ∧ l.find? (fun e => test (m.heap.car e.1)) = some e ∧
      m.read place = .cons e.1 ∧ m.heap.cdr e.1 = .cons e.2 := by
  induction l generalizing plist with
  | nil => exact .inl ⟨rfl, rfl⟩
  | cons e l ih =>
    obtain ⟨hfirst, hsecond, hrest⟩ := hl
    rw [findPlace, List.find?_cons]
    cases htest : test (m.heap.car e.1) with
    | true => exact .inr ⟨plist, e, rfl, rfl, hfirst, hsecond⟩
    | false => exact @ih (.cdr e.2) hrest

variable [DecidableEq α]

theorem Ahead.plistLoop_eq (hgood : ¬ m.heap.Bad (m.read plist)) (errb : ErrorBehavior) (h : Ahead m plist (2 * i) tortoise hare)
    (hl : m.heap.Entries (m.read tortoise) l nil) (hfuel : l.length < fuel) :
    m.plistLoop plist test errb fuel tortoise hare = some (m.findPlace test tortoise l) := by
  induction l generalizing i tortoise hare fuel with
  | nil =>
    obtain ⟨fuel, rfl⟩ := Nat.exists_eq_add_of_lt hfuel
    have hnil : m.read tortoise = nil := hl
    rw [plistLoop, if_pos hnil, findPlace]
  | cons e l ih =>
    obtain ⟨fuel, rfl⟩ := Nat.exists_eq_add_one_of_ne_zero (Nat.ne_zero_of_lt hfuel)
    obtain ⟨hfirst, hsecond, hrest⟩ := hl
    have hne : m.read tortoise ≠ nil := hfirst ▸ (atom_ne_cons none e.1).symm
    rcases @advancePlistPointers_spec _ m plist tortoise hare errb _ _ h hne with ⟨x, y, hare', hadvance, hx, hy, h'⟩ | ⟨r, -, hbad, -⟩
    · obtain rfl := Ref.cons.inj (hfirst.symm.trans hx)
      obtain rfl := Ref.cons.inj (hsecond.symm.trans hy)
      rw [plistLoop, if_neg hne, hadvance, Option.bind_some, findPlace]
      simp only [hfirst, Heap.xcar, Option.bind_some]
      split_ifs
      · rfl
      · exact ih h' hrest (Nat.lt_of_succ_lt_succ hfuel)
    · exact absurd hbad hgood

theorem plistLoop_eq (errb : ErrorBehavior) (hl : m.heap.Entries (m.read plist) l nil) (hfuel : l.length < fuel) :
    m.plistLoop plist test errb fuel plist plist = some (m.findPlace test plist l) :=
  Ahead.plistLoop_eq (Heap.not_bad_of_valid (Heap.validPlist_iff.mpr ⟨l, hl⟩)) errb (i := 0) (ahead_start m plist) hl hfuel

end Memory

theorem Heap.checkValidPlist_eq [DecidableEq α] {h : Heap α} {plist : Obj α} {l : List Entry} {fuel : ℕ}
    (hl : h.Entries plist l nil) (hfuel : l.length < fuel) : h.checkValidPlist fuel plist = some (⟨h, plist⟩, .ok nil) := by
  rw [checkValidPlist, @Memory.plistLoop_eq _ ⟨h, plist⟩ .field l _ fuel _ .errorMe hl hfuel, Memory.findPlace_false]
  rfl

end XEmacs.Plists
