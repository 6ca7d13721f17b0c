import Mathlib.Data.Finset.Card
import Mathlib.Data.Finset.Range
import Mathlib.Logic.Function.Basic

/-! Dotted lists in a heap: the cdr of a cons is another cons or an atom. Following the cdrs from
an object through some conses leads to an object; a dotted list leads to an atom. How the conses
that are passed change when one of them gets another cdr is stated for any new cdrs that agree with
the old ones elsewhere. -/

namespace XEmacs.Lib

/-- An atom or a cons. -/
inductive Ref (α : Type*)
  | atom (a : α)
  | cons (x : ℕ)
  deriving DecidableEq

variable {α : Type*} {cdr cdr' : ℕ → Ref α} {r r' r'' : Ref α} {ns ms : List ℕ} {x : ℕ} {a : α}

theorem atom_ne_cons (a : α) (x : ℕ) : (Ref.atom a) ≠ .cons x := fun h => by cases h

def Leads (cdr : ℕ → Ref α) : Ref α → List ℕ → Ref α → Prop
  | r, [], r' => r = r'
  | r, x :: ns, r' => r = .cons x ∧ Leads cdr (cdr x) ns r'

namespace Leads

theorem congr (h : Leads cdr r ns r') (heq : ∀ x ∈ ns, cdr' x = cdr x) : Leads cdr' r ns r' := by
  induction ns generalizing r with
  | nil => exact h
  | cons x ns ih =>
    refine ⟨h.1, ?_⟩
    rw [heq x List.mem_cons_self]
    exact ih h.2 fun y hy => heq y (List.mem_cons_of_mem x hy)

theorem append_iff : Leads cdr r (ns ++ ms) r'' ↔ ∃ r', Leads cdr r ns r' ∧ Leads cdr r' ms r'' := by
  induction ns generalizing r with
  | nil => exact ⟨fun h => ⟨r, rfl, h⟩, fun ⟨r', hr, h⟩ => hr ▸ h⟩
  | cons x ns ih =>
    rw [List.cons_append, Leads, ih]
    exact ⟨fun ⟨hr, r', h, h'⟩ => ⟨r', ⟨hr, h⟩, h'⟩, fun ⟨r', ⟨hr, h⟩, h'⟩ => ⟨hr, r', h, h'⟩⟩

theorem concat_iff : Leads cdr r (ns ++ [x]) r' ↔ Leads cdr r ns (.cons x) ∧ cdr x = r' := by
  rw [append_iff]
  exact ⟨fun ⟨_, h, heq, h'⟩ => ⟨heq ▸ h, h'⟩, fun ⟨h, h'⟩ => ⟨_, h, rfl, h'⟩⟩

theorem unique {a' : α} (h : Leads cdr r ns (.atom a)) (h' : Leads cdr r ms (.atom a')) : ns = ms ∧ a = a' := by
  induction ns generalizing r ms with
  | nil =>
    obtain rfl : r = .atom a := h
    cases ms with
    | nil => exact ⟨rfl, Ref.atom.inj h'⟩
    | cons y ms => exact absurd h'.1 (atom_ne_cons a y)
  | cons x ns ih =>
    obtain ⟨rfl, h⟩ := h
    cases ms with
    | nil => exact absurd h'.symm (atom_ne_cons a' x)
    | cons y ms =>
      obtain ⟨hxy, h'⟩ := h'
      obtain rfl := Ref.cons.inj hxy
      obtain ⟨rfl, rfl⟩ := ih h h'
      exact ⟨rfl, rfl⟩

theorem nodup (h : Leads cdr r ns (.atom a)) : ns.Nodup := by
  induction ns generalizing r with
  | nil => exact List.nodup_nil
  | cons x ns ih =>
    refine List.nodup_cons.mpr ⟨fun hx => ?_, ih h.2⟩
    obtain ⟨ms, ks, rfl⟩ := List.append_of_mem hx
    obtain ⟨r', -, hr'⟩ := append_iff.mp h.2
    have hagain : Leads cdr r (x :: ks) (.atom a) := ⟨h.1, hr'.2⟩
    have heq := (unique h hagain).1
    have hlength := congrArg List.length heq
    simp only [List.length_cons, List.length_append] at hlength
    omega

end Leads

theorem length_le_of_nodup {n : ℕ} (hnodup : ns.Nodup) (hlt : ∀ x ∈ ns, x < n) : ns.length ≤ n := by
  have hcard := Finset.card_le_card (s := ns.toFinset) (t := Finset.range n) fun x hx =>
    Finset.mem_range.mpr (hlt x (List.mem_toFinset.mp hx))
  rwa [List.toFinset_card_of_nodup hnodup, Finset.card_range] at hcard

end XEmacs.Lib
