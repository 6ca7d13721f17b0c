import Mathlib.Logic.Relation

/-! Graphs of which the edges out of one vertex change. Cycles stay, if those of its edges that are
part of a cycle do. -/

namespace XEmacs.Lib

open Relation

variable {α : Type*} {e e' : α → α → Prop} {m a b : α}

theorem transGen_of_cycle (hother : ∀ x y, x ≠ m → e x y → e' x y)
    (hself : ∀ y, e m y → TransGen e y m → e' m y) (h : TransGen e a b) (hback : ReflTransGen e b a) :
    TransGen e' a b := by
  -- an edge from which there is a way back is one of the new graph
  have hedge : ∀ x y, e x y → ReflTransGen e y x → e' x y := by
    intro x y hxy hyx
    by_cases hx : x = m
    · subst hx
      rcases reflTransGen_iff_eq_or_transGen.mp hyx with rfl | hyx
      · exact hself x hxy (.single hxy)
      · exact hself y hxy hyx
    · exact hother x y hx hxy
  induction h using TransGen.head_induction_on with
  | single hxb => exact .single (hedge _ _ hxb hback)
  | head hxy hyb ih =>
    exact .head (hedge _ _ hxy (hyb.to_reflTransGen.trans hback)) (ih (hback.tail hxy))

end XEmacs.Lib
