import Mathlib.Order.Bounds.Basic
import Mathlib.Tactic

/-!
# Search by halving

The loop keeps an interval whose right end is good. If from the left end on
what lies above a good number is good, it ends with the least good number
that is not below the left end.
-/

set_option autoImplicit false

namespace Gopher.Bisection

variable (good : ℤ → Prop) [DecidablePred good]

def bisect (l r : ℤ) : ℤ :=
  if l < r then
    if good (l+(r-l)/2) then bisect l (l+(r-l)/2) else bisect (l+(r-l)/2+1) r
  else r
termination_by (r-l).toNat

variable {good}

theorem bisect_isLeast (l r : ℤ) (hmono : ∀ v w, l ≤ v → v ≤ w → good v → good w)
    (hlr : l ≤ r) (hr : good r) : IsLeast {v | l ≤ v ∧ good v} (bisect good l r) := by
  induction l, r using bisect.induct good with
  | case1 l r hlt hgood ih =>
    rw [bisect, if_pos hlt, if_pos hgood]
    exact ih hmono (by omega) hgood
  | case2 l r hlt hbad ih =>
    rw [bisect, if_pos hlt, if_neg hbad]
    have h := ih (fun v w hv => hmono v w (by omega)) (by omega) hr
    constructor
    · exact ⟨by have := h.1.1; omega,h.1.2⟩
    · intro v hv
      apply h.2
      refine ⟨?_,hv.2⟩
      by_contra hle
      exact hbad (hmono v _ hv.1 (by omega) hv.2)
  | case3 l r hge =>
    rw [bisect, if_neg hge]
    constructor
    · exact ⟨hlr,hr⟩
    · intro v hv
      exact (by omega : r ≤ l).trans hv.1

end Gopher.Bisection
