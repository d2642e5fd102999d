import Mathlib.Algebra.BigOperators.Group.Finset.Basic
import Mathlib.Algebra.BigOperators.Ring.Finset
import Mathlib.Data.List.Count
import Mathlib.Data.Nat.Choose.Basic
import Mathlib.Tactic

/-!
# Counting pairs of positions in order

The pairs of positions that read two given letters one after the other, and
how an inserted letter changes their number.
-/

set_option autoImplicit false

namespace Gopher.OrderedPairs

variable {α : Type*} [DecidableEq α]

def pairCount (a b : α) (w : List α) : ℕ :=
  ((Finset.range w.length ×ˢ Finset.range w.length).filter
    (fun p => p.1 < p.2 ∧ w[p.1]? = some a ∧ w[p.2]? = some b)).card

theorem sum_positions (b : α) (w : List α) :
    (∑ j ∈ Finset.range w.length, if w[j]? = some b then 1 else 0) = w.count b := by
  induction w with
  | nil => simp
  | cons x w ih =>
    rw [List.length_cons, Finset.sum_range_succ', List.count_cons]
    simp only [List.getElem?_cons_succ, List.getElem?_cons_zero, Option.some_inj, beq_iff_eq]
    rw [ih]

theorem pairCount_eq_sum (a b : α) (w : List α) :
    pairCount a b w = ∑ i ∈ Finset.range w.length, ∑ j ∈ Finset.range w.length,
      if i < j ∧ w[i]? = some a ∧ w[j]? = some b then 1 else 0 := by
  rw [pairCount, Finset.card_filter, Finset.sum_product]

@[simp] theorem pairCount_nil (a b : α) : pairCount a b [] = 0 := by
  simp [pairCount]

theorem pairCount_cons (a b x : α) (w : List α) :
    pairCount a b (x::w) = pairCount a b w+if x = a then w.count b else 0 := by
  rw [pairCount_eq_sum, pairCount_eq_sum, List.length_cons, Finset.sum_range_succ']
  congr 1
  · apply Finset.sum_congr rfl
    intro i _
    rw [Finset.sum_range_succ']
    simp
  · rw [Finset.sum_range_succ']
    simp only [List.getElem?_cons_succ, List.getElem?_cons_zero, Option.some_inj, lt_irrefl,
      false_and, if_false, add_zero, Nat.succ_pos, true_and]
    split
    · rename_i hx
      rw [← sum_positions]
      simp only [hx, true_and]
    · rename_i hx
      simp [hx]

theorem pairCount_append (a b : α) (u v : List α) :
    pairCount a b (u++v) = pairCount a b u+pairCount a b v+u.count a*v.count b := by
  induction u with
  | nil => simp
  | cons x u ih =>
    rw [List.cons_append, pairCount_cons, pairCount_cons, ih, List.count_cons, List.count_append]
    by_cases hx : x = a
    · simp only [hx, if_true, beq_self_eq_true]
      ring
    · simp only [hx, if_false, beq_iff_eq, add_zero]

/-- An inserted letter pairs with the letters before it and with those after it. -/
theorem pairCount_insert (a b x : α) (u v : List α) :
    pairCount a b (u++x::v) = pairCount a b (u++v)+(if x = b then u.count a else 0)+
      if x = a then v.count b else 0 := by
  rw [pairCount_append, pairCount_append, pairCount_cons, List.count_cons]
  by_cases hb : x = b
  · simp only [hb, beq_self_eq_true, if_true]
    ring
  · simp only [hb, beq_iff_eq, if_false]
    ring

/-- Two equal letters are paired as often as two of their places can be chosen. -/
theorem pairCount_self (a : α) (w : List α) : pairCount a a w = (w.count a).choose 2 := by
  induction w with
  | nil => simp
  | cons x w ih =>
    rw [pairCount_cons, ih, List.count_cons]
    by_cases hx : x = a
    · simp only [hx, if_true, beq_self_eq_true]
      rw [Nat.choose_succ_succ, Nat.choose_one_right, add_comm]
    · simp [hx]

end Gopher.OrderedPairs
