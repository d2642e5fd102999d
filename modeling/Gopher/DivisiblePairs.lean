import Mathlib.Algebra.BigOperators.Fin
import Mathlib.Algebra.Order.Ring.Int
import Mathlib.Tactic
import Gopher.PairCounts

/-!
# Divisible pairs counted by index

The loop over the second slice ends at the first product above the dividend.
The slice is sorted and everything is positive, so the products left out are
larger still and divide nothing. The C++ function has integers of 32 bits,
and an operation whose result does not fit them is undefined.
-/

set_option autoImplicit false

namespace Gopher.DivisiblePairs
open Gopher.ListQueries Gopher.PairCounts

/-! ## The C++ function -/

inductive Undefined where
  | overflow
  | divideByZero
  deriving DecidableEq

def int (z : ℤ) : Except Undefined ℤ :=
  if -2^31 ≤ z ∧ z < 2^31 then .ok z else .error .overflow

def tally (r ans : ℤ) : Except Undefined ℤ := if r = 0 then int (ans+1) else .ok ans

def seen (l : List ℤ) (k n1 : ℤ) : ℕ :=
  (l.takeWhile (fun n2 => n2*k ≤ n1)).countP (fun n2 => n2*k ∣ n1)

theorem int_of_lt {z : ℤ} (h0 : 0 ≤ z) (h : z < 2^31) : int z = .ok z :=
  if_pos ⟨by omega,h⟩

theorem tally_eq {r ans : ℤ} (h0 : 0 ≤ ans) (hans : ans < 2^31) :
    tally r ans = int (ans+if r = 0 then 1 else 0) := by
  rw [tally]
  split
  · rfl
  · rw [add_zero, int_of_lt h0 hans]

end Gopher.DivisiblePairs
