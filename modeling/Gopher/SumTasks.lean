import Mathlib.Algebra.BigOperators.Intervals
import Mathlib.Logic.Function.Basic
import Mathlib.Tactic

/-!
# Three ways to sum up to a bound

One loop; blocks of one length handed to a pool, of which the last goes on to
the end; and tasks that halve their interval until it is shorter than a block.
The pool completes its tasks in any order and the results are added in the
order of submission. Sums are exact.
-/

set_option autoImplicit false

namespace Gopher.SumTasks

/-! ## The loops -/

def sumTo (i ceil unused : ℕ) : ℕ :=
  if i ≤ ceil then sumTo (i+1) ceil (unused+i) else unused
termination_by ceil+1-i

def testSum (ceil : ℕ) : ℕ := sumTo 0 ceil 0

def sumFrom (i stop ret : ℕ) : ℕ :=
  if i < stop then sumFrom (i+1) stop (ret+i) else ret
termination_by stop-i

structure SumTask where
  start : ℕ
  stop : ℕ
  deriving DecidableEq

def SumTask.call (t : SumTask) : ℕ := sumFrom t.start t.stop 0

/-! ## The pool -/

def task (ceil parallel i : ℕ) : SumTask :=
  let range := ceil/parallel
  let start := i*range
  let stop := start+range
  ⟨start,if i+1 = parallel then ceil+1 else stop⟩

abbrev Futures := ℕ → Option ℕ

def complete (ceil parallel : ℕ) (futArr : Futures) (i : ℕ) : Futures :=
  Function.update futArr i (some (task ceil parallel i).call)

def gather (futArr : Futures) (parallel : ℕ) : Option ℕ :=
  (List.range parallel).foldlM (fun ret i => (futArr i).map (fun v => ret+v)) 0

def testSumByThreadPool (order : List ℕ) (ceil parallel : ℕ) : Option ℕ :=
  gather (order.foldl (complete ceil parallel) (fun _ => none)) parallel

/-! ## Forking and joining -/

def compute (range : ℕ) : ℕ → ℕ → ℕ → Option ℕ
  | 0, _, _ => none
  | fuel+1, start, stop =>
    if stop-start < range then some (sumFrom start stop 0)
    else do
      let mid := (start+stop)/2
      let left ← compute range fuel start mid
      let right ← compute range fuel mid stop
      return left+right

def testSumByForkJoin (fuel ceil parallel : ℕ) : Option ℕ :=
  compute (ceil/parallel) fuel 0 (ceil+1)

/-! ## Results -/

theorem sumTo_eq (i ceil unused : ℕ) :
    sumTo i ceil unused = unused+∑ j ∈ Finset.Ico i (ceil+1), j := by
  induction i, unused using sumTo.induct ceil with
  | case1 i unused h ih =>
    have hlt : i < ceil+1 := by omega
    rw [sumTo, if_pos h, ih, Finset.sum_eq_sum_Ico_succ_bot hlt, add_assoc]
  | case2 i unused h =>
    rw [sumTo, if_neg h, Finset.Ico_eq_empty (by omega), Finset.sum_empty, add_zero]

theorem sumFrom_eq (i stop ret : ℕ) : sumFrom i stop ret = ret+∑ j ∈ Finset.Ico i stop, j := by
  induction i, ret using sumFrom.induct stop with
  | case1 i ret h ih =>
    rw [sumFrom, if_pos h, ih, Finset.sum_eq_sum_Ico_succ_bot h, add_assoc]
  | case2 i ret h =>
    rw [sumFrom, if_neg h, Finset.Ico_eq_empty h, Finset.sum_empty, add_zero]

theorem call_eq (t : SumTask) : t.call = ∑ j ∈ Finset.Ico t.start t.stop, j := by
  rw [SumTask.call, sumFrom_eq, zero_add]

theorem testSum_eq (ceil : ℕ) : testSum ceil = ∑ j ∈ Finset.range (ceil+1), j := by
  rw [testSum, sumTo_eq, zero_add, Finset.range_eq_Ico]

/-- The tasks before the last cover what lies before the block of the next. -/
theorem sum_tasks {ceil parallel : ℕ} (n : ℕ) (hn : n < parallel) :
    ((List.range n).map (fun i => (task ceil parallel i).call)).sum =
      ∑ j ∈ Finset.range (n*(ceil/parallel)), j := by
  induction n with
  | zero => simp
  | succ n ih =>
    have hcall : (task ceil parallel n).call =
        ∑ j ∈ Finset.Ico (n*(ceil/parallel)) ((n+1)*(ceil/parallel)), j := by
      rw [call_eq]
      simp only [task, if_neg hn.ne, Nat.succ_mul]
    rw [List.range_succ, List.map_append, List.sum_append, ih (by omega), List.map_singleton,
      List.sum_singleton, hcall, Finset.range_eq_Ico, Finset.range_eq_Ico,
      Finset.sum_Ico_consecutive _ (Nat.zero_le _) (Nat.mul_le_mul_right _ (Nat.le_succ n))]

/-- The blocks meet at their ends and the last one goes on to the bound. -/
theorem sum_all_tasks {ceil parallel : ℕ} (hp : 1 ≤ parallel) :
    ((List.range parallel).map (fun i => (task ceil parallel i).call)).sum =
      ∑ j ∈ Finset.range (ceil+1), j := by
  obtain ⟨n,rfl⟩ : ∃ n, parallel = n+1 := ⟨parallel-1,by omega⟩
  have hcall : (task ceil (n+1) n).call =
      ∑ j ∈ Finset.Ico (n*(ceil/(n+1))) (ceil+1), j := by
    rw [call_eq]
    simp only [task, if_true]
  have hle : n*(ceil/(n+1)) ≤ ceil+1 := by
    have := Nat.mul_div_le ceil (n+1)
    nlinarith
  rw [List.range_succ, List.map_append, List.sum_append, sum_tasks n (Nat.lt_succ_self n),
    List.map_singleton, List.sum_singleton, hcall, Finset.range_eq_Ico, Finset.range_eq_Ico,
    Finset.sum_Ico_consecutive _ (Nat.zero_le _) hle]

theorem foldl_complete (ceil parallel : ℕ) (order : List ℕ) (futArr : Futures) (i : ℕ) :
    order.foldl (complete ceil parallel) futArr i =
      if i ∈ order then some (task ceil parallel i).call else futArr i := by
  induction order generalizing futArr with
  | nil => rfl
  | cons k order ih =>
    rw [List.foldl_cons, ih]
    by_cases hi : i ∈ order
    · rw [if_pos hi, if_pos (List.mem_cons_of_mem k hi)]
    · rw [if_neg hi, complete]
      by_cases hk : i = k
      · rw [hk, Function.update_self, if_pos List.mem_cons_self]
      · rw [Function.update_of_ne hk, if_neg (by simp [hi, hk])]

theorem foldlM_futures (futArr : Futures) (f : ℕ → ℕ) (l : List ℕ)
    (h : ∀ i ∈ l, futArr i = some (f i)) (ret : ℕ) :
    l.foldlM (fun ret i => (futArr i).map (fun v => ret+v)) ret = some (ret+(l.map f).sum) := by
  induction l generalizing ret with
  | nil => simp
  | cons i l ih =>
    rw [List.foldlM_cons, h i List.mem_cons_self]
    show l.foldlM _ (ret+f i) = _
    rw [ih (fun k hk => h k (List.mem_cons_of_mem i hk)), List.map_cons, List.sum_cons, add_assoc]

theorem testSumByThreadPool_eq {ceil parallel : ℕ} (hp : 1 ≤ parallel) {order : List ℕ}
    (horder : order.Perm (List.range parallel)) :
    testSumByThreadPool order ceil parallel = some (∑ j ∈ Finset.range (ceil+1), j) := by
  rw [testSumByThreadPool, gather,
    foldlM_futures _ (fun i => (task ceil parallel i).call) _ _ 0, zero_add, sum_all_tasks hp]
  intro i hi
  rw [foldl_complete, if_pos (horder.mem_iff.mpr hi)]

/-- With blocks of at least two the halves are shorter than the whole, so the recursion ends. -/
theorem compute_eq {range : ℕ} (hrange : 2 ≤ range) (fuel : ℕ) :
    ∀ start stop, start ≤ stop → stop-start < fuel →
      compute range fuel start stop = some (∑ j ∈ Finset.Ico start stop, j) := by
  induction fuel with
  | zero =>
    intro start stop _ hfuel
    exact absurd hfuel (Nat.not_lt_zero _)
  | succ fuel ih =>
    intro start stop hle hfuel
    rw [compute]
    split
    · rw [sumFrom_eq, zero_add]
    · rename_i hwide
      have hleft := ih start ((start+stop)/2) (by omega) (by omega)
      have hright := ih ((start+stop)/2) stop (by omega) (by omega)
      have hsum := Finset.sum_Ico_consecutive (fun j => j) (show start ≤ (start+stop)/2 by omega)
        (show (start+stop)/2 ≤ stop by omega)
      simp only [hleft, hright, Option.bind_eq_bind, Option.bind_some, ← hsum]
      rfl

/-- With shorter blocks a task of one number forks itself again. -/
theorem compute_diverges {range : ℕ} (hrange : range ≤ 1) (fuel : ℕ) :
    ∀ start stop, start < stop → compute range fuel start stop = none := by
  induction fuel with
  | zero =>
    intro start stop _
    rfl
  | succ fuel ih =>
    intro start stop hlt
    have hright := ih ((start+stop)/2) stop (by omega)
    rw [compute, if_neg (by omega)]
    simp [hright]

/-- All three return the sum, whatever the order in which the pool completes its tasks. -/
theorem sums_agree (ceil parallel : ℕ) (hp : 1 ≤ parallel) (hrange : 2 ≤ ceil/parallel) :
    testSum ceil = ∑ j ∈ Finset.range (ceil+1), j ∧
    (∀ order : List ℕ, order.Perm (List.range parallel) →
      testSumByThreadPool order ceil parallel = some (∑ j ∈ Finset.range (ceil+1), j)) ∧
    ∃ bound, ∀ fuel, bound < fuel →
      testSumByForkJoin fuel ceil parallel = some (∑ j ∈ Finset.range (ceil+1), j) := by
  refine ⟨testSum_eq ceil,fun order horder => testSumByThreadPool_eq hp horder,ceil+1,?_⟩
  intro fuel hfuel
  rw [testSumByForkJoin, compute_eq hrange fuel 0 (ceil+1) (Nat.zero_le _) hfuel,
    Finset.range_eq_Ico]

theorem sums_agree_seven :
    testSumByThreadPool [2,0,1] 7 3 = some 28 ∧
      ∃ bound, ∀ fuel, bound < fuel → testSumByForkJoin fuel 7 3 = some 28 := by
  have h := sums_agree 7 3 (by decide) (by decide)
  exact ⟨h.2.1 [2,0,1] (by decide),h.2.2⟩

end Gopher.SumTasks
