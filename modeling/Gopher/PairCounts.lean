import Mathlib.Logic.Function.Basic
import Mathlib.Tactic
import Gopher.ListQueries

/-!
# Two counters of divisible pairs

One counter sorts both slices and counts again for every element of the first,
the other keeps the first slice as it is and remembers the count of each value.
Integers have 64 bits; a remainder by zero ends the call. Sorting is any
function that returns an ordered permutation.
-/

set_option autoImplicit false

namespace Gopher.PairCounts
open Gopher.ListQueries

inductive Panic where
  | divideByZero
  deriving DecidableEq

def mod (a b : Int64) : Except Panic Int64 :=
  if b = 0 then .error .divideByZero else .ok (a%b)

def count (k n1 : Int64) : List Int64 → Int64 → Except Panic Int64
  | [], num => .ok num
  | n2::rest, num =>
    if n1 < n2*k then .ok num
    else do
      let r ← mod n1 (n2*k)
      count k n1 rest (if r = 0 then num+1 else num)

abbrev IntSort := Sorter (fun a b : Int64 => a ≤ b)

def numberOfPairs (ints : IntSort) (nums1 nums2 : List Int64) (k : Int64) : Except Panic Int64 :=
  (ints.sort nums1).foldlM (fun ans n1 => count k n1 (ints.sort nums2) ans) 0

def countMemo (nums2 : List Int64) (k : Int64) (s : (Int64 → Option Int64) × Int64)
    (n1 : Int64) : Except Panic ((Int64 → Option Int64) × Int64) :=
  match s.1 n1 with
  | some num => .ok (s.1,s.2+num)
  | none => do
    let num ← count k n1 nums2 0
    return (Function.update s.1 n1 (some num),s.2+num)

def numberOfPairs2 (ints : IntSort) (nums1 nums2 : List Int64) (k : Int64) :
    Except Panic Int64 := do
  let s ← nums1.foldlM (countMemo (ints.sort nums2) k) (fun _ => none,0)
  return s.2

/-! ## One count for each element -/

def add (f : Int64 → Except Panic Int64) (ans n1 : Int64) : Except Panic Int64 :=
  (f n1).map (ans+·)

theorem count_eq_map (k n1 : Int64) (l : List Int64) (ans : Int64) :
    count k n1 l ans = (count k n1 l 0).map (ans+·) := by
  induction l generalizing ans with
  | nil => simp [count, Except.map]
  | cons n2 l ih =>
    rw [count, count]
    split
    · simp [Except.map]
    · cases mod n1 (n2*k) with
      | error e => rfl
      | ok r =>
        show count k n1 l _ = (count k n1 l _).map _
        rw [ih, ih (if r = 0 then 0+1 else 0)]
        cases count k n1 l 0 with
        | error e => rfl
        | ok c =>
          simp only [Except.map]
          split <;> simp [Int64.add_assoc]

theorem numberOfPairs_eq (ints : IntSort) (nums1 nums2 : List Int64) (k : Int64) :
    numberOfPairs ints nums1 nums2 k =
      (ints.sort nums1).foldlM (add (fun n1 => count k n1 (ints.sort nums2) 0)) 0 := by
  have h : (fun ans n1 => count k n1 (ints.sort nums2) ans) =
      add (fun n1 => count k n1 (ints.sort nums2) 0) := by
    funext ans n1
    exact count_eq_map k n1 _ ans
  rw [numberOfPairs, h]

def Sound (nums2 : List Int64) (k : Int64) (memo : Int64 → Option Int64) : Prop :=
  ∀ v c, memo v = some c → count k v nums2 0 = .ok c

theorem sound_update {nums2 : List Int64} {k n1 c : Int64} {memo : Int64 → Option Int64}
    (h : Sound nums2 k memo) (hc : count k n1 nums2 0 = .ok c) :
    Sound nums2 k (Function.update memo n1 (some c)) := by
  intro v d hv
  by_cases hvn : v = n1
  · subst hvn
    rw [Function.update_self] at hv
    rw [hc, Option.some.inj hv]
  · rw [Function.update_of_ne hvn] at hv
    exact h v d hv

/-- A remembered count and a new one give the same total, and a panic is not remembered. -/
theorem countMemo_spec {nums2 : List Int64} {k : Int64} {memo : Int64 → Option Int64}
    (h : Sound nums2 k memo) (ans n1 : Int64) :
    (∃ memo' c, Sound nums2 k memo' ∧ count k n1 nums2 0 = .ok c ∧
      countMemo nums2 k (memo,ans) n1 = .ok (memo',ans+c)) ∨
    ∃ e, count k n1 nums2 0 = .error e ∧ countMemo nums2 k (memo,ans) n1 = .error e := by
  cases hm : memo n1 with
  | some c => exact Or.inl ⟨memo,c,h,h n1 c hm,by simp [countMemo, hm]⟩
  | none =>
    cases hc : count k n1 nums2 0 with
    | error e => exact Or.inr ⟨e,rfl,by simp [countMemo, hm, hc]⟩
    | ok c =>
      exact Or.inl ⟨Function.update memo n1 (some c),c,sound_update h hc,rfl,
        by simp [countMemo, hm, hc]⟩

theorem foldlM_countMemo (nums2 : List Int64) (k : Int64) (l : List Int64)
    (memo : Int64 → Option Int64) (ans : Int64) (h : Sound nums2 k memo) :
    (l.foldlM (countMemo nums2 k) (memo,ans)).map Prod.snd =
      l.foldlM (add (fun n1 => count k n1 nums2 0)) ans := by
  induction l generalizing memo ans with
  | nil => rfl
  | cons n1 l ih =>
    rw [List.foldlM_cons, List.foldlM_cons]
    rcases countMemo_spec h ans n1 with ⟨memo',c,h',hc,hstep⟩ | ⟨e,hc,hstep⟩
    · have hadd : add (fun n1 => count k n1 nums2 0) ans n1 = .ok (ans+c) := by
        simp [add, hc, Except.map]
      rw [hstep, hadd]
      exact ih memo' (ans+c) h'
    · have hadd : add (fun n1 => count k n1 nums2 0) ans n1 = .error e := by
        simp [add, hc, Except.map]
      rw [hstep, hadd]
      rfl

theorem numberOfPairs2_eq (ints : IntSort) (nums1 nums2 : List Int64) (k : Int64) :
    numberOfPairs2 ints nums1 nums2 k =
      nums1.foldlM (add (fun n1 => count k n1 (ints.sort nums2) 0)) 0 := by
  rw [← foldlM_countMemo (ints.sort nums2) k nums1 (fun _ => none) 0 (by simp [Sound])]
  rw [numberOfPairs2]
  cases nums1.foldlM (countMemo (ints.sort nums2) k) (fun _ => none,0) <;> rfl

/-! ## The order of the elements -/

theorem add_comm_step (f : Int64 → Except Panic Int64) (x y : Int64)
    (acc : Except Panic Int64) :
    ((acc.bind (fun a => add f a x)).bind fun a => add f a y) =
      (acc.bind (fun a => add f a y)).bind fun a => add f a x := by
  cases acc with
  | error e => rfl
  | ok a =>
    cases hx : f x with
    | error e =>
      cases hy : f y with
      | error e' =>
        cases e
        cases e'
        simp [Except.bind, add, hx, hy, Except.map]
      | ok d => simp [Except.bind, add, hx, hy, Except.map]
    | ok c =>
      cases hy : f y with
      | error e => simp [Except.bind, add, hx, hy, Except.map]
      | ok d =>
        simp only [Except.bind, add, hx, hy, Except.map, Except.ok.injEq]
        rw [Int64.add_assoc, Int64.add_comm c d, ← Int64.add_assoc]

theorem foldlM_add_perm (f : Int64 → Except Panic Int64) {l l' : List Int64} (h : l.Perm l')
    (ans : Int64) : l.foldlM (add f) ans = l'.foldlM (add f) ans := by
  rw [List.foldlM_eq_foldl, List.foldlM_eq_foldl]
  exact h.foldl_eq' (fun x _ y _ acc => add_comm_step f x y acc) _

theorem intSort_eq (ints ints' : IntSort) (l : List Int64) : ints.sort l = ints'.sort l :=
  Sorter.sort_eq ints ints' l (fun _ _ _ _ hab hba => Int64.le_antisymm hab hba)

/-- Both counters panic or both return the same count. -/
theorem numberOfPairs_eq_numberOfPairs2 (ints ints' : IntSort) (nums1 nums2 : List Int64)
    (k : Int64) :
    numberOfPairs ints nums1 nums2 k = numberOfPairs2 ints' nums1 nums2 k := by
  rw [numberOfPairs_eq, numberOfPairs2_eq, intSort_eq ints ints' nums2]
  exact foldlM_add_perm _ (ints.perm nums1) 0

end Gopher.PairCounts
