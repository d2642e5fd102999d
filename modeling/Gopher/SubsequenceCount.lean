import Mathlib.Order.Bounds.Basic
import Mathlib.Tactic
import Gopher.OrderedPairs

/-!
# The best place for one more character

One pass counts the two characters of the pattern and the pairs they form. A
character inserted at an end of the text then adds the most pairs. Integers are
exact.
-/

set_option autoImplicit false

namespace Gopher.SubsequenceCount
open Gopher.OrderedPairs

structure Pattern where
  zero : UInt8
  one : UInt8

structure State where
  pres : List ℕ
  posts : List ℕ
  preNum : ℕ
  sum : ℕ

def start : State where
  pres := []
  posts := []
  preNum := 0
  sum := 0

def step (pattern : Pattern) (i : ℕ) (c : UInt8) (s : State) : State :=
  if c = pattern.zero then { s with pres := s.pres++[i], preNum := s.preNum+1 }
  else if c = pattern.one then { s with sum := s.sum+s.preNum, posts := s.posts++[i] }
  else s

def scan (pattern : Pattern) : List UInt8 → ℕ → State → State
  | [], _, s => s
  | c::text, i, s => scan pattern text (i+1) (step pattern i c s)

def maximumSubsequenceCount (text : List UInt8) (pattern : Pattern) : ℕ :=
  let s := scan pattern text 0 start
  if pattern.zero = pattern.one then
    let num := s.pres.length+s.posts.length
    (num+1)*num/2
  else if s.pres.length > s.posts.length then s.pres.length+s.sum
  else s.posts.length+s.sum

/-! ## The counts of the pass -/

variable {pattern : Pattern}

section Step

variable (i : ℕ) (c : UInt8) (s : State)

theorem step_pres : (step pattern i c s).pres.length =
    s.pres.length+if c = pattern.zero then 1 else 0 := by
  unfold step
  split
  · simp
  · split <;> simp

theorem step_preNum : (step pattern i c s).preNum =
    s.preNum+if c = pattern.zero then 1 else 0 := by
  unfold step
  split
  · simp
  · split <;> simp

/-- A character that is both counts as the first only. -/
theorem step_posts : (step pattern i c s).posts.length =
    s.posts.length+if c ≠ pattern.zero ∧ c = pattern.one then 1 else 0 := by
  unfold step
  split
  · rename_i hzero
    simp [hzero]
  · rename_i hzero
    split <;> rename_i hone
    · rw [if_pos ⟨hzero,hone⟩, List.length_append, List.length_singleton]
    · simp [hone]

theorem step_sum : (step pattern i c s).sum =
    s.sum+if c ≠ pattern.zero ∧ c = pattern.one then s.preNum else 0 := by
  unfold step
  split
  · rename_i hzero
    simp [hzero]
  · rename_i hzero
    split <;> rename_i hone
    · rw [if_pos ⟨hzero,hone⟩]
    · simp [hone]

end Step

theorem scan_pres (text : List UInt8) (i : ℕ) (s : State) :
    (scan pattern text i s).pres.length = s.pres.length+text.count pattern.zero := by
  induction text generalizing i s with
  | nil => rfl
  | cons c text ih =>
    rw [scan, ih, step_pres, List.count_cons]
    simp only [beq_iff_eq]
    omega

theorem scan_posts_equal (h : pattern.zero = pattern.one) (text : List UInt8) (i : ℕ)
    (s : State) : (scan pattern text i s).posts.length = s.posts.length := by
  induction text generalizing i s with
  | nil => rfl
  | cons c text ih =>
    have hnot : ¬(c ≠ pattern.zero ∧ c = pattern.one) := fun hc => hc.1 (hc.2.trans h.symm)
    rw [scan, ih, step_posts, if_neg hnot, Nat.add_zero]

theorem scan_posts (h : pattern.zero ≠ pattern.one) (text : List UInt8) (i : ℕ) (s : State) :
    (scan pattern text i s).posts.length = s.posts.length+text.count pattern.one := by
  induction text generalizing i s with
  | nil => rfl
  | cons c text ih =>
    rw [scan, ih, step_posts, List.count_cons]
    by_cases hc : c = pattern.one
    · simp only [hc, ne_eq, Ne.symm h, not_false_eq_true, and_self, beq_self_eq_true, if_true]
      omega
    · simp [hc]

/-- The sum counts the pairs, with the characters already seen as possible first parts. -/
theorem scan_sum (h : pattern.zero ≠ pattern.one) (text : List UInt8) (i : ℕ) (s : State) :
    (scan pattern text i s).sum =
      s.sum+s.preNum*text.count pattern.one+pairCount pattern.zero pattern.one text := by
  induction text generalizing i s with
  | nil => simp [scan]
  | cons c text ih =>
    rw [scan, ih, step_sum, step_preNum, List.count_cons, pairCount_cons]
    by_cases hone : c = pattern.one
    · simp only [hone, ne_eq, Ne.symm h, not_false_eq_true, and_self, if_true, if_false,
        beq_self_eq_true]
      ring
    · by_cases hzero : c = pattern.zero
      · simp only [hzero, ne_eq, not_true_eq_false, false_and, if_false, if_true, beq_iff_eq, h]
        ring
      · simp only [hone, hzero, and_false, if_false, beq_iff_eq, Nat.add_zero]

/-! ## The best insertion -/

def insertions (text : List UInt8) (pattern : Pattern) : Set ℕ :=
  {m | ∃ p ≤ text.length, ∃ c, (c = pattern.zero ∨ c = pattern.one) ∧
    m = pairCount pattern.zero pattern.one (text.take p++c::text.drop p)}

theorem insertions_equal (h : pattern.zero = pattern.one) (text : List UInt8) :
    maximumSubsequenceCount text pattern ∈ insertions text pattern ∧
      ∀ m ∈ insertions text pattern, m = maximumSubsequenceCount text pattern := by
  have hresult : maximumSubsequenceCount text pattern =
      (text.count pattern.zero+1).choose 2 := by
    rw [maximumSubsequenceCount, if_pos h, Nat.choose_two_right]
    simp only [scan_pres, scan_posts_equal h, start, List.length_nil, Nat.zero_add, Nat.add_zero,
      Nat.add_sub_cancel]
  have hall : ∀ p, pairCount pattern.zero pattern.one
      (text.take p++pattern.zero::text.drop p) = maximumSubsequenceCount text pattern := by
    intro p
    have hcount : (text.take p++pattern.zero::text.drop p).count pattern.zero =
        text.count pattern.zero+1 := by
      rw [List.count_append, List.count_cons_self, ← Nat.add_assoc, ← List.count_append,
        List.take_append_drop]
    rw [← h, pairCount_self, hcount, hresult]
  constructor
  · exact ⟨0,Nat.zero_le _,pattern.zero,Or.inl rfl,(hall 0).symm⟩
  · rintro _ ⟨p,_,c,hc,rfl⟩
    have hc0 : c = pattern.zero := by
      rcases hc with hc | hc
      · exact hc
      · exact hc.trans h.symm
    rw [hc0]
    exact hall p

theorem pairCount_inserted (text : List UInt8) (p : ℕ) (c : UInt8) :
    pairCount pattern.zero pattern.one (text.take p++c::text.drop p) =
      pairCount pattern.zero pattern.one text+
        (if c = pattern.one then (text.take p).count pattern.zero else 0)+
        if c = pattern.zero then (text.drop p).count pattern.one else 0 := by
  rw [pairCount_insert, List.take_append_drop]

theorem maximumSubsequenceCount_distinct (h : pattern.zero ≠ pattern.one) (text : List UInt8) :
    maximumSubsequenceCount text pattern = pairCount pattern.zero pattern.one text+
      max (text.count pattern.zero) (text.count pattern.one) := by
  rw [maximumSubsequenceCount, if_neg h]
  simp only [scan_pres, scan_posts h, scan_sum h, start, List.length_nil, Nat.zero_add,
    Nat.zero_mul]
  split <;> omega

/-- The first character does most at the beginning, the second at the end. -/
theorem insertions_distinct (h : pattern.zero ≠ pattern.one) (text : List UInt8) :
    IsGreatest (insertions text pattern) (maximumSubsequenceCount text pattern) := by
  rw [maximumSubsequenceCount_distinct h]
  constructor
  · rcases le_total (text.count pattern.one) (text.count pattern.zero) with hle | hle
    · refine ⟨text.length,le_rfl,pattern.one,Or.inr rfl,?_⟩
      rw [pairCount_inserted, if_pos rfl, if_neg (Ne.symm h), max_eq_left hle, List.take_length]
      rfl
    · refine ⟨0,Nat.zero_le _,pattern.zero,Or.inl rfl,?_⟩
      rw [pairCount_inserted, if_neg h, if_pos rfl, max_eq_right hle, List.drop_zero]
      rfl
  · rintro _ ⟨p,_,c,hc,rfl⟩
    rw [pairCount_inserted]
    rcases hc with rfl | rfl
    · have hle := (List.drop_sublist p text).count_le pattern.one
      rw [if_neg h, if_pos rfl]
      omega
    · have hle := (List.take_sublist p text).count_le pattern.zero
      rw [if_pos rfl, if_neg (Ne.symm h)]
      omega

/-- The result is the greatest number of pairs over all insertions. -/
theorem maximumSubsequenceCount_isGreatest (text : List UInt8) (pattern : Pattern) :
    IsGreatest (insertions text pattern) (maximumSubsequenceCount text pattern) := by
  by_cases h : pattern.zero = pattern.one
  · obtain ⟨hmem,hall⟩ := insertions_equal h text
    exact ⟨hmem,fun m hm => (hall m hm).le⟩
  · exact insertions_distinct h text

example : maximumSubsequenceCount [97,98,100,99,98,99] ⟨97,99⟩ = 4 := by decide

end Gopher.SubsequenceCount
