import Mathlib.Data.Finset.Card
import Mathlib.Data.Finset.Image
import Mathlib.Data.List.Dedup
import Mathlib.Order.Bounds.Basic
import Mathlib.Tactic
import Gopher.Loops

/-!
# The longest run of consecutive values

The values are the keys of a map, enumerated in any order. Only a key without
a predecessor is followed, by a loop that ends at the first missing key.
Integers do not wrap around.
-/

set_option autoImplicit false

namespace Gopher.LongestConsecutive
open Gopher.Loops

def keySet (nums : List ℤ) : Finset ℤ :=
  nums.foldl (fun vToIdx v => if v ∈ vToIdx then vToIdx else insert v vToIdx) ∅

structure Enumeration (vToIdx : Finset ℤ) where
  order : List ℤ
  nodup : order.Nodup
  mem_iff : ∀ v, v ∈ order ↔ v ∈ vToIdx

def extend (vToIdx : Finset ℤ) (s : ℤ × ℕ) : ℤ × ℕ ⊕ ℕ :=
  if s.1+1 ∈ vToIdx then .inl (s.1+1,s.2+1) else .inr s.2

def visit (fuel : ℕ) (vToIdx : Finset ℤ) (maxLen : ℕ) (v : ℤ) : Option ℕ :=
  if v-1 ∈ vToIdx then some maxLen
  else do
    let curLen ← loop (extend vToIdx) fuel (v,1)
    return if curLen > maxLen then curLen else maxLen

def longestConsecutive (fuel : ℕ) (nums : List ℤ) (keys : Enumeration (keySet nums)) : Option ℕ :=
  if nums.length = 0 then some 0
  else keys.order.foldlM (visit fuel (keySet nums)) 1

/-! ## Runs -/

theorem mem_keySet {nums : List ℤ} {v : ℤ} : v ∈ keySet nums ↔ v ∈ nums := by
  have h : ∀ (l : List ℤ) (s : Finset ℤ),
      v ∈ l.foldl (fun vToIdx v => if v ∈ vToIdx then vToIdx else insert v vToIdx) s ↔
        v ∈ s ∨ v ∈ l := by
    intro l
    induction l with
    | nil => simp
    | cons x l ih =>
      intro s
      rw [List.foldl_cons, ih, List.mem_cons]
      split
      · constructor
        · rintro (hs | hl)
          · exact Or.inl hs
          · exact Or.inr (Or.inr hl)
        · rintro (hs | rfl | hl)
          · exact Or.inl hs
          · exact Or.inl ‹_›
          · exact Or.inr hl
      · rw [Finset.mem_insert]
        tauto
  simpa [keySet] using h nums ∅

def lastSeen (nums : List ℤ) : Enumeration (keySet nums) where
  order := nums.dedup
  nodup := nums.nodup_dedup
  mem_iff v := by rw [List.mem_dedup, mem_keySet]

def Run (vToIdx : Finset ℤ) (m : ℤ) (n : ℕ) : Prop := ∀ i : ℕ, i < n → m+i ∈ vToIdx

variable {vToIdx : Finset ℤ}

theorem Run.le_card {m : ℤ} {n : ℕ} (h : Run vToIdx m n) : n ≤ vToIdx.card := by
  have hsub : (Finset.range n).image (fun i : ℕ => m+i) ⊆ vToIdx := by
    intro x hx
    obtain ⟨i,hi,rfl⟩ := Finset.mem_image.mp hx
    exact h i (Finset.mem_range.mp hi)
  have hinj : Function.Injective (fun i : ℕ => m+i) := by
    intro i j hij
    simpa using hij
  simpa [Finset.card_image_of_injective _ hinj] using Finset.card_le_card hsub

theorem Run.snoc {m : ℤ} {n : ℕ} (h : Run vToIdx m n) (hn : m+n ∈ vToIdx) :
    Run vToIdx m (n+1) := by
  intro i hi
  rcases Nat.lt_succ_iff_lt_or_eq.mp hi with hi | rfl
  · exact h i hi
  · exact hn

theorem Run.cons {m : ℤ} {n : ℕ} (h : Run vToIdx m n) (hm : m-1 ∈ vToIdx) :
    Run vToIdx (m-1) (n+1) := by
  intro i hi
  cases i with
  | zero => simpa using hm
  | succ i =>
    have := h i (by omega)
    rwa [show m-1+((i+1 : ℕ) : ℤ) = m+i by push_cast; ring]

/-- Every run can be prolonged downwards to a key without a predecessor. -/
theorem Run.exists_start {n : ℕ} : ∀ {m : ℤ}, 0 < n → Run vToIdx m n →
    ∃ v k, v ∈ vToIdx ∧ v-1 ∉ vToIdx ∧ n ≤ k ∧ Run vToIdx v k := by
  induction hd : vToIdx.card-n generalizing n with
  | zero =>
    intro m hn h
    refine ⟨m,n,by simpa using h 0 hn,?_,le_rfl,h⟩
    intro hm
    have := (h.cons hm).le_card
    omega
  | succ d ih =>
    intro m hn h
    by_cases hm : m-1 ∈ vToIdx
    · obtain ⟨v,k,hv,hstart,hk,hrun⟩ := ih (n := n+1) (by omega) (Nat.succ_pos n) (h.cons hm)
      exact ⟨v,k,hv,hstart,by omega,hrun⟩
    · exact ⟨m,n,by simpa using h 0 hn,hm,le_rfl,h⟩

/-! ## The loops -/

/-- From a key the inner loop finds the length of the run that starts there. -/
theorem extend_total {v : ℤ} (hv : v ∈ vToIdx) (fuel : ℕ) (hfuel : vToIdx.card < fuel) :
    ∃ r, loop (extend vToIdx) fuel (v,1) = some r ∧ 0 < r ∧ Run vToIdx v r ∧
      v+r ∉ vToIdx := by
  apply loop_total (extend vToIdx)
    (fun s => 0 < s.2 ∧ s.1+1 = v+s.2 ∧ Run vToIdx v s.2) (fun s => vToIdx.card-s.2)
  · rintro ⟨w,c⟩ ⟨hc,hw,hrun⟩
    unfold extend
    split
    · rename_i hmem
      dsimp only at hw hmem
      rw [hw] at hmem
      have hnext := hrun.snoc hmem
      have := hnext.le_card
      refine ⟨⟨Nat.succ_pos c,?_,hnext⟩,?_⟩
      · push_cast
        omega
      · dsimp only
        omega
    · rename_i hmem
      dsimp only at hw hmem
      rw [hw] at hmem
      exact ⟨hc,hrun,hmem⟩
  · refine ⟨Nat.one_pos,rfl,?_⟩
    intro i hi
    obtain rfl : i = 0 := by omega
    simpa using hv
  · dsimp only
    omega

structure Longest (vToIdx : Finset ℤ) (seen : List ℤ) (maxLen : ℕ) : Prop where
  attained : ∃ m, Run vToIdx m maxLen
  bound : ∀ v ∈ seen, v-1 ∉ vToIdx → ∀ n, Run vToIdx v n → n ≤ maxLen

theorem visit_longest {fuel maxLen : ℕ} {seen : List ℤ} {v : ℤ} (hv : v ∈ vToIdx)
    (hfuel : vToIdx.card < fuel) (h : Longest vToIdx seen maxLen) :
    ∃ r, visit fuel vToIdx maxLen v = some r ∧ Longest vToIdx (seen++[v]) r := by
  by_cases hstart : v-1 ∈ vToIdx
  · refine ⟨maxLen,if_pos hstart,h.attained,?_⟩
    intro w hw hw1
    rcases List.mem_append.mp hw with hw | hw
    · exact h.bound w hw hw1
    · rw [List.mem_singleton] at hw
      exact absurd (hw ▸ hstart) hw1
  · obtain ⟨c,hc,-,hrun,hend⟩ := extend_total hv fuel hfuel
    refine ⟨max c maxLen,?_,?_,?_⟩
    · rw [visit, if_neg hstart, hc]
      show some _ = _
      congr 1
      split <;> omega
    · rcases max_choice c maxLen with he | he
      · exact ⟨v,by rwa [he]⟩
      · rw [he]
        exact h.attained
    · intro w hw hw1 n hn
      rcases List.mem_append.mp hw with hw | hw
      · exact (h.bound w hw hw1 n hn).trans (le_max_right _ _)
      · rw [List.mem_singleton] at hw
        subst hw
        apply le_max_of_le_left
        by_contra hlt
        exact hend (hn c (by omega))

theorem foldlM_longest {fuel : ℕ} (hfuel : vToIdx.card < fuel) (order : List ℤ) :
    ∀ (seen : List ℤ) (maxLen : ℕ), (∀ v ∈ order, v ∈ vToIdx) → Longest vToIdx seen maxLen →
      ∃ r, order.foldlM (visit fuel vToIdx) maxLen = some r ∧
        Longest vToIdx (seen++order) r := by
  induction order with
  | nil =>
    intro seen maxLen _ h
    exact ⟨maxLen,rfl,by simpa using h⟩
  | cons v order ih =>
    intro seen maxLen hmem h
    obtain ⟨r,hr,hlong⟩ := visit_longest (hmem v List.mem_cons_self) hfuel h
    obtain ⟨r',hr',hlong'⟩ :=
      ih (seen++[v]) r (fun w hw => hmem w (List.mem_cons_of_mem v hw)) hlong
    refine ⟨r',?_,by simpa using hlong'⟩
    rw [List.foldlM_cons, hr]
    exact hr'

def runLengths (nums : List ℤ) : Set ℕ := {n | ∃ m : ℤ, ∀ i : ℕ, i < n → m+i ∈ nums}

theorem longest_isGreatest {nums : List ℤ} {seen : List ℤ} {maxLen : ℕ}
    (hseen : ∀ v ∈ keySet nums, v ∈ seen) (h : Longest (keySet nums) seen maxLen) :
    IsGreatest (runLengths nums) maxLen := by
  constructor
  · obtain ⟨m,hrun⟩ := h.attained
    exact ⟨m,fun i hi => mem_keySet.mp (hrun i hi)⟩
  · rintro n ⟨m,hm⟩
    rcases Nat.eq_zero_or_pos n with rfl | hn
    · exact Nat.zero_le _
    · have hrun : Run (keySet nums) m n := fun i hi => mem_keySet.mpr (hm i hi)
      obtain ⟨v,k,hv,hstart,hk,hrun'⟩ := hrun.exists_start hn
      exact hk.trans (h.bound v (hseen v hv) hstart k hrun')

/-- With enough fuel every order of the keys gives the length of a longest run. -/
theorem longestConsecutive_isGreatest (nums : List ℤ) :
    ∃ bound, ∀ (keys : Enumeration (keySet nums)) (fuel : ℕ), bound < fuel →
      ∃ n, longestConsecutive fuel nums keys = some n ∧ IsGreatest (runLengths nums) n := by
  refine ⟨(keySet nums).card,?_⟩
  intro keys fuel hfuel
  cases nums with
  | nil =>
    refine ⟨0,rfl,⟨0,fun i hi => absurd hi (Nat.not_lt_zero i)⟩,?_⟩
    rintro n ⟨m,hm⟩
    by_contra hn
    exact absurd (hm 0 (by omega)) List.not_mem_nil
  | cons x rest =>
    have hstart : Longest (keySet (x::rest)) [] 1 := by
      refine ⟨⟨x,?_⟩,by simp⟩
      intro i hi
      obtain rfl : i = 0 := by omega
      simpa using mem_keySet.mpr (List.mem_cons_self (a := x) (l := rest))
    obtain ⟨r,hr,hlong⟩ := foldlM_longest hfuel keys.order [] 1
      (fun v hv => (keys.mem_iff v).mp hv) hstart
    refine ⟨r,hr,longest_isGreatest ?_ hlong⟩
    intro v hv
    simpa using (keys.mem_iff v).mpr hv

example : longestConsecutive 7 [100,4,200,1,3,2] (lastSeen _) = some 4 := by decide

end Gopher.LongestConsecutive
