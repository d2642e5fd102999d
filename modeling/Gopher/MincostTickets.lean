import Gopher.IntervalCover

/-!
# The cheapest tickets for a year

A pass begins on any day and is good for one, seven or thirty days. The
payments are remembered in an array where zero stands for a payment that is
not known, so one that is zero is found again each time.
-/

set_option autoImplicit false

namespace Gopher.MincostTickets
open Gopher.IntervalCover

abbrev Memo : Type := Vector ℕ 366

section Program

variable (daySet : Finset ℤ) (costs : Fin 3 → ℕ)

def dp (i : ℕ) (payment : Memo) : ℕ × Memo :=
  if h : 365 < i then (0,payment)
  else if payment[i] ≠ 0 then (payment[i],payment)
  else if (i : ℤ) ∈ daySet then
    let one := dp (i+1) payment
    let seven := dp (i+7) one.2
    let thirty := dp (i+30) seven.2
    let least := min (min (one.1+costs 0) (seven.1+costs 1)) (thirty.1+costs 2)
    (least,thirty.2.set i least)
  else
    let next := dp (i+1) payment
    (next.1,next.2.set i next.1)
termination_by 366-i

def mincostTickets (days : List ℤ) (costs : Fin 3 → ℕ) : ℕ :=
  (dp days.toFinset costs 1 (Vector.replicate 366 0)).1

/-! ## The recurrence without the array -/

def payFrom (i : ℕ) : ℕ :=
  if 365 < i then 0
  else if (i : ℤ) ∈ daySet then
    min (min (payFrom (i+1)+costs 0) (payFrom (i+7)+costs 1)) (payFrom (i+30)+costs 2)
  else payFrom (i+1)
termination_by 366-i

def Remembers (payment : Memo) : Prop :=
  ∀ j (h : j < 366), payment[j] ≠ 0 → payment[j] = payFrom daySet costs j

theorem remembers_set {payment : Memo} (h : Remembers daySet costs payment) {i : ℕ} (hi : i < 366)
    {value : ℕ} (hvalue : value = payFrom daySet costs i) :
    Remembers daySet costs (payment.set i value) := by
  intro j hj hne
  rw [Vector.getElem_set] at hne ⊢
  split_ifs at hne ⊢ with hij
  · subst hij
    exact hvalue
  · exact h j hj hne

theorem dp_eq (i : ℕ) (payment : Memo) (h : Remembers daySet costs payment) :
    (dp daySet costs i payment).1 = payFrom daySet costs i ∧
      Remembers daySet costs (dp daySet costs i payment).2 := by
  induction i, payment using dp.induct daySet costs with
  | case1 i payment hi =>
    rw [dp, dif_pos hi, payFrom, if_pos hi]
    exact ⟨rfl,h⟩
  | case2 i payment hi hknown =>
    rw [dp, dif_neg hi, if_pos hknown]
    exact ⟨h i (by omega) hknown,h⟩
  | case3 i payment hi hknown hday one seven ih1 ih7 _ ih30 =>
    obtain ⟨h1,hr1⟩ := ih1 h
    obtain ⟨h7,hr7⟩ := ih7 hr1
    obtain ⟨h30,hr30⟩ := ih30 hr7
    have hleast : min (min ((dp daySet costs (i+1) payment).1+costs 0)
        ((dp daySet costs (i+7) one.2).1+costs 1))
        ((dp daySet costs (i+30) seven.2).1+costs 2) = payFrom daySet costs i := by
      rw [h1, h7, h30, payFrom.eq_def daySet costs i, if_neg hi, if_pos hday]
    rw [dp, dif_neg hi, if_neg hknown, if_pos hday]
    exact ⟨hleast,remembers_set daySet costs hr30 (by omega) hleast⟩
  | case4 i payment hi hknown hday ih =>
    obtain ⟨hnext,hr⟩ := ih h
    have hsame : payFrom daySet costs (i+1) = payFrom daySet costs i := by
      rw [payFrom.eq_def daySet costs i, if_neg hi, if_neg hday]
    rw [dp, dif_neg hi, if_neg hknown, if_neg hday]
    exact ⟨hnext.trans hsame,remembers_set daySet costs hr (by omega) (hnext.trans hsame)⟩

end Program

/-! ## The recurrence is optimal -/

def duration : Fin 3 → ℤ := ![1,7,30]

theorem duration_nonneg (i : ℤ) (k : Fin 3) : i ≤ i+duration k := by
  fin_cases k <;> simp [duration]

theorem min_isLeast (f : Fin 3 → ℕ) :
    IsLeast (Set.range f) (min (min (f 0) (f 1)) (f 2)) := by
  constructor
  · rcases min_choice (min (f 0) (f 1)) (f 2) with h | h
    · rcases min_choice (f 0) (f 1) with h' | h'
      · exact ⟨0,by rw [h, h']⟩
      · exact ⟨1,by rw [h, h']⟩
    · exact ⟨2,h.symm⟩
  · rintro _ ⟨k,rfl⟩
    fin_cases k <;> simp

theorem onward_succ {points : Set ℤ} {i : ℤ} (h : i ∉ points) :
    onward points (i+1) = onward points i := by
  ext x
  refine and_congr_right fun hx => ?_
  have : x ≠ i := fun he => h (he ▸ hx)
  omega

theorem payFrom_cheapest (daySet : Finset ℤ) (costs : Fin 3 → ℕ) (hlast : ∀ d ∈ daySet, d ≤ 365)
    (i : ℕ) : Cheapest duration costs (onward daySet i) (payFrom daySet costs i) := by
  induction i using payFrom.induct daySet with
  | case1 i hi =>
    have hempty : onward (daySet : Set ℤ) i = ∅ := by
      ext x
      simp only [onward, Set.mem_ofPred_eq, Set.mem_empty_iff_false, iff_false, not_and]
      intro hx
      have := hlast x hx
      omega
    rw [hempty, payFrom, if_pos hi]
    exact cheapest_empty duration costs
  | case2 i hi hday ih1 ih7 ih30 =>
    rw [payFrom, if_neg hi, if_pos hday]
    apply cheapest_step (duration_nonneg i) hday
      (c := ![payFrom daySet costs (i+1),payFrom daySet costs (i+7),payFrom daySet costs (i+30)])
    · intro k
      fin_cases k
      · exact ih1
      · exact ih7
      · exact ih30
    · exact min_isLeast _
  | case3 i hi hday ih =>
    rw [payFrom, if_neg hi, if_neg hday, ← onward_succ hday]
    exact ih

/-- The result is the least price of a set of passes that covers all days. -/
theorem mincostTickets_optimal (days : List ℤ) (costs : Fin 3 → ℕ)
    (hdays : ∀ d ∈ days, 1 ≤ d ∧ d ≤ 365) :
    Cheapest duration costs {d | d ∈ days} (mincostTickets days costs) := by
  have hmem : ∀ {d}, d ∈ days.toFinset ↔ d ∈ days := List.mem_toFinset
  have hstart : Remembers days.toFinset costs (Vector.replicate 366 0) := by
    intro j hj hne
    exact absurd (Vector.getElem_replicate hj) hne
  have hall : onward (days.toFinset : Set ℤ) (1 : ℕ) = {d | d ∈ days} := by
    ext d
    simp only [onward, Finset.mem_coe, hmem, Set.mem_ofPred_eq]
    exact and_iff_left_of_imp fun hd => (hdays d hd).1
  have hcheapest := payFrom_cheapest days.toFinset costs (fun d hd => (hdays d (hmem.mp hd)).2) 1
  rwa [hall, ← (dp_eq days.toFinset costs 1 _ hstart).1] at hcheapest

theorem mincostTickets_optimal_six_days :
    Cheapest duration ![2,7,15] {d | d ∈ [1,4,6,7,8,20]}
      (mincostTickets [1,4,6,7,8,20] ![2,7,15]) :=
  mincostTickets_optimal [1,4,6,7,8,20] ![2,7,15] (by decide)

end Gopher.MincostTickets
