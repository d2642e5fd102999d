import Mathlib.Algebra.Order.Monoid.WithTop
import Mathlib.Algebra.Order.Floor.Ring
import Mathlib.Data.Rat.Floor
import Mathlib.Algebra.BigOperators.Group.List.Basic
import Mathlib.Tactic
import Gopher.Bisection

/-!
# The least speed that arrives in time

Floating-point numbers are exact rationals, and a division by zero is infinite.
The list of distances is a beginning, whose legs are rounded up to full hours,
and a last leg.
-/

set_option autoImplicit false

namespace Gopher.MinSpeed
open Gopher.Bisection

section Program

def delta (dist speed : ℤ) : WithTop ℚ :=
  if speed = 0 then ⊤ else (((dist : ℚ)/speed : ℚ) : WithTop ℚ)

def ceil : WithTop ℚ → WithTop ℚ := WithTop.map (fun x => (⌈x⌉ : ℚ))

def int (x : ℚ) : ℤ := if 0 ≤ x then ⌊x⌋ else ⌈x⌉

def totalHour (speed : ℤ) : List ℤ → WithTop ℚ → WithTop ℚ
  | [], ret => ret
  | [dist], ret => ret+delta dist speed
  | dist::rest, ret => totalHour speed rest (ret+ceil (delta dist speed))

def minSpeedOnTime (dists : List ℤ) (hour : ℚ) : ℤ :=
  if hour ≤ dists.length-1 then -1
  else
    let totalDist : ℚ := dists.foldl (fun (total : ℚ) (dist : ℤ) => total+dist) 0
    let leftSpeed := totalDist/hour
    if (⌈leftSpeed⌉ : ℚ) = leftSpeed then int leftSpeed
    else
      bisect (fun speed => ¬hour < totalHour speed dists 0)
        (int ⌊leftSpeed⌋) (int ⌈totalDist/(hour-(dists.length-1))⌉)

end Program

/-! ## Travel times -/

def time (init : List ℤ) (last speed : ℤ) : ℚ :=
  (init.map (fun d : ℤ => (⌈(d : ℚ)/speed⌉ : ℚ))).sum+(last : ℚ)/speed

def total (init : List ℤ) (last : ℤ) : ℚ := (init.map (fun d : ℤ => (d : ℚ))).sum+last

def Sufficient (init : List ℤ) (last : ℤ) (hour : ℚ) (v : ℤ) : Prop :=
  0 < v ∧ time init last v ≤ hour

variable {init : List ℤ} {last : ℤ} {hour : ℚ}

theorem totalHour_zero (init : List ℤ) (last : ℤ) (ret : WithTop ℚ) :
    totalHour 0 (init++[last]) ret = ⊤ := by
  induction init generalizing ret with
  | nil => simp [totalHour, delta]
  | cons d init ih =>
    cases init with
    | nil => exact ih _
    | cons e init => exact ih _

theorem totalHour_eq {v : ℤ} (hv : v ≠ 0) (init : List ℤ) (last : ℤ) (ret : ℚ) :
    totalHour v (init++[last]) ret = ((ret+time init last v : ℚ) : WithTop ℚ) := by
  induction init generalizing ret with
  | nil =>
    simp only [List.nil_append, totalHour, delta, if_neg hv, time, List.map_nil, List.sum_nil,
      zero_add, WithTop.coe_add]
  | cons d init ih =>
    have hstep : totalHour v (d::init++[last]) ret =
        totalHour v (init++[last]) ((ret+(⌈(d : ℚ)/v⌉ : ℚ) : ℚ) : WithTop ℚ) := by
      cases init <;> simp [totalHour, delta, if_neg hv, ceil]
    rw [hstep, ih]
    congr 1
    simp only [time, List.map_cons, List.sum_cons]
    ring

theorem foldl_total (init : List ℤ) (last : ℤ) :
    (init++[last]).foldl (fun (total : ℚ) (dist : ℤ) => total+dist) 0 = total init last := by
  have h : ∀ (l : List ℤ) (a : ℚ), l.foldl (fun (total : ℚ) (dist : ℤ) => total+dist) a =
      a+(l.map (fun d : ℤ => (d : ℚ))).sum := by
    intro l
    induction l with
    | nil => simp
    | cons d l ih =>
      intro a
      rw [List.foldl_cons, ih, List.map_cons, List.sum_cons, add_assoc]
  rw [h, total]
  simp

/-- Rounding lengthens each leg by less than an hour. -/
theorem time_le {v : ℤ} (init : List ℤ) (last : ℤ) :
    time init last v ≤ total init last/v+init.length := by
  induction init with
  | nil => simp [time, total]
  | cons d init ih =>
    have hd := (Int.ceil_lt_add_one ((d : ℚ)/v)).le
    simp only [time, total, List.map_cons, List.sum_cons, List.length_cons, Nat.cast_add,
      Nat.cast_one, add_div] at ih ⊢
    linarith

theorem total_le_time {v : ℤ} (init : List ℤ) (last : ℤ) :
    total init last/v ≤ time init last v := by
  induction init with
  | nil => simp [time, total]
  | cons d init ih =>
    have hd := Int.le_ceil ((d : ℚ)/v)
    simp only [time, total, List.map_cons, List.sum_cons, add_div] at ih ⊢
    linarith

/-- No leg is lengthened exactly when the speed divides every leg of the beginning. -/
theorem time_le_total_iff {v : ℤ} (hv : 0 < v) (init : List ℤ) (last : ℤ) :
    time init last v ≤ total init last/v ↔ ∀ d ∈ init, v ∣ d := by
  have hv' : (v : ℚ) ≠ 0 := by exact_mod_cast hv.ne'
  induction init with
  | nil => simp [time, total]
  | cons d init ih =>
    have hd := Int.le_ceil ((d : ℚ)/v)
    have hrest := total_le_time (v := v) init last
    have hcons : time (d::init) last v ≤ total (d::init) last/v ↔
        (⌈(d : ℚ)/v⌉ : ℚ) ≤ (d : ℚ)/v ∧ time init last v ≤ total init last/v := by
      simp only [time, total, List.map_cons, List.sum_cons, add_div] at hrest ⊢
      constructor
      · intro h
        constructor <;> linarith
      · intro h
        linarith [h.1, h.2]
    rw [hcons, List.forall_mem_cons]
    apply and_congr _ ih
    constructor
    · intro h
      have he : (⌈(d : ℚ)/v⌉ : ℚ) = (d : ℚ)/v := le_antisymm h hd
      rw [eq_div_iff hv'] at he
      exact ⟨⌈(d : ℚ)/v⌉,by rw [mul_comm]; exact_mod_cast he.symm⟩
    · rintro ⟨c,rfl⟩
      rw [Int.cast_mul, mul_div_cancel_left₀ _ hv', Int.ceil_intCast]

theorem length_lt_time {v : ℤ} (hv : 0 < v) (hpos : ∀ d ∈ init++[last], 0 < d) :
    init.length < time init last v := by
  have hv' : (0 : ℚ) < v := by exact_mod_cast hv
  induction init with
  | nil =>
    have hlast : (0 : ℚ) < last := by exact_mod_cast hpos last (by simp)
    simpa [time] using div_pos hlast hv'
  | cons d init ih =>
    have hd : (0 : ℚ) < d := by exact_mod_cast hpos d (by simp)
    have hceil : (1 : ℚ) ≤ ⌈(d : ℚ)/v⌉ := by
      exact_mod_cast Int.one_le_ceil_iff.mpr (div_pos hd hv')
    have hrest := ih (fun e he => hpos e (List.mem_cons_of_mem d he))
    simp only [time, List.map_cons, List.sum_cons, List.length_cons, Nat.cast_add,
      Nat.cast_one] at hrest ⊢
    linarith

theorem time_antitone {v w : ℤ} (hv : 0 < v) (hvw : v ≤ w) (hpos : ∀ d ∈ init++[last], 0 < d) :
    time init last w ≤ time init last v := by
  have hv' : (0 : ℚ) < v := by exact_mod_cast hv
  have hvw' : (v : ℚ) ≤ w := by exact_mod_cast hvw
  have hleg : ∀ d : ℤ, 0 < d → (d : ℚ)/w ≤ (d : ℚ)/v := by
    intro d hd
    have hd' : (0 : ℚ) ≤ d := by exact_mod_cast hd.le
    exact div_le_div_of_nonneg_left hd' hv' hvw'
  apply add_le_add
  · apply List.sum_le_sum
    intro d hd
    exact_mod_cast Int.ceil_mono (hleg d (hpos d (List.mem_append_left _ hd)))
  · exact hleg last (hpos last (by simp))

theorem total_pos (hpos : ∀ d ∈ init++[last], 0 < d) : 0 < total init last := by
  have hlast : (0 : ℚ) < last := by exact_mod_cast hpos last (by simp)
  have hsum : (0 : ℚ) ≤ (init.map (fun d : ℤ => (d : ℚ))).sum := by
    apply List.sum_nonneg
    intro q hq
    obtain ⟨d,hd,rfl⟩ := List.mem_map.mp hq
    exact_mod_cast (hpos d (List.mem_append_left _ hd)).le
  exact add_pos_of_nonneg_of_pos hsum hlast

/-! ## Bounds of the search -/

theorem not_sufficient_of_le (hpos : ∀ d ∈ init++[last], 0 < d) (h : hour ≤ init.length)
    (v : ℤ) : ¬Sufficient init last hour v := by
  rintro ⟨hv,ht⟩
  have := length_lt_time hv hpos
  linarith

theorem average_le_of_sufficient {v : ℤ} (hour0 : 0 < hour) (h : Sufficient init last hour v) :
    total init last/hour ≤ v := by
  have hv : (0 : ℚ) < v := by exact_mod_cast h.1
  rw [div_le_iff₀ hour0]
  have := (total_le_time (v := v) init last).trans h.2
  rw [div_le_iff₀ hv] at this
  linarith

theorem right_sufficient (hpos : ∀ d ∈ init++[last], 0 < d) (h : (init.length : ℚ) < hour) :
    Sufficient init last hour ⌈total init last/(hour-init.length)⌉ := by
  have hroom : 0 < hour-init.length := by linarith
  have hq : 0 < total init last/(hour-init.length) := div_pos (total_pos hpos) hroom
  have hv : 0 < ⌈total init last/(hour-init.length)⌉ := Int.ceil_pos.mpr hq
  have hv' : (0 : ℚ) < ⌈total init last/(hour-init.length)⌉ := by exact_mod_cast hv
  refine ⟨hv,(time_le init last).trans ?_⟩
  have hle := Int.le_ceil (total init last/(hour-init.length))
  rw [div_le_iff₀ hroom] at hle
  have : total init last/(⌈total init last/(hour-init.length)⌉ : ℚ) ≤ hour-init.length := by
    rw [div_le_iff₀ hv']
    linarith
  linarith

theorem sufficient_iff {v : ℤ} (hv : 0 ≤ v) :
    ¬(hour : WithTop ℚ) < totalHour v (init++[last]) 0 ↔ Sufficient init last hour v := by
  rcases hv.eq_or_lt with rfl | hpos
  · simp [totalHour_zero, Sufficient]
  · have hz : totalHour v (init++[last]) 0 = ((time init last v : ℚ) : WithTop ℚ) := by
      simpa using totalHour_eq hpos.ne' init last 0
    rw [hz, WithTop.coe_lt_coe, not_lt, Sufficient, and_iff_right hpos]

theorem int_intCast (n : ℤ) : int n = n := by
  unfold int
  split <;> simp

/-! ## The result -/

theorem minSpeedOnTime_late (h : hour ≤ init.length) :
    minSpeedOnTime (init++[last]) hour = -1 := by
  rw [minSpeedOnTime, if_pos (by simpa using h)]

theorem minSpeedOnTime_average {V : ℤ} (h : (init.length : ℚ) < hour)
    (hV : total init last/hour = V) : minSpeedOnTime (init++[last]) hour = V := by
  have hlate : ¬hour ≤ ((init++[last]).length : ℚ)-1 := by simpa using h
  rw [minSpeedOnTime, if_neg hlate]
  simp only [foldl_total, hV, Int.ceil_intCast, if_true, int_intCast]

section Result

variable (hpos : ∀ d ∈ init++[last], 0 < d)
include hpos

theorem minSpeedOnTime_search (h : (init.length : ℚ) < hour)
    (hV : ∀ V : ℤ, total init last/hour ≠ V) :
    IsLeast {v | Sufficient init last hour v} (minSpeedOnTime (init++[last]) hour) := by
  have hlate : ¬hour ≤ ((init++[last]).length : ℚ)-1 := by simpa using h
  have hlen : ((init++[last]).length : ℚ)-1 = init.length := by simp
  have hceil : ¬(⌈total init last/hour⌉ : ℚ) = total init last/hour := fun he => hV _ he.symm
  have hour0 : 0 < hour := lt_of_le_of_lt (Nat.cast_nonneg _) h
  have hleft : 0 ≤ ⌊total init last/hour⌋ :=
    Int.floor_nonneg.mpr (div_nonneg (total_pos hpos).le hour0.le)
  have hright := right_sufficient hpos h
  have hbelow : ∀ v, Sufficient init last hour v → ⌊total init last/hour⌋ ≤ v := by
    intro v hv
    exact_mod_cast (Int.floor_le _).trans (average_le_of_sufficient hour0 hv)
  have hmono : ∀ v w, ⌊total init last/hour⌋ ≤ v → v ≤ w →
      ¬(hour : WithTop ℚ) < totalHour v (init++[last]) 0 →
      ¬(hour : WithTop ℚ) < totalHour w (init++[last]) 0 := by
    intro v w hv hvw hgood
    rw [sufficient_iff (hleft.trans hv)] at hgood
    rw [sufficient_iff (by omega)]
    exact ⟨hgood.1.trans_le hvw,(time_antitone hgood.1 hvw hpos).trans hgood.2⟩
  rw [minSpeedOnTime, if_neg hlate]
  simp only [foldl_total, if_neg hceil, hlen, int_intCast]
  have hleast := bisect_isLeast _ _ hmono (hbelow _ hright)
    ((sufficient_iff hright.1.le).mpr hright)
  constructor
  · exact (sufficient_iff (hleft.trans hleast.1.1)).mp hleast.1.2
  · intro v hv
    exact hleast.2 ⟨hbelow v hv,(sufficient_iff hv.1.le).mpr hv⟩

theorem average_isLeast_iff {V : ℤ} (h : (init.length : ℚ) < hour)
    (hV : total init last/hour = V) :
    IsLeast {v | Sufficient init last hour v} V ↔ ∀ d ∈ init, V ∣ d := by
  have hour0 : 0 < hour := lt_of_le_of_lt (Nat.cast_nonneg _) h
  have hV0 : 0 < V := by
    have := div_pos (total_pos hpos) hour0
    rw [hV] at this
    exact_mod_cast this
  have hV' : (V : ℚ) ≠ 0 := by exact_mod_cast hV0.ne'
  have hhour : hour = total init last/V := by
    rw [eq_div_iff hV', ← hV]
    field_simp
  rw [← time_le_total_iff hV0 init last, ← hhour]
  constructor
  · intro hleast
    exact hleast.1.2
  · intro ht
    constructor
    · exact ⟨hV0,ht⟩
    · intro v hv
      have := average_le_of_sufficient hour0 hv
      rw [hV] at this
      exact_mod_cast this

end Result

/-- The result -1 means that no speed is sufficient, any other that it is the least. -/
def LeastOrNone (init : List ℤ) (last : ℤ) (hour : ℚ) (result : ℤ) : Prop :=
  (result = -1 ↔ ¬∃ v, Sufficient init last hour v) ∧
  ((∃ v, Sufficient init last hour v) → IsLeast {v | Sufficient init last hour v} result)

theorem leastOrNone_iff {result : ℤ} (h : ∃ v, Sufficient init last hour v) :
    LeastOrNone init last hour result ↔ IsLeast {v | Sufficient init last hour v} result := by
  constructor
  · intro hr
    exact hr.2 h
  · intro hleast
    refine ⟨iff_of_false ?_ (not_not_intro h),fun _ => hleast⟩
    have := hleast.1.1
    omega

/-- The search is right. The early return is right only for an average speed that
divides every distance but the last. -/
theorem minSpeedOnTime_least_iff (init : List ℤ) (last : ℤ) (hour : ℚ)
    (hpos : ∀ d ∈ init++[last], 0 < d) :
    LeastOrNone init last hour (minSpeedOnTime (init++[last]) hour) ↔
      hour ≤ init.length ∨
        ∀ V : ℤ, total init last/hour = V → ∀ d ∈ init, V ∣ d := by
  by_cases hlate : hour ≤ init.length
  · have hnone := not_sufficient_of_le hpos hlate
    apply iff_of_true _ (Or.inl hlate)
    rw [minSpeedOnTime_late hlate]
    exact ⟨iff_of_true rfl (not_exists.mpr hnone),fun ⟨v,hv⟩ => absurd hv (hnone v)⟩
  · have h : (init.length : ℚ) < hour := not_le.mp hlate
    rw [leastOrNone_iff ⟨_,right_sufficient hpos h⟩, or_iff_right hlate]
    by_cases hV : ∃ V : ℤ, total init last/hour = V
    · obtain ⟨V,hV⟩ := hV
      rw [minSpeedOnTime_average h hV, average_isLeast_iff hpos h hV]
      constructor
      · intro hdvd W hW
        rw [hV, Int.cast_inj] at hW
        exact hW ▸ hdvd
      · intro hall
        exact hall V hV
    · push Not at hV
      exact iff_of_true (minSpeedOnTime_search hpos h hV) (fun V hW => absurd hW (hV V))

theorem minSpeedOnTime_divisor :
    (∀ d ∈ [2]++[3], (0 : ℤ) < d) ∧
      LeastOrNone [2] 3 (5/2) (minSpeedOnTime ([2]++[3]) (5/2)) := by
  have hpos : ∀ d ∈ [2]++[3], (0 : ℤ) < d := by decide
  refine ⟨hpos,(minSpeedOnTime_least_iff [2] 3 (5/2) hpos).mpr (Or.inr ?_)⟩
  intro V hV
  have h2 : V = 2 := by
    norm_num [total] at hV
    exact_mod_cast hV.symm
  simp [h2]

theorem minSpeedOnTime_early :
    minSpeedOnTime ([1]++[3]) 2 = 2 ∧ IsLeast {v | Sufficient [1] 3 2 v} 3 := by
  constructor
  · exact minSpeedOnTime_average (by norm_num) (by norm_num [total])
  · constructor
    · norm_num [Sufficient, time]
    · intro v hv
      have hle := average_le_of_sufficient (by norm_num) hv
      have hv2 : 2 ≤ v := by
        norm_num [total] at hle
        exact_mod_cast hle
      by_contra hlt
      obtain rfl : v = 2 := by omega
      norm_num [Sufficient, time] at hv

end Gopher.MinSpeed
