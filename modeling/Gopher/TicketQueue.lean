import Mathlib.Algebra.BigOperators.Group.Finset.Basic
import Mathlib.Algebra.BigOperators.Group.Finset.Piecewise
import Mathlib.Algebra.BigOperators.Fin
import Mathlib.Tactic
import Gopher.Loops

/-!
# Buying tickets in turn

One ticket a turn, round after round, until the watched person has bought the
last one. The loop has no bound; the time is a 64-bit integer.
-/

set_option autoImplicit false

namespace Gopher.TicketQueue
open Gopher.Loops

structure State (n : ℕ) where
  tickets : Vector ℕ n
  i : Fin n
  ans : Int64

variable {n : ℕ}

def next (i : Fin n) : Fin n := ⟨(i+1)%n,Nat.mod_lt _ i.pos⟩

def body (k : Fin n) (s : State n) : State n ⊕ Int64 :=
  if s.tickets[s.i] = 0 then .inl { s with i := next s.i }
  else
    let ans := s.ans+1
    let tickets := s.tickets.set s.i (s.tickets[s.i]-1)
    if tickets[s.i] = 0 ∧ s.i = k then .inr ans
    else .inl ⟨tickets,next s.i,ans⟩

def timeRequiredToBuy (fuel : ℕ) (tickets : Vector ℕ n) (k : Fin n) : Option Int64 :=
  loop (body k) fuel ⟨tickets,⟨0,k.pos⟩,0⟩

/-! ## Turns still to come -/

def turn (i j : Fin n) : ℕ := if i ≤ j then j-i else j+n-i

def share (t : Vector ℕ n) (k i j : Fin n) : ℕ :=
  min t[j] (if turn i j ≤ turn i k then t[k] else t[k]-1)

def remaining (t : Vector ℕ n) (k i : Fin n) : ℕ := ∑ j, share t k i j

theorem next_val (i : Fin n) : (next i : ℕ) = if (i : ℕ)+1 = n then 0 else (i : ℕ)+1 := by
  show ((i : ℕ)+1)%n = _
  split
  · rename_i h
    rw [h, Nat.mod_self]
  · exact Nat.mod_eq_of_lt (by omega)

theorem turn_self (i : Fin n) : turn i i = 0 := by simp [turn]

theorem turn_lt (i j : Fin n) : turn i j < n := by
  unfold turn
  split <;> omega

theorem turn_next_self (i : Fin n) : turn (next i) i+1 = n := by
  simp only [turn, Fin.le_def, next_val]
  split <;> split <;> omega

theorem turn_next {i j : Fin n} (h : j ≠ i) : turn (next i) j+1 = turn i j := by
  have hne : (j : ℕ) ≠ i := fun he => h (Fin.ext he)
  simp only [turn, Fin.le_def, next_val]
  split <;> split <;> split <;> omega

theorem turn_next_le {i j k : Fin n} (hj : j ≠ i) (hk : k ≠ i) :
    turn (next i) j ≤ turn (next i) k ↔ turn i j ≤ turn i k := by
  have hj' := turn_next hj
  have hk' := turn_next hk
  omega

variable {t : Vector ℕ n} {k i : Fin n}

theorem set_getElem (i : Fin n) (v : ℕ) (m : Fin n) :
    (t.set i v)[m] = if m = i then v else t[m] := by
  simp only [Fin.getElem_fin, Vector.getElem_set, Fin.ext_iff, eq_comm]

theorem share_skip (hi : t[i] = 0) (hk : k ≠ i) (j : Fin n) :
    share t k (next i) j = share t k i j := by
  by_cases hj : j = i
  · rw [share, share, hj, hi, Nat.zero_min, Nat.zero_min]
  · simp only [share, turn_next_le hj hk]

theorem share_buy (hi : 0 < t[i]) (hk : 0 < t[k]) (j : Fin n) :
    share (t.set i (t[i]-1)) k (next i) j+(if j = i then 1 else 0) = share t k i j := by
  have hset : ∀ m : Fin n, (t.set i (t[i]-1))[m] = if m = i then t[i]-1 else t[m] :=
    set_getElem i (t[i]-1)
  have hself := turn_next_self i
  by_cases hj : j = i
  · subst hj
    by_cases hkj : k = j
    · subst hkj
      simp only [share, hset, if_true, le_refl]
      omega
    · have hlater : ¬turn (next j) j ≤ turn (next j) k := by
        have := turn_next hkj
        have := turn_lt j k
        omega
      simp only [share, hset, if_true, hkj, if_false, hlater, turn_self, Nat.zero_le]
      omega
  · by_cases hki : k = i
    · subst hki
      have hsooner : turn (next k) j ≤ turn (next k) k := by
        have := turn_lt (next k) j
        omega
      have hlater : ¬turn k j ≤ turn k k := by
        have := turn_next hj
        rw [turn_self]
        omega
      simp only [share, hset, if_true, hj, if_false, hsooner, hlater, Nat.add_zero]
    · simp only [share, hset, hj, hki, if_false, turn_next_le hj hki, Nat.add_zero]

theorem remaining_skip (hi : t[i] = 0) (hk : k ≠ i) :
    remaining t k (next i) = remaining t k i :=
  Finset.sum_congr rfl (fun j _ => share_skip hi hk j)

theorem remaining_buy (hi : 0 < t[i]) (hk : 0 < t[k]) :
    remaining (t.set i (t[i]-1)) k (next i)+1 = remaining t k i := by
  have h : ∑ j, (share (t.set i (t[i]-1)) k (next i) j+(if j = i then 1 else 0)) =
      remaining t k i := Finset.sum_congr rfl (fun j _ => share_buy hi hk j)
  rw [Finset.sum_add_distrib, Finset.sum_ite_eq' Finset.univ i (fun _ => 1),
    if_pos (Finset.mem_univ i)] at h
  exact h

theorem remaining_done (hk : t[k] = 0) : remaining t k i = 0 := by
  apply Finset.sum_eq_zero
  intro j _
  simp [share, hk]

/-! ## The whole loop -/

def Invariant (k : Fin n) (total : ℕ) (s : State n) : Prop :=
  0 < s.tickets[k] ∧
    ∃ a : ℕ, s.ans = Int64.ofNat a ∧ a+remaining s.tickets k s.i = total

def measure (k : Fin n) (s : State n) : ℕ := remaining s.tickets k s.i*n+turn s.i k

theorem body_advances (k : Fin n) (total : ℕ) (s : State n) (h : Invariant k total s) :
    Advances (Invariant k total) (measure k) (fun r => r = Int64.ofNat total) s (body k s) := by
  obtain ⟨hk,a,ha,htotal⟩ := h
  have hans : s.ans+1 = Int64.ofNat (a+1) := by rw [ha, Int64.ofNat_add]; rfl
  by_cases hi : s.tickets[s.i] = 0
  · have hne : k ≠ s.i := by
      intro he
      rw [he] at hk
      omega
    have hsame := remaining_skip hi hne
    rw [body, if_pos hi]
    refine ⟨⟨hk,a,ha,?_⟩,?_⟩
    · rw [hsame, htotal]
    · have := turn_next hne
      simp only [measure, hsame]
      omega
  · have hpos : 0 < s.tickets[s.i] := Nat.pos_of_ne_zero hi
    have hbuy := remaining_buy hpos hk
    rw [body, if_neg hi]
    dsimp only
    split
    · rename_i hend
      obtain ⟨hz,rfl⟩ := hend
      rw [remaining_done hz] at hbuy
      show s.ans+1 = Int64.ofNat total
      rw [hans, ← htotal, ← hbuy]
    · rename_i hgo
      refine ⟨⟨?_,a+1,hans,?_⟩,?_⟩
      · apply Nat.pos_of_ne_zero
        intro hz
        by_cases hki : s.i = k
        · subst hki
          exact hgo ⟨hz,rfl⟩
        · rw [set_getElem, if_neg (Ne.symm hki)] at hz
          omega
      · dsimp only
        omega
      · have hlt := turn_lt (next s.i) k
        simp only [measure, ← hbuy, Nat.add_mul, Nat.one_mul]
        omega

/-- Everyone up to the watched person buys as many tickets as that person, if they want so
many, everyone behind one less. -/
def closedForm (t : Vector ℕ n) (k : Fin n) : ℕ :=
  ∑ i with i ≤ k, min t[i] t[k]+∑ i with k < i, min t[i] (t[k]-1)

theorem remaining_start (t : Vector ℕ n) (k : Fin n) :
    remaining t k ⟨0,k.pos⟩ = closedForm t k := by
  have hshare : ∀ j, share t k ⟨0,k.pos⟩ j =
      if j ≤ k then min t[j] t[k] else min t[j] (t[k]-1) := by
    intro j
    have hturn : ∀ m : Fin n, turn ⟨0,k.pos⟩ m = m := by
      intro m
      simp [turn, Fin.le_def]
    simp only [share, hturn, Fin.le_def]
    split <;> rfl
  simp only [remaining, hshare, Finset.sum_ite, not_le, closedForm]

/-- With enough fuel the time is the closed form, as a number if it fits. -/
theorem timeRequiredToBuy_closedForm (tickets : Vector ℕ n) (k : Fin n) (hk : 1 ≤ tickets[k]) :
    ∃ bound, ∀ fuel, bound < fuel →
      ∃ r, timeRequiredToBuy fuel tickets k = some r ∧
        r = Int64.ofNat (closedForm tickets k) ∧
        (closedForm tickets k < 2^63 → r.toInt = closedForm tickets k) := by
  refine ⟨measure k ⟨tickets,⟨0,k.pos⟩,0⟩,?_⟩
  intro fuel hfuel
  have hinv : Invariant k (closedForm tickets k) ⟨tickets,⟨0,k.pos⟩,0⟩ := by
    refine ⟨hk,0,rfl,?_⟩
    rw [Nat.zero_add, remaining_start]
  obtain ⟨r,hr,hpost⟩ := loop_total (body k) (Invariant k (closedForm tickets k)) (measure k)
    (fun r => r = Int64.ofNat (closedForm tickets k)) (body_advances k _) fuel _ hinv hfuel
  refine ⟨r,hr,hpost,?_⟩
  intro hfits
  rw [hpost]
  exact Int64.toInt_ofNat_of_lt hfits

theorem timeRequiredToBuy_three :
    1 ≤ (#v[2,3,2] : Vector ℕ 3)[(2 : Fin 3)] ∧
      ∃ bound, ∀ fuel, bound < fuel →
        ∃ r, timeRequiredToBuy fuel #v[2,3,2] 2 = some r ∧ r = 6 := by
  have hk : 1 ≤ (#v[2,3,2] : Vector ℕ 3)[(2 : Fin 3)] := by decide
  obtain ⟨bound,h⟩ := timeRequiredToBuy_closedForm #v[2,3,2] 2 hk
  refine ⟨hk,bound,?_⟩
  intro fuel hfuel
  obtain ⟨r,hr,hclosed,-⟩ := h fuel hfuel
  exact ⟨r,hr,hclosed.trans (by decide)⟩

end Gopher.TicketQueue
