import Mathlib.Order.Bounds.Basic
import Mathlib.Tactic
import Gopher.TwoPointers

/-!
# The container with most water

Two boards and the floor between them hold the distance times the lower board.
The program takes the higher board instead, in 64-bit arithmetic.
-/

set_option autoImplicit false

namespace Gopher.MaxArea
open Gopher.TwoPointers

variable {n : ℕ}

def cntArea (height : Vector Int64 n) (i j : ℕ) (hi : i < n) (hj : j < n) : Int64 :=
  Int64.ofNat (j-i)*(if height[i] < height[j] then height[j] else height[i])

def inward (height : Vector Int64 n) (i j : ℕ) (hj : i < j → j < n) (ans : Int64) : Int64 :=
  if h : i < j then
    have hjn : j < n := hj h
    if height[i] > height[j] then
      inward height i (j-1) (fun _ => by omega)
        (if cntArea height i j (h.trans hjn) hjn > ans then cntArea height i j (h.trans hjn) hjn
          else ans)
    else
      inward height (i+1) j (fun _ => hjn)
        (if cntArea height i j (h.trans hjn) hjn > ans then cntArea height i j (h.trans hjn) hjn
          else ans)
  else ans
termination_by j-i

def maxArea (height : Vector Int64 n) : Int64 := inward height 0 (n-1) (fun _ => by omega) 0

/-! ## What the loop meets -/

def level (height : Vector Int64 n) (k : ℕ) : ℤ := if h : k < n then height[k].toInt else 0

def product (height : Vector Int64 n) (i j : ℕ) : ℤ :=
  ((j : ℤ)-i)*max (level height i) (level height j)

def wrapped (height : Vector Int64 n) (i j : ℕ) : ℤ := (product height i j).bmod (2^64)

variable {height : Vector Int64 n}

theorem level_eq {k : ℕ} (hk : k < n) : level height k = height[k].toInt := dif_pos hk

theorem toInt_ite (a b : Int64) : (if a < b then b else a).toInt = max a.toInt b.toInt := by
  split
  · rename_i h
    rw [Int64.lt_iff_toInt_lt] at h
    omega
  · rename_i h
    rw [Int64.lt_iff_toInt_lt] at h
    omega

theorem cntArea_toInt {i j : ℕ} (hi : i < n) (hj : j < n) (hij : i < j) :
    (cntArea height i j hi hj).toInt = wrapped height i j := by
  rw [cntArea, Int64.toInt_mul, toInt_ite, Int64.toInt_ofNat', wrapped, product, level_eq hi,
    level_eq hj, Nat.cast_sub hij.le]
  simp

structure Maximum (height : Vector Int64 n) (l : List (ℕ × ℕ)) (ans r : ℤ) : Prop where
  start : ans ≤ r
  bound : ∀ a b, (a,b) ∈ l → wrapped height a b ≤ r
  attained : r = ans ∨ ∃ a b, (a,b) ∈ l ∧ r = wrapped height a b

theorem maximum_cons {l : List (ℕ × ℕ)} {ans r : ℤ} {i j : ℕ}
    (h : Maximum height l (max ans (wrapped height i j)) r) :
    Maximum height ((i,j)::l) ans r := by
  constructor
  · exact (le_max_left _ _).trans h.start
  · intro a b hab
    rcases List.mem_cons.mp hab with he | hl
    · obtain ⟨rfl,rfl⟩ := Prod.mk.inj he
      exact (le_max_right _ _).trans h.start
    · exact h.bound a b hl
  · rcases h.attained with he | ⟨a,b,hl,he⟩
    · rcases max_choice ans (wrapped height i j) with hm | hm
      · exact Or.inl (he.trans hm)
      · exact Or.inr ⟨i,j,List.mem_cons_self,he.trans hm⟩
    · exact Or.inr ⟨a,b,List.mem_cons_of_mem _ hl,he⟩

theorem inward_spec (i j : ℕ) (hj : i < j → j < n) (ans : Int64) :
    Maximum height (pairs (level height) i j) ans.toInt (inward height i j hj ans).toInt := by
  induction i, j, hj, ans using inward.induct height with
  | case1 i j hj ans hlt hjn hlow ih =>
    have hlow' : level height j < level height i := by
      rw [level_eq hjn, level_eq (hlt.trans hjn), ← Int64.lt_iff_toInt_lt]
      exact hlow
    rw [inward, dif_pos hlt, if_pos hlow, pairs, if_pos hlt, if_pos hlow']
    apply maximum_cons
    rw [← cntArea_toInt (hlt.trans hjn) hjn hlt, ← toInt_ite]
    exact ih
  | case2 i j hj ans hlt hjn hlow ih =>
    have hlow' : ¬level height j < level height i := by
      rw [level_eq hjn, level_eq (hlt.trans hjn), ← Int64.lt_iff_toInt_lt]
      exact hlow
    rw [inward, dif_pos hlt, if_neg hlow, pairs, if_pos hlt, if_neg hlow']
    apply maximum_cons
    rw [← cntArea_toInt (hlt.trans hjn) hjn hlt, ← toInt_ite]
    exact ih
  | case3 i j hj ans hge =>
    rw [inward, dif_neg hge, pairs, if_neg hge]
    exact ⟨le_rfl,fun a b hab => absurd hab List.not_mem_nil,Or.inl rfl⟩

/-! ## Water -/

def water (height : Vector Int64 n) (i j : ℕ) : ℤ :=
  ((j : ℤ)-i)*min (level height i) (level height j)

def waters (height : Vector Int64 n) : Set ℤ := {t | ∃ a b, a < b ∧ b < n ∧ t = water height a b}

/-- The pair is met: what lies outside of it has been ruled out by the heights. -/
def Inspected (height : Vector Int64 n) (i j : ℕ) : Prop :=
  i < j ∧ j < n ∧ Reached (level height) (n-1) i j

theorem mem_pairs_iff_inspected {i j : ℕ} :
    (i,j) ∈ pairs (level height) 0 (n-1) ↔ Inspected height i j := by
  rw [mem_pairs_iff, Inspected]
  constructor
  · rintro ⟨hij,hj,hr⟩
    exact ⟨hij,by omega,hr⟩
  · rintro ⟨hij,hj,hr⟩
    exact ⟨hij,by omega,hr⟩

theorem maxArea_maximum (height : Vector Int64 n) :
    Maximum height (pairs (level height) 0 (n-1)) 0 (maxArea height).toInt :=
  inward_spec 0 (n-1) _ 0

theorem maxArea_bound {i j : ℕ} (h : Inspected height i j) :
    wrapped height i j ≤ (maxArea height).toInt :=
  (maxArea_maximum height).bound i j (mem_pairs_iff_inspected.mpr h)

theorem maxArea_attained (height : Vector Int64 n) :
    (maxArea height).toInt = 0 ∨
      ∃ i j, Inspected height i j ∧ (maxArea height).toInt = wrapped height i j := by
  rcases (maxArea_maximum height).attained with he | ⟨i,j,hij,he⟩
  · exact Or.inl he
  · exact Or.inr ⟨i,j,mem_pairs_iff_inspected.mp hij,he⟩

theorem maxArea_short (hn : n < 2) : maxArea height = 0 := by
  rw [maxArea, inward, dif_neg (by omega)]

theorem inspected_first (height : Vector Int64 n) (hn : 2 ≤ n) : Inspected height 0 (n-1) :=
  ⟨by omega,by omega,reached_start (n-1)⟩

section Nonnegative

variable (hpos : ∀ k, 0 ≤ level height k)
include hpos

theorem water_nonneg {i j : ℕ} (hij : i < j) : 0 ≤ water height i j :=
  mul_nonneg (by omega) (le_min (hpos i) (hpos j))

omit hpos in
theorem water_le_product {i j : ℕ} (hij : i < j) : water height i j ≤ product height i j :=
  mul_le_mul_of_nonneg_left min_le_max (by omega)

theorem exists_inspected {a b : ℕ} (hab : a < b) (hb : b < n) :
    ∃ i j, Inspected height i j ∧ water height a b ≤ water height i j := by
  obtain ⟨i,j,hmem,hia,hbj,hle⟩ :=
    exists_dominating (h := level height) (Nat.zero_le a) hab (show b ≤ n-1 by omega)
  refine ⟨i,j,mem_pairs_iff_inspected.mp hmem,?_⟩
  exact mul_le_mul (by omega) hle (le_min (hpos a) (hpos b)) (by omega)

theorem wrapped_eq {i j : ℕ} (hij : i < j) (hsmall : product height i j < 2^63) :
    wrapped height i j = product height i j := by
  have h0 := (water_nonneg hpos hij).trans (water_le_product hij)
  exact Int.bmod_eq_of_le (by norm_num; omega) (by norm_num; omega)

omit hpos in
/-- The pair met before holds more, taken by its higher board. -/
theorem exists_larger {i j : ℕ} (h : Inspected height i j) (hfirst : ¬(i = 0 ∧ j = n-1))
    (hw : 0 < water height i j) :
    ∃ a b, Inspected height a b ∧ water height i j < product height a b := by
  have hd : (0 : ℤ) < (j : ℤ)-i := by have := h.1; omega
  have hmin : 0 < min (level height i) (level height j) := pos_of_mul_pos_right hw hd.le
  rcases exists_previous (mem_pairs_iff_inspected.mpr h) with he | ⟨x,rfl,hmem⟩ | hmem
  · exact absurd he hfirst
  · refine ⟨x,j,mem_pairs_iff_inspected.mp hmem,?_⟩
    calc water height (x+1) j < ((j : ℤ)-x)*min (level height (x+1)) (level height j) := by
          apply mul_lt_mul_of_pos_right _ hmin
          push_cast
          omega
      _ ≤ product height x j := by
          apply mul_le_mul_of_nonneg_left _ (by push_cast at hd; omega)
          exact (min_le_right _ _).trans (le_max_right _ _)
  · refine ⟨i,j+1,mem_pairs_iff_inspected.mp hmem,?_⟩
    calc water height i j < (((j+1 : ℕ) : ℤ)-i)*min (level height i) (level height j) := by
          apply mul_lt_mul_of_pos_right _ hmin
          push_cast
          omega
      _ ≤ product height i (j+1) := by
          apply mul_le_mul_of_nonneg_left _ (by push_cast; omega)
          exact (min_le_left _ _).trans (le_max_left _ _)

end Nonnegative

/-! ## When the program is right -/

def Balanced (height : Vector Int64 n) : Prop :=
  level height 0 = level height (n-1) ∧ ((n-1 : ℕ) : ℤ)*level height 0 < 2^63 ∧
    ∀ i j, Inspected height i j → product height i j ≤ ((n-1 : ℕ) : ℤ)*level height 0

/-- Some product does not fit, but the machine products stay below the water of some pair,
and one of them makes up for each product that does not fit. -/
def Overflowing (height : Vector Int64 n) : Prop :=
  (∃ i j, Inspected height i j ∧ 2^63 ≤ product height i j) ∧
    (∀ i j, Inspected height i j → ∃ t ∈ waters height, wrapped height i j ≤ t) ∧
    ∀ i j, Inspected height i j → 2^63 ≤ product height i j →
      water height i j = 0 ∨ ∃ a b, Inspected height a b ∧ water height i j ≤ wrapped height a b

theorem water_outer (hends : level height 0 = level height (n-1)) :
    water height 0 (n-1) = ((n-1 : ℕ) : ℤ)*level height 0 := by
  simp [water, ← hends]

theorem product_outer (hends : level height 0 = level height (n-1)) :
    product height 0 (n-1) = ((n-1 : ℕ) : ℤ)*level height 0 := by
  simp [product, ← hends]

section Equivalence

variable (hpos : ∀ k, 0 ≤ level height k)
include hpos

theorem isGreatest_of_balanced (hn : 2 ≤ n) (h : Balanced height) :
    IsGreatest (waters height) (maxArea height).toInt := by
  obtain ⟨hends,hfits,hall⟩ := h
  have hfirst := inspected_first height hn
  have hwrap : ∀ i j, Inspected height i j → wrapped height i j = product height i j :=
    fun i j hij => wrapped_eq hpos hij.1 ((hall i j hij).trans_lt hfits)
  have hresult : (maxArea height).toInt = ((n-1 : ℕ) : ℤ)*level height 0 := by
    apply le_antisymm
    · rcases maxArea_attained height with he | ⟨a,b,hab,he⟩
      · rw [he, ← water_outer hends]
        exact water_nonneg hpos hfirst.1
      · rw [he, hwrap a b hab]
        exact hall a b hab
    · rw [← product_outer hends, ← hwrap 0 (n-1) hfirst]
      exact maxArea_bound hfirst
  rw [hresult]
  constructor
  · exact ⟨0,n-1,hfirst.1,hfirst.2.1,(water_outer hends).symm⟩
  · rintro _ ⟨a,b,hab,hb,rfl⟩
    obtain ⟨i,j,hij,hle⟩ := exists_inspected hpos hab hb
    exact hle.trans ((water_le_product hij.1).trans (hall i j hij))

theorem isGreatest_of_overflowing (hn : 2 ≤ n) (h : Overflowing height) :
    IsGreatest (waters height) (maxArea height).toInt := by
  obtain ⟨-,hbelow,hmakeup⟩ := h
  have hupper : ∀ t ∈ waters height, t ≤ (maxArea height).toInt := by
    rintro _ ⟨a,b,hab,hb,rfl⟩
    obtain ⟨i,j,hij,hle⟩ := exists_inspected hpos hab hb
    apply hle.trans
    by_cases hfits : product height i j < 2^63
    · apply (water_le_product hij.1).trans
      rw [← wrapped_eq hpos hij.1 hfits]
      exact maxArea_bound hij
    · rcases hmakeup i j hij (not_lt.mp hfits) with hz | ⟨x,y,hxy,hxle⟩
      · rw [hz]
        exact (maxArea_maximum height).start
      · exact hxle.trans (maxArea_bound hxy)
  refine ⟨?_,hupper⟩
  rcases maxArea_attained height with he | ⟨a,b,hab,he⟩
  · have hmem : water height 0 1 ∈ waters height := ⟨0,1,by omega,by omega,rfl⟩
    have hz : water height 0 1 = (maxArea height).toInt :=
      le_antisymm (hupper _ hmem) (he ▸ water_nonneg hpos Nat.zero_lt_one)
    exact hz ▸ hmem
  · obtain ⟨t,ht,hle⟩ := hbelow a b hab
    have hz : t = (maxArea height).toInt := le_antisymm (hupper t ht) (he ▸ hle)
    exact hz ▸ ht

theorem balanced_of_isGreatest (hn : 2 ≤ n)
    (hfits : ∀ i j, Inspected height i j → product height i j < 2^63)
    (h : IsGreatest (waters height) (maxArea height).toInt) : Balanced height := by
  have hfirst := inspected_first height hn
  have hbound : ∀ i j, Inspected height i j → product height i j ≤ (maxArea height).toInt := by
    intro i j hij
    rw [← wrapped_eq hpos hij.1 (hfits i j hij)]
    exact maxArea_bound hij
  have hd : (0 : ℤ) < ((n-1 : ℕ) : ℤ)-(0 : ℕ) := by omega
  have houter : (maxArea height).toInt = water height 0 (n-1) := by
    obtain ⟨a,b,hab,hb,he⟩ := h.1
    obtain ⟨i,j,hij,hle⟩ := exists_inspected hpos hab hb
    have hres : (maxArea height).toInt = water height i j :=
      le_antisymm (he.trans_le hle) (h.2 ⟨i,j,hij.1,hij.2.1,rfl⟩)
    by_cases hij0 : i = 0 ∧ j = n-1
    · rw [hres, hij0.1, hij0.2]
    · have hz : water height i j = 0 := by
        by_contra hne
        have hw : 0 < water height i j :=
          lt_of_le_of_ne (water_nonneg hpos hij.1) (Ne.symm hne)
        obtain ⟨x,y,hxy,hlt⟩ := exists_larger hij hij0 hw
        have := hbound x y hxy
        omega
      apply le_antisymm
      · rw [hres, hz]
        exact water_nonneg hpos hfirst.1
      · exact h.2 ⟨0,n-1,hfirst.1,hfirst.2.1,rfl⟩
  have hle : max (level height 0) (level height (n-1)) ≤
      min (level height 0) (level height (n-1)) := by
    have := hbound 0 (n-1) hfirst
    rw [houter] at this
    exact le_of_mul_le_mul_left this hd
  have hends : level height 0 = level height (n-1) := by omega
  refine ⟨hends,?_,?_⟩
  · rw [← water_outer hends, ← houter]
    exact Int64.toInt_lt _
  · intro i j hij
    rw [← water_outer hends, ← houter]
    exact hbound i j hij

theorem overflowing_of_isGreatest
    (hover : ∃ i j, Inspected height i j ∧ 2^63 ≤ product height i j)
    (h : IsGreatest (waters height) (maxArea height).toInt) : Overflowing height := by
  refine ⟨hover,?_,?_⟩
  · intro i j hij
    exact ⟨_,h.1,maxArea_bound hij⟩
  · intro i j hij _
    have hle := h.2 ⟨i,j,hij.1,hij.2.1,rfl⟩
    rcases maxArea_attained height with he | ⟨a,b,hab,he⟩
    · exact Or.inl (le_antisymm (hle.trans he.le) (water_nonneg hpos hij.1))
    · exact Or.inr ⟨a,b,hab,he ▸ hle⟩

end Equivalence

theorem level_nonneg (hpos : ∀ x ∈ height, 0 ≤ x) (k : ℕ) : 0 ≤ level height k := by
  unfold level
  split
  · rename_i hk
    simpa [Int64.le_iff_toInt_le] using hpos height[k] (Vector.getElem_mem hk)
  · exact le_rfl

def Solves (height : Vector Int64 n) (result : Int64) : Prop :=
  (n < 2 → result = 0) ∧ (2 ≤ n → IsGreatest (waters height) result.toInt)

theorem solves_iff (height : Vector Int64 n) (hpos : ∀ x ∈ height, 0 ≤ x) :
    Solves height (maxArea height) ↔ n < 2 ∨ Balanced height ∨ Overflowing height := by
  have hlevel := level_nonneg hpos
  by_cases hn : n < 2
  · exact iff_of_true ⟨fun _ => maxArea_short hn,fun h2 => absurd h2 (by omega)⟩ (Or.inl hn)
  · have hn2 : 2 ≤ n := by omega
    rw [or_iff_right hn]
    constructor
    · intro h
      by_cases hover : ∃ i j, Inspected height i j ∧ 2^63 ≤ product height i j
      · exact Or.inr (overflowing_of_isGreatest hlevel hover (h.2 hn2))
      · push Not at hover
        exact Or.inl (balanced_of_isGreatest hlevel hn2 hover (h.2 hn2))
    · intro h
      refine ⟨fun h2 => absurd h2 hn,fun _ => ?_⟩
      rcases h with hb | ho
      · exact isGreatest_of_balanced hlevel hn2 hb
      · exact isGreatest_of_overflowing hlevel hn2 ho

/-- As long as every product met fits, the result is right exactly with fewer than two boards or
with equal outer boards that no pair met exceeds. Products that do not fit can make it right by
luck. -/
theorem maxArea_solves_iff (height : Vector Int64 n) (hpos : ∀ x ∈ height, 0 ≤ x) :
    ((∀ i j, Inspected height i j → product height i j < 2^63) →
      (Solves height (maxArea height) ↔ n < 2 ∨ Balanced height)) ∧
    (Solves height (maxArea height) ↔ n < 2 ∨ Balanced height ∨ Overflowing height) := by
  refine ⟨?_,solves_iff height hpos⟩
  intro hfits
  have hnot : ¬Overflowing height := by
    rintro ⟨⟨i,j,hij,hover⟩,-⟩
    exact absurd (hfits i j hij) (not_lt.mpr hover)
  rw [solves_iff height hpos, or_iff_left hnot]

theorem maxArea_equal_boards :
    (∀ x ∈ (#v[3,3] : Vector Int64 2), 0 ≤ x) ∧
      Solves (#v[3,3] : Vector Int64 2) (maxArea #v[3,3]) := by
  have hpos : ∀ x ∈ (#v[3,3] : Vector Int64 2), 0 ≤ x := by simp
  have hends : ∀ i j, Inspected (#v[3,3] : Vector Int64 2) i j → i = 0 ∧ j = 1 := by
    rintro i j ⟨hij,hj,-⟩
    omega
  refine ⟨hpos,((maxArea_solves_iff _ hpos).1 ?_).mpr (Or.inr ⟨by decide,by decide,?_⟩)⟩
  · intro i j hij
    obtain ⟨rfl,rfl⟩ := hends i j hij
    decide
  · intro i j hij
    obtain ⟨rfl,rfl⟩ := hends i j hij
    decide

theorem maxArea_unequal_boards :
    maxArea (#v[1,2] : Vector Int64 2) = 2 ∧ IsGreatest (waters (#v[1,2] : Vector Int64 2)) 1 := by
  constructor
  · rw [maxArea, inward, dif_pos (by decide), if_neg (by decide), inward, dif_neg (by decide)]
    decide
  · constructor
    · exact ⟨0,1,by decide,by decide,by decide⟩
    · rintro _ ⟨a,b,hab,hb,rfl⟩
      obtain ⟨rfl,rfl⟩ : a = 0 ∧ b = 1 := by omega
      decide

end Gopher.MaxArea
