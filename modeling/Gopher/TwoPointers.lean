import Mathlib.Order.Interval.Finset.Nat
import Mathlib.Data.Finset.Max
import Mathlib.Tactic

/-!
# Two pointers that move inwards

The pointer at the lower value moves, the left one on a tie. The pairs met
are those that no earlier move has ruled out, and each pair of positions lies
inside a pair that is met and whose lower value is not smaller.
-/

set_option autoImplicit false

namespace Gopher.TwoPointers

variable {α : Type*} [LinearOrder α] (h : ℕ → α)

def pairs (i j : ℕ) : List (ℕ × ℕ) :=
  if i < j then
    (i,j)::(if h j < h i then pairs i (j-1) else pairs (i+1) j)
  else []
termination_by j-i

structure Reached (m i j : ℕ) : Prop where
  left : ∀ x < i, ∃ y, j ≤ y ∧ y ≤ m ∧ h x ≤ h y
  right : ∀ y, j < y → y ≤ m → ∃ x ≤ i, h y < h x

variable {h} {m i j : ℕ}

theorem reached_start (m : ℕ) : Reached h m 0 m :=
  ⟨fun x hx => absurd hx (Nat.not_lt_zero x),fun _ hy hm => absurd hm (by omega)⟩

theorem Reached.moveRight (hr : Reached h m i j) (hj : j ≤ m) (hle : h i ≤ h j) :
    Reached h m (i+1) j := by
  constructor
  · intro x hx
    rcases Nat.lt_succ_iff_lt_or_eq.mp hx with hx | rfl
    · exact hr.left x hx
    · exact ⟨j,le_rfl,hj,hle⟩
  · intro y hy hm
    obtain ⟨x,hx,hlt⟩ := hr.right y hy hm
    exact ⟨x,by omega,hlt⟩

theorem Reached.moveLeft (hr : Reached h m i j) (hlt : h j < h i) : Reached h m i (j-1) := by
  constructor
  · intro x hx
    obtain ⟨y,hy,hm,hle⟩ := hr.left x hx
    exact ⟨y,by omega,hm,hle⟩
  · intro y hy hm
    by_cases he : y = j
    · exact ⟨i,le_rfl,he ▸ hlt⟩
    · exact hr.right y (by omega) hm

/-- Two pairs that are both reached are nested: neither lies to the left of the other. -/
theorem Reached.not_before {i' j' : ℕ} (hr : Reached h m i j) (hr' : Reached h m i' j')
    (hi : i < i') (hj : j < j') : False := by
  obtain ⟨x,hx,hmax⟩ := (Finset.range (i+1)).exists_max_image h ⟨0,by simp⟩
  rw [Finset.mem_range] at hx
  obtain ⟨y,hy,hm,hle⟩ := hr'.left x (by omega)
  obtain ⟨z,hz,hlt⟩ := hr.right y (by omega) hm
  have hzx := hmax z (Finset.mem_range.mpr (by omega))
  exact absurd (hlt.trans_le (hzx.trans hle)) (lt_irrefl _)

theorem reached_of_mem (hr : Reached h m i j) (hj : j ≤ m) {a b : ℕ}
    (hab : (a,b) ∈ pairs h i j) : a < b ∧ b ≤ m ∧ Reached h m a b := by
  induction i, j using pairs.induct with
  | case1 i j hlt ihl ihr =>
    rw [pairs, if_pos hlt] at hab
    rcases List.mem_cons.mp hab with he | htail
    · obtain ⟨rfl,rfl⟩ := Prod.mk.inj he
      exact ⟨hlt,hj,hr⟩
    · split at htail
      · rename_i hlow
        exact ihl (hr.moveLeft hlow) (by omega) htail
      · rename_i hlow
        exact ihr (hr.moveRight hj (not_lt.mp hlow)) hj htail
  | case2 i j hge =>
    rw [pairs, if_neg hge] at hab
    exact absurd hab List.not_mem_nil

theorem mem_of_reached (hr : Reached h m i j) (hj : j ≤ m) {a b : ℕ} (hia : i ≤ a)
    (hbj : b ≤ j) (hab : a < b) (hr' : Reached h m a b) : (a,b) ∈ pairs h i j := by
  induction i, j using pairs.induct with
  | case1 i j hlt ihl ihr =>
    rw [pairs, if_pos hlt]
    by_cases he : a = i ∧ b = j
    · rw [he.1, he.2]
      exact List.mem_cons_self
    · apply List.mem_cons_of_mem
      split
      · rename_i hlow
        have hnext := hr.moveLeft hlow
        have hb : b ≠ j := by
          intro hbj'
          exact hnext.not_before hr' (by omega) (by omega)
        exact ihl hnext (by omega) hia (by omega)
      · rename_i hlow
        have hnext := hr.moveRight hj (not_lt.mp hlow)
        have ha : a ≠ i := by
          intro hai
          exact hr'.not_before hnext (by omega) (by omega)
        exact ihr hnext hj (by omega) hbj
  | case2 i j hge => omega

theorem mem_pairs_iff {a b : ℕ} :
    (a,b) ∈ pairs h 0 m ↔ a < b ∧ b ≤ m ∧ Reached h m a b := by
  constructor
  · exact reached_of_mem (reached_start m) le_rfl
  · rintro ⟨hab,hb,hr⟩
    exact mem_of_reached (reached_start m) le_rfl (Nat.zero_le a) hb hab hr

/-- Moving the lower end inwards loses only pairs that the present one dominates. -/
theorem exists_dominating {a b : ℕ} (hia : i ≤ a) (hab : a < b) (hbj : b ≤ j) :
    ∃ x y, (x,y) ∈ pairs h i j ∧ x ≤ a ∧ b ≤ y ∧ min (h a) (h b) ≤ min (h x) (h y) := by
  induction i, j using pairs.induct with
  | case1 i j hlt ihl ihr =>
    rw [pairs, if_pos hlt]
    split
    · rename_i hlow
      by_cases hb : b = j
      · refine ⟨i,j,List.mem_cons_self,hia,hbj,?_⟩
        rw [min_eq_right hlow.le, hb]
        exact min_le_right _ _
      · obtain ⟨x,y,hmem,hxa,hby,hle⟩ := ihl hia (by omega)
        exact ⟨x,y,List.mem_cons_of_mem _ hmem,hxa,hby,hle⟩
    · rename_i hlow
      by_cases ha : a = i
      · refine ⟨i,j,List.mem_cons_self,hia,hbj,?_⟩
        rw [min_eq_left (not_lt.mp hlow), ha]
        exact min_le_left _ _
      · obtain ⟨x,y,hmem,hxa,hby,hle⟩ := ihr (by omega) hbj
        exact ⟨x,y,List.mem_cons_of_mem _ hmem,hxa,hby,hle⟩
  | case2 i j hge => omega

/-- Every pair but the first is met one move after another. -/
theorem exists_previous {a b : ℕ} (hab : (a,b) ∈ pairs h i j) :
    (a = i ∧ b = j) ∨ (∃ x, a = x+1 ∧ (x,b) ∈ pairs h i j) ∨ (a,b+1) ∈ pairs h i j := by
  induction i, j using pairs.induct with
  | case1 i j hlt ihl ihr =>
    rw [pairs, if_pos hlt] at hab ⊢
    rcases List.mem_cons.mp hab with he | htail
    · exact Or.inl (Prod.mk.inj he)
    · right
      split at htail
      · rename_i hlow
        rw [if_pos hlow]
        rcases ihl htail with ⟨rfl,rfl⟩ | ⟨x,hx,hmem⟩ | hmem
        · exact Or.inr (by simp [Nat.sub_add_cancel (Nat.one_le_of_lt hlt)])
        · exact Or.inl ⟨x,hx,List.mem_cons_of_mem _ hmem⟩
        · exact Or.inr (List.mem_cons_of_mem _ hmem)
      · rename_i hlow
        rw [if_neg hlow]
        rcases ihr htail with ⟨rfl,rfl⟩ | ⟨x,hx,hmem⟩ | hmem
        · exact Or.inl ⟨i,rfl,List.mem_cons_self⟩
        · exact Or.inl ⟨x,hx,List.mem_cons_of_mem _ hmem⟩
        · exact Or.inr (List.mem_cons_of_mem _ hmem)
  | case2 i j hge =>
    rw [pairs, if_neg hge] at hab
    exact absurd hab List.not_mem_nil

end Gopher.TwoPointers
