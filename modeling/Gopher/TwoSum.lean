import Mathlib.Algebra.Group.Basic
import Mathlib.Logic.Function.Basic
import Mathlib.Order.Bounds.Basic
import Mathlib.Tactic

/-!
# Two indices whose values sum to a target

A map takes every value to the last index that holds it, and the first element
whose complement stands at another index is returned with that index. The
values are added and subtracted in a commutative group: the integers are one,
and so are the integers of 64 bits, which wrap around.
-/

set_option autoImplicit false

namespace Gopher.TwoSum

variable {α : Type*} [DecidableEq α]

def remember (numIdx : α → Option ℕ) (p : α × ℕ) : α → Option ℕ :=
  Function.update numIdx p.1 (some p.2)

def numIdx (nums : List α) : α → Option ℕ := nums.zipIdx.foldl remember (fun _ => none)

def probe [Sub α] (numIdx : α → Option ℕ) (target : α) (p : α × ℕ) : Option (List ℕ) :=
  match numIdx (target-p.1) with
  | some idx2 => if p.2 ≠ idx2 then some [p.2,idx2] else none
  | none => none

def twoSum [Sub α] (nums : List α) (target : α) : List ℕ :=
  (nums.zipIdx.findSome? (probe (numIdx nums) target)).getD []

/-! ## The index map -/

theorem numIdx_snoc (nums : List α) (num : α) :
    numIdx (nums++[num]) = Function.update (numIdx nums) num (some nums.length) := by
  simp [numIdx, List.zipIdx_append, remember]

theorem numIdx_none {nums : List α} {v : α} (h : numIdx nums v = none) : v ∉ nums := by
  induction nums using List.reverseRecOn with
  | nil => exact List.not_mem_nil
  | append_singleton nums num ih =>
    rw [numIdx_snoc] at h
    by_cases hv : v = num
    · subst hv
      rw [Function.update_self] at h
      cases h
    · rw [Function.update_of_ne hv] at h
      simp [ih h, hv]

theorem numIdx_isGreatest {nums : List α} {v : α} {j : ℕ} (h : numIdx nums v = some j) :
    IsGreatest {k | nums[k]? = some v} j := by
  induction nums using List.reverseRecOn generalizing j with
  | nil => cases h
  | append_singleton nums num ih =>
    rw [numIdx_snoc] at h
    by_cases hv : v = num
    · subst hv
      rw [Function.update_self] at h
      cases h
      constructor
      · simp
      · intro k hk
        have hlt := (List.getElem?_eq_some_iff.mp hk).1
        simp at hlt
        omega
    · rw [Function.update_of_ne hv] at h
      have hlast : ∀ k : ℕ, (nums++[num])[k]? = some v → nums[k]? = some v := by
        intro k hk
        rw [List.getElem?_append] at hk
        split at hk
        · exact hk
        · rw [List.getElem?_singleton] at hk
          split at hk
          · exact absurd (Option.some.inj hk).symm hv
          · cases hk
      obtain ⟨hj,hmax⟩ := ih h
      constructor
      · have hlt := (List.getElem?_eq_some_iff.mp hj).1
        show (nums++[num])[j]? = some v
        rw [List.getElem?_append_left hlt]
        exact hj
      · intro k hk
        exact hmax (hlast k hk)

/-! ## Solutions -/

section Solutions

variable {β : Type*}

def Solves [Add β] (nums : List β) (target : β) (i j : ℕ) : Prop :=
  i ≠ j ∧ ∃ a b, nums[i]? = some a ∧ nums[j]? = some b ∧ a+b = target

/-- The empty slice means that nothing solves; otherwise the lowest index of a solution
comes with the highest that completes it. -/
def Canonical [Add β] (nums : List β) (target : β) (r : List ℕ) : Prop :=
  (r = [] ↔ ∀ i j, ¬Solves nums target i j) ∧
    (r = [] ∨ ∃ i j, r = [i,j] ∧ i < j ∧ Solves nums target i j ∧
      IsLeast {k | ∃ l, Solves nums target k l} i ∧ IsGreatest {l | Solves nums target i l} j)

variable [AddCommGroup β] {nums : List β} {target : β} {i j : ℕ}

theorem Solves.symm (h : Solves nums target i j) : Solves nums target j i := by
  obtain ⟨hne,a,b,ha,hb,hsum⟩ := h
  exact ⟨hne.symm,b,a,hb,ha,by rw [add_comm, hsum]⟩

theorem solves_iff {a : β} (ha : nums[i]? = some a) (j : ℕ) :
    Solves nums target i j ↔ i ≠ j ∧ nums[j]? = some (target-a) := by
  constructor
  · rintro ⟨hne,a',b,ha',hb,hsum⟩
    obtain rfl : a = a' := Option.some.inj (ha.symm.trans ha')
    refine ⟨hne,?_⟩
    rw [hb, ← hsum, add_sub_cancel_left]
  · rintro ⟨hne,hj⟩
    exact ⟨hne,a,target-a,ha,hj,add_sub_cancel a target⟩

end Solutions

/-! ## The search -/

variable [AddCommGroup α]

/-- A turn returns the last index that completes its own, unless it finds only itself. -/
theorem probe_some {nums : List α} {target a : α} {i : ℕ} {r : List ℕ} (ha : nums[i]? = some a)
    (h : probe (numIdx nums) target (a,i) = some r) :
    ∃ j, r = [i,j] ∧ Solves nums target i j ∧ IsGreatest {k | nums[k]? = some (target-a)} j := by
  unfold probe at h
  split at h
  · rename_i j hj
    have hlast := numIdx_isGreatest hj
    split at h
    · rename_i hne
      cases h
      exact ⟨j,rfl,(solves_iff ha j).mpr ⟨hne,hlast.1⟩,hlast⟩
    · cases h
  · cases h

/-- A turn goes on only when no later index completes its own. -/
theorem probe_none {nums : List α} {target a : α} {i j : ℕ} (ha : nums[i]? = some a)
    (h : probe (numIdx nums) target (a,i) = none) (hs : Solves nums target i j) : j < i := by
  obtain ⟨hne,hj⟩ := (solves_iff ha j).mp hs
  unfold probe at h
  split at h
  · rename_i k hk
    split at h
    · cases h
    · rename_i hik
      have := (numIdx_isGreatest hk).2 hj
      dsimp only at hik
      omega
  · rename_i hk
    exact absurd (List.mem_of_getElem? hj) (numIdx_none hk)

theorem exists_turn {nums : List α} {target : α} {i j : ℕ} (hs : Solves nums target i j) :
    ∃ a k, nums[k]? = some a ∧ k ≤ i ∧ probe (numIdx nums) target (a,k) ≠ none := by
  obtain ⟨hne,a,b,ha,hb,-⟩ := id hs
  rcases Nat.lt_or_gt_of_ne hne with hij | hji
  · refine ⟨a,i,ha,le_rfl,?_⟩
    intro hnone
    have := probe_none ha hnone hs
    omega
  · refine ⟨b,j,hb,hji.le,?_⟩
    intro hnone
    have := probe_none hb hnone hs.symm
    omega

/-- The result is that of the first turn that returns. -/
theorem twoSum_cases (nums : List α) (target : α) :
    (twoSum nums target = [] ∧
      ∀ (k : ℕ) a, nums[k]? = some a → probe (numIdx nums) target (a,k) = none) ∨
    ∃ (i : ℕ) (a : α), nums[i]? = some a ∧
      probe (numIdx nums) target (a,i) = some (twoSum nums target) ∧
      ∀ (k : ℕ) b, k < i → nums[k]? = some b → probe (numIdx nums) target (b,k) = none := by
  cases hf : nums.zipIdx.findSome? (probe (numIdx nums) target) with
  | none =>
    refine Or.inl ⟨by rw [twoSum, hf]; rfl,?_⟩
    intro k a hk
    exact List.findSome?_eq_none_iff.mp hf (a,k) (List.mem_zipIdx_iff_getElem?.mpr hk)
  | some r =>
    obtain ⟨before,⟨a,i⟩,after,hsplit,hprobe,hbefore⟩ := List.findSome?_eq_some_iff.mp hf
    have hat : ∀ k : ℕ, nums.zipIdx[k]? = nums[k]?.map (fun v => (v,k)) := by
      intro k
      simp
    have hi : nums[before.length]? = some a ∧ before.length = i := by
      have := hat before.length
      rw [hsplit, List.getElem?_append_right le_rfl, Nat.sub_self, List.getElem?_cons_zero] at this
      obtain ⟨v,hv,he⟩ := Option.map_eq_some_iff.mp this.symm
      cases he
      exact ⟨hv,rfl⟩
    obtain ⟨ha,rfl⟩ := hi
    refine Or.inr ⟨before.length,a,ha,by rw [hprobe, twoSum, hf]; rfl,?_⟩
    intro k b hk hb
    apply hbefore
    have := hat k
    rw [hsplit, List.getElem?_append_left hk, hb] at this
    exact List.mem_of_getElem? this

theorem canonical_of_group (nums : List α) (target : α) :
    Canonical nums target (twoSum nums target) := by
  rcases twoSum_cases nums target with ⟨hnil,hnone⟩ | ⟨i,a,ha,hturn,hbefore⟩
  · refine ⟨⟨fun _ i j hs => ?_,fun _ => hnil⟩,Or.inl hnil⟩
    obtain ⟨b,k,hb,-,hk⟩ := exists_turn hs
    exact hk (hnone k b hb)
  · obtain ⟨j,hr,hs,hlast⟩ := probe_some ha hturn
    have hleast : ∀ k l, Solves nums target k l → i ≤ k := by
      intro k l hkl
      obtain ⟨b,m,hb,hmk,hm⟩ := exists_turn hkl
      by_contra hlt
      exact hm (hbefore m b (by omega) hb)
    have hij : i < j := lt_of_le_of_ne (hleast j i hs.symm) hs.1
    constructor
    · rw [hr]
      constructor
      · intro h
        cases h
      · intro h
        exact absurd hs (h i j)
    · refine Or.inr ⟨i,j,hr,hij,hs,⟨⟨j,hs⟩,fun k ⟨l,hkl⟩ => hleast k l hkl⟩,hs,?_⟩
      intro l hl
      exact hlast.2 ((solves_iff ha l).mp hl).2

@[reducible]
def int64Group : AddCommGroup Int64 where
  add_assoc := Int64.add_assoc
  zero_add := Int64.zero_add
  add_zero := Int64.add_zero
  nsmul := nsmulRec
  zsmul := zsmulRec
  neg_add_cancel := Int64.add_left_neg
  add_comm := Int64.add_comm
  sub_eq_add_neg := Int64.sub_eq_add_neg

theorem twoSum_canonical (nums : List Int64) (target : Int64) :
    Canonical nums target (twoSum nums target) :=
  letI := int64Group
  canonical_of_group nums target

example : twoSum [3,2,4,3] (6 : Int64) = [0,3] := by decide

end Gopher.TwoSum
