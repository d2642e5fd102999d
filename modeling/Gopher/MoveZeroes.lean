import Mathlib.Data.List.Perm.Basic
import Mathlib.Tactic

/-!
# Zeros moved to the end in place

Two indices run over a slice. The elements before the lower one have been
kept, those between the two are zeros, and those from the upper one on have
not been looked at. The Go function and the TypeScript one differ in the type
of the elements; a number of the latter may be zero in two ways.
-/

set_option autoImplicit false

namespace Gopher.MoveZeroes

variable {α : Type*} {n : ℕ}

inductive Panic where
  | indexOutOfRange
  deriving DecidableEq

def moveFrom (isZero : α → Bool) (nums : Vector α n) (i j : ℕ) : Except Panic (Vector α n) :=
  if hj : j < n then
    if isZero nums[j] then moveFrom isZero nums i (j+1)
    else if hi : i < n then moveFrom isZero ((nums.set i nums[j]).set j nums[i]) (i+1) (j+1)
    else .error .indexOutOfRange
  else .ok nums
termination_by n-j

def moveZeroes (nums : Vector Int64 n) : Except Panic (Vector Int64 n) :=
  moveFrom (fun x => x = 0) nums 0 0

def moveZeroesTs (nums : Vector Float n) : Except Panic (Vector Float n) :=
  moveFrom (fun x => x == 0) nums 0 0

/-! ## The three regions -/

structure Regions (isZero : α → Bool) (nums : Vector α n) (kept zeros rest : List α) : Prop where
  parts : nums.toList = kept++(zeros++rest)
  zero : ∀ z ∈ zeros, isZero z = true

variable {isZero : α → Bool} {nums : Vector α n} {kept zeros rest : List α} {x : α}

theorem Regions.length (h : Regions isZero nums kept zeros rest) :
    kept.length+(zeros.length+rest.length) = n := by
  have := congrArg List.length h.parts
  simpa using this.symm

theorem getElem_of_parts {before after : List α} (h : nums.toList = before++x::after)
    (hi : before.length < n) : nums[before.length] = x := by
  have hget : nums.toList[before.length]? = some x := by
    rw [h, List.getElem?_append_right le_rfl, Nat.sub_self, List.getElem?_cons_zero]
  rw [Vector.getElem?_toList, Vector.getElem?_eq_getElem hi] at hget
  exact Option.some.inj hget

theorem Regions.getElem (h : Regions isZero nums kept zeros (x::rest))
    (hj : kept.length+zeros.length < n) : nums[kept.length+zeros.length] = x := by
  have hparts : nums.toList = (kept++zeros)++x::rest := by rw [h.parts, List.append_assoc]
  have := getElem_of_parts hparts (by rwa [List.length_append])
  simpa only [List.length_append] using this

theorem Regions.skip (h : Regions isZero nums kept zeros (x::rest)) (hx : isZero x = true) :
    Regions isZero nums kept (zeros++[x]) rest := by
  constructor
  · rw [h.parts]
    simp
  · intro z hz
    rcases List.mem_append.mp hz with hz | hz
    · exact h.zero z hz
    · rw [List.mem_singleton] at hz
      rwa [hz]

/-- The first zero changes places with the element; without a zero it stays where it is. -/
theorem Regions.swap (h : Regions isZero nums kept zeros (x::rest))
    (hi : kept.length < n) (hj : kept.length+zeros.length < n) :
    ∃ zeros', zeros'.Perm zeros ∧
      Regions isZero ((nums.set kept.length nums[kept.length+zeros.length]).set
        (kept.length+zeros.length) nums[kept.length]) (kept++[x]) zeros' rest := by
  have hx := h.getElem hj
  cases zeros with
  | nil =>
    refine ⟨[],List.Perm.refl _,?_,by simp⟩
    simp only [List.length_nil, Nat.add_zero] at hx ⊢
    rw [Vector.set_set, Vector.toList_set, h.parts, hx]
    simp
  | cons z zeros =>
    have hz : nums[kept.length] = z := getElem_of_parts h.parts hi
    refine ⟨zeros++[z],List.perm_append_singleton z zeros,?_,?_⟩
    · rw [Vector.toList_set, Vector.toList_set, h.parts, hx, hz]
      simp
    · intro w hw
      exact h.zero w (by simpa [or_comm] using hw)

theorem moveFrom_partitions (rest : List α) : ∀ (nums : Vector α n) (kept zeros : List α),
    Regions isZero nums kept zeros rest →
    ∃ v zeros', moveFrom isZero nums kept.length (kept.length+zeros.length) = .ok v ∧
      v.toList = kept++rest.filter (fun x => !isZero x)++zeros' ∧
      zeros'.Perm (zeros++rest.filter isZero) := by
  induction rest with
  | nil =>
    intro nums kept zeros h
    have hend : ¬kept.length+zeros.length < n := by
      have := h.length
      simp at this
      omega
    refine ⟨nums,zeros,?_,by simp [h.parts],by simp⟩
    rw [moveFrom, dif_neg hend]
  | cons x rest ih =>
    intro nums kept zeros h
    have hlen := h.length
    rw [List.length_cons] at hlen
    have hj : kept.length+zeros.length < n := by omega
    have hi : kept.length < n := by omega
    by_cases hx : isZero x = true
    · obtain ⟨v,zeros',hv,hlist,hperm⟩ := ih nums kept (zeros++[x]) (h.skip hx)
      refine ⟨v,zeros',?_,by simpa [hx] using hlist,by simpa [hx] using hperm⟩
      rw [moveFrom, dif_pos hj, if_pos (by rw [h.getElem hj, hx])]
      simpa [Nat.add_assoc] using hv
    · obtain ⟨swapped,hswap,hregions⟩ := h.swap hi hj
      obtain ⟨v,zeros',hv,hlist,hperm⟩ := ih _ (kept++[x]) swapped hregions
      refine ⟨v,zeros',?_,by simpa [hx] using hlist,?_⟩
      · rw [moveFrom, dif_pos hj, if_neg (by rw [h.getElem hj]; exact hx), dif_pos hi]
        rw [List.length_append, List.length_singleton, hswap.length_eq] at hv
        rw [← hv]
        congr 1
        omega
      · rw [List.filter_cons_of_neg hx]
        exact hperm.trans (hswap.append_right _)

theorem moveFrom_zero (isZero : α → Bool) (nums : Vector α n) :
    ∃ v zeros, moveFrom isZero nums 0 0 = .ok v ∧
      v.toList = nums.toList.filter (fun x => !isZero x)++zeros ∧
      zeros.Perm (nums.toList.filter isZero) := by
  have h : Regions isZero nums [] [] nums.toList := ⟨by simp,by simp⟩
  simpa using moveFrom_partitions nums.toList nums [] [] h

theorem moveZeroes_eq (nums : Vector Int64 n) :
    ∃ v, moveZeroes nums = .ok v ∧
      v.toList = nums.toList.filter (fun x => x ≠ 0)++List.replicate (nums.toList.count 0) 0 := by
  obtain ⟨v,zeros,hv,hlist,hperm⟩ := moveFrom_zero (fun x : Int64 => x = 0) nums
  have hzeros : zeros = List.replicate (nums.toList.count 0) 0 := by
    rw [List.eq_replicate_iff]
    constructor
    · rw [hperm.length_eq, List.count, List.countP_eq_length_filter]
      rfl
    · intro z hz
      simpa using (List.mem_filter.mp (hperm.mem_iff.mp hz)).2
  refine ⟨v,hv,?_⟩
  rw [hlist, hzeros]
  simp

/-- Both functions run to their end and leave the elements that are not zero, in their
order, before the zeros; among the numbers the two zeros may change places. -/
theorem moveZeroes_partitions :
    (∀ (n : ℕ) (nums : Vector Int64 n), ∃ v, moveZeroes nums = .ok v ∧
      v.toList = nums.toList.filter (fun x => x ≠ 0)++List.replicate (nums.toList.count 0) 0) ∧
    ∀ (n : ℕ) (nums : Vector Float n), ∃ v zeros, moveZeroesTs nums = .ok v ∧
      v.toList = nums.toList.filter (fun x => !(x == 0))++zeros ∧
      zeros.Perm (nums.toList.filter (fun x => x == 0)) := by
  constructor
  · intro n nums
    exact moveZeroes_eq nums
  · intro n nums
    exact moveFrom_zero (fun x => x == 0) nums

end Gopher.MoveZeroes
