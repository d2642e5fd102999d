import Mathlib.Order.Bounds.Basic
import Mathlib.Tactic

/-!
# The least distance from the disjunction of a range

The slice is overwritten while it is read: before the i-th step each slot
below i holds the disjunction from there up to i. A slot that the new element
does not change ends the inner loop, since every earlier slot contains its bits.
A difference and its absolute value are taken in 64 bits and may wrap around.
-/

set_option autoImplicit false

namespace Gopher.MinimumDifference

def abs (x : Int64) : Int64 := if x ≤ 0 then -x else x

variable {n : ℕ}

def spread (k x : Int64) : (j : ℕ) → j ≤ n → Vector Int64 n → Int64 → Vector Int64 n × Int64
  | 0, _, nums, ans => (nums,ans)
  | j+1, h, nums, ans =>
    if nums[j] ||| x ≠ nums[j] then
      spread k x j (Nat.le_of_succ_le h) (nums.set j (nums[j] ||| x))
        (min ans (abs ((nums[j] ||| x)-k)))
    else (nums,ans)

def scan (k : Int64) (nums : Vector Int64 n) : (i : ℕ) → i ≤ n → Vector Int64 n × Int64
  | 0, _ => (nums,Int64.maxValue)
  | i+1, h =>
    let st := scan k nums i (Nat.le_of_succ_le h)
    spread k st.1[i] i (Nat.le_of_succ_le h) st.1 (min st.2 (abs (st.1[i]-k)))

def minimumDifference (nums : Vector Int64 n) (k : Int64) : Vector Int64 n × Int64 :=
  scan k nums n le_rfl

/-! ## Disjunctions of ranges -/

def orAll (l : List Int64) : Int64 := l.foldr (· ||| ·) 0

theorem orAll_append (u v : List Int64) : orAll (u++v) = orAll u ||| orAll v := by
  induction u with
  | nil => simp [orAll]
  | cons a u ih =>
    show a ||| orAll (u++v) = (a ||| orAll u) ||| orAll v
    rw [ih, Int64.or_assoc]

def orRange (nums : Vector Int64 n) (l m : ℕ) : Int64 := orAll ((nums.toList.take m).drop l)

variable {nums : Vector Int64 n}

theorem orRange_succ {l m : ℕ} (hl : l ≤ m) (hm : m < n) :
    orRange nums l (m+1) = orRange nums l m ||| nums[m] := by
  have hlen : m < nums.toList.length := by simpa using hm
  have hlm : l ≤ (nums.toList.take m).length := by
    simp only [List.length_take]
    omega
  rw [orRange, List.take_succ_eq_append_getElem hlen, List.drop_append_of_le_length hlm,
    orAll_append]
  simp [orRange, orAll]

theorem orRange_self {m : ℕ} (hm : m < n) : orRange nums m (m+1) = nums[m] := by
  rw [orRange_succ le_rfl hm, orRange, List.drop_eq_nil_of_le (by simp)]
  simp [orAll]

theorem orRange_split {l l' m : ℕ} (h : l ≤ l') :
    ∃ a, orRange nums l m = a ||| orRange nums l' m := by
  refine ⟨orAll (((nums.toList.take m).drop l).take (l'-l)),?_⟩
  have hd : (nums.toList.take m).drop l' = ((nums.toList.take m).drop l).drop (l'-l) := by
    rw [List.drop_drop, Nat.add_sub_cancel' h]
  rw [orRange, orRange, hd, ← orAll_append, List.take_append_drop]

/-- An element already contained from j on is contained from every earlier place on. -/
theorem orRange_absorbs {p j m : ℕ} {x : Int64} (hp : p ≤ j)
    (h : orRange nums j m ||| x = orRange nums j m) :
    orRange nums p m ||| x = orRange nums p m := by
  obtain ⟨a,ha⟩ : ∃ a, orRange nums p m = a ||| orRange nums j m := orRange_split hp
  rw [ha, Int64.or_assoc, h]

/-! ## Progress of the scan -/

def gauge (k x : Int64) : ℤ := (abs (x-k)).toInt

structure Least (nums : Vector Int64 n) (k : Int64) (top : ℕ → ℕ) (ans : Int64) : Prop where
  bound : ∀ l m, l < m → m ≤ top l → ans.toInt ≤ gauge k (orRange nums l m)
  reached : ans = Int64.maxValue ∨
    ∃ l m, l < m ∧ m ≤ n ∧ ans.toInt = gauge k (orRange nums l m)

def Filled (nums cur : Vector Int64 n) (top : ℕ → ℕ) : Prop :=
  ∀ p (hp : p < n), cur[p] = orRange nums p (max (top p) (p+1))

theorem toInt_min (a b : Int64) : (min a b).toInt = min a.toInt b.toInt := by
  show (if a ≤ b then a else b).toInt = _
  rw [min_def]
  simp only [Int64.le_iff_toInt_le]
  split <;> rfl

theorem least_min {k ans : Int64} {top top' : ℕ → ℕ} {a b : ℕ} (h : Least nums k top ans)
    (hab : a < b) (hb : b ≤ n)
    (hnew : ∀ l m, l < m → m ≤ top' l → m ≤ top l ∨ l = a ∧ m = b) :
    Least nums k top' (min ans (abs (orRange nums a b-k))) := by
  constructor
  · intro l m hlm hm
    rw [toInt_min]
    rcases hnew l m hlm hm with hold | ⟨rfl,rfl⟩
    · exact (min_le_left _ _).trans (h.bound l m hlm hold)
    · exact min_le_right _ _
  · by_cases hle : ans ≤ abs (orRange nums a b-k)
    · have hmin : min ans (abs (orRange nums a b-k)) = ans := if_pos hle
      rw [hmin]
      exact h.reached
    · have hmin : min ans (abs (orRange nums a b-k)) = abs (orRange nums a b-k) := if_neg hle
      rw [hmin]
      exact Or.inr ⟨a,b,hab,hb,rfl⟩

def top (i j p : ℕ) : ℕ := if p < j then i else i+1

theorem filled_write {cur : Vector Int64 n} {i j : ℕ} (hji : j < i) (hj : j < n)
    (hf : Filled nums cur (top i (j+1))) :
    Filled nums (cur.set j (orRange nums j (i+1))) (top i j) := by
  intro p hp
  rw [Vector.getElem_set]
  split
  · subst p
    rw [top, if_neg (lt_irrefl j), max_eq_left (by omega)]
  · rw [hf p hp]
    simp only [top, show p < j+1 ↔ p < j by omega]

section Stop

variable {i j : ℕ} (hji : j < i) (hfull : ∀ p ≤ j, orRange nums p (i+1) = orRange nums p i)
include hji hfull

theorem filled_stop {cur : Vector Int64 n} (hf : Filled nums cur (top i (j+1))) :
    Filled nums cur (fun _ => i+1) := by
  intro p hp
  show cur[p] = orRange nums p (max (i+1) (p+1))
  rw [hf p hp]
  by_cases hpj : p < j+1
  · rw [top, if_pos hpj, max_eq_left (by omega), max_eq_left (by omega), hfull p (by omega)]
  · rw [top, if_neg hpj]

theorem least_stop {k ans : Int64} (hl : Least nums k (top i (j+1)) ans) :
    Least nums k (fun _ => i+1) ans := by
  refine ⟨?_,hl.reached⟩
  intro l m hlm hm
  by_cases hold : m ≤ top i (j+1) l
  · exact hl.bound l m hlm hold
  · have hlj : l ≤ j ∧ m = i+1 := by
      simp only [top] at hold
      split at hold <;> omega
    rw [hlj.2, hfull l hlj.1]
    apply hl.bound l i (by omega)
    rw [top, if_pos (by omega)]

end Stop

theorem spread_spec {k : Int64} {i : ℕ} (hi : i < n) (j : ℕ) :
    ∀ (hj : j ≤ n) (cur : Vector Int64 n) (ans : Int64), j ≤ i →
      Filled nums cur (top i j) → Least nums k (top i j) ans →
      Filled nums (spread k nums[i] j hj cur ans).1 (fun _ => i+1) ∧
        Least nums k (fun _ => i+1) (spread k nums[i] j hj cur ans).2 := by
  induction j with
  | zero =>
    intro hj cur ans hji hf hl
    have ht : top i 0 = fun _ => i+1 := by
      funext p
      simp [top]
    rw [ht] at hf hl
    exact ⟨hf,hl⟩
  | succ j ih =>
    intro hj cur ans hji hf hl
    have hslot : cur[j] = orRange nums j i := by
      rw [hf j hj, top, if_pos (Nat.lt_succ_self j), max_eq_left hji]
    have hnext : cur[j] ||| nums[i] = orRange nums j (i+1) := by
      rw [hslot, orRange_succ (by omega) hi]
    rw [spread]
    split
    · rw [hnext]
      apply ih (by omega) _ _ (by omega)
      · exact filled_write hji hj hf
      · apply least_min hl (by omega : j < i+1) hi
        intro l m hlm hm
        simp only [top] at hm ⊢
        split at hm <;> split <;> omega
    · rename_i hsame
      have hfull : ∀ p ≤ j, orRange nums p (i+1) = orRange nums p i := by
        intro p hp
        rw [orRange_succ (by omega) hi]
        apply orRange_absorbs hp
        rw [hslot] at hsame
        exact not_not.mp hsame
      exact ⟨filled_stop hji hfull hf,least_stop hji hfull hl⟩

theorem scan_spec (k : Int64) (nums : Vector Int64 n) (i : ℕ) (hi : i ≤ n) :
    Filled nums (scan k nums i hi).1 (fun _ => i) ∧
      Least nums k (fun _ => i) (scan k nums i hi).2 := by
  induction i with
  | zero =>
    constructor
    · intro p hp
      show nums[p] = orRange nums p (max 0 (p+1))
      rw [max_eq_right (by omega), orRange_self hp]
    · exact ⟨fun l m hlm hm => by omega,Or.inl rfl⟩
  | succ i ih =>
    obtain ⟨hf,hl⟩ := ih (by omega)
    have hx : (scan k nums i (by omega)).1[i] = nums[i] := by
      rw [hf i hi, max_eq_right (Nat.le_succ i), orRange_self hi]
    rw [scan]
    simp only [hx]
    apply spread_spec hi i _ _ _ le_rfl
    · intro p hp
      rw [hf p hp, top]
      congr 1
      dsimp only
      split <;> omega
    · rw [← orRange_self hi]
      apply least_min hl (Nat.lt_succ_self i) hi
      intro l m hlm hm
      simp only [top] at hm
      split at hm <;> omega

theorem minimumDifference_slots (nums : Vector Int64 n) (k : Int64) (j : ℕ) (hj : j < n) :
    (minimumDifference nums k).1[j] = orRange nums j n := by
  rw [minimumDifference, (scan_spec k nums n le_rfl).1 j hj, max_eq_left hj]

theorem minimumDifference_least (nums : Vector Int64 n) (k : Int64) :
    Least nums k (fun _ => n) (minimumDifference nums k).2 :=
  (scan_spec k nums n le_rfl).2

/-! ## Disjunctions of integers that are not negative -/

theorem toInt_or {a b : Int64} (ha : 0 ≤ a.toInt) (hb : 0 ≤ b.toInt) :
    (a ||| b).toInt = (a.toBitVec.toNat ||| b.toBitVec.toNat : ℕ) ∧
      a.toInt = a.toBitVec.toNat ∧ b.toInt = b.toBitVec.toNat := by
  have hnat (x : Int64) (hx : 0 ≤ x.toInt) : x.toBitVec.toNat < 2^63 ∧
      x.toInt = x.toBitVec.toNat := by
    have hcases : x.toInt = if 2*x.toBitVec.toNat < 2^64 then (x.toBitVec.toNat : ℤ)
        else (x.toBitVec.toNat : ℤ)-(2^64 : ℕ) := BitVec.toInt_eq_toNat_cond _
    have hlt := x.toBitVec.isLt
    split at hcases <;> omega
  obtain ⟨hal,hae⟩ := hnat a ha
  obtain ⟨hbl,hbe⟩ := hnat b hb
  refine ⟨?_,hae,hbe⟩
  have hlt : (a.toBitVec ||| b.toBitVec).toNat < 2^63 := by
    rw [BitVec.toNat_or]
    exact Nat.or_lt_two_pow hal hbl
  have htoInt : (a ||| b).toInt = (a.toBitVec ||| b.toBitVec).toInt := by
    rw [← Int64.toInt_toBitVec, Int64.toBitVec_or]
  rw [htoInt, BitVec.toInt_eq_toNat_of_lt (by omega), BitVec.toNat_or]

theorem le_or {a b : Int64} (ha : 0 ≤ a.toInt) (hb : 0 ≤ b.toInt) :
    a.toInt ≤ (a ||| b).toInt ∧ b.toInt ≤ (a ||| b).toInt := by
  obtain ⟨hor,hae,hbe⟩ := toInt_or ha hb
  rw [hor, hae, hbe]
  exact ⟨by exact_mod_cast Nat.left_le_or,by exact_mod_cast Nat.right_le_or⟩

theorem orAll_nonneg {l : List Int64} (h : ∀ x ∈ l, 0 ≤ x.toInt) : 0 ≤ (orAll l).toInt := by
  induction l with
  | nil => exact le_rfl
  | cons a l ih =>
    have ha := h a List.mem_cons_self
    exact ha.trans (le_or ha (ih (fun x hx => h x (List.mem_cons_of_mem a hx)))).1

theorem orAll_le_of_infix {u l : List Int64} (h : ∀ x ∈ l, 0 ≤ x.toInt) (hu : u <:+: l) :
    (orAll u).toInt ≤ (orAll l).toInt := by
  obtain ⟨s,t,rfl⟩ := hu
  have hs := orAll_nonneg (l := s) (fun x hx => h x (by simp [hx]))
  have hm := orAll_nonneg (l := u) (fun x hx => h x (by simp [hx]))
  have ht := orAll_nonneg (l := t) (fun x hx => h x (by simp [hx]))
  have hsu := le_or hs hm
  rw [orAll_append, orAll_append]
  exact hsu.2.trans (le_or (hs.trans hsu.1) ht).1

theorem orRange_nonneg (h : ∀ x ∈ nums, 0 ≤ x.toInt) (l m : ℕ) : 0 ≤ (orRange nums l m).toInt := by
  apply orAll_nonneg
  intro x hx
  exact h x (by simpa using List.mem_of_mem_take (List.mem_of_mem_drop hx))

theorem orRange_le (h : ∀ x ∈ nums, 0 ≤ x.toInt) {l l' m m' : ℕ} (hl : l' ≤ l) (hm : m ≤ m') :
    (orRange nums l m).toInt ≤ (orRange nums l' m').toInt := by
  apply orAll_le_of_infix
  · intro x hx
    exact h x (by simpa using List.mem_of_mem_take (List.mem_of_mem_drop hx))
  · have htake : nums.toList.take m = (nums.toList.take m').take m := by
      rw [List.take_take, min_eq_left hm]
    have hdrop : (nums.toList.take m').drop l = ((nums.toList.take m').drop l').drop (l-l') := by
      rw [List.drop_drop, Nat.add_sub_cancel' hl]
    rw [htake, List.drop_take, hdrop]
    exact (List.take_prefix _ _).isInfix.trans (List.drop_suffix _ _).isInfix

/-! ## Differences that wrap around -/

theorem gauge_eq (k x : Int64) (hx : 0 ≤ x.toInt) :
    gauge k x = if x.toInt-k.toInt < 2^63 then |x.toInt-k.toInt|
      else if x.toInt-k.toInt = 2^63 then -2^63 else 2^64-(x.toInt-k.toInt) := by
  have hsub := Int64.toInt_sub x k
  have hneg := Int64.toInt_neg (x-k)
  have hxlt := x.toInt_lt
  have hklt := k.toInt_lt
  have hkle := k.le_toInt
  have habs : gauge k x = if (x-k).toInt ≤ 0 then (-(x-k)).toInt else (x-k).toInt := by
    unfold gauge abs
    simp only [Int64.le_iff_toInt_le, Int64.toInt_zero]
    split <;> rfl
  rw [habs, hneg, hsub]
  generalize x.toInt = a at *
  generalize k.toInt = b at *
  simp only [Int.bmod_def]
  rcases abs_cases (a-b) with ⟨he,hle⟩ | ⟨he,hlt⟩
  · rw [he]
    omega
  · rw [he]
    omega

def distances (nums : Vector Int64 n) (k : Int64) : Set ℤ :=
  {d | ∃ l m, l < m ∧ m ≤ n ∧ d = |(orRange nums l m).toInt-k.toInt|}

/-- No range lies exactly 2^63 above k, and what some element and what the whole slice lie above k
add up to at most 2^64. -/
def Fits (nums : Vector Int64 n) (k : Int64) : Prop :=
  (∀ l m, l < m → m ≤ n → (orRange nums l m).toInt-k.toInt ≠ 2^63) ∧
    ∃ x ∈ nums, (x.toInt-k.toInt)+((orRange nums 0 n).toInt-k.toInt) ≤ 2^64

section Wrap

variable {k ans : Int64} (hnonneg : ∀ x ∈ nums, 0 ≤ x.toInt) (h : Least nums k (fun _ => n) ans)
include hnonneg h

theorem isLeast_of_fits (hfits : Fits nums k) : IsLeast (distances nums k) ans.toInt := by
  obtain ⟨hne,x,hx,hsum⟩ := hfits
  obtain ⟨i,hi,rfl⟩ := Vector.getElem_of_mem hx
  have hself : orRange nums i (i+1) = nums[i] := orRange_self hi
  have hmax := Int64.toInt_maxValue
  have hxle := orRange_le hnonneg (Nat.zero_le i) (Nat.succ_le_of_lt hi)
  have hxne := hne i (i+1) (Nat.lt_succ_self i) hi
  have hx0 := hnonneg _ hx
  have hklt := k.toInt_lt
  have hcap := ans.toInt_lt
  have hans := h.bound i (i+1) (Nat.lt_succ_self i) hi
  rw [hself] at hxle hxne hans
  rw [gauge_eq k _ hx0, if_pos (by omega)] at hans
  have hmem : ans.toInt = |(nums[i]).toInt-k.toInt| → ans.toInt ∈ distances nums k := fun he =>
    ⟨i,i+1,Nat.lt_succ_self i,hi,by rw [hself, he]⟩
  constructor
  · rcases h.reached with he | ⟨l,m,hlm,hm,he⟩
    · apply hmem
      rw [he, hmax] at hans ⊢
      rcases abs_cases ((nums[i]).toInt-k.toInt) with ⟨ha,-⟩ | ⟨ha,-⟩ <;> omega
    · have hr := orRange_le hnonneg (Nat.zero_le l) hm
      have hrlt := (orRange nums l m).toInt_lt
      have hrne := hne l m hlm hm
      rw [gauge_eq k _ (orRange_nonneg hnonneg l m)] at he
      split_ifs at he with h1
      · exact ⟨l,m,hlm,hm,he⟩
      · apply hmem
        rcases abs_cases ((nums[i]).toInt-k.toInt) with ⟨ha,hs⟩ | ⟨ha,hs⟩ <;> omega
  · rintro _ ⟨l,m,hlm,hm,rfl⟩
    have hb := h.bound l m hlm hm
    rw [gauge_eq k _ (orRange_nonneg hnonneg l m)] at hb
    split_ifs at hb with h1
    · exact hb
    · have := le_abs_self ((orRange nums l m).toInt-k.toInt)
      omega
    · have := le_abs_self ((orRange nums l m).toInt-k.toInt)
      omega

theorem fits_of_isLeast (hleast : IsLeast (distances nums k) ans.toInt) : Fits nums k := by
  obtain ⟨l,m,hlm,hm,he⟩ := hleast.1
  have hans : 0 ≤ ans.toInt := by
    rw [he]
    exact abs_nonneg _
  have hne : ∀ l m, l < m → m ≤ n → (orRange nums l m).toInt-k.toInt ≠ 2^63 := by
    intro l m hlm hm hfar
    have hb := h.bound l m hlm hm
    rw [gauge_eq k _ (orRange_nonneg hnonneg l m), if_neg (by omega), if_pos hfar] at hb
    omega
  refine ⟨hne,nums[l],Vector.getElem_mem _,?_⟩
  have hx : (nums[l]).toInt ≤ (orRange nums l m).toInt := by
    have hself : orRange nums l (l+1) = nums[l] := orRange_self (by omega)
    rw [← hself]
    exact orRange_le hnonneg le_rfl hlm
  have hr := orRange_le hnonneg (Nat.zero_le l) hm
  have hle := le_abs_self ((orRange nums l m).toInt-k.toInt)
  have hall := h.bound 0 n (by omega) le_rfl
  have hallne := hne 0 n (by omega) le_rfl
  rw [gauge_eq k _ (orRange_nonneg hnonneg 0 n)] at hall
  split_ifs at hall <;> omega

end Wrap

/-- The slice is always left with the disjunctions up to its end. The result is the least
distance exactly when no difference that wraps around comes out below it. -/
theorem minimumDifference_exact_iff (nums : Vector Int64 n) (k : Int64)
    (hnonneg : ∀ x ∈ nums, 0 ≤ x.toInt) :
    (IsLeast (distances nums k) (minimumDifference nums k).2.toInt ∧
      ∀ j (hj : j < n), (minimumDifference nums k).1[j] = orRange nums j n) ↔ Fits nums k := by
  have h := minimumDifference_least nums k
  rw [and_iff_left (minimumDifference_slots nums k)]
  exact ⟨fits_of_isLeast hnonneg h,isLeast_of_fits hnonneg h⟩

theorem minimumDifference_near :
    IsLeast (distances #v[1,2] 3) 0 ∧ (minimumDifference #v[1,2] 3).1 = #v[3,2] := by
  have hnonneg : ∀ x ∈ (#v[1,2] : Vector Int64 2), 0 ≤ x.toInt := by simp
  have hfits : Fits (#v[1,2] : Vector Int64 2) 3 := by
    refine ⟨?_,1,by simp,by decide⟩
    intro l m _ _
    have := (orRange (#v[1,2] : Vector Int64 2) l m).toInt_lt
    have hk : Int64.toInt 3 = 3 := by decide
    omega
  have hzero : (minimumDifference (#v[1,2] : Vector Int64 2) 3).2.toInt = 0 := by decide
  have hleast := ((minimumDifference_exact_iff #v[1,2] 3 hnonneg).mpr hfits).1
  rw [hzero] at hleast
  exact ⟨hleast,by decide⟩

/-- The only difference is 2^63, which wraps around to the least integer, its own negative. -/
theorem minimumDifference_far :
    (minimumDifference #v[1] (-9223372036854775807)).2.toInt = -9223372036854775808 ∧
    IsLeast (distances #v[1] (-9223372036854775807)) 9223372036854775808 := by
  constructor
  · decide
  · constructor
    · exact ⟨0,1,by decide,by decide,by decide⟩
    · rintro _ ⟨l,m,hlm,hm,rfl⟩
      obtain ⟨rfl,rfl⟩ : l = 0 ∧ m = 1 := by omega
      decide

end Gopher.MinimumDifference
