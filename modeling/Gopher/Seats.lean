import Mathlib.Data.Finset.Max
import Mathlib.Order.Interval.Finset.Defs
import Mathlib.Data.Int.Interval
import Mathlib.Tactic
import Gopher.StepRuns

/-!
# Seats with a cached least free seat

One slice holds the flags of the seats and, in its slot 0, the number of the
least free seat, or the number after the last seat when all are taken. An
index outside the slice ends a call where it stands: the state is what the
statements before it left, and there is no result.
-/

set_option autoImplicit false

namespace Gopher.Seats
open Gopher.StepRuns

/-! ## Slices of integers -/

def index (l : List ℤ) (i : ℤ) : Option ℤ := if 0 ≤ i then l[i.toNat]? else none

def store (l : List ℤ) (i v : ℤ) : Option (List ℤ) :=
  if 0 ≤ i ∧ i < l.length then some (l.set i.toNat v) else none

theorem index_set {l : List ℤ} {i : ℤ} (h0 : 0 ≤ i) (hi : i < l.length) (v j : ℤ) :
    index (l.set i.toNat v) j = if j = i then some v else index l j := by
  unfold index
  by_cases hj : 0 ≤ j
  · simp only [if_pos hj, List.getElem?_set, show i.toNat = j.toNat ↔ j = i by omega,
      show i.toNat < l.length by omega, if_true]
  · simp only [if_neg hj, show ¬j = i by omega, if_false]

theorem index_set_zero {l : List ℤ} (h : 0 < l.length) (v j : ℤ) :
    index (l.set 0 v) j = if j = 0 then some v else index l j :=
  index_set le_rfl (by omega) v j

theorem store_some {l : List ℤ} {i : ℤ} (h0 : 0 ≤ i) (hi : i < l.length) (v : ℤ) :
    store l i v = some (l.set i.toNat v) := if_pos ⟨h0,hi⟩

theorem index_getElem {l : List ℤ} {i : ℤ} (h0 : 0 ≤ i) (h : i.toNat < l.length) :
    index l i = some l[i.toNat] := by
  rw [index, if_pos h0, List.getElem?_eq_getElem h]

/-! ## The seat manager -/

structure SeatManager where
  n : ℤ
  ok : List ℤ

def constructor (n : ℕ) : SeatManager where
  n := n+1
  ok := (List.replicate (n+1) 0).set 0 1

def scan (n : ℤ) (ok : List ℤ) (i : ℤ) : Option (List ℤ) :=
  if h : 0 ≤ i ∧ i.toNat < ok.length then
    if ok[i.toNat] = -1 then
      if i+1 = n then some (ok.set 0 n) else scan n ok (i+1)
    else some (ok.set 0 i)
  else none
termination_by ok.length-i.toNat

def reserve (s : SeatManager) : SeatManager × Option ℤ :=
  match index s.ok 0 with
  | none => (s,none)
  | some ret =>
    match store s.ok ret (-1) with
    | none => (s,none)
    | some ok =>
      match (index ok 0).bind (scan s.n ok) with
      | none => ({ s with ok := ok },none)
      | some ok' => ({ s with ok := ok' },some ret)

def unreserve (seatNumber : ℤ) (s : SeatManager) : SeatManager × Option Unit :=
  match store s.ok seatNumber 0 with
  | none => (s,none)
  | some ok =>
    match index ok 0 with
    | none => ({ s with ok := ok },none)
    | some first =>
      if seatNumber < first then ({ s with ok := ok.set 0 seatNumber },some ())
      else ({ s with ok := ok },some ())

inductive Op where
  | reserve
  | unreserve (seatNumber : ℤ)
  deriving DecidableEq

def step : Op → SeatManager → SeatManager
  | .reserve, s => (reserve s).1
  | .unreserve seatNumber, s => (unreserve seatNumber s).1

/-! ## A set of free seats -/

noncomputable def reserveFree (F : Finset ℤ) : Finset ℤ × Option ℤ :=
  if h : F.Nonempty then (F.erase (F.min' h),some (F.min' h)) else (F,none)

noncomputable def freeStep : Op → Finset ℤ → Finset ℤ
  | .reserve, F => (reserveFree F).1
  | .unreserve seatNumber, F => insert seatNumber F

noncomputable def free (s : SeatManager) : Finset ℤ :=
  (Finset.Ico 1 s.n).filter (fun x => index s.ok x = some 0)

structure First (n : ℕ) (F : Finset ℤ) (m : ℤ) : Prop where
  pos : 1 ≤ m
  le : m ≤ n+1
  least : ∀ x ∈ F, m ≤ x
  mem : m ≤ n → m ∈ F

structure Represents (n : ℕ) (s : SeatManager) (F : Finset ℤ) : Prop where
  size : s.n = n+1
  length : s.ok.length = n+1
  seats : ∀ x ∈ F, 1 ≤ x ∧ x ≤ n
  flag : ∀ x : ℤ, 1 ≤ x → x ≤ n → index s.ok x = some (if x ∈ F then 0 else -1)
  first : ∃ m, index s.ok 0 = some m ∧ First n F m

variable {n : ℕ} {s : SeatManager} {F : Finset ℤ}

theorem Represents.free_eq (h : Represents n s F) : free s = F := by
  ext x
  rw [free, Finset.mem_filter, Finset.mem_Ico, h.size]
  constructor
  · rintro ⟨hx,h0⟩
    rw [h.flag x hx.1 (by omega)] at h0
    by_contra hF
    simp [hF] at h0
  · intro hF
    have hx := h.seats x hF
    refine ⟨⟨hx.1,by omega⟩,?_⟩
    rw [h.flag x hx.1 hx.2, if_pos hF]

theorem represents_setFirst {ok : List ℤ} {m : ℤ} (hsize : s.n = n+1) (hlen : ok.length = n+1)
    (hseats : ∀ x ∈ F, 1 ≤ x ∧ x ≤ n)
    (hflag : ∀ x : ℤ, 1 ≤ x → x ≤ n → index ok x = some (if x ∈ F then 0 else -1))
    (hfirst : First n F m) : Represents n { s with ok := ok.set 0 m } F := by
  have hzero : ∀ j, index (ok.set 0 m) j = if j = 0 then some m else index ok j :=
    fun j => index_set_zero (by omega) m j
  constructor
  · exact hsize
  · simpa using hlen
  · exact hseats
  · intro x h1 hn
    rw [hzero, if_neg (by omega), hflag x h1 hn]
  · exact ⟨m,by rw [hzero, if_pos rfl],hfirst⟩

theorem constructor_represents (n : ℕ) :
    Represents n (constructor n) (Finset.Icc 1 (n : ℤ)) := by
  apply represents_setFirst (s := constructor n) rfl (List.length_replicate ..)
  · intro x hx
    exact Finset.mem_Icc.mp hx
  · intro x h1 hn
    have hlt : x.toNat < n+1 := by omega
    rw [if_pos (Finset.mem_Icc.mpr ⟨h1,hn⟩), index, if_pos (by omega), List.getElem?_replicate,
      if_pos hlt]
  · constructor
    · exact le_rfl
    · omega
    · intro x hx
      exact (Finset.mem_Icc.mp hx).1
    · intro h
      exact Finset.mem_Icc.mpr ⟨le_rfl,h⟩

/-! ## The scan -/

/-- From a seat on, the loop stores the next free seat or the number after the last. -/
theorem scan_spec {ok : List ℤ} (hlen : ok.length = n+1)
    (hflag : ∀ x : ℤ, 1 ≤ x → x ≤ n → index ok x = some (if x ∈ F then 0 else -1))
    (i : ℤ) (h1 : 1 ≤ i) (hn : i ≤ n) :
    ∃ m, scan (n+1) ok i = some (ok.set 0 m) ∧ i ≤ m ∧ m ≤ n+1 ∧
      (∀ x, i ≤ x → x < m → x ∉ F) ∧ (m ≤ n → m ∈ F) := by
  induction i using scan.induct ((n : ℤ)+1) ok with
  | case1 i h htaken hend =>
    have hi := hflag i h1 hn
    rw [index_getElem h.1 h.2, htaken] at hi
    rw [scan, dif_pos h, if_pos htaken, if_pos hend]
    refine ⟨n+1,rfl,by omega,le_rfl,?_,by omega⟩
    intro x hix hxn hxF
    have hx : x = i := by omega
    simp [← hx, hxF] at hi
  | case2 i h htaken hend ih =>
    have hi := hflag i h1 hn
    rw [index_getElem h.1 h.2, htaken] at hi
    rw [scan, dif_pos h, if_pos htaken, if_neg hend]
    obtain ⟨m,hm,him,hmn,hbelow,hmem⟩ := ih (by omega) (by omega)
    refine ⟨m,hm,by omega,hmn,?_,hmem⟩
    intro x hix hxm hxF
    rcases eq_or_lt_of_le hix with hx | hx
    · simp [hx, hxF] at hi
    · exact hbelow x hx hxm hxF
  | case3 i h hfree =>
    have hi := hflag i h1 hn
    rw [index_getElem h.1 h.2] at hi
    rw [scan, dif_pos h, if_neg hfree]
    refine ⟨i,rfl,le_rfl,by omega,fun x _ _ => by omega,?_⟩
    intro _
    by_contra hF
    rw [if_neg hF] at hi
    exact hfree (Option.some.inj hi)
  | case4 i h =>
    exact absurd ⟨by omega,by omega⟩ h

/-! ## The operations -/

theorem reserve_empty (h : Represents n s ∅) : reserve s = (s,none) := by
  obtain ⟨m,hm,hfirst⟩ := h.first
  have hend : m = n+1 := by
    have := hfirst.le
    by_contra hne
    exact absurd (hfirst.mem (by omega)) (Finset.notMem_empty m)
  have hstore : store s.ok m (-1) = none := if_neg (by rw [h.length]; omega)
  rw [reserve, hm]
  simp only [hstore]

theorem reserve_least {x : ℤ} (h : Represents n s F) (hx : IsLeast (F : Set ℤ) x) :
    ∃ s', reserve s = (s',some x) ∧ Represents n s' (F.erase x) := by
  have hseat := h.seats x hx.1
  have hlen := h.length
  have hfirst : index s.ok 0 = some x := by
    obtain ⟨m,hm,hf⟩ := h.first
    have hmx := hf.least x hx.1
    rw [hm, le_antisymm hmx (hx.2 (hf.mem (by omega)))]
  have hset : ∀ j, index (s.ok.set x.toNat (-1)) j = if j = x then some (-1) else index s.ok j :=
    fun j => index_set (by omega) (by omega) (-1) j
  have hflag : ∀ y : ℤ, 1 ≤ y → y ≤ n →
      index (s.ok.set x.toNat (-1)) y = some (if y ∈ F.erase x then 0 else -1) := by
    intro y h1 hn
    rw [hset, h.flag y h1 hn]
    by_cases hy : y = x <;> simp [hy]
  obtain ⟨m,hscan,hxm,hmn,hbelow,hmem⟩ :=
    scan_spec (by simpa using hlen) hflag x hseat.1 hseat.2
  refine ⟨{ s with ok := (s.ok.set x.toNat (-1)).set 0 m },?_,?_⟩
  · rw [reserve, hfirst]
    simp only [store_some (show 0 ≤ x by omega) (show x < s.ok.length by omega) (-1)]
    rw [hset, if_neg (by omega), hfirst, Option.bind_some, h.size, hscan]
  · apply represents_setFirst h.size (by simpa using hlen) _ hflag
    · constructor
      · omega
      · exact hmn
      · intro y hy
        by_contra hlt
        exact hbelow y (hx.2 (Finset.mem_of_mem_erase hy)) (by omega) hy
      · exact hmem
    · intro y hy
      exact h.seats y (Finset.mem_of_mem_erase hy)

theorem unreserve_insert {x : ℤ} (h : Represents n s F) (h1 : 1 ≤ x) (hn : x ≤ n) :
    ∃ s', unreserve x s = (s',some ()) ∧ Represents n s' (insert x F) := by
  have hlen := h.length
  obtain ⟨m,hm,hfirst⟩ := h.first
  have hset : ∀ j, index (s.ok.set x.toNat 0) j = if j = x then some 0 else index s.ok j :=
    fun j => index_set (by omega) (by omega) 0 j
  have hflag : ∀ y : ℤ, 1 ≤ y → y ≤ n →
      index (s.ok.set x.toNat 0) y = some (if y ∈ insert x F then 0 else -1) := by
    intro y hy1 hyn
    rw [hset, h.flag y hy1 hyn]
    by_cases hy : y = x <;> simp [hy]
  have hseats : ∀ y ∈ insert x F, 1 ≤ y ∧ y ≤ n := by
    intro y hy
    rcases Finset.mem_insert.mp hy with rfl | hy
    · exact ⟨h1,hn⟩
    · exact h.seats y hy
  have hsame : index (s.ok.set x.toNat 0) 0 = some m := by rw [hset, if_neg (by omega), hm]
  rw [unreserve, store_some (by omega) (by omega)]
  simp only [hsame]
  split
  · rename_i hlt
    refine ⟨_,rfl,represents_setFirst h.size (by simpa using hlen) hseats hflag ?_⟩
    constructor
    · exact h1
    · omega
    · intro y hy
      rcases Finset.mem_insert.mp hy with rfl | hy
      · exact le_rfl
      · exact hlt.le.trans (hfirst.least y hy)
    · intro _
      exact Finset.mem_insert_self x F
  · refine ⟨_,rfl,h.size,by simpa using hlen,hseats,hflag,m,hsame,hfirst.pos,hfirst.le,?_,?_⟩
    · intro y hy
      rcases Finset.mem_insert.mp hy with rfl | hy
      · omega
      · exact hfirst.least y hy
    · intro hle
      exact Finset.mem_insert_of_mem (hfirst.mem hle)

/-! ## Histories -/

def Allowed (n : ℕ) : Op → Prop
  | .reserve => True
  | .unreserve x => 1 ≤ x ∧ x ≤ n

theorem step_represents (h : Represents n s F) (op : Op) (hop : Allowed n op) :
    Represents n (step op s) (freeStep op F) := by
  cases op with
  | reserve =>
    rcases F.eq_empty_or_nonempty with rfl | hF
    · simpa [step, freeStep, reserveFree, reserve_empty h] using h
    · obtain ⟨s',hs',hrep⟩ := reserve_least h (F.isLeast_min' hF)
      simpa [step, freeStep, reserveFree, hF, hs'] using hrep
  | unreserve x =>
    obtain ⟨s',hs',hrep⟩ := unreserve_insert h hop.1 hop.2
    simpa [step, freeStep, hs'] using hrep

theorem run_represents (ops : List Op) (hops : ∀ op ∈ ops, Allowed n op)
    (h : Represents n s F) : Represents n (run step ops s) (run freeStep ops F) := by
  induction ops generalizing s F with
  | nil => exact h
  | cons op ops ih =>
    apply ih
    · intro o ho
      exact hops o (List.mem_cons_of_mem op ho)
    · exact step_represents h op (hops op List.mem_cons_self)

/-- After every history the free seats are those of the abstract history. A free seat makes
Reserve return the least one and take exactly it, otherwise it fails without a change;
Unreserve gives back exactly its seat. -/
theorem seatManager_refines (n : ℕ) (ops : List Op) (hops : ∀ op ∈ ops, Allowed n op) :
    free (run step ops (constructor n)) = run freeStep ops (Finset.Icc 1 (n : ℤ)) ∧
    (∀ x, IsLeast (free (run step ops (constructor n)) : Set ℤ) x →
      ∃ s', reserve (run step ops (constructor n)) = (s',some x) ∧
        free s' = (free (run step ops (constructor n))).erase x) ∧
    (free (run step ops (constructor n)) = ∅ →
      reserve (run step ops (constructor n)) = (run step ops (constructor n),none)) ∧
    ∀ x : ℤ, 1 ≤ x → x ≤ n →
      ∃ s', unreserve x (run step ops (constructor n)) = (s',some ()) ∧
        free s' = insert x (free (run step ops (constructor n))) := by
  have h := run_represents ops hops (constructor_represents n)
  rw [h.free_eq]
  refine ⟨rfl,?_,?_,?_⟩
  · intro x hx
    obtain ⟨s',hs',hrep⟩ := reserve_least h hx
    exact ⟨s',hs',hrep.free_eq⟩
  · intro hF
    rw [hF] at h
    exact reserve_empty h
  · intro x h1 hn
    obtain ⟨s',hs',hrep⟩ := unreserve_insert h h1 hn
    exact ⟨s',hs',hrep.free_eq⟩

theorem seatManager_two_seats :
    (∀ op ∈ [Op.reserve,.reserve,.unreserve 1,.unreserve 1], Allowed 2 op) ∧
    ∃ s', unreserve 2 (run step [.reserve,.reserve,.unreserve 1,.unreserve 1] (constructor 2)) =
        (s',some ()) ∧
      free s' = insert 2
        (free (run step [.reserve,.reserve,.unreserve 1,.unreserve 1] (constructor 2))) := by
  have hops : ∀ op ∈ [Op.reserve,.reserve,.unreserve 1,.unreserve 1], Allowed 2 op := by
    simp [Allowed]
  exact ⟨hops,(seatManager_refines 2 _ hops).2.2.2 2 (by decide) (by decide)⟩

end Gopher.Seats
