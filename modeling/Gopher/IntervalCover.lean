import Mathlib.Algebra.Order.BigOperators.Group.Multiset
import Mathlib.Order.Bounds.Basic
import Mathlib.Tactic

/-!
# Cheapest covers by segments

Points of an ordered type are covered by segments that begin anywhere, each of
a kind that fixes its length and its price. The cheapest cover of all points
from one on is found from the cheapest covers further on.
-/

set_option autoImplicit false

namespace Gopher.IntervalCover

variable {M C κ : Type*} [LinearOrder M] [Add M]

structure Segment (M κ : Type*) where
  start : M
  kind : κ
  deriving DecidableEq

def Segment.Covers (len : κ → M) (seg : Segment M κ) (x : M) : Prop :=
  seg.start ≤ x ∧ x < seg.start+len seg.kind

def Covering (len : κ → M) (segs : Multiset (Segment M κ)) (points : Set M) : Prop :=
  ∀ x ∈ points, ∃ seg ∈ segs, seg.Covers len x

def price [AddCommMonoid C] (cost : κ → C) (segs : Multiset (Segment M κ)) : C :=
  (segs.map (fun seg => cost seg.kind)).sum

omit [LinearOrder M] [Add M] in
theorem price_cons [AddCommMonoid C] (cost : κ → C) (seg : Segment M κ)
    (segs : Multiset (Segment M κ)) :
    price cost (seg ::ₘ segs) = price cost segs+cost seg.kind := by
  rw [price, Multiset.map_cons, Multiset.sum_cons, add_comm]
  rfl

def onward (points : Set M) (d : M) : Set M := {x | x ∈ points ∧ d ≤ x}

def Cheapest [AddCommMonoid C] [Preorder C] (len : κ → M) (cost : κ → C) (points : Set M)
    (c : C) : Prop :=
  IsLeast {c | ∃ segs, Covering len segs points ∧ price cost segs = c} c

section Covers

variable {len : κ → M} {points : Set M} {d : M}

/-- A segment over the first point reaches no further than one that begins
there, so the others cover the rest. -/
theorem covering_rest [AddRightMono M] (hlen : ∀ k, d ≤ d+len k) (hd : d ∈ points)
    {segs : Multiset (Segment M κ)} (h : Covering len segs (onward points d)) :
    ∃ k rest, Covering len rest (onward points (d+len k)) ∧
      ∃ start, segs = { start := start, kind := k } ::ₘ rest := by
  obtain ⟨seg,hseg,hcov⟩ := h d ⟨hd,le_rfl⟩
  obtain ⟨rest,rfl⟩ := Multiset.exists_cons_of_mem hseg
  refine ⟨seg.kind,rest,?_,seg.start,rfl⟩
  rintro x ⟨hx,hge⟩
  obtain ⟨other,hother,hcovx⟩ := h x ⟨hx,(hlen _).trans hge⟩
  rcases Multiset.mem_cons.mp hother with rfl | hrest
  · have hfar : other.start+len other.kind ≤ x := (add_le_add_left hcov.1 _).trans hge
    exact absurd hcovx.2 hfar.not_gt
  · exact ⟨other,hrest,hcovx⟩

theorem covering_cons {k : κ} {rest : Multiset (Segment M κ)}
    (h : Covering len rest (onward points (d+len k))) :
    Covering len ({ start := d, kind := k } ::ₘ rest) (onward points d) := by
  rintro x ⟨hx,hge⟩
  rcases lt_or_ge x (d+len k) with hlt | hfar
  · exact ⟨_,Multiset.mem_cons_self _ _,hge,hlt⟩
  · obtain ⟨seg,hseg,hcov⟩ := h x ⟨hx,hfar⟩
    exact ⟨seg,Multiset.mem_cons_of_mem hseg,hcov⟩

end Covers

variable [AddCommMonoid C] [PartialOrder C] {len : κ → M} {cost : κ → C} {points : Set M}

theorem cheapest_empty [CanonicallyOrderedAdd C] (len : κ → M) (cost : κ → C) :
    Cheapest len cost ∅ 0 := by
  refine ⟨⟨0,nofun,rfl⟩,?_⟩
  rintro c -
  exact zero_le

/-- One of the segments from the first point on is part of a cheapest cover. -/
theorem cheapest_step [AddRightMono M] [IsOrderedAddMonoid C] {d : M}
    (hlen : ∀ k, d ≤ d+len k) (hd : d ∈ points)
    {c : κ → C} (hc : ∀ k, Cheapest len cost (onward points (d+len k)) (c k)) {m : C}
    (hm : IsLeast (Set.range (fun k => c k+cost k)) m) :
    Cheapest len cost (onward points d) m := by
  constructor
  · obtain ⟨k,rfl⟩ := hm.1
    obtain ⟨rest,hcov,hprice⟩ := (hc k).1
    refine ⟨_,covering_cons hcov,?_⟩
    rw [price_cons, hprice]
  · rintro _ ⟨segs,hcov,rfl⟩
    obtain ⟨k,rest,hrest,start,rfl⟩ := covering_rest hlen hd hcov
    calc m ≤ c k+cost k := hm.2 ⟨k,rfl⟩
      _ ≤ price cost rest+cost k := add_le_add_left ((hc k).2 ⟨rest,hrest,rfl⟩) _
      _ = _ := (price_cons cost { start := start, kind := k } rest).symm

end Gopher.IntervalCover
