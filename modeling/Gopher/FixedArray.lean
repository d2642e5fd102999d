import Mathlib.Data.List.Basic
import Mathlib.Tactic

/-!
# Arrays of a fixed length

Cells are addressed by any number; an access outside the array has no result.
A counter beside the array says how many of its first cells are in use, and
what lies behind them is left over from before.
-/

set_option autoImplicit false

namespace Gopher.FixedArray

variable {α : Type*} {cap : ℕ}

structure Slots (α : Type*) (cap : ℕ) where
  cells : List (Option α)
  full : cells.length = cap
  deriving DecidableEq, Repr

namespace Slots

def blank (α : Type*) (cap : ℕ) : Slots α cap where
  cells := List.replicate cap none
  full := List.length_replicate

def read (s : Slots α cap) (i : ℕ) : Option (Option α) := s.cells[i]?

def write (s : Slots α cap) (i : ℕ) (v : Option α) : Option (Slots α cap) :=
  if i < cap then some { cells := s.cells.set i v, full := by rw [List.length_set, s.full] }
  else none

def shift (s : Slots α cap) (i : ℕ) : ℕ → Option (Slots α cap)
  | 0 => some s
  | n+1 => do
    let v ← s.read (i+1)
    let s ← s.write i v
    shift s (i+1) n

def Lists (s : Slots α cap) (n : ℕ) (vs : List α) : Prop :=
  ∃ rest, s.cells = vs.map some++rest ∧ n = vs.length

theorem lists_read {s : Slots α cap} {n : ℕ} {vs : List α} (h : s.Lists n vs) {i : ℕ}
    (hi : i < n) : s.read i = some vs[i]? := by
  obtain ⟨rest,hcells,rfl⟩ := h
  rw [read, hcells, List.getElem?_append_left (by simpa using hi)]
  simp [hi]

theorem write_append (s : Slots α cap) (v x : Option α) (pre rest : List (Option α))
    (h : s.cells = pre++x::rest) :
    ∃ t, s.write pre.length v = some t ∧ t.cells = pre++v::rest := by
  have hlt : pre.length < cap := by
    rw [← s.full, h]
    simp
  exact ⟨_,if_pos hlt,by simp [h]⟩

theorem lists_push {s : Slots α cap} {n : ℕ} {vs : List α} (h : s.Lists n vs) (v : α)
    (hn : n < cap) : ∃ t, s.write n (some v) = some t ∧ t.Lists (n+1) (vs++[v]) := by
  obtain ⟨rest,hcells,rfl⟩ := h
  cases rest with
  | nil =>
    have := s.full
    simp [hcells] at this
    omega
  | cons x rest =>
    obtain ⟨t,hw,ht⟩ := s.write_append (some v) x (vs.map some) rest hcells
    rw [List.length_map] at hw
    exact ⟨t,hw,rest,by simp [ht],by simp⟩

theorem write_full {s : Slots α cap} (v : Option α) {n : ℕ} (hn : cap ≤ n) : s.write n v = none :=
  if_neg (by omega)

/-- The moved cells stand one place lower and the last of them stays behind. -/
theorem shift_cells (mid pre rest : List (Option α)) (x : Option α) (s : Slots α cap)
    (h : s.cells = pre++x::(mid++rest)) :
    ∃ t y, s.shift pre.length mid.length = some t ∧ t.cells = pre++(mid++y::rest) := by
  induction mid generalizing pre x s with
  | nil => exact ⟨s,x,rfl,h⟩
  | cons m mid ih =>
    have hread : s.read (pre.length+1) = some m := by
      rw [read, h]
      simp
    obtain ⟨u,hw,hu⟩ := s.write_append m x pre ((m::mid)++rest) h
    obtain ⟨t,y,hs,ht⟩ := ih (pre++[m]) m u (by simp [hu])
    refine ⟨t,y,?_,by simp [ht]⟩
    simp only [List.length_append, List.length_singleton] at hs
    simp [shift, hread, hw, hs]

theorem lists_shift {s : Slots α cap} {n : ℕ} {v : α} (as bs : List α)
    (h : s.Lists n (as++v::bs)) :
    ∃ t, s.shift as.length (n-1-as.length) = some t ∧ t.Lists (n-1) (as++bs) := by
  obtain ⟨rest,hcells,rfl⟩ := h
  obtain ⟨t,y,hs,ht⟩ := shift_cells (bs.map some) (as.map some) rest (some v) s (by simp [hcells])
  have hlen : (as++v::bs).length-1-as.length = bs.length := by
    simp
  rw [List.length_map, List.length_map] at hs
  exact ⟨t,by rw [hlen, hs],y::rest,by simp [ht],by simp⟩

end Slots

end Gopher.FixedArray
