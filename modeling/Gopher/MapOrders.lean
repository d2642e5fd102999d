import Mathlib.Data.List.AList
import Mathlib.Tactic

/-!
# Maps enumerated in any order

A map is a finite association of values to keys. A loop over it sees every
entry once, in an order that nothing determines.
-/

set_option autoImplicit false

namespace Gopher.MapOrders

abbrev Map (κ ν : Type*) := AList (fun _ : κ => ν)

variable {κ ν : Type*} [DecidableEq κ]

def pairs (m : Map κ ν) : List (κ × ν) := m.entries.map (fun e => (e.1,e.2))

theorem lookup_insert (m : Map κ ν) (k c : κ) (v : ν) :
    (m.insert k v).lookup c = if c = k then some v else m.lookup c := by
  split
  · rename_i h
    rw [h, AList.lookup_insert]
  · rename_i h
    rw [AList.lookup_insert_ne h]

structure Iteration (κ ν : Type*) where
  order : Map κ ν → List (κ × ν)
  perm : ∀ m, (order m).Perm (pairs m)

def latestFirst (κ ν : Type*) : Iteration κ ν where
  order := pairs
  perm _ := List.Perm.refl _

namespace Iteration

variable (it : Iteration κ ν) (m : Map κ ν)

theorem mem_order {k : κ} {v : ν} : (k,v) ∈ it.order m ↔ m.lookup k = some v := by
  rw [(it.perm m).mem_iff, pairs, List.mem_map]
  constructor
  · rintro ⟨⟨k',v'⟩,hmem,heq⟩
    cases heq
    exact AList.mem_lookup_iff.mpr hmem
  · intro h
    exact ⟨⟨k,v⟩,AList.mem_lookup_iff.mp h,rfl⟩

omit [DecidableEq κ] in
theorem nodup_keys : ((it.order m).map Prod.fst).Nodup := by
  rw [((it.perm m).map Prod.fst).nodup_iff, pairs, List.map_map]
  exact m.keys_nodup

end Iteration

end Gopher.MapOrders
