import Mathlib.Tactic
import Gopher.Grouping
import Gopher.RuneStrings

/-!
# Strings grouped by their runes

A string is filed under the string of its sorted runes. The sort is any
function that orders the runes, and the map is enumerated in any order.
-/

set_option autoImplicit false

namespace Gopher.GroupAnagrams
open Gopher.Grouping Gopher.ListQueries Gopher.MapOrders Gopher.MapReduce Gopher.RuneStrings
open Gopher.WordCount

abbrev RuneSort := Sorter (fun a b : ℕ => a ≤ b)

def sortedKey (slice : RuneSort) (str : GoString) : GoString := ofRunes (slice.sort (runes str))

def file (slice : RuneSort) (strToStrs : Map GoString (List GoString)) (str : GoString) :
    Map GoString (List GoString) :=
  let sorted := sortedKey slice str
  let strToStrs := match strToStrs.lookup sorted with
    | some _ => strToStrs
    | none => strToStrs.insert sorted []
  strToStrs.insert sorted ((strToStrs.lookup sorted).getD []++[str])

def groupAnagrams (slice : RuneSort) (it : Iteration GoString (List GoString))
    (strs : List GoString) : List (List GoString) :=
  (it.order (strs.foldl (file slice) ∅)).map Prod.snd

/-! ## The key of a string -/

/-- Valid strings have one key exactly when their runes are permutations of each other. -/
theorem sortedKey_eq_iff (slice : RuneSort) {s t : GoString} (hs : Valid s) (ht : Valid t) :
    sortedKey slice s = sortedKey slice t ↔ (runes s).Perm (runes t) := by
  have hscalar : ∀ {u : GoString}, Valid u → ∀ r ∈ slice.sort (runes u), Scalar r := by
    intro u hu r hr
    exact hu.scalar r ((slice.perm _).mem_iff.mp hr)
  constructor
  · intro heq
    have hsort := ofRunes_inj (hscalar hs) (hscalar ht) heq
    exact (slice.perm _).symm.trans (hsort ▸ slice.perm _)
  · intro hperm
    have hsort : slice.sort (runes s) = slice.sort (runes t) := by
      apply List.Perm.eq_of_pairwise _ (slice.sorted _) (slice.sorted _)
        ((slice.perm _).trans (hperm.trans (slice.perm _).symm))
      intro a b _ _ hab hba
      exact le_antisymm hab hba
    rw [sortedKey, sortedKey, hsort]

/-! ## The groups -/

theorem file_eq_addTo (slice : RuneSort) : file slice = addTo (sortedKey slice) := by
  funext m str
  rw [file, addTo]
  cases h : m.lookup (sortedKey slice str) with
  | some group => simp [h]
  | none => simp [AList.insert_insert]

/-- The groups are the classes of strings with the same runes, and each keeps the order
of the input. -/
theorem groupAnagrams_splits (slice : RuneSort) (it : Iteration GoString (List GoString))
    (strs : List GoString) (h : ∀ s ∈ strs, Valid s) :
    (∀ group ∈ groupAnagrams slice it strs, group ≠ []) ∧
    (groupAnagrams slice it strs).flatten.Perm strs ∧
    ∃ places, Splits (fun s t => (runes s).Perm (runes t)) strs
      (groupAnagrams slice it strs) places := by
  have hsplits := (collect_splits (sortedKey slice) strs it).mono
    (fun s hs t ht => sortedKey_eq_iff slice (h s hs) (h t ht))
  rw [groupAnagrams, file_eq_addTo]
  exact ⟨hsplits.group_ne_nil,hsplits.flatten_perm,_,hsplits⟩

theorem groupAnagrams_splits_three :
    (groupAnagrams (Sorter.insertion _) (latestFirst GoString (List GoString))
      [ofRunes [0x61,0xE9],ofRunes [0x62],ofRunes [0xE9,0x61]]).flatten.Perm
      [ofRunes [0x61,0xE9],ofRunes [0x62],ofRunes [0xE9,0x61]] := by
  apply (groupAnagrams_splits _ _ _ _).2.1
  intro s hs
  simp only [List.mem_cons, List.not_mem_nil, or_false] at hs
  rcases hs with rfl | rfl | rfl
  · exact ⟨_,by simp [Scalar],rfl⟩
  · exact ⟨_,by simp [Scalar],rfl⟩
  · exact ⟨_,by simp [Scalar],rfl⟩

end Gopher.GroupAnagrams
