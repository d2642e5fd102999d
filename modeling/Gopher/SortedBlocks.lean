import Mathlib.Data.List.Sort
import Mathlib.Data.List.TakeWhile

/-!
# Blocks of equal keys

A list is cut into its maximal segments of equal keys. In a list sorted by
key a block is all the list has under its key, so the cut groups the list.
-/

set_option autoImplicit false

namespace Gopher.SortedBlocks

variable {α κ : Type*} [LinearOrder κ]

def blocks (key : α → κ) : List α → List (κ × List α)
  | [] => []
  | a::l =>
    (key a,a::l.takeWhile (fun b => key b = key a))::
      blocks key (l.dropWhile (fun b => key b = key a))
termination_by l => l.length
decreasing_by
  have := (List.dropWhile_sublist (l := l) (fun b => decide (key b = key a))).length_le
  simp only [List.length_cons]
  omega

def Sorted (key : α → κ) (l : List α) : Prop := l.Pairwise (fun a b => key a ≤ key b)

theorem dropWhile_gt {key : α → κ} {a : α} {l : List α} (h : Sorted key (a::l)) :
    ∀ b ∈ l.dropWhile (fun b => key b = key a), key a < key b := by
  induction l with
  | nil => simp
  | cons c l ih =>
    have hac : key a ≤ key c := List.rel_of_pairwise_cons h List.mem_cons_self
    by_cases hc : key c = key a
    · rw [List.dropWhile_cons_of_pos (by simpa using hc)]
      exact ih (h.sublist ((List.sublist_cons_self c l).cons_cons a))
    · rw [List.dropWhile_cons_of_neg (by simpa using hc)]
      have hlt : key a < key c := lt_of_le_of_ne hac (Ne.symm hc)
      intro b hb
      rcases List.mem_cons.mp hb with rfl | hb
      · exact hlt
      · exact hlt.trans_le (List.rel_of_pairwise_cons h.of_cons hb)

/-- Behind a block its key does not come back. -/
theorem filter_rest {key : α → κ} {a : α} {l : List α} (h : Sorted key (a::l)) :
    (l.dropWhile (fun b => key b = key a)).filter (fun b => key b = key a) = [] := by
  rw [List.filter_eq_nil_iff]
  intro b hb
  simpa using (dropWhile_gt h b hb).ne'

theorem key_of_mem {key : α → κ} {k : κ} {l : List α} {b : α}
    (hb : b ∈ l.takeWhile (fun b => key b = k)) : key b = k := by
  have := List.mem_takeWhile_imp (p := fun b => decide (key b = k)) hb
  simpa using this

theorem filter_cons_self {key : α → κ} {a : α} {l : List α} (h : Sorted key (a::l)) :
    (a::l).filter (fun b => key b = key a) = a::l.takeWhile (fun b => key b = key a) := by
  have hin : (l.takeWhile (fun b => key b = key a)).filter (fun b => key b = key a) =
      l.takeWhile (fun b => key b = key a) :=
    List.filter_eq_self.mpr (fun b hb => by simpa using key_of_mem hb)
  conv_lhs => rw [← List.takeWhile_append_dropWhile (p := fun b => decide (key b = key a)) (l := l)]
  rw [List.filter_cons_of_pos (by simp), List.filter_append, hin,
    filter_rest h, List.append_nil]

theorem filter_cons_other {key : α → κ} {a : α} {l : List α} {k : κ} (hk : key a ≠ k) :
    (a::l).filter (fun b => key b = k) =
      (l.dropWhile (fun b => key b = key a)).filter (fun b => key b = k) := by
  rw [List.filter_cons_of_neg (by simpa using hk)]
  conv_lhs => rw [← List.takeWhile_append_dropWhile (p := fun b => decide (key b = key a)) (l := l)]
  rw [List.filter_append, List.filter_eq_nil_iff.mpr, List.nil_append]
  intro b hb
  simpa [key_of_mem hb] using hk

theorem sorted_rest {key : α → κ} {a : α} {l : List α} (h : Sorted key (a::l)) :
    Sorted key (l.dropWhile (fun b => key b = key a)) :=
  h.of_cons.sublist (List.dropWhile_sublist _)

/-- The blocks of a sorted list are its nonempty groups. -/
theorem mem_blocks {key : α → κ} {l : List α} (h : Sorted key l) (k : κ) (b : List α) :
    (k,b) ∈ blocks key l ↔ b = l.filter (fun a => key a = k) ∧ b ≠ [] := by
  induction l using blocks.induct key with
  | case1 =>
    rw [blocks]
    simp
  | case2 a l ih =>
    have hrest := ih (sorted_rest h)
    rw [blocks, List.mem_cons, hrest]
    by_cases hk : key a = k
    · subst hk
      rw [filter_cons_self h, filter_rest h, Prod.mk.injEq]
      constructor
      · rintro (⟨-,rfl⟩ | ⟨rfl,hne⟩)
        · exact ⟨rfl,List.cons_ne_nil _ _⟩
        · exact absurd rfl hne
      · rintro ⟨rfl,-⟩
        exact Or.inl ⟨rfl,rfl⟩
    · rw [filter_cons_other hk]
      simp [Ne.symm hk]

theorem blocks_increasing {key : α → κ} {l : List α} (h : Sorted key l) :
    ((blocks key l).map Prod.fst).Pairwise (· < ·) := by
  induction l using blocks.induct key with
  | case1 =>
    rw [blocks]
    exact List.Pairwise.nil
  | case2 a l ih =>
    rw [blocks, List.map_cons, List.pairwise_cons]
    refine ⟨?_,ih (sorted_rest h)⟩
    intro k hk
    obtain ⟨⟨k',b⟩,hb,rfl⟩ := List.mem_map.mp hk
    obtain ⟨rfl,hne⟩ := (mem_blocks (sorted_rest h) _ b).mp hb
    obtain ⟨c,hc⟩ := List.exists_mem_of_ne_nil _ hne
    obtain ⟨hc,hck⟩ := List.mem_filter.mp hc
    rw [decide_eq_true_eq] at hck
    rw [← hck]
    exact dropWhile_gt h c hc

end Gopher.SortedBlocks
