import Mathlib.Data.List.Sort
import Mathlib.Tactic

/-!
# Sorted and paged lists

A sort is any function that permutes a list into an order; nothing says how
it places equal elements, and two sorts for one order may differ there. A
page is a segment of a list given by how many elements are skipped and how
many are taken at most.
-/

set_option autoImplicit false

namespace Gopher.ListQueries

variable {α : Type*} {r : α → α → Prop}

structure Sorter (r : α → α → Prop) where
  sort : List α → List α
  perm : ∀ l, (sort l).Perm l
  sorted : ∀ l, (sort l).Pairwise r

namespace Sorter

def merge (le : α → α → Bool) (htrans : ∀ a b c, le a b → le b c → le a c)
    (htotal : ∀ a b, le a b || le b a) : Sorter (fun a b => le a b = true) where
  sort l := l.mergeSort le
  perm l := List.mergeSort_perm l le
  sorted l := List.pairwise_mergeSort htrans htotal l

def insertion (r : α → α → Prop) [DecidableRel r] [Std.Total r] [IsTrans α r] : Sorter r where
  sort l := l.insertionSort r
  perm l := List.perm_insertionSort r l
  sorted l := List.pairwise_insertionSort r l

def weaken {q : α → α → Prop} (f : Sorter r) (h : ∀ a b, r a b → q a b) : Sorter q where
  sort := f.sort
  perm := f.perm
  sorted l := (f.sorted l).imp (h _ _)

/-- Where the order leaves no choice all sorts agree. -/
theorem sort_eq (f g : Sorter r) (l : List α)
    (h : ∀ a ∈ l, ∀ b ∈ l, r a b → r b a → a = b) : f.sort l = g.sort l := by
  apply List.Perm.eq_of_pairwise _ (f.sorted l) (g.sorted l) ((f.perm l).trans (g.perm l).symm)
  intro a b ha hb hab hba
  exact h a ((f.perm l).mem_iff.mp ha) b ((g.perm l).mem_iff.mp hb) hab hba

end Sorter

def page (skip size : ℕ) (l : List α) : List α := (l.drop skip).take size

/-- The first pages of one size, one after the other, are the list. -/
theorem flatMap_page (l : List α) (size n : ℕ) :
    (List.range n).flatMap (fun i => page (i*size) size l) = l.take (n*size) := by
  induction n with
  | zero => simp
  | succ n ih =>
    rw [List.range_succ, List.flatMap_append, ih, List.flatMap_singleton, page, Nat.succ_mul,
      List.take_add]

/-- Pages of one size make up the list, however many are taken, exactly when
each is the page of its number. -/
theorem flatMap_eq_take_iff (f : ℕ → List α) (l : List α) (size count : ℕ) :
    (∀ n ≤ count, (List.range n).flatMap f = l.take (n*size)) ↔
      ∀ i < count, f i = page (i*size) size l := by
  constructor
  · intro h i hi
    have hnext := h (i+1) hi
    rw [List.range_succ, List.flatMap_append, h i hi.le, List.flatMap_singleton, Nat.succ_mul,
      List.take_add] at hnext
    exact List.append_cancel_left hnext
  · intro h n hn
    rw [← flatMap_page]
    apply List.flatMap_congr
    intro i hi
    exact h i ((List.mem_range.mp hi).trans_le hn)

/-- Two pages without repetitions are the same exactly when they start at the
same place or both behind the end. -/
theorem page_eq_iff {l : List α} (hnd : l.Nodup) {size : ℕ} (hsize : 0 < size) (a b : ℕ) :
    page a size l = page b size l ↔ a = b ∨ l.length ≤ a ∧ l.length ≤ b := by
  constructor
  · intro h
    have hget : ∀ k < size, l[a+k]? = l[b+k]? := by
      intro k hk
      have := congrArg (fun m : List α => m[k]?) h
      simpa [page, List.getElem?_take_of_lt hk] using this
    have hzero := hget 0 hsize
    rw [Nat.add_zero, Nat.add_zero] at hzero
    by_cases ha : a < l.length
    · left
      exact (List.getElem?_inj ha hnd).mp hzero
    · right
      rw [List.getElem?_eq_none (by omega)] at hzero
      exact ⟨by omega,List.getElem?_eq_none_iff.mp hzero.symm⟩
  · rintro (rfl | ⟨ha,hb⟩)
    · rfl
    · simp [page, List.drop_eq_nil_of_le ha, List.drop_eq_nil_of_le hb]

end Gopher.ListQueries
