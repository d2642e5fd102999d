import Mathlib.Data.List.Basic
import Mathlib.Tactic

/-!
# Tokens between delimiters

The words of a text are its maximal parts without a delimiter. The C function
`strtok` finds them one at a time; where it goes on is kept in a pointer of its
own, and a call with a text starts anew.
-/

set_option autoImplicit false

namespace Gopher.Tokens

variable {α : Type*} {isDelim : α → Bool}

def words (isDelim : α → Bool) (s : List α) : List (List α) :=
  (s.splitOnP isDelim).filter (fun w => !w.isEmpty)

def strtok (isDelim : α → Bool) (arg : Option (List α)) (saved : List α) :
    Option (List α) × List α :=
  match (arg.getD saved).dropWhile isDelim with
  | [] => (none,[])
  | a::s => (some ((a::s).takeWhile (fun b => !isDelim b)),
      ((a::s).dropWhile (fun b => !isDelim b)).tail)

@[simp] theorem words_nil : words isDelim [] = [] := by
  simp [words]

theorem words_cons_of_delim {a : α} (h : isDelim a = true) (s : List α) :
    words isDelim (a::s) = words isDelim s := by
  simp [words, List.splitOnP_cons_eq_if_modifyHead, h]

theorem words_dropWhile (s : List α) : words isDelim (s.dropWhile isDelim) = words isDelim s := by
  induction s with
  | nil => rfl
  | cons a s ih =>
    by_cases h : isDelim a = true
    · rw [List.dropWhile_cons_of_pos h, ih, words_cons_of_delim h]
    · rw [List.dropWhile_cons_of_neg h]

theorem splitOnP_of_no_delim {u : List α} (hu : ∀ a ∈ u, isDelim a = false) :
    u.splitOnP isDelim = [u] := by
  induction u with
  | nil => rfl
  | cons a u ih =>
    rw [List.splitOnP_cons_eq_if_modifyHead, hu a List.mem_cons_self,
      ih (fun b hb => hu b (List.mem_cons_of_mem a hb))]
    rfl

theorem words_cons {a : α} (h : isDelim a = false) (s : List α) :
    words isDelim (a::s) = (a::s).takeWhile (fun b => !isDelim b)::
      words isDelim ((a::s).dropWhile (fun b => !isDelim b)).tail := by
  have hsplit := List.takeWhile_append_dropWhile (p := fun b => !isDelim b) (l := a::s)
  have hword : ∀ b ∈ (a::s).takeWhile (fun b => !isDelim b), isDelim b = false := by
    intro b hb
    simpa using List.all_eq_true.mp List.all_takeWhile b hb
  have hne : ((a::s).takeWhile (fun b => !isDelim b)).isEmpty = false := by
    rw [List.takeWhile_cons_of_pos (by simpa using h)]
    rfl
  cases hrest : (a::s).dropWhile (fun b => !isDelim b) with
  | nil =>
    rw [hrest, List.append_nil] at hsplit
    rw [List.tail_nil, words_nil]
    nth_rewrite 1 [← hsplit]
    rw [words, splitOnP_of_no_delim hword]
    simp [hne]
  | cons d rest =>
    have hd : isDelim d = true := by
      have := List.head?_dropWhile_not (fun b => !isDelim b) (a::s)
      rw [hrest] at this
      simpa using this
    nth_rewrite 1 [← hsplit]
    rw [hrest, words, List.splitOnP_append_cons _ _ hd, splitOnP_of_no_delim hword]
    simp [hne, words]

/-- A call returns the next word, and the pointer stands before the others. -/
theorem strtok_words (isDelim : α → Bool) (arg : Option (List α)) (saved : List α) :
    words isDelim (arg.getD saved) = [] ∧ strtok isDelim arg saved = (none,[]) ∨
    ∃ w ws saved', words isDelim (arg.getD saved) = w::ws ∧
      strtok isDelim arg saved = (some w,saved') ∧ words isDelim saved' = ws := by
  rw [← words_dropWhile, strtok]
  cases hs : (arg.getD saved).dropWhile isDelim with
  | nil => exact Or.inl ⟨words_nil,rfl⟩
  | cons a s =>
    have ha : isDelim a = false := by
      have := List.head?_dropWhile_not isDelim (arg.getD saved)
      rw [hs] at this
      simpa using this
    exact Or.inr ⟨_,_,_,words_cons ha s,rfl,rfl⟩

theorem strtok_twice (isDelim : α → Bool) (s saved : List α) :
    (words isDelim s = [] ∧ (strtok isDelim (some s) saved).1 = none ∧
      (strtok isDelim none (strtok isDelim (some s) saved).2).1 = none) ∨
    (∃ w, words isDelim s = [w] ∧ (strtok isDelim (some s) saved).1 = some w ∧
      (strtok isDelim none (strtok isDelim (some s) saved).2).1 = none) ∨
    ∃ w v ws, words isDelim s = w::v::ws ∧ (strtok isDelim (some s) saved).1 = some w ∧
      (strtok isDelim none (strtok isDelim (some s) saved).2).1 = some v := by
  rcases strtok_words isDelim (some s) saved with ⟨hs,h⟩ | ⟨w,ws,saved',hs,h,hrest⟩
  · rw [h]
    exact Or.inl ⟨hs,rfl,rfl⟩
  · rw [Option.getD_some] at hs
    rw [h, hs]
    rcases strtok_words isDelim none saved' with ⟨hws,h'⟩ | ⟨v,vs,saved'',hws,h',-⟩
    · rw [Option.getD_none, hrest] at hws
      rw [h', hws]
      exact Or.inr (Or.inl ⟨w,rfl,rfl,rfl⟩)
    · rw [Option.getD_none, hrest] at hws
      rw [h', hws]
      exact Or.inr (Or.inr ⟨w,v,vs,rfl,rfl,rfl⟩)

theorem length_le_of_mem_words {s w : List α} (h : w ∈ words isDelim s) :
    w.length ≤ s.length := by
  have hsplit : ∀ s : List α, ∀ w ∈ s.splitOnP isDelim, w.length ≤ s.length := by
    intro s
    induction s with
    | nil => simp
    | cons a s ih =>
      intro w hw
      rw [List.splitOnP_cons_eq_if_modifyHead] at hw
      split at hw
      · rcases List.mem_cons.mp hw with rfl | hw
        · exact Nat.zero_le _
        · exact (ih w hw).trans (Nat.le_succ _)
      · cases hp : s.splitOnP isDelim with
        | nil => simp [hp] at hw
        | cons v vs =>
          rw [hp] at hw ih
          rcases List.mem_cons.mp hw with rfl | hw
          · exact Nat.succ_le_succ (ih v List.mem_cons_self)
          · exact (ih w (List.mem_cons_of_mem v hw)).trans (Nat.le_succ _)
  exact hsplit s w (List.mem_of_mem_filter h)

end Gopher.Tokens
