import Mathlib.Data.List.Basic
import Mathlib.Tactic

/-!
# Streams that arrive in pieces

A stream is the list of pieces in which its elements become available. One
read returns at most what it asked for and never joins two pieces, so every
pattern of short reads is some list of pieces. Reading an exact count is
shown to depend on the concatenation of the pieces only.
-/

set_option autoImplicit false

namespace Gopher.ByteStream

variable {α : Type*}

def read (n : ℕ) : List (List α) → Option (List α × List (List α))
  | [] => none
  | c::cs => if c.length ≤ n then some (c,cs) else some (c.take n,c.drop n::cs)

theorem read_flatten {n : ℕ} {cs rest : List (List α)} {bs : List α}
    (h : read n cs = some (bs,rest)) : bs++rest.flatten = cs.flatten := by
  cases cs with
  | nil => cases h
  | cons c cs =>
    rw [read] at h
    split_ifs at h with hc <;> cases h
    · rfl
    · rw [List.flatten_cons, List.flatten_cons, ← List.append_assoc, List.take_append_drop]

/-- From pieces that are not empty a read of something gets something, and
leaves such pieces. -/
theorem read_filled {n : ℕ} (hn : 0 < n) {cs rest : List (List α)} {bs : List α}
    (h : read n cs = some (bs,rest)) (hcs : ∀ c ∈ cs, c ≠ []) :
    bs ≠ [] ∧ ∀ c ∈ rest, c ≠ [] := by
  cases cs with
  | nil => cases h
  | cons c cs =>
    obtain ⟨hc,hrest⟩ := List.forall_mem_cons.mp hcs
    rw [read] at h
    split_ifs at h with hl <;> cases h
    · exact ⟨hc,hrest⟩
    · refine ⟨?_,List.forall_mem_cons.mpr ⟨?_,hrest⟩⟩
      · simp [hc, hn.ne']
      · simpa using hl

/-- Reads until `n` elements are there. The failure carries the elements that
were consumed before the end of the stream. -/
def readFull : ℕ → List (List α) → Except (List α) (List α × List (List α))
  | n, [] => if n = 0 then .ok ([],[]) else .error []
  | n, c::cs =>
    if n ≤ c.length then .ok (c.take n,c.drop n::cs)
    else match readFull (n-c.length) cs with
      | .ok (bs,rest) => .ok (c++bs,rest)
      | .error bs => .error (c++bs)

theorem readFull_short (n : ℕ) (cs : List (List α)) (h : cs.flatten.length < n) :
    readFull n cs = .error cs.flatten := by
  induction cs generalizing n with
  | nil =>
    have hn : n ≠ 0 := by simp only [List.flatten_nil, List.length_nil] at h; omega
    simp [readFull, hn]
  | cons c cs ih =>
    simp only [List.flatten_cons, List.length_append] at h
    rw [readFull, if_neg (by omega), ih _ (by omega)]
    rfl

theorem readFull_enough (n : ℕ) (cs : List (List α)) (h : n ≤ cs.flatten.length) :
    ∃ rest, readFull n cs = .ok (cs.flatten.take n,rest) ∧
      rest.flatten = cs.flatten.drop n := by
  induction cs generalizing n with
  | nil =>
    obtain rfl : n = 0 := by simpa using h
    exact ⟨[],by simp [readFull],rfl⟩
  | cons c cs ih =>
    simp only [List.flatten_cons, List.length_append] at h
    by_cases hn : n ≤ c.length
    · refine ⟨c.drop n::cs,?_,?_⟩
      · rw [readFull, if_pos hn, List.flatten_cons, List.take_append_of_le_length hn]
      · rw [List.flatten_cons, List.flatten_cons, List.drop_append_of_le_length hn]
    · obtain ⟨rest,hr,hf⟩ := ih (n-c.length) (by omega)
      refine ⟨rest,?_,?_⟩
      · rw [readFull, if_neg hn, hr, List.flatten_cons, List.take_append,
          List.take_of_length_le (by omega : c.length ≤ n)]
      · rw [hf, List.flatten_cons, List.drop_append,
          List.drop_of_length_le (by omega : c.length ≤ n), List.nil_append]

end Gopher.ByteStream
