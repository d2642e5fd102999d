import Mathlib.Data.List.TakeDrop
import Mathlib.Tactic

/-!
# Files read and written through a position

A source hands out its elements from the front, at most as many as it is
asked for. A plain source hands out all it was asked for while it lasts. A
buffered source hands out what its buffer still holds and fills the buffer
only when it is empty, so it may hand out fewer in the middle of the file. A
write replaces what stands at the position and keeps what lies behind it.
-/

set_option autoImplicit false

namespace Gopher.FileStreams

variable {σ α : Type*}

structure Source (σ α : Type*) where
  read : ℕ → σ → List α × σ
  left : σ → ℕ
  spends : ∀ n s, (read n s).1.length+left (read n s).2 = left s

def plain : Source (List α) α where
  read n file := (file.take n,file.drop n)
  left := List.length
  spends n file := by simp; omega

structure BufReader (α : Type*) where
  buf : List α
  file : List α

def BufReader.fill (size : ℕ) (r : BufReader α) : BufReader α :=
  match r.buf with
  | [] => { buf := r.file.take size, file := r.file.drop size }
  | _::_ => r

def buffered (size : ℕ) : Source (BufReader α) α where
  read n r := ((r.fill size).buf.take n,{ r.fill size with buf := (r.fill size).buf.drop n })
  left r := r.buf.length+r.file.length
  spends n r := by
    cases h : r.buf with
    | nil => simp [BufReader.fill, h]; omega
    | cons a as => simp [BufReader.fill, h]; omega

structure Output (α : Type*) where
  content : List α
  offset : ℕ
  fits : offset ≤ content.length

def Output.openAt (content : List α) : Output α where
  content := content
  offset := 0
  fits := Nat.zero_le _

def Output.openTrunc (content : List α) : Output α := Output.openAt (content.take 0)

def Output.write (f : Output α) (bs : List α) : Output α where
  content := f.content.take f.offset++bs++f.content.drop (f.offset+bs.length)
  offset := f.offset+bs.length
  fits := by
    have := f.fits
    simp
    omega

theorem write_nil (f : Output α) : f.write [] = f := by
  simp [Output.write]

theorem write_write (f : Output α) (as bs : List α) : (f.write as).write bs = f.write (as++bs) := by
  have hlen : (f.content.take f.offset++as).length = f.offset+as.length := by
    have := f.fits
    simp
    omega
  simp only [Output.write, Output.mk.injEq, List.length_append]
  refine ⟨?_,by omega⟩
  rw [← hlen, List.take_left, List.drop_length_add_append, List.drop_drop, hlen]
  simp only [List.append_assoc, Nat.add_assoc]

theorem openTrunc_eq (content : List α) : Output.openTrunc content = Output.openAt [] := by
  rw [Output.openTrunc, List.take_zero]

theorem openAt_write (content bs : List α) :
    ((Output.openAt content).write bs).content = bs++content.drop bs.length := by
  simp [Output.write, Output.openAt]

end Gopher.FileStreams
