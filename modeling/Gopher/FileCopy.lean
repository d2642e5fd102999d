import Mathlib.Tactic
import Gopher.BufferedWriter

/-!
# Copying a file with and without buffers

Both functions copy in pieces of three bytes until a read returns nothing, and
both truncate the output file. One reads and writes through system calls, the
other through a reader and a writer with buffers of 4096 bytes, and closes the
file without flushing the writer.
-/

set_option autoImplicit false

namespace Gopher.FileCopy
open Gopher.FileStreams Gopher.BufferedWriter

def bufSize : ℕ := 3

def defaultBufSize : ℕ := 4096

def copyLoop {σ ω : Type*} (src : Source σ UInt8) (write : ω → List UInt8 → ω) (s : σ) (out : ω) :
    ω :=
  if _h : (src.read bufSize s).1.length = 0 then out
  else copyLoop src write (src.read bufSize s).2 (write out (src.read bufSize s).1)
termination_by src.left s
decreasing_by
  have := src.spends bufSize s
  omega

def sysIo (input old : List UInt8) : List UInt8 :=
  (copyLoop plain Output.write input (Output.openTrunc old)).content

def stdIo (mode : Passing) (input old : List UInt8) : List UInt8 :=
  (copyLoop (buffered defaultBufSize) (BufWriter.write mode) { buf := [], file := input }
    (BufWriter.opened (Output.openTrunc old) : BufWriter UInt8 defaultBufSize)).file.content

/-! ## Sources that hand out a content -/

structure HandsOut {σ : Type*} (src : Source σ UInt8) (content : σ → List UInt8) : Prop where
  next : ∀ n s, (src.read n s).1++content (src.read n s).2 = content s
  some_while_left : ∀ n s, 0 < n → (src.read n s).1 = [] → content s = []
  at_most : ∀ n s, (src.read n s).1.length ≤ n

theorem plain_handsOut : HandsOut plain (fun file => file) where
  next n file := List.take_append_drop n file
  some_while_left n file hn h := by
    rcases List.take_eq_nil_iff.mp h with h0 | hnil
    · omega
    · exact hnil
  at_most n file := List.length_take_le n file

theorem buffered_handsOut {size : ℕ} (hsize : 0 < size) :
    HandsOut (buffered size) (fun r => r.buf++r.file) where
  next n r := by
    cases h : r.buf with
    | nil => simp [buffered, BufReader.fill, h, ← List.append_assoc]
    | cons b bs => simp [buffered, BufReader.fill, h, ← List.append_assoc]
  some_while_left n r hn hread := by
    cases h : r.buf with
    | nil =>
      simp only [buffered, BufReader.fill, h, List.take_eq_nil_iff] at hread
      rcases hread with hn' | hsize' | hnil
      · omega
      · omega
      · rw [List.nil_append, hnil]
    | cons b bs =>
      simp [buffered, BufReader.fill, h] at hread
      omega
  at_most n r := List.length_take_le n _

theorem copyLoop_pieces {σ ω : Type*} {src : Source σ UInt8} {content : σ → List UInt8}
    (hsrc : HandsOut src content) (write : ω → List UInt8 → ω) (s : σ) (out : ω) :
    ∃ pieces : List (List UInt8), copyLoop src write s out = pieces.foldl write out ∧
      pieces.flatten = content s ∧ ∀ p ∈ pieces, p ≠ [] ∧ p.length ≤ bufSize := by
  induction s, out using copyLoop.induct src write with
  | case1 s out h =>
    have hnil := List.length_eq_zero_iff.mp h
    refine ⟨[],?_,?_,by simp⟩
    · rw [copyLoop, dif_pos h]
      rfl
    · exact (hsrc.some_while_left bufSize s (by decide) hnil).symm
  | case2 s out h ih =>
    obtain ⟨pieces,hloop,hflat,hpieces⟩ := ih
    refine ⟨(src.read bufSize s).1::pieces,?_,?_,?_⟩
    · rw [copyLoop, dif_neg h, hloop]
      rfl
    · rw [List.flatten_cons, hflat, hsrc.next]
    · intro p hp
      rcases List.mem_cons.mp hp with rfl | hp
      · exact ⟨fun hnil => h (by rw [hnil]; rfl),hsrc.at_most bufSize s⟩
      · exact hpieces p hp

/-! ## The two copies -/

theorem foldl_write (f : Output UInt8) (pieces : List (List UInt8)) :
    pieces.foldl Output.write f = f.write pieces.flatten := by
  induction pieces generalizing f with
  | nil => exact (write_nil f).symm
  | cons p pieces ih => rw [List.foldl_cons, ih, write_write, List.flatten_cons]

theorem sysIo_eq (input old : List UInt8) : sysIo input old = input := by
  obtain ⟨pieces,hloop,hflat,-⟩ :=
    copyLoop_pieces plain_handsOut Output.write input (Output.openAt [])
  rw [sysIo, openTrunc_eq, hloop, foldl_write, hflat, openAt_write]
  simp

theorem stdIo_eq_iff (mode : Passing) (input old : List UInt8) :
    stdIo mode input old = input ↔
      input = [] ∨ mode = .whenFull ∧ defaultBufSize ∣ input.length := by
  obtain ⟨pieces,hloop,hflat,hpieces⟩ :=
    copyLoop_pieces (buffered_handsOut (show 0 < defaultBufSize by decide)) (BufWriter.write mode)
      { buf := [], file := input } (BufWriter.opened (Output.openAt []) :
        BufWriter UInt8 defaultBufSize)
  have hsettled := (BufWriter.settled_open mode (show 0 < defaultBufSize by decide)
    (Output.openAt [] : Output UInt8)).foldl_write pieces
      (fun p hp => ⟨(hpieces p hp).1,(hpieces p hp).2.trans (by decide)⟩)
  rw [List.nil_append, hflat, List.nil_append] at hsettled
  rw [stdIo, openTrunc_eq, hloop]
  exact hsettled.all_passed_iff

/-- Both copies leave the input in the output file exactly when the writer holds nothing back
at the end. -/
theorem copies_agree_iff (mode : Passing) (input old : List UInt8) :
    (sysIo input old = input ∧ stdIo mode input old = input) ↔
      input = [] ∨ mode = .whenFull ∧ defaultBufSize ∣ input.length := by
  rw [stdIo_eq_iff, sysIo_eq]
  simp

/-- A file of one byte is copied without buffers and lost with them. -/
theorem stdIo_loses_byte :
    sysIo [0x61] [] = [0x61] ∧ ∀ mode, stdIo mode [0x61] [] ≠ [0x61] := by
  refine ⟨sysIo_eq _ _,?_⟩
  intro mode
  rw [Ne, stdIo_eq_iff]
  cases mode <;> decide

end Gopher.FileCopy
