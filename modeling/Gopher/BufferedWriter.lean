import Gopher.FileStreams

/-!
# Writing through a buffer

What is written goes to a buffer of a fixed size and from there to the file. A
full buffer is passed on at once or only when the next element does not fit.
What is still in the buffer when nobody flushes it never reaches the file.
-/

set_option autoImplicit false

namespace Gopher.BufferedWriter
open Gopher.FileStreams

variable {α : Type*} {size : ℕ}

inductive Passing where
  | whenFull
  | whenOverfull
  deriving DecidableEq

structure BufWriter (α : Type*) (size : ℕ) where
  buf : List α
  file : Output α
  fits : buf.length ≤ size

namespace BufWriter

def opened (file : Output α) : BufWriter α size where
  buf := []
  file := file
  fits := Nat.zero_le _

def append (w : BufWriter α size) (p : List α) (h : w.buf.length+p.length ≤ size) :
    BufWriter α size where
  buf := w.buf++p
  file := w.file
  fits := by rwa [List.length_append]

def flush (w : BufWriter α size) : BufWriter α size where
  buf := []
  file := w.file.write w.buf
  fits := Nat.zero_le _

def settle (mode : Passing) (w : BufWriter α size) : BufWriter α size :=
  match mode with
  | .whenFull => if w.buf.length = size then w.flush else w
  | .whenOverfull => w

/-- What does not fit behind the buffered elements fills the buffer, which is passed on; an
empty buffer is passed over. -/
def write (mode : Passing) (w : BufWriter α size) (p : List α) : BufWriter α size :=
  if h : w.buf.length+p.length ≤ size then (w.append p h).settle mode
  else if w.buf = [] then { w with file := w.file.write p }
  else
    write mode (w.append (p.take (size-w.buf.length)) (by have := w.fits; simp; omega)).flush
      (p.drop (size-w.buf.length))
termination_by p.length+w.buf.length
decreasing_by
  have : 0 < w.buf.length := List.length_pos_iff.mpr ‹_›
  simp only [flush, List.length_drop, List.length_nil]
  omega

/-! ## What has been passed on -/

structure Passed (start : Output α) (written passed : List α) (w : BufWriter α size) : Prop where
  file : w.file = start.write passed
  split : passed++w.buf = written
  blocks : size ∣ passed.length

def Rests (mode : Passing) (written : List α) (w : BufWriter α size) : Prop :=
  match mode with
  | .whenFull => w.buf.length < size
  | .whenOverfull => w.buf = [] → written = []

def Settled (mode : Passing) (start : Output α) (written : List α) (w : BufWriter α size) : Prop :=
  (∃ passed, Passed start written passed w) ∧ Rests mode written w

variable {mode : Passing} {start : Output α} {written passed p : List α} {w : BufWriter α size}

theorem settled_open (mode : Passing) (hsize : 0 < size) (start : Output α) :
    Settled mode start [] (opened start : BufWriter α size) := by
  refine ⟨⟨[],(write_nil start).symm,rfl,dvd_zero _⟩,?_⟩
  cases mode with
  | whenFull => exact hsize
  | whenOverfull => exact fun _ => rfl

theorem Passed.append (h : Passed start written passed w) (hfit : w.buf.length+p.length ≤ size) :
    Passed start (written++p) passed (w.append p hfit) :=
  ⟨h.file,by rw [← h.split, List.append_assoc]; rfl,h.blocks⟩

theorem Passed.flush (h : Passed start written passed w) (hfull : w.buf.length = size) :
    Passed start written (passed++w.buf) w.flush := by
  refine ⟨?_,?_,?_⟩
  · show w.file.write w.buf = _
    rw [h.file, write_write]
  · show (passed++w.buf)++[] = written
    rw [List.append_nil, h.split]
  · rw [List.length_append, hfull]
    exact dvd_add h.blocks (dvd_refl size)

/-- A write that fits stays in the buffer, unless it fills it and full buffers are passed on. -/
theorem Passed.settle (mode : Passing) (h : Passed start written passed w)
    (hfit : w.buf.length+p.length ≤ size) (hp : p ≠ []) :
    Settled mode start (written++p) ((w.append p hfit).settle mode) := by
  have hnext := h.append hfit
  have hbuf : (w.append p hfit).buf = w.buf++p := rfl
  cases mode with
  | whenOverfull =>
    refine ⟨⟨passed,hnext⟩,?_⟩
    intro hnil
    simp [BufWriter.settle, hbuf, hp] at hnil
  | whenFull =>
    rw [BufWriter.settle]
    by_cases hfull : (w.append p hfit).buf.length = size
    · have hpos : 0 < size := by
        have := List.length_pos_iff.mpr hp
        omega
      rw [if_pos hfull]
      exact ⟨⟨_,hnext.flush hfull⟩,hpos⟩
    · rw [if_neg hfull]
      exact ⟨⟨passed,hnext⟩,lt_of_le_of_ne (w.append p hfit).fits hfull⟩

theorem write_of_fits (mode : Passing) (hfit : w.buf.length+p.length ≤ size) :
    w.write mode p = (w.append p hfit).settle mode := by
  rw [write, dif_pos hfit]

theorem Settled.write (h : Settled mode start written w) (hp : p ≠ []) (hlen : p.length ≤ size) :
    Settled mode start (written++p) (w.write mode p) := by
  obtain ⟨⟨passed,hpassed⟩,-⟩ := h
  by_cases hfit : w.buf.length+p.length ≤ size
  · rw [write_of_fits mode hfit]
    exact hpassed.settle mode hfit hp
  · have hbuf : w.buf ≠ [] := by
      intro hnil
      simp [hnil] at hfit
      omega
    have hroom : w.buf.length+(p.take (size-w.buf.length)).length = size := by
      have := w.fits
      simp
      omega
    have hrest : p.drop (size-w.buf.length) ≠ [] := by
      intro hnil
      have := congrArg List.length hnil
      simp at this
      omega
    have hfull : (w.append (p.take (size-w.buf.length)) hroom.le).buf.length = size :=
      List.length_append.trans hroom
    have hflushed := (hpassed.append hroom.le).flush hfull
    have hlast : (w.append (p.take (size-w.buf.length)) hroom.le).flush.buf.length+
        (p.drop (size-w.buf.length)).length ≤ size := by
      show 0+_ ≤ size
      simp
      omega
    rw [BufWriter.write, dif_neg hfit, if_neg hbuf, write_of_fits mode hlast]
    have hsettled := hflushed.settle mode hlast hrest
    rwa [List.append_assoc, List.take_append_drop] at hsettled

theorem Settled.foldl_write (h : Settled mode start written w) (pieces : List (List α))
    (hpieces : ∀ p ∈ pieces, p ≠ [] ∧ p.length ≤ size) :
    Settled mode start (written++pieces.flatten) (pieces.foldl (BufWriter.write mode) w) := by
  induction pieces generalizing written w with
  | nil => simpa using h
  | cons p pieces ih =>
    obtain ⟨hp,hlen⟩ := hpieces p List.mem_cons_self
    have := ih (h.write hp hlen) (fun q hq => hpieces q (List.mem_cons_of_mem p hq))
    rwa [List.append_assoc, ← List.flatten_cons] at this

/-- Everything has reached the file exactly when nothing is left in the buffer: nothing was
written, or whole buffers were and full ones are passed on. -/
theorem Settled.all_passed_iff (h : Settled mode (Output.openAt []) written w) :
    w.file.content = written ↔ written = [] ∨ mode = .whenFull ∧ size ∣ written.length := by
  obtain ⟨⟨passed,hpassed⟩,hrests⟩ := h
  have hcontent : w.file.content = passed := by
    rw [hpassed.file, openAt_write]
    simp
  have hlen := congrArg List.length hpassed.split
  rw [List.length_append] at hlen
  have hbuf : w.file.content = written ↔ w.buf = [] := by
    rw [hcontent, ← hpassed.split, List.self_eq_append_right]
  rw [hbuf]
  cases mode with
  | whenOverfull =>
    constructor
    · intro hnil
      exact Or.inl (hrests hnil)
    · rintro (hnil | ⟨hmode,-⟩)
      · exact List.append_eq_nil_iff.mp (hpassed.split.trans hnil) |>.2
      · cases hmode
  | whenFull =>
    constructor
    · intro hnil
      rw [hnil] at hlen
      exact Or.inr ⟨rfl,by rw [← hlen]; exact hpassed.blocks⟩
    · rintro (hnil | ⟨-,hdvd⟩)
      · exact List.append_eq_nil_iff.mp (hpassed.split.trans hnil) |>.2
      · rw [← hlen, Nat.dvd_add_right hpassed.blocks] at hdvd
        exact List.length_eq_zero_iff.mp (Nat.eq_zero_of_dvd_of_lt hdvd hrests)

end BufWriter

end Gopher.BufferedWriter
