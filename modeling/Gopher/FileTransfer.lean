import Gopher.ByteStream
import Gopher.FileStreams

/-!
# Sending a file over a connection

Both servers send what they read in blocks of thirty bytes and take the first
short block for the end of the file. Both clients write what they read until
the stream ends, in whatever pieces it arrives. The Go server reads through a
buffer of 4096 bytes and the Go client opens its file without truncating it;
the C++ pair reads plainly and truncates.
-/

set_option autoImplicit false

namespace Gopher.FileTransfer
open Gopher.ByteStream Gopher.FileStreams

def bufSize : ℕ := 30

def readerSize : ℕ := 4096

def sendLoop {σ : Type*} (src : Source σ UInt8) (s : σ) : List (List UInt8) :=
  if _h : (src.read bufSize s).1.length < bufSize then [(src.read bufSize s).1]
  else (src.read bufSize s).1::sendLoop src (src.read bufSize s).2
termination_by src.left s
decreasing_by
  have := src.spends bufSize s
  simp only [bufSize] at *
  omega

def recvLoop (pieces : List (List UInt8)) (file : Output UInt8) : Output UInt8 :=
  match _h : ByteStream.read bufSize pieces with
  | none => file
  | some (bs,rest) => if _hn : bs.length ≤ 0 then file else recvLoop rest (file.write bs)
termination_by pieces.flatten.length
decreasing_by
  have := congrArg List.length (read_flatten _h)
  rw [List.length_append] at this
  omega

def goServer (file : List UInt8) : List (List UInt8) :=
  sendLoop (buffered readerSize) { buf := [], file := file }

def cppServer (file : List UInt8) : List (List UInt8) := sendLoop plain file

def goClient (old : List UInt8) (pieces : List (List UInt8)) : List UInt8 :=
  (recvLoop pieces (Output.openAt old)).content

def cppClient (old : List UInt8) (pieces : List (List UInt8)) : List UInt8 :=
  (recvLoop pieces (Output.openTrunc old)).content

structure Cuts (stream : List UInt8) (pieces : List (List UInt8)) : Prop where
  whole : pieces.flatten = stream
  filled : ∀ p ∈ pieces, p ≠ []

theorem recvLoop_filled (pieces : List (List UInt8)) (file : Output UInt8)
    (h : ∀ p ∈ pieces, p ≠ []) : recvLoop pieces file = file.write pieces.flatten := by
  induction pieces, file using recvLoop.induct with
  | case1 pieces file hr =>
    have hnil : pieces = [] := by
      cases pieces with
      | nil => rfl
      | cons c cs =>
        rw [ByteStream.read] at hr
        split_ifs at hr
    subst hnil
    rw [recvLoop, List.flatten_nil, write_nil]
    rfl
  | case2 pieces file bs rest hr hn =>
    have hbs := (read_filled (by decide) hr h).1
    exact absurd (List.length_eq_zero_iff.mp (by omega)) hbs
  | case3 pieces file bs rest hr hn ih =>
    have hloop : recvLoop pieces file = recvLoop rest (file.write bs) := by
      rw [recvLoop]
      split
      · next hr' => simp [hr] at hr'
      · next hr' =>
        cases hr.symm.trans hr'
        rw [dif_neg hn]
    rw [hloop, ih (read_filled (by decide) hr h).2, write_write, read_flatten hr]

theorem cppServer_sends (file : List UInt8) : (cppServer file).flatten = file := by
  unfold cppServer
  induction hn : file.length using Nat.strong_induction_on generalizing file with
  | _ n ih =>
    subst hn
    rw [sendLoop]
    split_ifs with h
    · have hlen : file.length < bufSize := by simpa [plain] using h
      simp [plain, List.take_of_length_le hlen.le]
    · have hlen : bufSize ≤ file.length := by simpa [plain] using h
      have hrest := ih _ (by simp only [List.length_drop, bufSize] at *; omega)
        (file.drop bufSize) rfl
      rw [List.flatten_cons]
      exact (congrArg _ hrest).trans (List.take_append_drop bufSize file)

/-- The loop depends on a source only through what it reads next. -/
theorem sendLoop_congr {σ : Type*} (src : Source σ UInt8) (s t : σ)
    (h : src.read bufSize s = src.read bufSize t) : sendLoop src s = sendLoop src t := by
  rw [sendLoop.eq_def src s, sendLoop.eq_def src t, h]

/-- What is in the buffer is sent, and the loop goes on behind it only when
the buffer is spent by full blocks. -/
theorem sendLoop_buffered (size : ℕ) (buf file : List UInt8) :
    (sendLoop (buffered size) { buf := buf, file := file }).flatten =
      if buf.length % bufSize = 0 then
        buf++(sendLoop (buffered size) { buf := [], file := file }).flatten
      else buf := by
  induction hn : buf.length using Nat.strong_induction_on generalizing buf with
  | _ n ih =>
    subst hn
    by_cases hnil : buf = []
    · simp [hnil]
    · have hread : (buffered size).read bufSize { buf := buf, file := file } =
          (buf.take bufSize,{ buf := buf.drop bufSize, file := file }) := by
        cases buf with
        | nil => exact absurd rfl hnil
        | cons b bs => rfl
      have hpos : 0 < buf.length := List.length_pos_iff.mpr hnil
      rw [sendLoop, hread]
      by_cases hlen : buf.length < bufSize
      · have hmod : buf.length % bufSize ≠ 0 := by rw [Nat.mod_eq_of_lt hlen]; omega
        have htake : buf.take bufSize = buf := List.take_of_length_le hlen.le
        simp [htake, hlen, hmod]
      · have hfull : ¬(buf.take bufSize).length < bufSize := by simpa using hlen
        have hrest := ih _ (by simp only [List.length_drop, bufSize] at *; omega)
          (buf.drop bufSize) rfl
        have hmod : (buf.drop bufSize).length % bufSize = buf.length % bufSize := by
          simp only [List.length_drop, bufSize] at *
          omega
        rw [dif_neg hfull, List.flatten_cons, hrest, hmod]
        split_ifs
        · rw [← List.append_assoc, List.take_append_drop]
        · exact List.take_append_drop bufSize buf

/-- The Go server sends the first filling of its buffer and no more, because
that filling does not consist of full blocks. -/
theorem goServer_sends (file : List UInt8) : (goServer file).flatten = file.take readerSize := by
  unfold goServer
  cases file with
  | nil => simp [sendLoop, buffered, BufReader.fill, bufSize]
  | cons b bs =>
    have hload : sendLoop (buffered readerSize) { buf := [], file := b::bs } =
        sendLoop (buffered readerSize)
          { buf := (b::bs).take readerSize, file := (b::bs).drop readerSize } :=
      sendLoop_congr _ _ _ rfl
    rw [hload, sendLoop_buffered]
    split_ifs with hmod
    · have hshort : (b::bs).length ≤ readerSize := by
        simp only [List.length_take, bufSize, readerSize] at *
        omega
      rw [List.drop_of_length_le hshort]
      simp [sendLoop, buffered, BufReader.fill, bufSize]
    · rfl

theorem goClient_writes (old stream : List UInt8) (pieces : List (List UInt8))
    (h : Cuts stream pieces) : goClient old pieces = stream++old.drop stream.length := by
  rw [goClient, recvLoop_filled pieces _ h.filled, h.whole, openAt_write]

theorem cppClient_writes (old stream : List UInt8) (pieces : List (List UInt8))
    (h : Cuts stream pieces) : cppClient old pieces = stream := by
  rw [cppClient, openTrunc_eq, recvLoop_filled pieces _ h.filled, h.whole, openAt_write, List.drop_nil,
    List.append_nil]

/-- However the stream is cut, the Go client ends with the file exactly when
the file fits into the buffer of the reader and the old output is not longer
than it, or when the old output already has the end of a file that does not
fit. The C++ pair always delivers the file. -/
theorem transfer_exact (file old : List UInt8) :
    (∀ pieces, Cuts (goServer file).flatten pieces →
      (goClient old pieces = file ↔
        file.length ≤ readerSize ∧ old.length ≤ file.length ∨
        readerSize < file.length ∧ old.drop readerSize = file.drop readerSize)) ∧
    (∀ pieces, Cuts (cppServer file).flatten pieces → cppClient old pieces = file) := by
  refine ⟨fun pieces hp => ?_,fun pieces hp => ?_⟩
  · rw [goClient_writes old _ pieces hp, goServer_sends]
    by_cases hfit : file.length ≤ readerSize
    · rw [List.take_of_length_le hfit, List.append_right_eq_self, List.drop_eq_nil_iff]
      omega
    · have hlen : (file.take readerSize).length = readerSize := by simp; omega
      nth_rewrite 3 [← List.take_append_drop readerSize file]
      rw [hlen, List.append_cancel_left_eq]
      simp [hfit, not_le.mp hfit]
  · rw [cppClient_writes old _ pieces hp, cppServer_sends]

theorem two_bytes_arrive :
    Cuts (goServer [1,2]).flatten [[1],[2]] ∧ goClient [9] [[1],[2]] = [1,2] := by
  have hcuts : Cuts (goServer [1,2]).flatten [[1],[2]] := by
    refine ⟨?_,by decide⟩
    rw [goServer_sends]
    rfl
  exact ⟨hcuts,((transfer_exact [1,2] [9]).1 _ hcuts).mpr (.inl (by decide))⟩

theorem long_file_loses (file : List UInt8) (h : readerSize < file.length) :
    Cuts (goServer file).flatten [file.take readerSize] ∧
      goClient [] [file.take readerSize] ≠ file := by
  have hcuts : Cuts (goServer file).flatten [file.take readerSize] := by
    refine ⟨?_,?_⟩
    · rw [goServer_sends, List.flatten_singleton]
    · intro p hp hnil
      rw [List.mem_singleton.mp hp, List.take_eq_nil_iff] at hnil
      rcases hnil with hz | rfl
      · cases hz
      · cases h
  refine ⟨hcuts,fun he => ?_⟩
  rw [goClient_writes [] _ _ hcuts, goServer_sends, List.drop_nil, List.append_nil,
    List.take_eq_self_iff] at he
  omega

/-- A file of one byte more than the buffer loses that byte. -/
theorem long_file_cut :
    Cuts (goServer (List.replicate 4097 0)).flatten [(List.replicate 4097 0).take readerSize] ∧
      goClient [] [(List.replicate 4097 0).take readerSize] ≠ List.replicate 4097 0 :=
  long_file_loses _ (by rw [List.length_replicate]; decide)

end Gopher.FileTransfer
