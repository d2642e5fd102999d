import Mathlib.Data.List.Basic
import Mathlib.Tactic

/-!
# Channels

A channel is a bounded queue that can be closed once. Sending on a closed
channel and closing a closed channel panic, for a sender that was already
waiting as well as for a new one. A channel of capacity zero never buffers:
its sends complete only by handing the value to a waiting receiver.
-/

set_option autoImplicit false

namespace Gopher.GoChannel

variable {α β : Type*}

structure Chan (α : Type*) where
  cap : ℕ
  buf : List α
  closed : Bool
  fits : buf.length ≤ cap

inductive Outcome (β : Type*) where
  | panic
  | block
  | done (next : β)

namespace Chan

def make (cap : ℕ) : Chan α where
  cap := cap
  buf := []
  closed := false
  fits := Nat.zero_le cap

def send (c : Chan α) (v : α) : Outcome (Chan α) :=
  if c.closed then .panic
  else if h : c.buf.length < c.cap then
    .done { c with buf := c.buf++[v], fits := by simpa using h }
  else .block

/-- A closed channel still delivers what it buffers, then delivers nothing
without blocking. -/
def recv (c : Chan α) : Outcome (Option α × Chan α) :=
  match h : c.buf with
  | v::rest => .done (some v,{ c with buf := rest, fits := by have := c.fits; rw [h] at this; simp at this; omega })
  | [] => if c.closed then .done (none,c) else .block

def close (c : Chan α) : Outcome (Chan α) :=
  if c.closed then .panic else .done { c with closed := true }

/-- A waiting receiver takes the value of a sender without the buffer. -/
def handoff (c : Chan α) : Bool := !c.closed && c.buf.isEmpty

theorem send_eq_done (c d : Chan α) (v : α) (h : c.send v = .done d) :
    c.closed = false ∧ d.closed = false ∧ d.cap = c.cap ∧ d.buf = c.buf++[v] := by
  unfold send at h
  split_ifs at h with hc hl
  · cases h
    exact ⟨by simpa using hc,by simpa using hc,rfl,rfl⟩

/-- Receiving changes neither the capacity nor the state of the channel, and
takes at most the first buffered value. -/
theorem recv_eq_done (c d : Chan α) (v : Option α) (h : c.recv = .done (v,d)) :
    d.closed = c.closed ∧ d.cap = c.cap ∧ c.buf = v.toList++d.buf := by
  unfold recv at h
  split at h
  · next w rest hb =>
    cases h
    exact ⟨rfl,rfl,hb⟩
  · next hb =>
    split_ifs at h
    cases h
    exact ⟨rfl,rfl,rfl⟩

theorem send_of_room (c : Chan α) (v : α) (ho : c.closed = false) (hr : c.buf.length < c.cap) :
    ∃ d, c.send v = .done d ∧ d.closed = false ∧ d.cap = c.cap ∧ d.buf = c.buf++[v] := by
  have h : c.send v = .done { c with buf := c.buf++[v], fits := by simpa using hr } := by
    rw [send, ho, if_neg Bool.false_ne_true, dif_pos hr]
  exact ⟨_,h,ho,rfl,rfl⟩

theorem recv_of_cons (c : Chan α) {v : α} {rest : List α} (hb : c.buf = v::rest) :
    ∃ d, c.recv = .done (some v,d) ∧ d.closed = c.closed ∧ d.cap = c.cap ∧ d.buf = rest := by
  obtain ⟨cap,buf,closed,fits⟩ := c
  subst hb
  exact ⟨_,rfl,rfl,rfl,rfl⟩

theorem recv_of_nil (c : Chan α) (ho : c.closed = false) (hb : c.buf = []) : c.recv = .block := by
  obtain ⟨cap,buf,closed,fits⟩ := c
  subst ho hb
  rfl

end Chan

end Gopher.GoChannel
