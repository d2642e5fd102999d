import Gopher.StepRuns
import Gopher.GoChannel
import Gopher.MsgSerializer

/-!
# The goroutines of one connection

One writer, any number of callers of `SendPacket` and any number of callers
of `Stop`, the deferred call of the reader among them, interleave one
statement at a time. `PacketChan` has no buffer and `ClosedChan` has one
place. The hook and the registry are visible here only as the statements at
which they run. A panic ends the process, so nothing runs after it.
-/

set_option autoImplicit false

namespace Gopher.ConnSystem
open Gopher.GoChannel Gopher.MsgSerializer

structure Call where
  msgId : UInt32
  msgData : List UInt8
  deriving DecidableEq, Repr

inductive SendPc where
  | idle
  | checked (c : Call)
  | sending (c : Call) (packet : List UInt8)
  | sent (c : Call)
  deriving DecidableEq, Repr

structure Sender where
  pc : SendPc := .idle
  log : List (Call × Option GoError) := []
  deriving DecidableEq, Repr

inductive WriterPc where
  | select
  | writing (packet : List UInt8)
  | returned
  deriving DecidableEq, Repr

/-- The statement of `Stop` that was executed last; `returned` is the early
return of a call that found the connection closed. -/
inductive StopPc where
  | start
  | passed
  | flagged
  | hooked
  | shut
  | signalled
  | deleted
  | drained
  | finished
  | returned
  deriving DecidableEq, Repr

inductive Panic (ι κ : Type*) where
  | sendPacketChan (i : ι)
  | sendClosedChan (k : κ)
  | closeClosedChan (k : κ)
  | closePacketChan (k : κ)
  deriving DecidableEq, Repr

structure State (ι κ : Type*) where
  isClosed : Bool
  packetChan : Chan (List UInt8)
  closedChan : Chan Unit
  socketOpen : Bool
  wire : List UInt8
  writer : WriterPc
  sender : ι → Sender
  stopper : κ → StopPc
  panic : Option (Panic ι κ)

inductive Action (ι κ : Type*) where
  | call (i : ι) (c : Call)
  | pack (i : ι)
  | send (i : ι)
  | ret (i : ι)
  | stop (k : κ)
  | recvPacket
  | recvClosed
  | write (ok : Bool)
  deriving DecidableEq, Repr

def newConn (ι κ : Type*) : State ι κ where
  isClosed := false
  packetChan := .make 0
  closedChan := .make 1
  socketOpen := true
  wire := []
  writer := .select
  sender := fun _ => {}
  stopper := fun _ => .start
  panic := none

def closedText (msgId : UInt32) : String := "connection Id=" ++ toString msgId ++ " closed"

variable {ι κ : Type*}

def State.setSender [DecidableEq ι] (s : State ι κ) (i : ι) (x : Sender) : State ι κ :=
  { s with sender := Function.update s.sender i x }

def State.setStopper [DecidableEq κ] (s : State ι κ) (k : κ) (pc : StopPc) : State ι κ :=
  { s with stopper := Function.update s.stopper k pc }

@[simp] theorem setStopper_self [DecidableEq κ] (s : State ι κ) (k : κ) (pc : StopPc) :
    (s.setStopper k pc).stopper k = pc := Function.update_self ..

theorem setStopper_other [DecidableEq κ] (s : State ι κ) (j k : κ) (pc : StopPc) (h : j ≠ k) :
    (s.setStopper k pc).stopper j = s.stopper j := Function.update_of_ne h ..

def Sender.finish (x : Sender) (c : Call) (err : Option GoError) : Sender :=
  { pc := .idle, log := x.log++[(c,err)] }

variable [DecidableEq ι] [DecidableEq κ]

def callStep (i : ι) (c : Call) (s : State ι κ) : State ι κ :=
  match (s.sender i).pc with
  | .idle =>
    if s.isClosed then s.setSender i ((s.sender i).finish c (some (.text (closedText c.msgId))))
    else s.setSender i { s.sender i with pc := .checked c }
  | _ => s

def packStep (i : ι) (s : State ι κ) : State ι κ :=
  match (s.sender i).pc with
  | .checked c =>
    match MsgSerializer.pack (newMsg c.msgId c.msgData) with
    | .error e => s.setSender i ((s.sender i).finish c (some e))
    | .ok packet => s.setSender i { s.sender i with pc := .sending c packet }
  | _ => s

/-- A send that neither panics nor finds room completes only when the writer
stands at its select. -/
def sendStep (i : ι) (s : State ι κ) : State ι κ :=
  match (s.sender i).pc with
  | .sending c packet =>
    match s.packetChan.send packet with
    | .panic => { s with panic := some (.sendPacketChan i) }
    | .done ch => { s.setSender i { s.sender i with pc := .sent c } with packetChan := ch }
    | .block =>
      if s.packetChan.handoff = true ∧ s.writer = .select then
        { s.setSender i { s.sender i with pc := .sent c } with writer := .writing packet }
      else s
  | _ => s

def retStep (i : ι) (s : State ι κ) : State ι κ :=
  match (s.sender i).pc with
  | .sent c => s.setSender i ((s.sender i).finish c none)
  | _ => s

def stopStep (k : κ) (s : State ι κ) : State ι κ :=
  match s.stopper k with
  | .start => if s.isClosed then s.setStopper k .returned else s.setStopper k .passed
  | .passed => { s.setStopper k .flagged with isClosed := true }
  | .flagged => s.setStopper k .hooked
  | .hooked => { s.setStopper k .shut with socketOpen := false }
  | .shut =>
    match s.closedChan.send () with
    | .panic => { s with panic := some (.sendClosedChan k) }
    | .block => s
    | .done ch => { s.setStopper k .signalled with closedChan := ch }
  | .signalled => s.setStopper k .deleted
  | .deleted =>
    match s.closedChan.close with
    | .panic => { s with panic := some (.closeClosedChan k) }
    | .block => s
    | .done ch => { s.setStopper k .drained with closedChan := ch }
  | .drained =>
    match s.packetChan.close with
    | .panic => { s with panic := some (.closePacketChan k) }
    | .block => s
    | .done ch => { s.setStopper k .finished with packetChan := ch }
  | .finished => s
  | .returned => s

/-- The packet branch of the select; a closed channel delivers a nil packet. -/
def recvPacketStep (s : State ι κ) : State ι κ :=
  match s.writer with
  | .select =>
    match s.packetChan.recv with
    | .done (packet,ch) => { s with packetChan := ch, writer := .writing (packet.getD []) }
    | _ => s
  | _ => s

def recvClosedStep (s : State ι κ) : State ι κ :=
  match s.writer with
  | .select =>
    match s.closedChan.recv with
    | .done (_,ch) => { s with closedChan := ch, writer := .returned }
    | _ => s
  | _ => s

/-- A write puts the whole packet on the wire or fails; on a closed socket it
fails. -/
def writeStep (ok : Bool) (s : State ι κ) : State ι κ :=
  match s.writer with
  | .writing packet =>
    if ok && s.socketOpen then { s with wire := s.wire++packet, writer := .select }
    else { s with writer := .returned }
  | _ => s

def step (a : Action ι κ) (s : State ι κ) : State ι κ :=
  if s.panic.isSome then s
  else match a with
    | .call i c => callStep i c s
    | .pack i => packStep i s
    | .send i => sendStep i s
    | .ret i => retStep i s
    | .stop k => stopStep k s
    | .recvPacket => recvPacketStep s
    | .recvClosed => recvClosedStep s
    | .write ok => writeStep ok s

end Gopher.ConnSystem
