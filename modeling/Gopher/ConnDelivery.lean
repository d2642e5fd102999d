import Gopher.ConnSystem

/-!
# What reaches the wire of a connection that is not stopped

The packets of all senders pass through an unbuffered channel to the one
writer. The order in which they do so is produced here from the schedule; it
is not part of the state. No sender is assumed to be alone, to be served in
turn, or to be served at all.
-/

set_option autoImplicit false

namespace Gopher.ConnDelivery
open Gopher.StepRuns Gopher.GoChannel Gopher.MsgSerializer Gopher.ConnSystem

variable {ι κ : Type*}

def packetOf (c : Call) : List UInt8 := packed (newMsg c.msgId c.msgData)

def held : WriterPc → List UInt8
  | .writing packet => packet
  | _ => []

def underway : SendPc → List Call
  | .sent c => [c]
  | _ => []

def accepted (x : Sender) : List Call :=
  (x.log.filter (fun p => p.2 = none)).map Prod.fst++underway x.pc

def Undisturbed : ConnSystem.Action ι κ → Prop
  | .stop _ => False
  | .write ok => ok = true
  | _ => True

/-- The bytes written and the packet in hand are the packets of `order`, which
lists exactly the accepted calls and keeps the order of each sender. -/
def Merges [DecidableEq ι] (s : State ι κ) (order : List (ι × Call)) : Prop :=
  s.wire++held s.writer = order.flatMap (fun p => packetOf p.2) ∧
  ∀ i, (order.filter (fun p => p.1 = i)).map Prod.snd = accepted (s.sender i)

structure Inv [DecidableEq ι] (s : State ι κ) (order : List (ι × Call)) : Prop where
  merges : Merges s order
  socket : s.socketOpen = true
  unbuffered : s.packetChan.cap = 0
  faithful : ∀ i c packet, (s.sender i).pc = .sending c packet → packet = packetOf c

theorem accepted_finish_nil (x : Sender) (c : Call) (h : x.pc = .sent c) :
    accepted (x.finish c none) = accepted x := by
  simp [accepted, Sender.finish, underway, h]

theorem accepted_finish_error (x : Sender) (c : Call) (e : GoError) (h : underway x.pc = []) :
    accepted (x.finish c (some e)) = accepted x := by
  simp only [accepted, Sender.finish, h]
  simp [underway]

variable [DecidableEq ι]

theorem merges_setSender {s : State ι κ} {order : List (ι × Call)} (h : Merges s order)
    (i : ι) (x : Sender) (hx : accepted x = accepted (s.sender i)) :
    Merges (s.setSender i x) order := by
  refine ⟨h.1,?_⟩
  apply (Function.forall_update_iff s.sender
    (fun j y => (order.filter (fun p => p.1 = j)).map Prod.snd = accepted y)).mpr
  exact ⟨(h.2 i).trans hx.symm,fun j _ => h.2 j⟩

theorem inv_setSender {s : State ι κ} {order : List (ι × Call)} (h : Inv s order)
    (i : ι) (x : Sender) (hx : accepted x = accepted (s.sender i))
    (hp : ∀ c packet, x.pc = .sending c packet → packet = packetOf c) :
    Inv (s.setSender i x) order where
  merges := merges_setSender h.merges i x hx
  socket := h.socket
  unbuffered := h.unbuffered
  faithful := by
    apply (Function.forall_update_iff s.sender
      (fun _ y => ∀ c packet, y.pc = .sending c packet → packet = packetOf c)).mpr
    exact ⟨hp,fun j _ => h.faithful j⟩

theorem inv_call {s : State ι κ} {order : List (ι × Call)} (h : Inv s order) (i : ι) (c : Call) :
    Inv (callStep i c s) order := by
  unfold callStep
  split
  · next hpc =>
    split_ifs
    · exact inv_setSender h i _ (accepted_finish_error _ _ _ (by rw [hpc]; rfl))
        (by intro _ _ hx; cases hx)
    · exact inv_setSender h i _ (by simp [accepted, underway, hpc]) (by intro _ _ hx; cases hx)
  · exact h

theorem inv_pack {s : State ι κ} {order : List (ι × Call)} (h : Inv s order) (i : ι) :
    Inv (packStep i s) order := by
  unfold packStep
  split
  · next c hpc =>
    rw [pack_eq]
    refine inv_setSender h i _ (by simp [accepted, underway, hpc]) ?_
    intro c' packet hx
    obtain ⟨rfl,rfl⟩ := SendPc.sending.inj hx
    exact (packed_eq _).symm
  · exact h

theorem inv_ret {s : State ι κ} {order : List (ι × Call)} (h : Inv s order) (i : ι) :
    Inv (retStep i s) order := by
  unfold retStep
  split
  · next c hpc =>
    exact inv_setSender h i _ (accepted_finish_nil _ c hpc) (by intro _ _ hx; cases hx)
  · exact h

/-- The handoff appends the call to the order; the packet moves into the hand
of the writer as a whole. -/
theorem inv_handoff {s : State ι κ} {order : List (ι × Call)} (h : Inv s order) (i : ι)
    (c : Call) (packet : List UInt8) (hpc : (s.sender i).pc = .sending c packet)
    (hw : s.writer = .select) :
    Inv { s.setSender i { s.sender i with pc := .sent c } with writer := .writing packet }
      (order++[(i,c)]) where
  socket := h.socket
  unbuffered := h.unbuffered
  faithful := by
    apply (Function.forall_update_iff s.sender
      (fun _ y => ∀ c packet, y.pc = .sending c packet → packet = packetOf c)).mpr
    exact ⟨(by intro _ _ hx; cases hx),fun j _ => h.faithful j⟩
  merges := by
    have hwire := h.merges.1
    simp only [hw, held, List.append_nil] at hwire
    constructor
    · simp [held, State.setSender, hwire, h.faithful i c packet hpc]
    · intro j
      have hj := h.merges.2 j
      by_cases hji : j = i
      · subst hji
        simp [State.setSender, accepted, underway, hpc] at hj ⊢
        rw [hj]
      · have hij : i ≠ j := fun he => hji he.symm
        simpa [State.setSender, Function.update_of_ne hji, hij] using hj

theorem inv_send {s : State ι κ} {order : List (ι × Call)} (h : Inv s order) (i : ι) :
    ∃ order', Inv (sendStep i s) order' := by
  unfold sendStep
  split
  · next c packet hpc =>
    split
    · exact ⟨order,⟨h.merges,h.socket,h.unbuffered,h.faithful⟩⟩
    · next ch hd =>
      exfalso
      have hcap := h.unbuffered
      simp [Chan.send, hcap] at hd
      split_ifs at hd
    · split_ifs with hc
      · exact ⟨_,inv_handoff h i c packet hpc hc.2⟩
      · exact ⟨order,h⟩
  · exact ⟨order,h⟩

theorem inv_recvPacket {s : State ι κ} {order : List (ι × Call)} (h : Inv s order) :
    Inv (recvPacketStep s) order := by
  unfold recvPacketStep
  split
  · next hw =>
    split
    · next packet ch hd =>
      obtain ⟨-,hcap,hb⟩ := Chan.recv_eq_done _ _ _ hd
      have hempty : s.packetChan.buf = [] := by
        have := s.packetChan.fits
        rw [h.unbuffered] at this
        exact List.length_eq_zero_iff.mp (by omega)
      have hnone : packet.toList = [] := by
        rw [hempty] at hb
        exact (List.append_eq_nil_iff.mp hb.symm).1
      have hp : packet = none := by simpa using hnone
      refine ⟨⟨?_,h.merges.2⟩,h.socket,hcap.trans h.unbuffered,h.faithful⟩
      simpa [hp, held, hw] using h.merges.1
    · exact h
  · exact h

theorem inv_recvClosed {s : State ι κ} {order : List (ι × Call)} (h : Inv s order) :
    Inv (recvClosedStep s) order := by
  unfold recvClosedStep
  split
  · next hw =>
    split
    · refine ⟨⟨?_,h.merges.2⟩,h.socket,h.unbuffered,h.faithful⟩
      simpa [held, hw] using h.merges.1
    · exact h
  · exact h

theorem inv_write {s : State ι κ} {order : List (ι × Call)} (h : Inv s order) :
    Inv (writeStep true s) order := by
  unfold writeStep
  split
  · next packet hw =>
    rw [if_pos (by simp [h.socket])]
    refine ⟨⟨?_,h.merges.2⟩,h.socket,h.unbuffered,h.faithful⟩
    simpa [held, hw] using h.merges.1
  · exact h

theorem inv_newConn : Inv (newConn ι κ) [] where
  merges := ⟨rfl,fun _ => rfl⟩
  socket := rfl
  unbuffered := rfl
  faithful := by intro i c packet h; cases h

variable [DecidableEq κ]

theorem inv_step {s : State ι κ} (a : ConnSystem.Action ι κ) (h : ∃ order, Inv s order)
    (ha : Undisturbed a) : ∃ order, Inv (step a s) order := by
  obtain ⟨order,h⟩ := h
  unfold step
  split_ifs
  · exact ⟨order,h⟩
  · cases a with
    | call i c => exact ⟨order,inv_call h i c⟩
    | pack i => exact ⟨order,inv_pack h i⟩
    | send i => exact inv_send h i
    | ret i => exact ⟨order,inv_ret h i⟩
    | stop k => exact ha.elim
    | recvPacket => exact ⟨order,inv_recvPacket h⟩
    | recvClosed => exact ⟨order,inv_recvClosed h⟩
    | write ok =>
      obtain rfl : ok = true := ha
      exact ⟨order,inv_write h⟩

/-- In every state of every undisturbed schedule the wire, followed by the
packet in hand, is one merge of the accepted calls of all senders: nothing is
torn, lost, repeated or reordered within a sender. -/
theorem wire_merges_senders (as : List (ConnSystem.Action ι κ)) (h : ∀ a ∈ as, Undisturbed a) :
    ∃ order, Merges (run step as (newConn ι κ)) order := by
  obtain ⟨order,ho⟩ := run_keeps_along step (fun a _ => Undisturbed a)
    (fun s => ∃ order, Inv s order) (fun a _ hs ha => inv_step a hs ha) as (newConn ι κ)
    ⟨[],inv_newConn⟩ (along_of_forall step _ as _ (fun a ha _ => h a ha))
  exact ⟨order,ho.merges⟩

def twoSenders : List (ConnSystem.Action Bool Unit) :=
  [.call false ⟨1,[7]⟩,.pack false,.call true ⟨2,[]⟩,.pack true,.send false,.write true,.send true]

theorem two_senders_merge :
    (run step twoSenders (newConn Bool Unit)).wire = [1,0,0,0,1,0,0,0,7] ∧
    ∃ order, Merges (run step twoSenders (newConn Bool Unit)) order :=
  ⟨by decide,wire_merges_senders twoSenders (by simp [twoSenders, Undisturbed])⟩

end Gopher.ConnDelivery
