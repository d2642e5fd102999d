import Gopher.ConnSystem

/-!
# When a connection can panic on a channel

`isClosed` is tested and set in two statements, and `SendPacket` tests it
long before it sends. Both gaps lead to a panic. The guard names the two
steps that must not fall into them; nothing else about the schedule is
restricted, and each step that breaks the guard can be continued to a panic.
-/

set_option autoImplicit false

namespace Gopher.ConnPanic
open Gopher.StepRuns Gopher.GoChannel Gopher.MsgSerializer Gopher.ConnSystem

variable {ι κ : Type*}

def inFlight : SendPc → Bool
  | .checked _ => true
  | .sending _ _ => true
  | _ => false

def entered : StopPc → Bool
  | .start => false
  | .returned => false
  | _ => true

def flagSet : StopPc → Bool
  | .start => false
  | .passed => false
  | .returned => false
  | _ => true

def signalDone : StopPc → Bool
  | .signalled => true
  | .deleted => true
  | .drained => true
  | .finished => true
  | _ => false

def closedShut : StopPc → Bool
  | .drained => true
  | .finished => true
  | _ => false

def packetShut : StopPc → Bool
  | .finished => true
  | _ => false

/-- A call of `Stop` tests `isClosed` only when no other call stands between
its test and its assignment, and closes `PacketChan` only when no call of
`SendPacket` stands between its test and the end of its send. -/
def Guard : ConnSystem.Action ι κ → State ι κ → Prop
  | .stop k, s =>
    (s.stopper k = .start → ∀ j, s.stopper j ≠ .passed) ∧
    (s.stopper k = .drained → ∀ i, inFlight (s.sender i).pc = false)
  | _, _ => True

instance decidableGuard [Fintype ι] [Fintype κ] (a : ConnSystem.Action ι κ) (s : State ι κ) :
    Decidable (Guard a s) :=
  match a with
  | .stop k => inferInstanceAs (Decidable
      ((s.stopper k = .start → ∀ j, s.stopper j ≠ .passed) ∧
        (s.stopper k = .drained → ∀ i, inFlight (s.sender i).pc = false)))
  | .call _ _ | .pack _ | .send _ | .ret _ | .recvPacket | .recvClosed | .write _ => .isTrue trivial

def Phase (stopper : κ → StopPc) (pc : StopPc) : Prop :=
  (pc = .start ∧ ∀ k, entered (stopper k) = false) ∨
  ∃ k, stopper k = pc ∧ entered pc = true ∧ ∀ j, j ≠ k → entered (stopper j) = false

structure Inv (s : State ι κ) (pc : StopPc) : Prop where
  calm : s.panic = none
  cap : s.closedChan.cap = 1
  phase : Phase s.stopper pc
  flag : s.isClosed = flagSet pc
  closedChan : s.closedChan.closed = closedShut pc
  packetChan : s.packetChan.closed = packetShut pc
  room : s.closedChan.buf = [] ∨ signalDone pc = true
  quiet : packetShut pc = true → ∀ i, inFlight (s.sender i).pc = false

theorem phase_owner {stopper : κ → StopPc} {pc : StopPc} {k : κ} (h : Phase stopper pc)
    (hk : entered (stopper k) = true) :
    stopper k = pc ∧ ∀ j, j ≠ k → entered (stopper j) = false := by
  rcases h with ⟨-,h⟩ | ⟨o,ho,-,hj⟩
  · rw [h k] at hk
    cases hk
  · by_cases hko : k = o
    · subst hko
      exact ⟨ho,hj⟩
    · rw [hj k hko] at hk
      cases hk

theorem owner_pc {s : State ι κ} {pc pc' : StopPc} {k : κ} (h : Inv s pc)
    (hk : s.stopper k = pc') (he : entered pc' = true) : pc = pc' :=
  (phase_owner h.phase (by rwa [hk])).1.symm.trans hk

theorem inv_newConn : Inv (newConn ι κ) .start where
  calm := rfl
  cap := rfl
  phase := Or.inl ⟨rfl,fun _ => rfl⟩
  flag := rfl
  closedChan := rfl
  packetChan := rfl
  room := Or.inl rfl
  quiet := by intro h; cases h

/-- Steps of senders and of the writer touch neither the flag nor the state of
a channel; a sender newly in flight has just seen the connection open. -/
theorem inv_frame {s t : State ι κ} {pc : StopPc} (h : Inv s pc) (hp : t.panic = none)
    (hc : t.closedChan.cap = s.closedChan.cap) (hst : t.stopper = s.stopper)
    (hf : t.isClosed = s.isClosed) (hcc : t.closedChan.closed = s.closedChan.closed)
    (hpc : t.packetChan.closed = s.packetChan.closed)
    (hb : s.closedChan.buf = [] → t.closedChan.buf = [])
    (hs : ∀ i, inFlight (t.sender i).pc = true → inFlight (s.sender i).pc = true ∨ s.isClosed = false) :
    Inv t pc where
  calm := hp
  cap := hc.trans h.cap
  phase := by rw [hst]; exact h.phase
  flag := hf.trans h.flag
  closedChan := hcc.trans h.closedChan
  packetChan := hpc.trans h.packetChan
  room := h.room.imp_left hb
  quiet := by
    intro hq i
    cases hi : inFlight (t.sender i).pc with
    | false => rfl
    | true =>
      rcases hs i hi with hs | hs
      · rw [h.quiet hq i] at hs
        cases hs
      · rw [h.flag] at hs
        cases pc <;> simp [packetShut, flagSet] at hq hs

theorem inv_recvPacket {s : State ι κ} {pc : StopPc} (h : Inv s pc) :
    Inv (recvPacketStep s) pc := by
  unfold recvPacketStep
  split
  · split
    · next packet ch hd =>
      obtain ⟨hc,-,-⟩ := Chan.recv_eq_done _ _ _ hd
      exact inv_frame (s := s) h h.calm rfl rfl rfl rfl hc (fun hb => hb) (fun j hj => Or.inl hj)
    · exact h
  · exact h

theorem inv_recvClosed {s : State ι κ} {pc : StopPc} (h : Inv s pc) :
    Inv (recvClosedStep s) pc := by
  unfold recvClosedStep
  split
  · split
    · next packet ch hd =>
      obtain ⟨hc,hcap,hb⟩ := Chan.recv_eq_done _ _ _ hd
      refine inv_frame (s := s) h h.calm hcap rfl rfl hc rfl ?_ (fun j hj => Or.inl hj)
      intro hs
      rw [hs] at hb
      exact (List.append_eq_nil_iff.mp hb.symm).2
    · exact h
  · exact h

theorem inv_write {s : State ι κ} {pc : StopPc} (h : Inv s pc) (ok : Bool) :
    Inv (writeStep ok s) pc := by
  unfold writeStep
  split
  · split_ifs
    · exact inv_frame (s := s) h h.calm rfl rfl rfl rfl rfl (fun hb => hb) (fun j hj => Or.inl hj)
    · exact inv_frame (s := s) h h.calm rfl rfl rfl rfl rfl (fun hb => hb) (fun j hj => Or.inl hj)
  · exact h

section Senders
variable [DecidableEq ι]

theorem inv_setSender {s : State ι κ} {pc : StopPc} (h : Inv s pc) (i : ι) (x : Sender)
    (hx : inFlight x.pc = true → inFlight (s.sender i).pc = true ∨ s.isClosed = false) :
    Inv (s.setSender i x) pc := by
  refine inv_frame (t := s.setSender i x) h h.calm rfl rfl rfl rfl rfl (fun hb => hb) ?_
  apply (Function.forall_update_iff s.sender
    (fun j y => inFlight y.pc = true → inFlight (s.sender j).pc = true ∨ s.isClosed = false)).mpr
  exact ⟨hx,fun j _ hj => Or.inl hj⟩

theorem inv_call {s : State ι κ} {pc : StopPc} (h : Inv s pc) (i : ι) (c : Call) :
    Inv (callStep i c s) pc := by
  unfold callStep
  split
  · split_ifs with hc
    · exact inv_setSender h i _ (by intro hx; cases hx)
    · exact inv_setSender h i _ (fun _ => Or.inr (by simpa using hc))
  · exact h

theorem inv_pack {s : State ι κ} {pc : StopPc} (h : Inv s pc) (i : ι) :
    Inv (packStep i s) pc := by
  unfold packStep
  split
  · next c hc =>
    split
    · exact inv_setSender h i _ (by intro hx; cases hx)
    · exact inv_setSender h i _ (fun _ => Or.inl (by rw [hc]; rfl))
  · exact h

theorem inv_ret {s : State ι κ} {pc : StopPc} (h : Inv s pc) (i : ι) :
    Inv (retStep i s) pc := by
  unfold retStep
  split
  · exact inv_setSender h i _ (by intro hx; cases hx)
  · exact h

/-- A sender in flight finds `PacketChan` open, so its send does not panic. -/
theorem inv_send {s : State ι κ} {pc : StopPc} (h : Inv s pc) (i : ι) :
    Inv (sendStep i s) pc := by
  unfold sendStep
  split
  · next c packet hc =>
    have hopen : s.packetChan.closed = false := by
      cases hs : s.packetChan.closed with
      | false => rfl
      | true =>
        have hq := h.quiet (by rw [← h.packetChan, hs]) i
        rw [hc] at hq
        cases hq
    have hsent := inv_setSender h i { s.sender i with pc := .sent c } (by intro hx; cases hx)
    split
    · next hp => simp [Chan.send, hopen] at hp; split_ifs at hp
    · next ch hd =>
      obtain ⟨-,hclosed,-,-⟩ := Chan.send_eq_done _ _ _ hd
      exact inv_frame hsent h.calm rfl rfl rfl rfl (hclosed.trans hopen.symm) (fun hb => hb)
        (fun j hj => Or.inl hj)
    · split_ifs
      · exact inv_frame hsent h.calm rfl rfl rfl rfl rfl (fun hb => hb) (fun j hj => Or.inl hj)
      · exact h
  · exact h

end Senders

section Stoppers
variable [DecidableEq κ]

theorem phase_move {stopper : κ → StopPc} {pc : StopPc} {k : κ} (he : entered pc = true)
    (h : ∀ j, j ≠ k → entered (stopper j) = false) : Phase (Function.update stopper k pc) pc := by
  refine Or.inr ⟨k,Function.update_self ..,he,?_⟩
  intro j hj
  rw [Function.update_of_ne hj]
  exact h j hj

theorem phase_outside {stopper : κ → StopPc} {pc pc' : StopPc} {k : κ} (h : Phase stopper pc)
    (hk : entered (stopper k) = false) (hn : entered pc' = false) :
    Phase (Function.update stopper k pc') pc := by
  have hout (j : κ) (hj : entered (stopper j) = false) :
      entered (Function.update stopper k pc' j) = false := by
    by_cases hjk : j = k
    · subst hjk
      rwa [Function.update_self]
    · rwa [Function.update_of_ne hjk]
  rcases h with ⟨rfl,h⟩ | ⟨o,ho,he,hj⟩
  · exact Or.inl ⟨rfl,fun j => hout j (h j)⟩
  · have hok : o ≠ k := by
      rintro rfl
      rw [ho, he] at hk
      cases hk
    exact Or.inr ⟨o,by rwa [Function.update_of_ne hok],he,fun j hjo => hout j (hj j hjo)⟩

/-- The one call that entered moves on; its new position again determines the
flag and both channels. -/
theorem inv_advance {s t : State ι κ} {pc pc' : StopPc} {k : κ} (h : Inv s pc)
    (hk : s.stopper k = pc) (he : entered pc = true) (he' : entered pc' = true)
    (hst : t.stopper = Function.update s.stopper k pc') (hp : t.panic = none)
    (hcap : t.closedChan.cap = s.closedChan.cap) (hf : t.isClosed = flagSet pc')
    (hcc : t.closedChan.closed = closedShut pc') (hpc : t.packetChan.closed = packetShut pc')
    (hr : t.closedChan.buf = [] ∨ signalDone pc' = true)
    (hq : packetShut pc' = true → ∀ i, inFlight (t.sender i).pc = false) : Inv t pc' where
  calm := hp
  cap := hcap.trans h.cap
  phase := by
    rw [hst]
    exact phase_move he' (phase_owner h.phase (by rw [hk]; exact he)).2
  flag := hf
  closedChan := hcc
  packetChan := hpc
  room := hr
  quiet := hq

theorem inv_enter {s : State ι κ} {pc : StopPc} (h : Inv s pc) (k : κ)
    (hk : s.stopper k = .start) (hg : ∀ j, s.stopper j ≠ .passed) :
    ∃ pc', Inv (stopStep k s) pc' := by
  simp only [stopStep, hk]
  split_ifs with hc
  · exact ⟨pc,{ h with phase := phase_outside h.phase (by rw [hk]; rfl) rfl }⟩
  · have hf : flagSet pc = false := by rw [← h.flag]; simpa using hc
    rcases h.phase with ⟨rfl,hout⟩ | ⟨o,ho,he,-⟩
    · exact ⟨.passed,{ h with
        phase := phase_move rfl (fun j _ => hout j)
        room := Or.inl (h.room.resolve_right (by decide))
        quiet := by intro hq; cases hq }⟩
    · exfalso
      cases pc <;> simp [entered, flagSet] at he hf
      exact hg o ho

/-- The statements of `Stop` after the test. The owner is alone, so the
channel it signals and closes is as it left it. -/
theorem inv_stop {s : State ι κ} {pc : StopPc} (h : Inv s pc) (k : κ) (hg : Guard (.stop k) s) :
    ∃ pc', Inv (stopStep k s) pc' := by
  cases hk : s.stopper k with
  | start => exact inv_enter h k hk (hg.1 hk)
  | returned => exact ⟨pc,by simpa only [stopStep, hk] using h⟩
  | finished => exact ⟨pc,by simpa only [stopStep, hk] using h⟩
  | passed =>
    obtain rfl := owner_pc h hk rfl
    simp only [stopStep, hk]
    exact ⟨.flagged,inv_advance h hk rfl rfl rfl h.calm rfl rfl h.closedChan h.packetChan
      (Or.inl (h.room.resolve_right (by decide))) (by intro hq; cases hq)⟩
  | flagged =>
    obtain rfl := owner_pc h hk rfl
    simp only [stopStep, hk]
    exact ⟨.hooked,inv_advance h hk rfl rfl rfl h.calm rfl h.flag h.closedChan h.packetChan
      (Or.inl (h.room.resolve_right (by decide))) (by intro hq; cases hq)⟩
  | hooked =>
    obtain rfl := owner_pc h hk rfl
    simp only [stopStep, hk]
    exact ⟨.shut,inv_advance h hk rfl rfl rfl h.calm rfl h.flag h.closedChan h.packetChan
      (Or.inl (h.room.resolve_right (by decide))) (by intro hq; cases hq)⟩
  | shut =>
    obtain rfl := owner_pc h hk rfl
    simp only [stopStep, hk]
    split
    · next hp => simp [Chan.send, h.closedChan, closedShut] at hp; split_ifs at hp
    · exact ⟨.shut,h⟩
    · next ch hd =>
      obtain ⟨-,hcl,hcap,-⟩ := Chan.send_eq_done _ _ _ hd
      exact ⟨.signalled,inv_advance h hk rfl rfl rfl h.calm hcap h.flag hcl h.packetChan
        (Or.inr rfl) (by intro hq; cases hq)⟩
  | signalled =>
    obtain rfl := owner_pc h hk rfl
    simp only [stopStep, hk]
    exact ⟨.deleted,inv_advance h hk rfl rfl rfl h.calm rfl h.flag h.closedChan h.packetChan
      (Or.inr rfl) (by intro hq; cases hq)⟩
  | deleted =>
    obtain rfl := owner_pc h hk rfl
    simp only [stopStep, hk, Chan.close, h.closedChan, closedShut]
    exact ⟨.drained,inv_advance h hk rfl rfl rfl h.calm rfl h.flag rfl h.packetChan
      (Or.inr rfl) (by intro hq; cases hq)⟩
  | drained =>
    obtain rfl := owner_pc h hk rfl
    simp only [stopStep, hk, Chan.close, h.packetChan, packetShut]
    exact ⟨.finished,inv_advance h hk rfl rfl rfl h.calm rfl h.flag h.closedChan rfl
      (Or.inr rfl) (fun _ => hg.2 hk)⟩

end Stoppers

variable [DecidableEq ι] [DecidableEq κ]

theorem inv_step {s : State ι κ} (a : ConnSystem.Action ι κ) (h : ∃ pc, Inv s pc) (hg : Guard a s) :
    ∃ pc, Inv (step a s) pc := by
  obtain ⟨pc,h⟩ := h
  have hp : s.panic.isSome = false := by rw [h.calm]; rfl
  simp only [step, hp, Bool.false_eq_true, if_false]
  cases a with
  | call i c => exact ⟨pc,inv_call h i c⟩
  | pack i => exact ⟨pc,inv_pack h i⟩
  | send i => exact ⟨pc,inv_send h i⟩
  | ret i => exact ⟨pc,inv_ret h i⟩
  | stop k => exact inv_stop h k hg
  | recvPacket => exact ⟨pc,inv_recvPacket h⟩
  | recvClosed => exact ⟨pc,inv_recvClosed h⟩
  | write ok => exact ⟨pc,inv_write h ok⟩

theorem inv_run (as : List (ConnSystem.Action ι κ)) (hg : Along step Guard as (newConn ι κ)) :
    ∃ pc, Inv (run step as (newConn ι κ)) pc :=
  run_keeps_along step Guard (fun s => ∃ pc, Inv s pc) (fun a _ h ha => inv_step a h ha) as _
    ⟨.start,inv_newConn⟩ hg

theorem send_panics {s : State ι κ} {i : ι} (hp : s.panic = none)
    (hc : s.packetChan.closed = true) (hi : inFlight (s.sender i).pc = true) :
    (run step [.pack i,.send i] s).panic ≠ none := by
  cases hpc : (s.sender i).pc with
  | idle => rw [hpc] at hi; cases hi
  | sent c => rw [hpc] at hi; cases hi
  | checked c => simp [step, hp, packStep, hpc, pack_eq, sendStep, Chan.send, hc, State.setSender]
  | sending c packet => simp [step, hp, packStep, hpc, sendStep, Chan.send, hc]

theorem stop_closes {s : State ι κ} {j : κ} (hp : s.panic = none) (hj : s.stopper j = .passed)
    (hc : s.closedChan.closed = false) (hb : s.closedChan.buf = []) (hcap : s.closedChan.cap = 1) :
    (run step (List.replicate 6 (.stop j)) s).panic = none ∧
    (run step (List.replicate 6 (.stop j)) s).closedChan.closed = true ∧
    ∀ k, k ≠ j → (run step (List.replicate 6 (.stop j)) s).stopper k = s.stopper k := by
  simp [List.replicate, step, hp, stopStep, hj, Chan.send, Chan.close, hc, hb, hcap, State.setStopper]
  intro k hk
  simp [Function.update_of_ne hk]

theorem stop_meets_closed {s : State ι κ} {k : κ} (hp : s.panic = none)
    (hk : s.stopper k = .passed) (hc : s.closedChan.closed = true) :
    (run step (List.replicate 4 (.stop k)) s).panic ≠ none := by
  simp [List.replicate, step, hp, stopStep, hk, Chan.send, hc, State.setStopper]

/-- The guard is not wasteful: in a state it led to, a step that breaks it can
be continued to a panic. -/
theorem unguarded_panics {s : State ι κ} {pc : StopPc} (h : Inv s pc) (a : ConnSystem.Action ι κ)
    (hg : ¬Guard a s) : ∃ bs, (run step (a::bs) s).panic ≠ none := by
  cases a with
  | stop k =>
    rcases not_and_or.mp hg with hg | hg
    · push Not at hg
      obtain ⟨hk,j,hj⟩ := hg
      have hjk : k ≠ j := by rintro rfl; rw [hk] at hj; cases hj
      obtain rfl := owner_pc h hj rfl
      have hs : step (.stop k) s = s.setStopper k .passed := by
        simp [step, h.calm, stopStep, hk, h.flag, flagSet]
      obtain ⟨hp,hc,hst⟩ := stop_closes (s := s.setStopper k .passed) h.calm
        ((setStopper_other s j k _ hjk.symm).trans hj) h.closedChan
        (h.room.resolve_right (by decide)) h.cap
      refine ⟨List.replicate 6 (.stop j)++List.replicate 4 (.stop k),?_⟩
      rw [run_cons, hs, run_append]
      exact stop_meets_closed hp ((hst k hjk).trans (setStopper_self ..)) hc
    · push Not at hg
      obtain ⟨hk,i,hi⟩ := hg
      obtain rfl := owner_pc h hk rfl
      refine ⟨[.pack i,.send i],send_panics (i := i) ?_ ?_ ?_⟩
      · simp [step, h.calm, stopStep, hk, Chan.close, h.packetChan, packetShut, State.setStopper]
      · simp [step, h.calm, stopStep, hk, Chan.close, h.packetChan, packetShut]
      · simpa [step, h.calm, stopStep, hk, Chan.close, h.packetChan, packetShut,
          State.setStopper] using hi
  | call i c => exact absurd trivial hg
  | pack i => exact absurd trivial hg
  | send i => exact absurd trivial hg
  | ret i => exact absurd trivial hg
  | recvPacket => exact absurd trivial hg
  | recvClosed => exact absurd trivial hg
  | write ok => exact absurd trivial hg

/-- No schedule whose `Stop` calls meet the guard panics, whatever the number
of senders and stoppers; and no step of it may break the guard without
opening the way to a panic. -/
theorem guarded_schedule_calm (as : List (ConnSystem.Action ι κ))
    (hg : Along step Guard as (newConn ι κ)) :
    (run step as (newConn ι κ)).panic = none ∧
    ∀ a, ¬Guard a (run step as (newConn ι κ)) →
      ∃ bs, (run step (as++a::bs) (newConn ι κ)).panic ≠ none := by
  obtain ⟨pc,h⟩ := inv_run as hg
  refine ⟨h.calm,?_⟩
  intro a ha
  obtain ⟨bs,hb⟩ := unguarded_panics h a ha
  exact ⟨bs,by rwa [run_append]⟩

def orderly : List (ConnSystem.Action Unit Bool) :=
  [.call () ⟨200,[7]⟩,.pack (),.send (),.write true,.ret ()]++
    List.replicate 8 (.stop false)++[.stop true,.recvClosed]

theorem orderly_calm : (run step orderly (newConn Unit Bool)).panic = none :=
  (guarded_schedule_calm orderly (by decide +kernel)).1

/-- A sender that passed its test meets a closed `PacketChan`, and a second
`Stop` that passed its test meets a closed `ClosedChan`. -/
theorem channels_panic :
    (run step ([.call () ⟨200,[]⟩]++List.replicate 8 (.stop ())++[.pack (),.send ()])
      (newConn Unit Unit)).panic = some (.sendPacketChan ()) ∧
    (run step ([.stop false]++List.replicate 7 (.stop true)++List.replicate 4 (.stop false))
      (newConn Unit Bool)).panic = some (.sendClosedChan false) := by
  constructor <;> decide +kernel

end Gopher.ConnPanic
