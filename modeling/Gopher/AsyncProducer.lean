import Gopher.StepRuns

/-!
# The asynchronous producer

The sending loop, the two loops over the results and the producer library
run side by side. Of the library it is assumed that every message it takes
ends as one success or one error, and that it closes its result channels
only after `AsyncClose`, when every result has been taken. A send that the
library does not take in time counts as timed out.
-/

set_option autoImplicit false

namespace Gopher.AsyncProducer
open Gopher.StepRuns

structure ProducerMessage where
  topic : String
  key : String
  value : String
  deriving DecidableEq, Repr

def message (topic : String) (i : ℕ) : ProducerMessage where
  topic := topic
  key := "key-" ++ toString i
  value := "value-" ++ toString i

structure Summary where
  sent : ℕ
  enqueued : ℕ
  timedOut : ℕ
  succeeded : ℕ
  failed : ℕ
  deriving DecidableEq, Repr

inductive MainPc where
  | sending (i : ℕ)
  | logged (line : Summary)
  | returned (line : Summary)
  deriving DecidableEq, Repr

inductive ReaderPc where
  | ranging
  | done
  deriving DecidableEq, Repr

/-- Results that the library has and the loops have not taken yet wait in
`successes` and `errors`. -/
structure State where
  main : MainPc
  onSuccess : ReaderPc
  onError : ReaderPc
  wg : ℕ
  enqueued : ℕ
  timedOut : ℕ
  succeeded : ℕ
  failed : ℕ
  inFlight : List ProducerMessage
  successes : List ProducerMessage
  errors : List (ProducerMessage × String)
  asyncClosed : Bool
  closed : Bool
  deriving DecidableEq, Repr

inductive Action where
  | enqueue
  | timeOut
  | acknowledge (k : ℕ)
  | refuse (k : ℕ) (err : String)
  | readSuccess
  | readError
  | wait
  | ret
  | close
  deriving DecidableEq, Repr

def start : State where
  main := .sending 0
  onSuccess := .ranging
  onError := .ranging
  wg := 2
  enqueued := 0
  timedOut := 0
  succeeded := 0
  failed := 0
  inFlight := []
  successes := []
  errors := []
  asyncClosed := false
  closed := false

def enqueueStep (topic : String) (total : ℕ) (s : State) : State :=
  match s.main with
  | .sending i =>
    if i < total then
      { s with
        main := .sending (i+1)
        enqueued := s.enqueued+1
        inFlight := s.inFlight++[message topic i] }
    else s
  | _ => s

def timeOutStep (total : ℕ) (s : State) : State :=
  match s.main with
  | .sending i =>
    if i < total then { s with main := .sending (i+1), timedOut := s.timedOut+1 } else s
  | _ => s

def acknowledgeStep (k : ℕ) (s : State) : State :=
  match s.inFlight[k]? with
  | some msg =>
    { s with inFlight := s.inFlight.eraseIdx k, successes := s.successes++[msg] }
  | none => s

def refuseStep (k : ℕ) (err : String) (s : State) : State :=
  match s.inFlight[k]? with
  | some msg =>
    { s with inFlight := s.inFlight.eraseIdx k, errors := s.errors++[(msg,err)] }
  | none => s

def readSuccessStep (s : State) : State :=
  match s.onSuccess, s.successes with
  | .ranging, _::rest => { s with successes := rest, succeeded := s.succeeded+1 }
  | .ranging, [] => if s.closed then { s with onSuccess := .done, wg := s.wg-1 } else s
  | .done, _ => s

def readErrorStep (s : State) : State :=
  match s.onError, s.errors with
  | .ranging, _::rest => { s with errors := rest, failed := s.failed+1 }
  | .ranging, [] => if s.closed then { s with onError := .done, wg := s.wg-1 } else s
  | .done, _ => s

def waitStep (total : ℕ) (s : State) : State :=
  match s.main with
  | .sending i =>
    if i < total then s
    else if s.wg = 0 then
      { s with main := .logged {
          sent := total
          enqueued := s.enqueued
          timedOut := s.timedOut
          succeeded := s.succeeded
          failed := s.failed } }
    else s
  | _ => s

def retStep (s : State) : State :=
  match s.main with
  | .logged line => { s with main := .returned line, asyncClosed := true }
  | _ => s

def closeStep (s : State) : State :=
  if s.asyncClosed && s.inFlight.isEmpty && s.successes.isEmpty && s.errors.isEmpty then
    { s with closed := true }
  else s

variable (topic : String) (total : ℕ)

def step (a : Action) (s : State) : State :=
  match a with
  | .enqueue => enqueueStep topic total s
  | .timeOut => timeOutStep total s
  | .acknowledge k => acknowledgeStep k s
  | .refuse k err => refuseStep k err s
  | .readSuccess => readSuccessStep s
  | .readError => readErrorStep s
  | .wait => waitStep total s
  | .ret => retStep s
  | .close => closeStep s

def Unlogged (s : State) : Prop := ∃ i, s.main = .sending i

/-- Once everything enqueued is acknowledged some step is possible until the
last log line is written. -/
def NeverStuck : Prop :=
  ∀ as : List Action, (run (step topic total) as start).inFlight = [] →
    Unlogged (run (step topic total) as start) →
      ∃ a, step topic total a (run (step topic total) as start) ≠
        run (step topic total) as start

def Accounts : Prop :=
  ∀ (as : List Action) (line : Summary), (run (step topic total) as start).main = .logged line →
    line.enqueued+line.timedOut = total ∧ line.succeeded+line.failed = line.enqueued

structure Ranging (s : State) : Prop where
  unlogged : Unlogged s
  onSuccess : s.onSuccess = .ranging
  onError : s.onError = .ranging
  wg : s.wg = 2
  asyncClosed : s.asyncClosed = false
  closed : s.closed = false

theorem ranging_start : Ranging start := ⟨⟨0,rfl⟩,rfl,rfl,rfl,rfl,rfl⟩

theorem Ranging.enqueue {s : State} (h : Ranging s) : Ranging (enqueueStep topic total s) := by
  obtain ⟨⟨i,hmain⟩,hs,he,hwg,hac,hcl⟩ := h
  simp only [enqueueStep, hmain]
  split_ifs
  · exact ⟨⟨_,rfl⟩,hs,he,hwg,hac,hcl⟩
  · exact ⟨⟨i,hmain⟩,hs,he,hwg,hac,hcl⟩

theorem Ranging.timeOut {s : State} (h : Ranging s) : Ranging (timeOutStep total s) := by
  obtain ⟨⟨i,hmain⟩,hs,he,hwg,hac,hcl⟩ := h
  simp only [timeOutStep, hmain]
  split_ifs
  · exact ⟨⟨_,rfl⟩,hs,he,hwg,hac,hcl⟩
  · exact ⟨⟨i,hmain⟩,hs,he,hwg,hac,hcl⟩

theorem Ranging.readSuccess {s : State} (h : Ranging s) : Ranging (readSuccessStep s) := by
  cases hq : s.successes with
  | nil =>
    have hidle : readSuccessStep s = s := by simp [readSuccessStep, h.onSuccess, hq, h.closed]
    rwa [hidle]
  | cons m rest =>
    have htake : readSuccessStep s = { s with successes := rest, succeeded := s.succeeded+1 } := by
      simp [readSuccessStep, h.onSuccess, hq]
    rw [htake]
    exact ⟨h.unlogged,h.onSuccess,h.onError,h.wg,h.asyncClosed,h.closed⟩

theorem Ranging.readError {s : State} (h : Ranging s) : Ranging (readErrorStep s) := by
  cases hq : s.errors with
  | nil =>
    have hidle : readErrorStep s = s := by simp [readErrorStep, h.onError, hq, h.closed]
    rwa [hidle]
  | cons m rest =>
    have htake : readErrorStep s = { s with errors := rest, failed := s.failed+1 } := by
      simp [readErrorStep, h.onError, hq]
    rw [htake]
    exact ⟨h.unlogged,h.onSuccess,h.onError,h.wg,h.asyncClosed,h.closed⟩

/-- The wait is for the loops, the loops for the close, and the close for the
return. -/
theorem Ranging.waits {s : State} (h : Ranging s) :
    waitStep total s = s ∧ retStep s = s ∧ closeStep s = s := by
  obtain ⟨i,hmain⟩ := h.unlogged
  exact ⟨by simp [waitStep, hmain, h.wg],by simp [retStep, hmain],
    by simp [closeStep, h.asyncClosed]⟩

theorem ranging_step (a : Action) (s : State) (h : Ranging s) : Ranging (step topic total a s) := by
  cases a with
  | enqueue => exact h.enqueue topic total
  | timeOut => exact h.timeOut total
  | acknowledge k =>
    simp only [step, acknowledgeStep]
    cases s.inFlight[k]? <;>
      exact ⟨h.unlogged,h.onSuccess,h.onError,h.wg,h.asyncClosed,h.closed⟩
  | refuse k err =>
    simp only [step, refuseStep]
    cases s.inFlight[k]? <;>
      exact ⟨h.unlogged,h.onSuccess,h.onError,h.wg,h.asyncClosed,h.closed⟩
  | readSuccess => exact h.readSuccess
  | readError => exact h.readError
  | wait =>
    rw [step, (h.waits total).1]
    exact h
  | ret =>
    rw [step, (h.waits total).2.1]
    exact h
  | close =>
    rw [step, (h.waits total).2.2]
    exact h

theorem ranging_run (as : List Action) : Ranging (run (step topic total) as start) :=
  run_keeps _ Ranging (ranging_step topic total) as start ranging_start

/-- With everything sent, acknowledged and taken nobody can move. -/
theorem drained_stuck (s : State) (h : Ranging s) (hmain : s.main = .sending total)
    (hf : s.inFlight = []) (hsucc : s.successes = []) (herr : s.errors = []) (a : Action) :
    step topic total a s = s := by
  obtain ⟨-,hs,he,hwg,hac,hcl⟩ := h
  cases a <;> simp [step, enqueueStep, timeOutStep, acknowledgeStep, refuseStep, readSuccessStep,
    readErrorStep, waitStep, retStep, closeStep, hmain, hf, hsucc, herr, hs, he, hwg, hac, hcl]

theorem timeOuts_run (n : ℕ) (hn : n ≤ total) :
    run (step topic total) (List.replicate n .timeOut) start =
      { start with main := .sending n, timedOut := n } := by
  induction n with
  | zero => rfl
  | succ n ih =>
    rw [List.replicate_succ', run_append, ih (by omega)]
    have hlt : n < total := by omega
    simp [step, timeOutStep, hlt]

/-- Whatever is sent, the last log line is never written and the function can
get stuck with every message acknowledged. -/
theorem producer_never_done (topic : String) (total : ℕ) :
    ¬(NeverStuck topic total ∧ Accounts topic total) ∧
      ∀ as, Unlogged (run (step topic total) as start) := by
  constructor
  · rintro ⟨hstuck,-⟩
    have hrun := timeOuts_run topic total total (le_refl _)
    have hr := ranging_run topic total (List.replicate total .timeOut)
    obtain ⟨a,ha⟩ := hstuck (List.replicate total .timeOut) (by rw [hrun]; rfl) hr.unlogged
    apply ha
    apply drained_stuck topic total _ hr <;> rw [hrun] <;> rfl
  · intro as
    exact (ranging_run topic total as).unlogged

/-- One message is sent, acknowledged and counted, and then nothing moves. -/
theorem one_message_stuck : ¬(NeverStuck "topic" 1 ∧ Accounts "topic" 1) := by
  rintro ⟨h,-⟩
  obtain ⟨a,ha⟩ := h [.enqueue,.acknowledge 0,.readSuccess] (by decide) ⟨1,by decide⟩
  apply ha
  apply drained_stuck "topic" 1 _ (ranging_run "topic" 1 _) <;> decide

end Gopher.AsyncProducer
