import Mathlib.Data.Finset.Card
import Gopher.StepRuns

/-!
# A blocking queue with a condition variable

Producers and consumers, any number of each, run over one queue, one critical
section at a time. A producer notifies after it has released the lock. Of the
condition variable it is assumed that a notification wakes at least one
sleeping consumer if there is one; it may wake more, and a consumer may wake
without one.
-/

set_option autoImplicit false

namespace Gopher.ThreadSafeQueue
open Gopher.StepRuns

structure State (π γ T : Type*) where
  queue : List T
  notifying : Finset π
  awake : Finset γ
  asleep : Finset γ

inductive Action (π γ T : Type*) where
  | enqueue (p : π) (value : T)
  | notifyOne (p : π) (woken : Finset γ)
  | dequeue (c : γ)
  | test (c : γ)
  | spurious (c : γ)

def start (π γ T : Type*) : State π γ T where
  queue := []
  notifying := ∅
  awake := ∅
  asleep := ∅

variable {π γ T : Type*}

def empty (s : State π γ T) : Bool := s.queue.isEmpty

variable [DecidableEq π] [DecidableEq γ]

def enqueueStep (p : π) (value : T) (s : State π γ T) : State π γ T :=
  if p ∈ s.notifying then s
  else
    { s with
      queue := s.queue++[value]
      notifying := insert p s.notifying }

def notifyStep (p : π) (woken : Finset γ) (s : State π γ T) : State π γ T :=
  if p ∈ s.notifying ∧ (s.asleep.Nonempty → (s.asleep ∩ woken).Nonempty) then
    { s with
      notifying := s.notifying.erase p
      awake := s.awake ∪ (s.asleep ∩ woken)
      asleep := s.asleep \ woken }
  else s

def dequeueStep (c : γ) (s : State π γ T) : State π γ T :=
  if c ∈ s.awake ∨ c ∈ s.asleep then s else { s with awake := insert c s.awake }

def testStep (c : γ) (s : State π γ T) : State π γ T × Option T :=
  if c ∈ s.awake then
    match s.queue with
    | [] => ({ s with awake := s.awake.erase c, asleep := insert c s.asleep },none)
    | front::rest => ({ s with queue := rest, awake := s.awake.erase c },some front)
  else (s,none)

def spuriousStep (c : γ) (s : State π γ T) : State π γ T :=
  if c ∈ s.asleep then
    { s with awake := insert c s.awake, asleep := s.asleep.erase c }
  else s

def step (a : Action π γ T) (s : State π γ T) : State π γ T :=
  match a with
  | .enqueue p value => enqueueStep p value s
  | .notifyOne p woken => notifyStep p woken s
  | .dequeue c => dequeueStep c s
  | .test c => (testStep c s).1
  | .spurious c => spuriousStep c s

/-- The value of a call of `enqueue`; a producer that has yet to notify is still in its last one. -/
def enqueued (a : Action π γ T) (s : State π γ T) : List T :=
  match a with
  | .enqueue p value => if p ∈ s.notifying then [] else [value]
  | _ => []

def dequeued (a : Action π γ T) (s : State π γ T) : List T :=
  match a with
  | .test c => (testStep c s).2.toList
  | _ => []

def LostWakeUp (s : State π γ T) : Prop :=
  empty s = false ∧ s.asleep.Nonempty ∧ s.awake = ∅ ∧ s.notifying = ∅

structure Inv (s : State π γ T) : Prop where
  apart : Disjoint s.awake s.asleep
  matched : s.asleep.Nonempty → s.queue.length ≤ s.notifying.card+s.awake.card

omit [DecidableEq π] [DecidableEq γ] in
theorem inv_start : Inv (start π γ T) where
  apart := Finset.disjoint_empty_left _
  matched h := absurd h Finset.not_nonempty_empty

omit [DecidableEq γ] in
theorem inv_enqueue {s : State π γ T} (h : Inv s) (p : π) (value : T) :
    Inv (enqueueStep p value s) := by
  unfold enqueueStep
  split_ifs with hp
  · exact h
  refine ⟨h.apart,?_⟩
  intro hs
  have := h.matched hs
  rw [List.length_append, List.length_singleton, Finset.card_insert_of_notMem hp]
  dsimp only
  omega

/-- The notification that is gone has woken a consumer, or nobody slept. -/
theorem inv_notify {s : State π γ T} (h : Inv s) (p : π) (woken : Finset γ) :
    Inv (notifyStep p woken s) := by
  unfold notifyStep
  split_ifs with hp
  · refine ⟨?_,?_⟩
    · rw [Finset.disjoint_union_left]
      refine ⟨h.apart.mono_right Finset.sdiff_subset,?_⟩
      exact Finset.disjoint_sdiff.mono_left Finset.inter_subset_right
    · intro hs
      have hsome : s.asleep.Nonempty := hs.mono Finset.sdiff_subset
      have hwoken : 0 < (s.asleep ∩ woken).card := Finset.card_pos.mpr (hp.2 hsome)
      have hunion : (s.awake ∪ (s.asleep ∩ woken)).card =
          s.awake.card+(s.asleep ∩ woken).card :=
        Finset.card_union_of_disjoint (h.apart.mono_right Finset.inter_subset_left)
      have herase := Finset.card_erase_add_one hp.1
      have := h.matched hsome
      dsimp only
      omega
  · exact h

omit [DecidableEq π] in
theorem inv_dequeue {s : State π γ T} (h : Inv s) (c : γ) : Inv (dequeueStep c s) := by
  unfold dequeueStep
  split_ifs with hc
  · exact h
  rw [not_or] at hc
  refine ⟨Finset.disjoint_insert_left.mpr ⟨hc.2,h.apart⟩,?_⟩
  intro hs
  have := h.matched hs
  rw [Finset.card_insert_of_notMem hc.1]
  dsimp only
  omega

omit [DecidableEq π] in
/-- A consumer goes to sleep only when the queue is empty. -/
theorem inv_test {s : State π γ T} (h : Inv s) (c : γ) : Inv (testStep c s).1 := by
  unfold testStep
  split_ifs with hc
  · cases hq : s.queue with
    | nil =>
      refine ⟨?_,fun _ => Nat.zero_le _⟩
      dsimp only
      rw [Finset.disjoint_insert_right]
      exact ⟨Finset.notMem_erase c _,h.apart.mono_left (Finset.erase_subset _ _)⟩
    | cons front rest =>
      refine ⟨h.apart.mono_left (Finset.erase_subset _ _),?_⟩
      intro hs
      have hmatched := h.matched hs
      have herase := Finset.card_erase_add_one hc
      rw [hq, List.length_cons] at hmatched
      dsimp only
      omega
  · exact h

omit [DecidableEq π] in
theorem inv_spurious {s : State π γ T} (h : Inv s) (c : γ) : Inv (spuriousStep c s) := by
  unfold spuriousStep
  split_ifs with hc
  · refine ⟨?_,?_⟩
    · rw [Finset.disjoint_insert_left]
      exact ⟨Finset.notMem_erase c _,h.apart.mono_right (Finset.erase_subset _ _)⟩
    · intro hs
      have hmatched := h.matched (hs.mono (Finset.erase_subset _ _))
      have hgrow : s.awake.card ≤ (insert c s.awake).card :=
        Finset.card_le_card (Finset.subset_insert _ _)
      dsimp only
      omega
  · exact h

theorem inv_step (a : Action π γ T) (s : State π γ T) (h : Inv s) : Inv (step a s) := by
  cases a with
  | enqueue p value => exact inv_enqueue h p value
  | notifyOne p woken => exact inv_notify h p woken
  | dequeue c => exact inv_dequeue h c
  | test c => exact inv_test h c
  | spurious c => exact inv_spurious h c

omit [DecidableEq π] in
theorem test_queue (c : γ) (s : State π γ T) :
    s.queue = (testStep c s).2.toList++(testStep c s).1.queue := by
  unfold testStep
  split_ifs
  · cases hq : s.queue with
    | nil => rfl
    | cons front rest => rfl
  · rfl

/-- One critical section: what was queued and what is enqueued is what is handed out and what is
queued then. -/
theorem step_queue (a : Action π γ T) (s : State π γ T) :
    s.queue++enqueued a s = dequeued a s++(step a s).queue := by
  cases a with
  | enqueue p value =>
    simp only [enqueued, dequeued, step, enqueueStep]
    split_ifs <;> simp
  | notifyOne p woken =>
    simp only [enqueued, dequeued, step, notifyStep]
    split_ifs <;> simp
  | dequeue c =>
    simp only [enqueued, dequeued, step, dequeueStep]
    split_ifs <;> simp
  | test c =>
    simp only [enqueued, dequeued, step, List.append_nil]
    exact test_queue c s
  | spurious c =>
    simp only [enqueued, dequeued, step, spuriousStep]
    split_ifs <;> simp

/-- In every schedule the values handed to consumers and the queue are the values of the calls of
`enqueue`, in order, and no wake-up is lost. -/
theorem queue_fifo_no_lost_wakeup (as : List (Action π γ T)) :
    gathered step dequeued as (start π γ T)++(run step as (start π γ T)).queue =
        gathered step enqueued as (start π γ T) ∧
      ¬LostWakeUp (run step as (start π γ T)) := by
  have hfifo := run_conserves step (fun _ => True) State.queue enqueued dequeued
    (fun _ _ _ => trivial) (fun a s _ => step_queue a s) as (start π γ T) trivial
  have h := run_keeps step Inv inv_step as (start π γ T) inv_start
  refine ⟨hfifo.symm,?_⟩
  generalize run step as (start π γ T) = s at h
  rintro ⟨hq,hs,hawake,hnotify⟩
  have hmatched := h.matched hs
  rw [hawake, hnotify, Finset.card_empty, Finset.card_empty] at hmatched
  have hnil : s.queue = [] := List.length_eq_zero_iff.mp (by omega)
  simp [empty, hnil] at hq

end Gopher.ThreadSafeQueue
