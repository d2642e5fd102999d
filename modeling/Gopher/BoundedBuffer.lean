import Mathlib.Algebra.BigOperators.Fin
import Gopher.FairRuns

/-!
# Producers and consumers over a bounded list

Any number of threads of either kind take turns under one lock. They wait for room or
for an element, in one wait set or in one for each kind, and whoever has changed the
list wakes all that wait for it. A thread may also wake by itself.
-/

set_option autoImplicit false

namespace Gopher.BoundedBuffer
open Gopher.StepRuns Gopher.FairRuns

inductive Role where
  | producer
  | consumer
  deriving DecidableEq

inductive Pc where
  | outside
  | testing
  | waiting
  | woken
  | changing
  | notifying
  | leaving
  | failed
  deriving DecidableEq

/-- `single` is `wait` and `notifyAll` of the list itself; otherwise there is a condition for
each kind. -/
structure Setup (n : ℕ) where
  cap : ℕ
  role : Fin n → Role
  single : Bool

structure State (n : ℕ) (T : Type) where
  numList : List T
  holder : Option (Fin n)
  pcs : Fin n → Pc
  draws : ℕ

inductive Action (n : ℕ) where
  | turn (t : Fin n)
  | wake (t : Fin n)

section Program

variable {n : ℕ} {T : Type}

def State.setPc (s : State n T) (t : Fin n) (pc : Pc) : State n T :=
  { s with pcs := Function.update s.pcs t pc }

def State.lock (s : State n T) (t : Fin n) : State n T :=
  if s.holder = none then { s with holder := some t }.setPc t .testing else s

variable (p : Setup n) (rand : ℕ → T)

def Setup.blocked (t : Fin n) (numList : List T) : Bool :=
  match p.role t with
  | .producer => numList.length == p.cap
  | .consumer => numList.isEmpty

def Setup.wakes (t u : Fin n) : Bool := p.single || decide (p.role t ≠ p.role u)

def Setup.change (t : Fin n) (s : State n T) : State n T :=
  match p.role t, s.numList with
  | .producer, numList =>
    { s with numList := numList++[rand s.draws], draws := s.draws+1 }.setPc t .notifying
  | .consumer, _::rest => { s with numList := rest }.setPc t .notifying
  | .consumer, [] => { s with holder := none }.setPc t .failed

def Setup.notifyAll (t : Fin n) (s : State n T) : State n T :=
  ({ s with pcs := fun u =>
    if s.pcs u = .waiting ∧ p.wakes t u = true then .woken else s.pcs u } :
      State n T).setPc t .leaving

def Setup.turn (t : Fin n) (s : State n T) : State n T :=
  match s.pcs t with
  | .outside => s.lock t
  | .testing =>
    if p.blocked t s.numList then { s with holder := none }.setPc t .waiting
    else s.setPc t .changing
  | .waiting => s
  | .woken => s.lock t
  | .changing => p.change rand t s
  | .notifying => p.notifyAll t s
  | .leaving => { s with holder := none }.setPc t .outside
  | .failed => s

def Setup.step (a : Action n) (s : State n T) : State n T :=
  match a with
  | .turn t => p.turn rand t s
  | .wake t => if s.pcs t = .waiting then s.setPc t .woken else s

def Setup.adds (t : Fin n) (s : State n T) : List T :=
  match s.pcs t, p.role t with
  | .changing, .producer => [rand s.draws]
  | _, _ => []

def Setup.removes (t : Fin n) (s : State n T) : List T :=
  match s.pcs t, p.role t with
  | .changing, .consumer => s.numList.head?.toList
  | _, _ => []

def Setup.added (a : Action n) (s : State n T) : List T :=
  match a with
  | .turn t => p.adds rand t s
  | .wake _ => []

def Setup.removed (a : Action n) (s : State n T) : List T :=
  match a with
  | .turn t => p.removes t s
  | .wake _ => []

end Program

def start (n : ℕ) (T : Type) : State n T where
  numList := []
  holder := none
  pcs := fun _ => .outside
  draws := 0

/-! ## What every schedule keeps -/

def Pc.holds : Pc → Bool
  | .testing | .changing | .notifying | .leaving => true
  | _ => false

section Safety

variable {n : ℕ} {T : Type} {p : Setup n} {rand : ℕ → T} {s : State n T} {t : Fin n}

theorem pcs_setPc (s : State n T) (t : Fin n) (pc : Pc) (u : Fin n) :
    (s.setPc t pc).pcs u = if u = t then pc else s.pcs u := Function.update_apply _ _ _ _

theorem pcs_notifyAll (u : Fin n) : (p.notifyAll t s).pcs u = if u = t then .leaving
    else if s.pcs u = .waiting ∧ p.wakes t u = true then .woken else s.pcs u :=
  pcs_setPc _ _ _ _

structure Inv (p : Setup n) (s : State n T) : Prop where
  lock : ∀ u, (s.pcs u).holds = true ↔ s.holder = some u
  bound : s.numList.length ≤ p.cap
  ready : ∀ u, s.pcs u = .changing → p.blocked u s.numList = false
  waits : ∀ u, s.pcs u = .waiting → p.blocked u s.numList = true ∨
    ∃ v, s.pcs v = .notifying ∧ p.wakes v u = true
  drawn : s.numList.length ≤ s.draws
  sound : ∀ u, s.pcs u ≠ .failed

theorem Inv.alone (h : Inv p s) {u : Fin n} (ht : (s.pcs t).holds = true)
    (hu : (s.pcs u).holds = true) : u = t :=
  Option.some.inj (((h.lock u).mp hu).symm.trans ((h.lock t).mp ht))

theorem Inv.move (h : Inv p s) {pc : Pc} {holder : Option (Fin n)}
    (hlock : ∀ u, (if u = t then pc else s.pcs u).holds = true ↔ holder = some u)
    (hready : pc = .changing → p.blocked t s.numList = false)
    (hwait : pc = .waiting → p.blocked t s.numList = true) (hfail : pc ≠ .failed)
    (hnot : s.pcs t ≠ .notifying) : Inv p ({ s with holder := holder }.setPc t pc) := by
  refine ⟨?_,h.bound,?_,?_,h.drawn,?_⟩
  · intro u
    rw [pcs_setPc]
    exact hlock u
  · intro u hu
    rw [pcs_setPc] at hu
    split at hu
    · rename_i hut
      exact hut ▸ hready hu
    · exact h.ready u hu
  · intro u hu
    rw [pcs_setPc] at hu
    split at hu
    · rename_i hut
      exact Or.inl (hut ▸ hwait hu)
    · rcases h.waits u hu with hb | ⟨v,hv,hwakes⟩
      · exact Or.inl hb
      · have hvt : v ≠ t := fun hvt => hnot (hvt ▸ hv)
        exact Or.inr ⟨v,by rw [pcs_setPc, if_neg hvt]; exact hv,hwakes⟩
  · intro u
    rw [pcs_setPc]
    split
    · exact hfail
    · exact h.sound u

theorem Inv.lock_take (h : Inv p s) (hfree : s.holder = none) {pc : Pc} (hpc : pc.holds = true)
    (u : Fin n) : (if u = t then pc else s.pcs u).holds = true ↔ some t = some u := by
  split
  · rename_i hut
    simp [hut, hpc]
  · rename_i hut
    rw [h.lock, hfree]
    simp [Ne.symm hut]

theorem Inv.lock_release (h : Inv p s) (ht : (s.pcs t).holds = true) {pc : Pc}
    (hpc : pc.holds = false) (u : Fin n) :
    (if u = t then pc else s.pcs u).holds = true ↔ (none : Option (Fin n)) = some u := by
  split
  · simp [hpc]
  · rename_i hut
    rw [h.lock, (h.lock t).mp ht]
    simp [Ne.symm hut]

theorem Inv.lock_keep (h : Inv p s) {pc : Pc} (hpc : pc.holds = (s.pcs t).holds) (u : Fin n) :
    (if u = t then pc else s.pcs u).holds = true ↔ s.holder = some u := by
  split
  · rename_i hut
    rw [hpc, ← hut]
    exact h.lock u
  · exact h.lock u

theorem Inv.acquire (h : Inv p s) (hpc : s.pcs t ≠ .notifying) : Inv p (s.lock t) := by
  rw [State.lock]
  split
  · rename_i hfree
    exact h.move (h.lock_take hfree rfl) (by simp) (by simp) (by simp) hpc
  · exact h

/-- While a thread may change the list, none of its kind waits. -/
theorem Inv.waits_other (h : Inv p s) (ht : s.pcs t = .changing) {u : Fin n}
    (hu : s.pcs u = .waiting) : p.blocked u s.numList = true ∧ p.role t ≠ p.role u := by
  rcases h.waits u hu with hb | ⟨v,hv,-⟩
  · refine ⟨hb,fun hrole => ?_⟩
    have hready := h.ready t ht
    rw [Setup.blocked, hrole] at hready
    rw [Setup.blocked, hready] at hb
    cases hb
  · have hvt := h.alone (t := t) (u := v) (by rw [ht]; rfl) (by rw [hv]; rfl)
    rw [hvt, ht] at hv
    cases hv

theorem Inv.changed (h : Inv p s) (ht : s.pcs t = .changing) {numList : List T} {draws : ℕ}
    (hbound : numList.length ≤ p.cap) (hdrawn : numList.length ≤ draws) :
    Inv p (({ s with numList := numList, draws := draws } : State n T).setPc t .notifying) := by
  refine ⟨?_,hbound,?_,?_,hdrawn,?_⟩
  · intro u
    rw [pcs_setPc]
    exact h.lock_keep (by rw [ht]; rfl) u
  · intro u hu
    rw [pcs_setPc] at hu
    split at hu
    · cases hu
    · rename_i hut
      exact absurd (h.alone (by rw [ht]; rfl) (by rw [hu]; rfl)) hut
  · intro u hu
    rw [pcs_setPc] at hu
    split at hu
    · cases hu
    · refine Or.inr ⟨t,by rw [pcs_setPc, if_pos rfl],?_⟩
      simp [Setup.wakes, (h.waits_other ht hu).2]
  · intro u
    rw [pcs_setPc]
    split
    · simp
    · exact h.sound u

theorem Inv.change (h : Inv p s) (ht : s.pcs t = .changing) : Inv p (p.change rand t s) := by
  have hready := h.ready t ht
  rw [Setup.blocked] at hready
  unfold Setup.change
  split
  · rename_i hrole
    simp only [hrole, beq_eq_false_iff_ne] at hready
    apply h.changed ht
    · rw [List.length_append, List.length_singleton]
      exact Nat.lt_of_le_of_ne h.bound hready
    · rw [List.length_append, List.length_singleton]
      exact Nat.succ_le_succ h.drawn
  · rename_i elem rest hrole hlist
    have hbound := h.bound
    have hdrawn := h.drawn
    rw [hlist] at hbound hdrawn
    exact h.changed ht ((Nat.le_succ _).trans hbound) ((Nat.le_succ _).trans hdrawn)
  · rename_i hrole hlist
    rw [hrole, hlist] at hready
    cases hready

theorem Inv.notify (h : Inv p s) (ht : s.pcs t = .notifying) : Inv p (p.notifyAll t s) := by
  have hholds : (s.pcs t).holds = true := by rw [ht]; rfl
  refine ⟨?_,h.bound,?_,?_,h.drawn,?_⟩
  · intro u
    rw [pcs_notifyAll, ← show s.holder = (p.notifyAll t s).holder from rfl, ← h.lock]
    split
    · rename_i hut
      rw [hut, ht]
      simp [Pc.holds]
    · split
      · rename_i hu
        rw [hu.1]
        simp [Pc.holds]
      · rfl
  · intro u hu
    rw [pcs_notifyAll] at hu
    split at hu
    · cases hu
    · rename_i hut
      split at hu
      · cases hu
      · exact absurd (h.alone hholds (by rw [hu]; rfl)) hut
  · intro u hu
    rw [pcs_notifyAll] at hu
    split at hu
    · cases hu
    · split at hu
      · cases hu
      · rename_i hnot
        rcases h.waits u hu with hb | ⟨v,hv,hwakes⟩
        · exact Or.inl hb
        · have hvt := h.alone hholds (u := v) (by rw [hv]; rfl)
          exact absurd ⟨hu,hvt ▸ hwakes⟩ hnot
  · intro u
    rw [pcs_notifyAll]
    split
    · simp
    · split
      · simp
      · exact h.sound u

theorem Inv.turn (h : Inv p s) (t : Fin n) : Inv p (p.turn rand t s) := by
  unfold Setup.turn
  split
  · rename_i ht
    exact h.acquire (by simp [ht])
  · rename_i ht
    have hholds : (s.pcs t).holds = true := by rw [ht]; rfl
    split
    · rename_i hb
      exact h.move (h.lock_release hholds rfl) (by simp) (fun _ => hb) (by simp) (by simp [ht])
    · rename_i hb
      exact h.move (h.lock_keep (by rw [ht]; rfl)) (fun _ => Bool.eq_false_iff.mpr hb) (by simp)
        (by simp) (by simp [ht])
  · exact h
  · rename_i ht
    exact h.acquire (by simp [ht])
  · rename_i ht
    exact h.change ht
  · rename_i ht
    exact h.notify ht
  · rename_i ht
    exact h.move (h.lock_release (by rw [ht]; rfl) rfl) (by simp) (by simp) (by simp)
      (by simp [ht])
  · exact h

theorem step_inv (a : Action n) (s : State n T) (h : Inv p s) : Inv p (p.step rand a s) := by
  cases a with
  | turn t => exact h.turn t
  | wake t =>
    rw [Setup.step]
    split
    · rename_i ht
      exact h.move (h.lock_keep (by rw [ht]; rfl)) (by simp) (by simp) (by simp) (by simp [ht])
    · exact h

theorem start_inv : Inv p (start n T) :=
  ⟨by simp [start, Pc.holds],Nat.zero_le _,by simp [start],by simp [start],le_rfl,by simp [start]⟩

theorem run_inv (rand : ℕ → T) (as : List (Action n)) : Inv p (run (p.step rand) as (start n T)) :=
  run_keeps _ _ step_inv as _ start_inv

theorem lock_numList (s : State n T) (t : Fin n) :
    (s.lock t).numList = s.numList ∧ (s.lock t).draws = s.draws := by
  rw [State.lock]
  split <;> exact ⟨rfl,rfl⟩

theorem turn_flow (rand : ℕ → T) (t : Fin n) (s : State n T) :
    s.numList++p.adds rand t s = p.removes t s++(p.turn rand t s).numList := by
  cases ht : s.pcs t with
  | changing =>
    cases hrole : p.role t with
    | producer => simp [Setup.adds, Setup.removes, Setup.turn, Setup.change, ht, hrole, State.setPc]
    | consumer =>
      cases hlist : s.numList <;>
        simp [Setup.adds, Setup.removes, Setup.turn, Setup.change, ht, hrole, hlist, State.setPc]
  | outside | woken => simp [Setup.adds, Setup.removes, Setup.turn, ht, lock_numList]
  | testing =>
    simp only [Setup.adds, Setup.removes, Setup.turn, ht]
    split <;> simp [State.setPc]
  | _ => simp [Setup.adds, Setup.removes, Setup.turn, Setup.notifyAll, ht, State.setPc]

theorem turn_draws (rand : ℕ → T) (t : Fin n) (s : State n T) :
    (p.turn rand t s).draws = s.draws+(p.adds rand t s).length := by
  cases ht : s.pcs t with
  | changing =>
    cases hrole : p.role t with
    | producer => simp [Setup.adds, Setup.turn, Setup.change, ht, hrole, State.setPc]
    | consumer =>
      cases hlist : s.numList <;>
        simp [Setup.adds, Setup.turn, Setup.change, ht, hrole, hlist, State.setPc]
  | outside | woken => simp [Setup.adds, Setup.turn, ht, lock_numList]
  | testing =>
    simp only [Setup.adds, Setup.turn, ht]
    split <;> simp [State.setPc]
  | _ => simp [Setup.adds, Setup.turn, Setup.notifyAll, ht, State.setPc]

theorem step_flow (rand : ℕ → T) (a : Action n) (s : State n T) :
    s.numList++p.added rand a s = p.removed a s++(p.step rand a s).numList := by
  cases a with
  | turn t => exact turn_flow rand t s
  | wake t =>
    simp only [Setup.added, Setup.removed, Setup.step]
    split <;> simp [State.setPc]

end Safety

/-- In every schedule: the list never has more than `cap` elements, what is removed is what was
added, in that order, no `removeFirst` fails, and a thread that waits while no one is about to
wake it has to. -/
theorem buffer_bounded_fifo {n : ℕ} {T : Type} (p : Setup n) (rand : ℕ → T)
    (as : List (Action n)) :
    (run (p.step rand) as (start n T)).numList.length ≤ p.cap ∧
    gathered (p.step rand) p.removed as (start n T)++(run (p.step rand) as (start n T)).numList =
      gathered (p.step rand) (p.added rand) as (start n T) ∧
    (∀ t, (run (p.step rand) as (start n T)).pcs t ≠ .failed) ∧
    ∀ t, (run (p.step rand) as (start n T)).pcs t = .waiting →
      p.blocked t (run (p.step rand) as (start n T)).numList = true ∨
        ∃ u, (run (p.step rand) as (start n T)).pcs u = .notifying ∧ p.wakes u t = true := by
  have h := run_inv (p := p) rand as
  refine ⟨h.bound,?_,h.sound,h.waits⟩
  exact (run_conserves (p.step rand) (fun _ => True) State.numList (p.added rand) p.removed
    (fun _ _ _ => trivial) (fun a s _ => step_flow rand a s) as (start n T) trivial).symm

/-! ## Elements keep flowing -/

section Progress

variable {n : ℕ} {T : Type} {p : Setup n} {rand : ℕ → T} {s : State n T} {t : Fin n}

def State.Enabled (s : State n T) (t : Fin n) : Prop :=
  match s.pcs t with
  | .outside | .woken => s.holder = none
  | .waiting | .failed => False
  | _ => True

def Pc.weight (n : ℕ) : Pc → ℕ
  | .waiting | .failed => 0
  | .changing => 1
  | .testing => 2
  | .outside | .woken => 3
  | .leaving => 4
  | .notifying => 3*n+5

def State.work (s : State n T) : ℕ := ∑ u, (s.pcs u).weight n

def State.changes (s : State n T) : ℕ := s.draws+(s.draws-s.numList.length)

theorem work_setPc (s : State n T) (t : Fin n) (pc : Pc) :
    (s.setPc t pc).work+(s.pcs t).weight n = s.work+pc.weight n := by
  have hrest : ∑ u ∈ Finset.univ.erase t, ((s.setPc t pc).pcs u).weight n =
      ∑ u ∈ Finset.univ.erase t, (s.pcs u).weight n := by
    apply Finset.sum_congr rfl
    intro u hu
    rw [pcs_setPc, if_neg (Finset.ne_of_mem_erase hu)]
  rw [State.work, State.work, ← Finset.add_sum_erase _ _ (Finset.mem_univ t), hrest, pcs_setPc,
    if_pos rfl,
    ← Finset.add_sum_erase Finset.univ (fun u => (s.pcs u).weight n) (Finset.mem_univ t)]
  omega

theorem work_notifyAll (ht : s.pcs t = .notifying) : (p.notifyAll t s).work < s.work := by
  have hrest : ∑ u ∈ Finset.univ.erase t, ((p.notifyAll t s).pcs u).weight n ≤
      ∑ u ∈ Finset.univ.erase t, ((s.pcs u).weight n+3) := by
    apply Finset.sum_le_sum
    intro u hu
    rw [pcs_notifyAll, if_neg (Finset.ne_of_mem_erase hu)]
    split
    · rename_i hwaiting
      rw [hwaiting.1]
      exact Nat.le_refl _
    · exact Nat.le_add_right _ _
  have hcard : (Finset.univ.erase t).card ≤ n := by
    rw [Finset.card_erase_of_mem (Finset.mem_univ t), Finset.card_univ, Fintype.card_fin]
    exact Nat.sub_le n 1
  rw [Finset.sum_add_distrib, Finset.sum_const, smul_eq_mul] at hrest
  rw [State.work, State.work, ← Finset.add_sum_erase _ _ (Finset.mem_univ t), pcs_notifyAll,
    if_pos rfl,
    ← Finset.add_sum_erase Finset.univ (fun u => (s.pcs u).weight n) (Finset.mem_univ t), ht,
    show Pc.weight n .leaving = 4 from rfl, show Pc.weight n .notifying = 3*n+5 from rfl]
  omega

theorem turn_skip (h : ¬s.Enabled t) : p.turn rand t s = s := by
  unfold Setup.turn
  split
  · rename_i ht
    simp only [State.Enabled, ht] at h
    exact if_neg h
  · rename_i ht
    simp [State.Enabled, ht] at h
  · rfl
  · rename_i ht
    simp only [State.Enabled, ht] at h
    exact if_neg h
  · rename_i ht
    simp [State.Enabled, ht] at h
  · rename_i ht
    simp [State.Enabled, ht] at h
  · rename_i ht
    simp [State.Enabled, ht] at h
  · rfl

theorem lock_work (hw : (s.pcs t).weight n = 3) (hfree : s.holder = none) :
    (s.lock t).changes = s.changes ∧ (s.lock t).work < s.work := by
  have hwork : (({ s with holder := some t } : State n T).setPc t .testing).work+
      (s.pcs t).weight n = s.work+2 := work_setPc _ t .testing
  rw [State.lock, if_pos hfree]
  refine ⟨rfl,?_⟩
  omega

theorem change_work (hinv : Inv p s) (ht : s.pcs t = .changing) :
    (p.change rand t s).changes = s.changes+1 ∧
      (p.change rand t s).work = s.work+(3*n+4) := by
  have hwork (s' : State n T) (hs' : s'.pcs = s.pcs) :
      (s'.setPc t .notifying).work = s.work+(3*n+4) := by
    have h := work_setPc s' t .notifying
    have hsame : s'.work = s.work := by rw [State.work, State.work, hs']
    rw [hsame, hs', ht, show Pc.weight n .notifying = 3*n+5 from rfl,
      show Pc.weight n .changing = 1 from rfl] at h
    omega
  have hdrawn := hinv.drawn
  unfold Setup.change
  split
  · refine ⟨?_,hwork _ rfl⟩
    simp only [State.changes, State.setPc, List.length_append, List.length_singleton]
    omega
  · rename_i elem rest hrole hlist
    refine ⟨?_,hwork _ rfl⟩
    rw [hlist, List.length_cons] at hdrawn
    simp only [State.changes, State.setPc, hlist, List.length_cons]
    omega
  · rename_i hrole hlist
    have hready := hinv.ready t ht
    rw [Setup.blocked, hrole, hlist] at hready
    cases hready

/-- A turn of a thread with something to do brings a change nearer, or is one. -/
theorem turn_work (rand : ℕ → T) (hinv : Inv p s) (h : s.Enabled t) :
    ((p.turn rand t s).changes = s.changes ∧ (p.turn rand t s).work < s.work) ∨
      ((p.turn rand t s).changes = s.changes+1 ∧
        (p.turn rand t s).work = s.work+(3*n+4)) := by
  have hdown (s' : State n T) (pc : Pc) (hs' : s'.pcs = s.pcs) (hc : s'.changes = s.changes)
      (hpc : pc.weight n < (s.pcs t).weight n) :
      (s'.setPc t pc).changes = s.changes ∧ (s'.setPc t pc).work < s.work := by
    have hwork := work_setPc s' t pc
    have hsame : s'.work = s.work := by rw [State.work, State.work, hs']
    rw [hsame, hs'] at hwork
    exact ⟨hc,by omega⟩
  unfold Setup.turn
  split
  · rename_i ht
    simp only [State.Enabled, ht] at h
    exact Or.inl (lock_work (by rw [ht]; rfl) h)
  · rename_i ht
    split
    · exact Or.inl (hdown _ _ rfl rfl (by simp [ht, Pc.weight]))
    · exact Or.inl (hdown _ _ rfl rfl (by simp [ht, Pc.weight]))
  · rename_i ht
    simp [State.Enabled, ht] at h
  · rename_i ht
    simp only [State.Enabled, ht] at h
    exact Or.inl (lock_work (by rw [ht]; rfl) h)
  · rename_i ht
    exact Or.inr (change_work hinv ht)
  · rename_i ht
    exact Or.inl ⟨rfl,work_notifyAll ht⟩
  · rename_i ht
    exact Or.inl (hdown _ _ rfl rfl (by simp [ht, Pc.weight]))
  · rename_i ht
    simp [State.Enabled, ht] at h

theorem enabled_of_holds (h : (s.pcs t).holds = true) : s.Enabled t := by
  unfold State.Enabled
  split <;> simp_all [Pc.holds]

theorem Inv.exists_enabled (h : Inv p s) (hcap : 0 < p.cap)
    (hproducer : ∃ t, p.role t = .producer) (hconsumer : ∃ t, p.role t = .consumer) :
    ∃ t, s.Enabled t := by
  by_contra hnone
  have hidle (u : Fin n) : (s.pcs u).holds ≠ true := fun hu => hnone ⟨u,enabled_of_holds hu⟩
  have hfree : s.holder = none := by
    cases hholder : s.holder with
    | none => rfl
    | some u => exact absurd ((h.lock u).mpr hholder) (hidle u)
  have hwaiting (u : Fin n) : s.pcs u = .waiting := by
    have hu : ¬s.Enabled u := fun hu => hnone ⟨u,hu⟩
    have hholds := hidle u
    have hsound := h.sound u
    cases hpc : s.pcs u <;> simp_all [State.Enabled, Pc.holds]
  have hblocked (u : Fin n) : p.blocked u s.numList = true := by
    rcases h.waits u (hwaiting u) with hb | ⟨v,hv,-⟩
    · exact hb
    · rw [hwaiting v] at hv
      cases hv
  obtain ⟨a,ha⟩ := hproducer
  obtain ⟨b,hb⟩ := hconsumer
  have hfull := hblocked a
  have hempty := hblocked b
  simp only [Setup.blocked, ha, hb, beq_iff_eq, List.isEmpty_iff] at hfull hempty
  rw [hempty, List.length_nil] at hfull
  omega

/-- Under every fair schedule there are as many changes as one likes. -/
theorem Inv.changes_grow (h : Inv p s) (rand : ℕ → T) (hcap : 0 < p.cap)
    (hproducer : ∃ t, p.role t = .producer) (hconsumer : ∃ t, p.role t = .consumer)
    {schedule : ℕ → Fin n} (hfair : Fair (fun _ => True) schedule) (k : ℕ) :
    ∃ m, k ≤ (after (p.turn rand) schedule s m).changes := by
  have hturn (t : Fin n) (s : State n T) (hs : Inv p s) (hdone : ¬k ≤ s.changes)
      (ht : s.Enabled t) : (k-(p.turn rand t s).changes)*(3*n+5)+(p.turn rand t s).work <
        (k-s.changes)*(3*n+5)+s.work := by
    rcases turn_work rand hs ht with ⟨hchanges,hwork⟩ | ⟨hchanges,hwork⟩
    · rw [hchanges]
      omega
    · obtain ⟨d,hd⟩ : ∃ d, k-s.changes = d+1 := ⟨k-s.changes-1,by omega⟩
      rw [hchanges, hwork, hd, show k-(s.changes+1) = d by omega, Nat.add_mul]
      omega
  refine helpful_reaches (p.turn rand) (fun _ => True) (Inv p) (fun s => k ≤ s.changes)
    (fun s => (k-s.changes)*(3*n+5)+s.work) (fun t s => s.Enabled t) (fun t s hs => hs.turn t)
    ?_ ?_ ?_ _ s h rfl schedule hfair
  · intro t s hs hdone
    by_cases ht : s.Enabled t
    · exact Or.inr (Or.inl (hturn t s hs hdone ht))
    · rw [turn_skip ht]
      exact Or.inr (Or.inr ⟨rfl,fun _ => id⟩)
  · exact fun t s hs hdone ht => Or.inr (hturn t s hs hdone ht)
  · intro s hs _
    obtain ⟨t,ht⟩ := hs.exists_enabled hcap hproducer hconsumer
    exact ⟨t,trivial,ht⟩

end Progress

/-- With a producer, a consumer and room for one element, after any schedule and under every fair
one from there on, any number of elements comes out. -/
theorem buffer_flows {n : ℕ} {T : Type} (p : Setup n) (rand : ℕ → T) (as : List (Action n))
    (hcap : 0 < p.cap) (hproducer : ∃ t, p.role t = .producer)
    (hconsumer : ∃ t, p.role t = .consumer) (schedule : ℕ → Fin n)
    (hfair : Fair (fun _ => True) schedule) (k : ℕ) : ∃ m,
      k ≤ (gathered (p.turn rand) p.removes ((List.range m).map schedule)
        (run (p.step rand) as (start n T))).length := by
  have hinv := run_inv (p := p) rand as
  generalize run (p.step rand) as (start n T) = s at hinv ⊢
  obtain ⟨m,hm⟩ := hinv.changes_grow rand hcap hproducer hconsumer hfair (2*(k+s.draws+p.cap))
  refine ⟨m,?_⟩
  rw [after_eq_run] at hm
  have hlater := run_keeps (p.turn rand) (Inv p) (fun t _ h => h.turn t)
    ((List.range m).map schedule) s hinv
  have hflow := congrArg List.length (run_conserves (p.turn rand) (fun _ => True) State.numList
    (p.adds rand) p.removes (fun _ _ _ => trivial) (fun t s _ => turn_flow rand t s)
    ((List.range m).map schedule) s trivial)
  have hdraws := run_counts (p.turn rand) (p.adds rand) State.draws (turn_draws rand)
    ((List.range m).map schedule) s
  have hbound := hlater.bound
  rw [State.changes] at hm
  rw [List.length_append, List.length_append] at hflow
  omega

def sixTasks (t : Fin 6) : Role := if t.val < 3 then .producer else .consumer

def testWaitNotifyAll : Setup 6 := ⟨2,sixTasks,true⟩

def testAwaitSignalAll : Setup 6 := ⟨2,sixTasks,false⟩

theorem buffer_flows_awaitSignalAll : ∃ m, 5 ≤ (gathered (testAwaitSignalAll.turn id)
    testAwaitSignalAll.removes ((List.range m).map (rounds ⟨0,by decide⟩ (List.finRange 6)))
      (run (testAwaitSignalAll.step id) [.turn ⟨3,by decide⟩] (start 6 ℕ))).length :=
  buffer_flows testAwaitSignalAll id [.turn ⟨3,by decide⟩] (by decide) ⟨⟨0,by decide⟩,rfl⟩
    ⟨⟨3,by decide⟩,rfl⟩ _ (rounds_fair _ (fun t _ => List.mem_finRange t)) 5

end Gopher.BoundedBuffer
