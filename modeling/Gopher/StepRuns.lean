import Mathlib.Data.List.Basic
import Mathlib.Tactic

/-!
# Schedules of a step function

A system is a total step function; an action that is not enabled leaves the
state alone, so a finite list of actions is an arbitrary finite schedule.
Invariants, guarded invariants and the comparison of two schedules are
proved here once. No fairness and no bound on the schedule is assumed.
-/

set_option autoImplicit false

namespace Gopher.StepRuns

variable {σ τ α : Type*}

def run (step : α → σ → σ) : List α → σ → σ
  | [], s => s
  | a::as, s => run step as (step a s)

@[simp] theorem run_nil (step : α → σ → σ) (s : σ) : run step [] s = s := rfl

@[simp] theorem run_cons (step : α → σ → σ) (a : α) (as : List α) (s : σ) :
    run step (a::as) s = run step as (step a s) := rfl

theorem run_append (step : α → σ → σ) (as bs : List α) (s : σ) :
    run step (as++bs) s = run step bs (run step as s) := by
  induction as generalizing s with
  | nil => rfl
  | cons a as ih => exact ih _

def Along (step : α → σ → σ) (guard : α → σ → Prop) : List α → σ → Prop
  | [], _ => True
  | a::as, s => guard a s ∧ Along step guard as (step a s)

def Throughout (step : α → σ → σ) (good : σ → Prop) : List α → σ → Prop
  | [], s => good s
  | a::as, s => good s ∧ Throughout step good as (step a s)

instance decidableAlong (step : α → σ → σ) (guard : α → σ → Prop)
    [∀ a s, Decidable (guard a s)] : ∀ as s, Decidable (Along step guard as s)
  | [], _ => .isTrue trivial
  | a::as, s =>
    have := decidableAlong step guard as (step a s)
    inferInstanceAs (Decidable (guard a s ∧ Along step guard as (step a s)))

theorem along_of_forall (step : α → σ → σ) (guard : α → σ → Prop) (as : List α) (s : σ)
    (h : ∀ a ∈ as, ∀ t, guard a t) : Along step guard as s := by
  induction as generalizing s with
  | nil => trivial
  | cons a as ih =>
    exact ⟨h a (by simp) s,ih _ (fun b hb => h b (by simp [hb]))⟩

theorem run_keeps (step : α → σ → σ) (inv : σ → Prop)
    (hstep : ∀ a s, inv s → inv (step a s)) (as : List α) (s : σ) (hs : inv s) :
    inv (run step as s) := by
  induction as generalizing s with
  | nil => exact hs
  | cons a as ih => exact ih _ (hstep a s hs)

theorem run_keeps_along (step : α → σ → σ) (guard : α → σ → Prop) (inv : σ → Prop)
    (hstep : ∀ a s, inv s → guard a s → inv (step a s)) (as : List α) (s : σ)
    (hs : inv s) (hg : Along step guard as s) : inv (run step as s) := by
  induction as generalizing s with
  | nil => exact hs
  | cons a as ih => exact ih _ (hstep a s hs hg.1) hg.2

/-- When one step keeps the predicate exactly under the guard, a schedule
keeps it throughout exactly when the guard is met along it. The invariant
`inv` may rely on the predicate, but is not part of the conclusion. -/
theorem throughout_iff_along (step : α → σ → σ) (guard : α → σ → Prop) (inv good : σ → Prop)
    (hinv : ∀ a s, inv s → good s → inv (step a s))
    (hgood : ∀ a s, inv s → good s → (good (step a s) ↔ guard a s))
    (as : List α) (s : σ) (hi : inv s) (hs : good s) :
    Throughout step good as s ↔ Along step guard as s := by
  induction as generalizing s with
  | nil => exact iff_of_true hs trivial
  | cons a as ih =>
    have hn := hinv a s hi hs
    constructor
    · rintro ⟨-,ht⟩
      have hg : good (step a s) := by
        cases as with
        | nil => exact ht
        | cons b bs => exact ht.1
      exact ⟨(hgood a s hi hs).mp hg,(ih _ hn hg).mp ht⟩
    · rintro ⟨ha,hr⟩
      have hg := (hgood a s hi hs).mpr ha
      exact ⟨hs,(ih _ hn hg).mpr hr⟩

/-- A property that does not hold at first and holds in the end was brought
about by some action of the schedule. -/
theorem run_brings (step : α → σ → σ) (prop : σ → Prop) (event : α → σ → Prop)
    (hevent : ∀ a s, prop (step a s) → ¬prop s → event a s) (as : List α) (s : σ)
    (hs : ¬prop s) (h : prop (run step as s)) :
    ∃ bs a cs, as = bs++a::cs ∧ event a (run step bs s) := by
  induction as generalizing s with
  | nil => exact absurd h hs
  | cons a as ih =>
    by_cases hp : prop (step a s)
    · exact ⟨[],a,as,rfl,hevent a s hp hs⟩
    · obtain ⟨bs,b,cs,has,hb⟩ := ih _ hp h
      exact ⟨a::bs,b,cs,by rw [has]; rfl,hb⟩

/-- What is noted of each action of the schedule in the state in which it is taken. -/
def gathered {β : Type*} (step : α → σ → σ) (note : α → σ → List β) : List α → σ → List β
  | [], _ => []
  | a::as, s => note a s++gathered step note as (step a s)

theorem gathered_comp {β γ : Type*} (step : α → σ → σ) (note : α → σ → List β)
    (f : List β → List γ) (hnil : f [] = []) (happend : ∀ xs ys, f (xs++ys) = f xs++f ys)
    (as : List α) (s : σ) :
    gathered step (fun a t => f (note a t)) as s = f (gathered step note as s) := by
  induction as generalizing s with
  | nil => exact hnil.symm
  | cons a as ih => rw [gathered, gathered, happend, ih]

theorem gathered_all {β : Type*} (step : α → σ → σ) (inv : σ → Prop) (note : α → σ → List β)
    (prop : β → Prop) (hinv : ∀ a s, inv s → inv (step a s))
    (hnote : ∀ a s, inv s → ∀ x ∈ note a s, prop x) (as : List α) (s : σ) (hs : inv s) :
    ∀ x ∈ gathered step note as s, prop x := by
  induction as generalizing s with
  | nil =>
    intro x hx
    cases hx
  | cons a as ih =>
    intro x hx
    rcases List.mem_append.mp hx with hx | hx
    · exact hnote a s hs x hx
    · exact ih _ (hinv a s hs) x hx

/-- What was there and what came in is what went out and what is there now, in this order. -/
theorem run_conserves {β : Type*} (step : α → σ → σ) (inv : σ → Prop) (content : σ → List β)
    (came went : α → σ → List β) (hinv : ∀ a s, inv s → inv (step a s))
    (hstep : ∀ a s, inv s → content s++came a s = went a s++content (step a s))
    (as : List α) (s : σ) (hs : inv s) :
    content s++gathered step came as s =
      gathered step went as s++content (run step as s) := by
  induction as generalizing s with
  | nil => simp [gathered]
  | cons a as ih =>
    rw [gathered, gathered, ← List.append_assoc, hstep a s hs, List.append_assoc,
      ih _ (hinv a s hs), run_cons, List.append_assoc]

theorem run_counts {β : Type*} (step : α → σ → σ) (note : α → σ → List β) (total : σ → ℕ)
    (hstep : ∀ a s, total (step a s) = total s+(note a s).length) (as : List α) (s : σ) :
    total (run step as s) = total s+(gathered step note as s).length := by
  induction as generalizing s with
  | nil => rfl
  | cons a as ih => rw [run_cons, ih, hstep, gathered, List.length_append, Nat.add_assoc]

theorem run_records {β : Type*} (step : α → σ → σ) (guard : α → σ → Prop) (note : α → σ → List β)
    (inv : List β → σ → Prop)
    (hstep : ∀ noted a s, inv noted s → guard a s → inv (noted++note a s) (step a s))
    (as : List α) (noted : List β) (s : σ) (hs : inv noted s) (hg : Along step guard as s) :
    inv (noted++gathered step note as s) (run step as s) := by
  induction as generalizing noted s with
  | nil => simpa [gathered] using hs
  | cons a as ih =>
    rw [gathered, ← List.append_assoc]
    exact ih _ _ (hstep noted a s hs hg.1) hg.2

/-- Two schedules, one of which omits the hidden actions, stay related when
a hidden action is invisible to the relation and every other action keeps it. -/
theorem run_related (step : α → σ → σ) (rel : σ → σ → Prop) (hidden : α → Bool)
    (hhide : ∀ a s t, hidden a = true → rel s t → rel (step a s) t)
    (hshow : ∀ a s t, hidden a = false → rel s t → rel (step a s) (step a t))
    (as : List α) (s t : σ) (h : rel s t) :
    rel (run step as s) (run step (as.filter (fun a => !hidden a)) t) := by
  induction as generalizing s t with
  | nil => exact h
  | cons a as ih =>
    cases ha : hidden a with
    | true => simpa [ha] using ih _ _ (hhide a s t ha h)
    | false => simpa [ha] using ih _ _ (hshow a s t ha h)

end Gopher.StepRuns
