import Gopher.StepRuns

/-!
# Fair schedules

An infinite schedule of a step function in which certain actions come up again
and again. No step leaves more to do, and before the end one of these actions
leaves less whenever it is taken and stays such an action until then; so the end
is reached.
-/

set_option autoImplicit false

namespace Gopher.FairRuns
open Gopher.StepRuns

variable {σ α : Type*}

def after (step : α → σ → σ) (schedule : ℕ → α) (s : σ) : ℕ → σ
  | 0 => s
  | n+1 => step (schedule n) (after step schedule s n)

theorem after_eq_run (step : α → σ → σ) (schedule : ℕ → α) (s : σ) (n : ℕ) :
    after step schedule s n = run step ((List.range n).map schedule) s := by
  induction n with
  | zero => rfl
  | succ n ih => rw [after, ih, List.range_succ, List.map_append, run_append]; rfl

def Fair (must : α → Prop) (schedule : ℕ → α) : Prop :=
  ∀ a, must a → ∀ n, ∃ k, n ≤ k ∧ schedule k = a

theorem Fair.shift {must : α → Prop} {schedule : ℕ → α} (h : Fair must schedule) (m : ℕ) :
    Fair must (fun n => schedule (n+m)) := by
  intro a ha n
  obtain ⟨k,hk,hka⟩ := h a ha (n+m)
  refine ⟨k-m,by omega,?_⟩
  simp only [Nat.sub_add_cancel ((Nat.le_add_left m n).trans hk)]
  exact hka

def rounds (d : α) (l : List α) (n : ℕ) : α := l[n%l.length]?.getD d

theorem rounds_fair (d : α) {l : List α} {must : α → Prop} (h : ∀ a, must a → a ∈ l) :
    Fair must (rounds d l) := by
  intro a ha n
  obtain ⟨k,hk⟩ := List.getElem?_of_mem (h a ha)
  have hlt := (List.getElem?_eq_some_iff.mp hk).1
  refine ⟨l.length*n+k,?_,?_⟩
  · calc n ≤ l.length*n := Nat.le_mul_of_pos_left n (Nat.zero_lt_of_lt hlt)
      _ ≤ l.length*n+k := Nat.le_add_right _ _
  · rw [rounds, Nat.mul_add_mod, Nat.mod_eq_of_lt hlt, hk, Option.getD_some]

theorem after_shift (step : α → σ → σ) (schedule : ℕ → α) (s : σ) (m n : ℕ) :
    after step (fun k => schedule (k+m)) (after step schedule s m) n =
      after step schedule s (n+m) := by
  induction n with
  | zero => rw [Nat.zero_add]; rfl
  | succ n ih => rw [after, ih, Nat.succ_add]; rfl

section Helpful

variable (step : α → σ → σ) (must : α → Prop) (inv done : σ → Prop) (rank : σ → ℕ)
  (helpful : α → σ → Prop)
  (hinv : ∀ a s, inv s → inv (step a s))
  (hstep : ∀ a s, inv s → ¬done s → done (step a s) ∨ rank (step a s) < rank s ∨
    (rank (step a s) = rank s ∧ ∀ b, helpful b s → helpful b (step a s)))
  (hhelp : ∀ a s, inv s → ¬done s → helpful a s →
    done (step a s) ∨ rank (step a s) < rank s)
  (hlive : ∀ s, inv s → ¬done s → ∃ a, must a ∧ helpful a s)

include hinv hstep hhelp

/-- A helpful action stays helpful until it is taken, unless there is less to do by then. -/
theorem helpful_descends {a : α} (t : ℕ) : ∀ s, inv s → ¬done s → helpful a s →
    ∀ schedule, schedule t = a →
      ∃ n, inv (after step schedule s n) ∧
        (done (after step schedule s n) ∨ rank (after step schedule s n) < rank s) := by
  induction t with
  | zero =>
    rintro s hs hdone ha schedule rfl
    exact ⟨1,hinv _ _ hs,hhelp _ s hs hdone ha⟩
  | succ t ih =>
    intro s hs hdone ha schedule hsch
    rcases hstep (schedule 0) s hs hdone with h | h | ⟨heq,hkeep⟩
    · exact ⟨1,hinv _ _ hs,Or.inl h⟩
    · exact ⟨1,hinv _ _ hs,Or.inr h⟩
    · by_cases hd : done (step (schedule 0) s)
      · exact ⟨1,hinv _ _ hs,Or.inl hd⟩
      · obtain ⟨n,hn⟩ := ih _ (hinv (schedule 0) s hs) hd (hkeep a ha)
          (fun k => schedule (k+1)) hsch
        have hshift := after_shift step schedule s 1 n
        rw [show after step schedule s 1 = step (schedule 0) s from rfl] at hshift
        rw [hshift, heq] at hn
        exact ⟨n+1,hn⟩

include hlive

/-- Every step keeps the rank or lowers it, and before the end some action that must come up
lowers it whenever it comes. -/
theorem helpful_reaches (m : ℕ) : ∀ s, inv s → rank s = m → ∀ schedule, Fair must schedule →
    ∃ n, done (after step schedule s n) := by
  induction m using Nat.strong_induction_on with
  | _ m ih =>
    rintro s hs rfl schedule hfair
    by_cases hdone : done s
    · exact ⟨0,hdone⟩
    · obtain ⟨a,hmust,ha⟩ := hlive s hs hdone
      obtain ⟨t,-,ht⟩ := hfair a hmust 0
      obtain ⟨n,hn,hd | hlt⟩ :=
        helpful_descends step inv done rank helpful hinv hstep hhelp t s hs hdone ha schedule ht
      · exact ⟨n,hd⟩
      · obtain ⟨k,hk⟩ := ih _ hlt _ hn rfl _ (hfair.shift n)
        rw [after_shift] at hk
        exact ⟨k+n,hk⟩

end Helpful

/-- Every step that is enabled leaves less to do, and the others do nothing. The invariant
carries a bound on the steps that are left. -/
theorem fair_reaches (step : α → σ → σ) (enabled : α → σ → Prop) (must : α → Prop)
    (inv : ℕ → σ → Prop) (done : σ → Prop)
    (hstep : ∀ m s a, inv m s → enabled a s → ∃ k < m, inv k (step a s))
    (hskip : ∀ m s a, inv m s → ¬enabled a s → step a s = s)
    (hlive : ∀ m s, inv m s → ¬done s → ∃ a, must a ∧ enabled a s)
    (m : ℕ) : ∀ s, inv m s → ∀ schedule, Fair must schedule →
      ∃ n, done (after step schedule s n) := by
  classical
  intro s hs schedule hfair
  have hrank : ∀ s, (∃ m, inv m s) → inv (sInf {m | inv m s}) s := fun s h => Nat.sInf_mem h
  have hdown : ∀ a s, (∃ m, inv m s) → enabled a s →
      (∃ m, inv m (step a s)) ∧ sInf {m | inv m (step a s)} < sInf {m | inv m s} := by
    intro a s h ha
    obtain ⟨k,hk,hinv⟩ := hstep _ s a (hrank s h) ha
    exact ⟨⟨k,hinv⟩,(Nat.sInf_le hinv).trans_lt hk⟩
  refine helpful_reaches step must (fun s => ∃ m, inv m s) done (fun s => sInf {m | inv m s})
    enabled ?_ ?_ ?_ ?_ _ s ⟨m,hs⟩ rfl schedule hfair
  · intro a s h
    by_cases ha : enabled a s
    · exact (hdown a s h ha).1
    · rw [hskip _ s a (hrank s h) ha]
      exact h
  · intro a s h _
    by_cases ha : enabled a s
    · exact Or.inr (Or.inl (hdown a s h ha).2)
    · rw [hskip _ s a (hrank s h) ha]
      exact Or.inr (Or.inr ⟨rfl,fun _ => id⟩)
  · intro a s h _ ha
    exact Or.inr (hdown a s h ha).2
  · rintro s ⟨k,hk⟩ hd
    exact hlive k s hk hd

end Gopher.FairRuns
