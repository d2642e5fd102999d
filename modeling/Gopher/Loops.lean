import Mathlib.Tactic

/-!
# Loops without a bound of their own

A body returns the next state or the result of the loop. Fuel cuts the loop
off; an invariant under which a measure decreases shows that every amount of
fuel above the measure gives a result.
-/

set_option autoImplicit false

namespace Gopher.Loops

variable {σ ρ : Type*}

def loop (body : σ → σ ⊕ ρ) : ℕ → σ → Option ρ
  | 0, _ => none
  | fuel+1, s =>
    match body s with
    | .inl s' => loop body fuel s'
    | .inr r => some r

/-- What the body does from a state of the invariant: it goes on with a smaller measure,
or it ends as promised. -/
def Advances (inv : σ → Prop) (measure : σ → ℕ) (post : ρ → Prop) (s : σ) : σ ⊕ ρ → Prop
  | .inl s' => inv s' ∧ measure s' < measure s
  | .inr r => post r

theorem loop_total (body : σ → σ ⊕ ρ) (inv : σ → Prop) (measure : σ → ℕ) (post : ρ → Prop)
    (hbody : ∀ s, inv s → Advances inv measure post s (body s)) (fuel : ℕ) :
    ∀ s, inv s → measure s < fuel → ∃ r, loop body fuel s = some r ∧ post r := by
  induction fuel with
  | zero =>
    intro s _ hs
    exact absurd hs (Nat.not_lt_zero _)
  | succ fuel ih =>
    intro s hs hfuel
    have h := hbody s hs
    rw [loop]
    cases hb : body s with
    | inl s' =>
      rw [hb] at h
      exact ih s' h.1 (by have := h.2; omega)
    | inr r =>
      rw [hb] at h
      exact ⟨r,rfl,h⟩

def AdvancesFrom (inv : ℕ → σ → Prop) (post : ρ → Prop) (m : ℕ) : σ ⊕ ρ → Prop
  | .inl s' => ∃ k < m, inv k s'
  | .inr r => post r

theorem loop_total_from (body : σ → σ ⊕ ρ) (inv : ℕ → σ → Prop) (post : ρ → Prop)
    (hbody : ∀ m s, inv m s → AdvancesFrom inv post m (body s)) (fuel : ℕ) :
    ∀ m s, inv m s → m < fuel → ∃ r, loop body fuel s = some r ∧ post r := by
  induction fuel with
  | zero =>
    intro m s _ hm
    exact absurd hm (Nat.not_lt_zero _)
  | succ fuel ih =>
    intro m s hs hfuel
    have h := hbody m s hs
    rw [loop]
    cases hb : body s with
    | inl s' =>
      rw [hb] at h
      obtain ⟨k,hk,hs'⟩ := h
      exact ih k s' hs' (by omega)
    | inr r =>
      rw [hb] at h
      exact ⟨r,rfl,h⟩

end Gopher.Loops
