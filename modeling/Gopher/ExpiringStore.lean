import Mathlib.Logic.Function.Basic
import Mathlib.Tactic

/-!
# A key-value store whose entries expire

Every operation is atomic and touches one key. An entry without a remaining
time never expires. Time passes for each key on its own, so an entry can
lapse at any moment, or only grow older.
-/

set_option autoImplicit false

namespace Gopher.ExpiringStore

variable {K V : Type*} [DecidableEq K]

structure Entry (V : Type*) where
  value : V
  left : Option ℕ
  deriving DecidableEq, Repr

abbrev Store (K V : Type*) : Type _ := K → Option (Entry V)

namespace Store

def alter (s : Store K V) (k : K) (f : Option (Entry V) → Option (Entry V)) : Store K V :=
  Function.update s k (f (s k))

def within (seconds : ℕ) : Option ℕ := if seconds = 0 then none else some seconds

def set (s : Store K V) (k : K) (v : V) (seconds : ℕ) : Store K V :=
  s.alter k (fun _ => some { value := v, left := within seconds })

def ttl (s : Store K V) (k : K) : ℤ :=
  match s k with
  | none => -2
  | some { left := none, .. } => -1
  | some { left := some n, .. } => n

def expire (s : Store K V) (k : K) (seconds : ℕ) : Store K V :=
  s.alter k (fun e => if seconds = 0 then none else e.map (fun e => { e with left := some seconds }))

/-- Time passes for the entry of one key: it is gone, or has that many
seconds left, not more than before. -/
def lapse (s : Store K V) (k : K) (left : Option ℕ) : Store K V :=
  s.alter k fun
    | some { value := v, left := some n } =>
      match left with
      | none => none
      | some m => some { value := v, left := some (min m n) }
    | e => e

theorem alter_other (s : Store K V) {k j : K} (f : Option (Entry V) → Option (Entry V))
    (h : j ≠ k) : s.alter k f j = s j := Function.update_of_ne h ..

theorem set_same (s : Store K V) (k : K) (v : V) (seconds : ℕ) :
    s.set k v seconds k = some { value := v, left := within seconds } :=
  Function.update_self ..

theorem set_eq_self {s : Store K V} {k : K} {v : V} {seconds : ℕ}
    (h : s k = some { value := v, left := within seconds }) : s.set k v seconds = s := by
  rw [set, alter, ← h]
  exact Function.update_eq_self k s

theorem expire_value (s : Store K V) (k : K) (seconds : ℕ) {j : K} {e : Entry V}
    (h : s.expire k seconds j = some e) : ∃ d, s j = some d ∧ d.value = e.value := by
  by_cases hj : j = k
  · subst hj
    rw [expire, alter, Function.update_self] at h
    split_ifs at h
    obtain ⟨d,hd,rfl⟩ := Option.map_eq_some_iff.mp h
    exact ⟨d,hd,rfl⟩
  · rw [expire, alter_other s _ hj] at h
    exact ⟨e,h,rfl⟩

theorem lapse_value (s : Store K V) (k : K) (left : Option ℕ) {j : K} {e : Entry V}
    (h : s.lapse k left j = some e) : ∃ d, s j = some d ∧ d.value = e.value := by
  by_cases hj : j = k
  · subst hj
    rw [lapse, alter, Function.update_self] at h
    split at h
    · next v n hs =>
      cases left with
      | none => cases h
      | some m =>
        cases h
        exact ⟨_,hs,rfl⟩
    · exact ⟨e,h,rfl⟩
  · rw [lapse, alter_other s _ hj] at h
    exact ⟨e,h,rfl⟩

def AgreeOn (visible : K → Prop) (s t : Store K V) : Prop := ∀ k, visible k → s k = t k

theorem AgreeOn.alter {visible : K → Prop} {s t : Store K V} (h : AgreeOn visible s t) (k : K)
    (f : Option (Entry V) → Option (Entry V)) : AgreeOn visible (s.alter k f) (t.alter k f) := by
  intro j hj
  by_cases he : j = k
  · subst he
    simp only [Store.alter, Function.update_self, h j hj]
  · rw [alter_other s f he, alter_other t f he, h j hj]

theorem AgreeOn.alter_left {visible : K → Prop} {s t : Store K V} (h : AgreeOn visible s t) {k : K}
    (hk : ¬visible k) (f : Option (Entry V) → Option (Entry V)) :
    AgreeOn visible (s.alter k f) t := by
  intro j hj
  have he : j ≠ k := fun he => hk (he ▸ hj)
  rw [alter_other s f he, h j hj]

omit [DecidableEq K] in
theorem AgreeOn.symm {visible : K → Prop} {s t : Store K V} (h : AgreeOn visible s t) :
    AgreeOn visible t s := fun k hk => (h k hk).symm

end Store

end Gopher.ExpiringStore
