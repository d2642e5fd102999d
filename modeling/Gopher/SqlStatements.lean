import Gopher.KeyedTable

/-!
# Statements under a nullable key

The condition `id = ?` selects the row under the key, and no row when the
argument is null or negative. The database can answer any statement with an
error, which is its text, and refuses a null in a required column.
-/

set_option autoImplicit false

namespace Gopher.SqlStatements
open Gopher.KeyedTable

variable {α β : Type} {key : α → ℕ}

def answered (fault : Option String) : Except String Unit :=
  match fault with
  | some err => .error err
  | none => .ok ()

def required (name : String) (v : Option β) : Except String β :=
  match v with
  | some x => .ok x
  | none => .error ("Column '" ++ name ++ "' cannot be null")

def keyOf (id : Option ℤ) : Option ℕ := id.bind Int.toNat?

def countRows (k : ℕ) (t : Table key) : ℕ := t.rows.countP (fun row => key row = k)

def updateById (fault : Option String) (id : Option ℤ) (f : α → α)
    (hf : ∀ a, key (f a) = key a) (t : Table key) : Except String (ℕ × Table key) := do
  answered fault
  match keyOf id with
  | none => return (0,t)
  | some k => return (countRows k t,t.modify k f (fun a h => (hf a).trans h))

def deleteById (fault : Option String) (id : Option ℤ) (t : Table key) :
    Except String (ℕ × Table key) := do
  answered fault
  match keyOf id with
  | none => return (0,t)
  | some k => return (countRows k t,t.remove k)

def selectById (fault : Option String) (id : Option ℤ) (t : Table key) :
    Except String (Option α) := do
  answered fault
  match keyOf id with
  | none => return none
  | some k => return t.rows.find? (fun row => key row = k)

theorem bind_ok {ε γ : Type} {x : Except ε β} {f : β → Except ε γ} {c : γ}
    (h : (x >>= f) = .ok c) : ∃ b, x = .ok b ∧ f b = .ok c := by
  cases x with
  | error e => cases h
  | ok b => exact ⟨b,rfl,h⟩

theorem keyOf_eq_some {id : Option ℤ} {k : ℕ} : keyOf id = some k ↔ id = some (k : ℤ) := by
  cases id with
  | none => simp [keyOf]
  | some n =>
    cases n with
    | ofNat m => simp [keyOf, Int.toNat?]
    | negSucc m => simp [keyOf, Int.toNat?]

/-! ## Statements that the database accepts -/

theorem updateById_unkeyed {id : Option ℤ} (hk : keyOf id = none) (f : α → α)
    (hf : ∀ a, key (f a) = key a) (t : Table key) : updateById none id f hf t = .ok (0,t) := by
  unfold updateById
  rw [hk]
  rfl

theorem updateById_keyed {id : Option ℤ} {k : ℕ} (hk : keyOf id = some k) (f : α → α)
    (hf : ∀ a, key (f a) = key a) (t : Table key) :
    updateById none id f hf t =
      .ok (countRows k t,t.modify k f (fun a h => (hf a).trans h)) := by
  unfold updateById
  rw [hk]
  rfl

theorem deleteById_unkeyed {id : Option ℤ} (hk : keyOf id = none) (t : Table key) :
    deleteById none id t = .ok (0,t) := by
  unfold deleteById
  rw [hk]
  rfl

theorem deleteById_keyed {id : Option ℤ} {k : ℕ} (hk : keyOf id = some k) (t : Table key) :
    deleteById none id t = .ok (countRows k t,t.remove k) := by
  unfold deleteById
  rw [hk]
  rfl

theorem updateById_ok {fault : Option String} {id : Option ℤ} {f : α → α}
    {hf : ∀ a, key (f a) = key a} {t u : Table key} {n : ℕ}
    (h : updateById fault id f hf t = .ok (n,u)) :
    fault = none ∧
      u.rows = t.rows.map (fun row => if id = some (key row : ℤ) then f row else row) := by
  cases fault with
  | some err => cases h
  | none =>
    refine ⟨rfl,?_⟩
    cases hk : keyOf id with
    | none =>
      have hrow : ∀ row : α, ¬id = some (key row : ℤ) := by
        intro row he
        rw [keyOf_eq_some.mpr he] at hk
        cases hk
      rw [updateById_unkeyed hk] at h
      cases h
      simp [hrow]
    | some k =>
      have hid := keyOf_eq_some.mp hk
      rw [updateById_keyed hk] at h
      cases h
      apply List.map_congr_left
      intro row _
      simp [Table.put, hid, eq_comm]

theorem updateById_total (id : Option ℤ) (f : α → α) (hf : ∀ a, key (f a) = key a)
    (t : Table key) : ∃ res, updateById none id f hf t = .ok res := by
  cases hk : keyOf id with
  | none => exact ⟨_,updateById_unkeyed hk f hf t⟩
  | some k => exact ⟨_,updateById_keyed hk f hf t⟩

theorem selectById_ok {fault : Option String} {id : Option ℤ} {t : Table key} {row : α}
    (h : selectById fault id t = .ok (some row)) : id = some (key row : ℤ) := by
  obtain ⟨-,-,h⟩ := bind_ok h
  cases hk : keyOf id with
  | none =>
    rw [hk] at h
    cases h
  | some k =>
    rw [hk] at h
    have hrow := List.find?_some (Except.ok.inj h)
    rw [keyOf_eq_some.mp hk, of_decide_eq_true hrow]

end Gopher.SqlStatements
