import Mathlib.Data.List.Nodup
import Mathlib.Tactic

/-!
# Tables under a generated key

Rows stand in the order of their keys, a new row gets the next key and no
key is used twice. A column is a partial function of the row, so that rows
without a value take no part in its uniqueness.
-/

set_option autoImplicit false

namespace Gopher.KeyedTable

variable {α β : Type*}

structure Table (key : α → ℕ) where
  rows : List α
  next : ℕ
  sorted : rows.Pairwise (fun a b => key a < key b)
  used : ∀ a ∈ rows, 0 < key a ∧ key a < next
  start : 0 < next

variable {key : α → ℕ}

namespace Table

def empty (key : α → ℕ) : Table key where
  rows := []
  next := 1
  sorted := .nil
  used := nofun
  start := Nat.one_pos

def create (t : Table key) (make : ℕ → α) (hmake : ∀ n, key (make n) = n) : Table key where
  rows := t.rows++[make t.next]
  next := t.next+1
  sorted := by
    refine List.pairwise_append.mpr ⟨t.sorted,List.pairwise_singleton _ _,?_⟩
    intro a ha b hb
    rw [List.mem_singleton.mp hb, hmake]
    exact (t.used a ha).2
  used := by
    intro a ha
    rcases List.mem_append.mp ha with ha | ha
    · have := t.used a ha
      omega
    · have := t.start
      rw [List.mem_singleton.mp ha, hmake]
      omega
  start := Nat.succ_pos _

def put (key : α → ℕ) (k : ℕ) (f : α → α) (a : α) : α := if key a = k then f a else a

theorem key_put (k : ℕ) (f : α → α) (hf : ∀ a, key a = k → key (f a) = k) (a : α) :
    key (put key k f a) = key a := by
  unfold put
  split_ifs with h
  · rw [hf a h, h]
  · rfl

def modify (t : Table key) (k : ℕ) (f : α → α) (hf : ∀ a, key a = k → key (f a) = k) :
    Table key where
  rows := t.rows.map (put key k f)
  next := t.next
  sorted := by
    rw [List.pairwise_map]
    exact t.sorted.imp (fun h => by rwa [key_put k f hf, key_put k f hf])
  used := by
    intro b hb
    obtain ⟨a,ha,rfl⟩ := List.mem_map.mp hb
    rw [key_put k f hf]
    exact t.used a ha
  start := t.start

def remove (t : Table key) (k : ℕ) : Table key where
  rows := t.rows.filter (fun a => key a ≠ k)
  next := t.next
  sorted := t.sorted.filter _
  used a ha := t.used a (List.mem_of_mem_filter ha)
  start := t.start

theorem rows_nodup (t : Table key) : t.rows.Nodup :=
  t.sorted.imp (fun h he => absurd (congrArg key he) h.ne)

theorem key_inj (t : Table key) {a b : α} (ha : a ∈ t.rows) (hb : b ∈ t.rows)
    (h : key a = key b) : a = b := by
  have hnd : (t.rows.map key).Nodup := List.pairwise_map.mpr (t.sorted.imp ne_of_lt)
  exact List.inj_on_of_nodup_map hnd ha hb h

def UniqueBy (t : Table key) (column : α → Option β) : Prop :=
  ∀ a ∈ t.rows, ∀ b ∈ t.rows, column a ≠ none → column a = column b → a = b

theorem unique_create (t : Table key) (column : α → Option β) (make : ℕ → α)
    (hmake : ∀ n, key (make n) = n) (h : t.UniqueBy column) :
    (t.create make hmake).UniqueBy column ↔
      ∀ a ∈ t.rows, column a ≠ none → column a ≠ column (make t.next) := by
  have hfresh : ∀ a ∈ t.rows, a ≠ make t.next := by
    rintro a ha rfl
    have := (t.used _ ha).2
    rw [hmake] at this
    omega
  constructor
  · intro hu a ha hn he
    exact hfresh a ha (hu a (by simp [create, ha]) _ (by simp [create]) hn he)
  · intro hg a ha b hb hn he
    simp only [create, List.mem_append, List.mem_singleton] at ha hb
    rcases ha with ha | rfl <;> rcases hb with hb | rfl
    · exact h a ha b hb hn he
    · exact absurd he (hg a ha hn)
    · exact absurd he.symm (hg b hb (he ▸ hn))
    · rfl

/-- Changing one row keeps a column free of repetitions exactly when the new
value is not the value of another row. -/
theorem unique_modify (t : Table key) (column : α → Option β) (k : ℕ) (f : α → α)
    (hf : ∀ a, key a = k → key (f a) = k) (h : t.UniqueBy column) :
    (t.modify k f hf).UniqueBy column ↔
      ∀ b ∈ t.rows, key b = k → column (f b) ≠ none →
        ∀ a ∈ t.rows, key a ≠ k → column a ≠ column (f b) := by
  constructor
  · intro hu b hb hk hn a ha hne he
    have hpa : put key k f a = a := if_neg hne
    have hpb : put key k f b = f b := if_pos hk
    have heq := hu (f b) (List.mem_map.mpr ⟨b,hb,hpb⟩) a (List.mem_map.mpr ⟨a,ha,hpa⟩) hn he.symm
    exact hne (heq ▸ hf b hk)
  · intro hg a' ha' b' hb' hn he
    obtain ⟨a,ha,rfl⟩ := List.mem_map.mp ha'
    obtain ⟨b,hb,rfl⟩ := List.mem_map.mp hb'
    by_cases hka : key a = k <;> by_cases hkb : key b = k
    · rw [t.key_inj ha hb (hka.trans hkb.symm)]
    · rw [put, if_pos hka, put, if_neg hkb] at he
      rw [put, if_pos hka] at hn
      exact absurd he.symm (hg a ha hka hn b hb hkb)
    · rw [put, if_neg hka, put, if_pos hkb] at he
      rw [put, if_neg hka] at hn
      exact absurd he (hg b hb hkb (he ▸ hn) a ha hka)
    · rw [put, if_neg hka, put, if_neg hkb] at he
      rw [put, if_neg hka] at hn
      rw [put, if_neg hka, put, if_neg hkb]
      exact h a ha b hb hn he

end Table

end Gopher.KeyedTable
