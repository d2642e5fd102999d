import Mathlib.Tactic

/-!
# Maximal runs

One pass over a list whose elements carry a position finds the longest
segments on which a predicate holds. A segment is given by the position of
its first element and the position behind its last.
-/

set_option autoImplicit false

namespace Gopher.MaximalRuns

variable {α π ρ : Type*}

def runs (p : α → Bool) (stop : π) : List (α × π) → Option π → List (π × π)
  | [], none => []
  | [], some start => [(start,stop)]
  | (a,pos)::l, none => if p a then runs p stop l (some pos) else runs p stop l none
  | (a,pos)::l, some start =>
    if p a then runs p stop l (some start) else (start,pos)::runs p stop l none

theorem runs_map (p : α → Bool) (f : π → ρ) (stop : π) (l : List (α × π)) (start : Option π) :
    runs p (f stop) (l.map (Prod.map id f)) (start.map f) =
      (runs p stop l start).map (Prod.map f f) := by
  induction l generalizing start with
  | nil => cases start <;> rfl
  | cons x l ih =>
    cases start with
    | none =>
      by_cases hp : p x.1
      · simpa [runs, hp] using ih (some x.2)
      · simpa [runs, hp] using ih none
    | some start =>
      by_cases hp : p x.1
      · simpa [runs, hp] using ih (some start)
      · simpa [runs, hp] using ih none

structure IsRun (p : α → Bool) (l : List α) (i j : ℕ) : Prop where
  nonempty : i < j
  inside : ∀ k, i ≤ k → k < j → ∃ a, l[k]? = some a ∧ p a
  left : ∀ k, k+1 = i → ∀ a, l[k]? = some a → ¬p a
  right : ∀ a, l[j]? = some a → ¬p a

variable {p : α → Bool} {l : List α}

theorem IsRun.eq {s e i j : ℕ} (h : IsRun p l s e) (h' : IsRun p l i j) (hs : s ≤ i)
    (he : i ≤ e) : i = s ∧ j = e := by
  have hlt : i ≠ e := by
    rintro rfl
    obtain ⟨a,ha,hp⟩ := h'.inside i le_rfl h'.nonempty
    exact h.right a ha hp
  have hi : i = s := by
    by_contra hne
    obtain ⟨a,ha,hp⟩ := h.inside (i-1) (by omega) (by omega)
    exact h'.left (i-1) (by omega) a ha hp
  refine ⟨hi,?_⟩
  rcases Nat.lt_trichotomy j e with hj | hj | hj
  · obtain ⟨a,ha,hp⟩ := h.inside j (by have := h'.nonempty; omega) hj
    exact absurd hp (h'.right a ha)
  · exact hj
  · obtain ⟨a,ha,hp⟩ := h'.inside e he hj
    exact absurd hp (h.right a ha)

def Before (p : α → Bool) (l : List α) (pos : ℕ) : Option ℕ → Prop
  | none => ∀ k, k+1 = pos → ∀ a, l[k]? = some a → ¬p a
  | some start =>
    start < pos ∧ (∀ k, start ≤ k → k < pos → ∃ a, l[k]? = some a ∧ p a) ∧
      ∀ k, k+1 = start → ∀ a, l[k]? = some a → ¬p a

theorem Before.isRun {pos start : ℕ} (h : Before p l pos (some start))
    (hright : ∀ a, l[pos]? = some a → ¬p a) : IsRun p l start pos :=
  ⟨h.1,h.2.1,h.2.2,hright⟩

theorem before_in {pos : ℕ} {a : α} (ha : l[pos]? = some a) (hp : p a) {start : Option ℕ}
    (h : Before p l pos start) : Before p l (pos+1) (some (start.getD pos)) := by
  cases start with
  | none =>
    refine ⟨Nat.lt_succ_self pos,fun k hk hk' => ?_,h⟩
    obtain rfl : k = pos := by simp only [Option.getD_none] at hk; omega
    exact ⟨a,ha,hp⟩
  | some start =>
    refine ⟨Nat.lt_succ_of_lt h.1,fun k hk hk' => ?_,h.2.2⟩
    rcases Nat.lt_succ_iff_lt_or_eq.mp hk' with hk' | rfl
    · exact h.2.1 k hk hk'
    · exact ⟨a,ha,hp⟩

theorem before_out {pos : ℕ} {a : α} (ha : l[pos]? = some a) (hp : ¬p a) :
    Before p l (pos+1) none := by
  intro k hk b hb
  obtain rfl : k = pos := by omega
  rw [ha] at hb
  cases hb
  exact hp

theorem drop_cons {pos : ℕ} {a : α} {rest : List α} (h : l.drop pos = a::rest) :
    l[pos]? = some a ∧ l.drop (pos+1) = rest := by
  constructor
  · rw [← List.head?_drop, h, List.head?_cons]
  · rw [← List.drop_drop, h, List.drop_succ_cons, List.drop_zero]

theorem IsRun.lt_length {i j : ℕ} (h : IsRun p l i j) : i < l.length := by
  obtain ⟨a,ha,-⟩ := h.inside i le_rfl h.nonempty
  exact (List.getElem?_eq_some_iff.mp ha).1

theorem mem_runs_end {pos : ℕ} (hlen : l.length ≤ pos) {start : Option ℕ}
    (h : Before p l pos start) (i j : ℕ) :
    (i,j) ∈ runs p l.length [] start ↔ IsRun p l i j ∧ start.getD pos ≤ i := by
  cases start with
  | none =>
    simp only [runs, List.not_mem_nil, false_iff, Option.getD_none]
    rintro ⟨hr,hi⟩
    have := hr.lt_length
    omega
  | some start =>
    obtain ⟨a,ha,-⟩ := h.2.1 (pos-1) (by have := h.1; omega) (by have := h.1; omega)
    obtain rfl : l.length = pos := by
      have := (List.getElem?_eq_some_iff.mp ha).1
      omega
    have hrun : IsRun p l start l.length :=
      h.isRun (by rw [List.getElem?_eq_none le_rfl]; nofun)
    simp only [runs, List.mem_singleton, Prod.mk.injEq, Option.getD_some]
    constructor
    · rintro ⟨rfl,rfl⟩
      exact ⟨hrun,le_rfl⟩
    · rintro ⟨hr,hi⟩
      exact hrun.eq hr hi hr.lt_length.le

/-- Behind an element outside, the runs are the one that ended there and the later ones. -/
theorem isRun_out_iff {pos start i j : ℕ} {a : α} (ha : l[pos]? = some a) (hp : ¬p a)
    (h : Before p l pos (some start)) :
    (i = start ∧ j = pos ∨ IsRun p l i j ∧ pos+1 ≤ i) ↔ IsRun p l i j ∧ start ≤ i := by
  have hrun : IsRun p l start pos := h.isRun (by simpa [ha] using hp)
  constructor
  · rintro (⟨rfl,rfl⟩ | ⟨hr,hi⟩)
    · exact ⟨hrun,le_rfl⟩
    · exact ⟨hr,by have := h.1; omega⟩
  · rintro ⟨hr,hi⟩
    by_cases hle : i ≤ pos
    · exact Or.inl (hrun.eq hr hi hle)
    · exact Or.inr ⟨hr,by omega⟩

theorem IsRun.ne_out {pos i j : ℕ} {a : α} (ha : l[pos]? = some a) (hp : ¬p a)
    (hr : IsRun p l i j) : i ≠ pos := by
  rintro rfl
  obtain ⟨b,hb,hpb⟩ := hr.inside i le_rfl hr.nonempty
  rw [ha] at hb
  cases hb
  exact hp hpb

/-- The pass finds the runs that do not begin before the one being read. -/
theorem mem_runs_from {rest : List α} {pos : ℕ} (hrest : l.drop pos = rest) {start : Option ℕ}
    (h : Before p l pos start) (i j : ℕ) :
    (i,j) ∈ runs p l.length (rest.zipIdx pos) start ↔ IsRun p l i j ∧ start.getD pos ≤ i := by
  induction rest generalizing pos start with
  | nil => exact mem_runs_end (List.drop_eq_nil_iff.mp hrest) h i j
  | cons a rest ih =>
    obtain ⟨ha,hnext⟩ := drop_cons hrest
    rw [List.zipIdx_cons]
    by_cases hp : p a
    · have hin := ih hnext (before_in ha hp h)
      cases start with
      | none => simpa [runs, hp] using hin
      | some start => simpa [runs, hp] using hin
    · have hout := ih hnext (before_out ha hp)
      cases start with
      | none =>
        rw [runs, if_neg hp, hout, Option.getD_none, Option.getD_none]
        refine and_congr_right fun hr => ?_
        have := hr.ne_out ha hp
        omega
      | some start =>
        rw [runs, if_neg hp, List.mem_cons, hout, Prod.mk.injEq, Option.getD_none,
          Option.getD_some]
        exact isRun_out_iff ha hp h

theorem runs_increasing_from {rest : List α} {pos : ℕ} (hrest : l.drop pos = rest)
    {start : Option ℕ} (h : Before p l pos start) :
    (runs p l.length (rest.zipIdx pos) start).Pairwise (fun r r' => r.1 < r'.1) := by
  induction rest generalizing pos start with
  | nil => cases start <;> simp [runs]
  | cons a rest ih =>
    obtain ⟨ha,hnext⟩ := drop_cons hrest
    rw [List.zipIdx_cons]
    by_cases hp : p a
    · have hin := ih hnext (before_in ha hp h)
      cases start with
      | none => simpa [runs, hp] using hin
      | some start => simpa [runs, hp] using hin
    · have hout := ih hnext (before_out ha hp)
      cases start with
      | none => simpa [runs, hp] using hout
      | some start =>
        rw [runs, if_neg hp, List.pairwise_cons]
        refine ⟨?_,hout⟩
        rintro ⟨i,j⟩ hr
        have hi := ((mem_runs_from hnext (before_out ha hp) i j).mp hr).2
        rw [Option.getD_none] at hi
        have := h.1
        dsimp only
        omega

theorem before_zero (p : α → Bool) (l : List α) : Before p l 0 none :=
  fun _ hk => absurd hk (Nat.succ_ne_zero _)

theorem mem_runs (p : α → Bool) (l : List α) (i j : ℕ) :
    (i,j) ∈ runs p l.length l.zipIdx none ↔ IsRun p l i j := by
  rw [mem_runs_from List.drop_zero (before_zero p l), Option.getD_none]
  exact and_iff_left (Nat.zero_le i)

theorem runs_nodup (p : α → Bool) (l : List α) : (runs p l.length l.zipIdx none).Nodup :=
  (runs_increasing_from List.drop_zero (before_zero p l)).imp
    (fun h => ne_of_apply_ne Prod.fst h.ne)

def label (l : List (α × π)) (stop : π) (k : ℕ) : π := (l[k]?.map Prod.snd).getD stop

/-- Whatever the positions are, the segments are those of the indices. -/
theorem runs_eq_map_label (p : α → Bool) (stop : π) (l : List (α × π)) :
    runs p stop l none =
      (runs p (l.map Prod.fst).length (l.map Prod.fst).zipIdx none).map
        (Prod.map (label l stop) (label l stop)) := by
  have hlabels : (l.map Prod.fst).zipIdx.map (Prod.map id (label l stop)) = l := by
    apply List.ext_getElem?
    intro k
    cases hk : l[k]? with
    | none => simp [hk]
    | some x => simp [hk, label]
  have hstop : label l stop (l.map Prod.fst).length = stop := by simp [label]
  rw [← runs_map, hlabels, hstop, Option.map_none]

end Gopher.MaximalRuns
