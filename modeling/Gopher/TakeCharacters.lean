import Mathlib.Data.List.Count
import Mathlib.Order.Bounds.Basic
import Mathlib.Tactic

/-!
# Taking characters from both ends

What is not taken is a window of the string. The pass moves the right end of
the window and draws the left end after it until the letters outside suffice
again. A read behind the end of the string has no result.
-/

set_option autoImplicit false

namespace Gopher.TakeCharacters

inductive Letter where
  | a
  | b
  | c
  deriving DecidableEq

def tally (s : List Letter) : Letter → ℤ :=
  s.foldl (fun num x => Function.update num x (num x+1)) (fun _ => 0)

section Program

variable (s : List Letter) (k : ℤ)

def shrink (x : Letter) (num : Letter → ℤ) (left : ℕ) : Option ((Letter → ℤ) × ℕ) :=
  if num x < k then
    if h : left < s.length then
      shrink x (Function.update num s[left] (num s[left]+1)) (left+1)
    else none
  else some (num,left)
termination_by s.length-left

def slide : List Letter → ℕ → (Letter → ℤ) → ℕ → ℤ → Option ℤ
  | [], _, _, _, maxSubstrLen => some maxSubstrLen
  | x::rest, right, num, left, maxSubstrLen =>
    match shrink s k x (Function.update num x (num x-1)) left with
    | none => none
    | some (num,left) => slide rest (right+1) num left (max maxSubstrLen (right-left+1))

def takeCharacters : Option ℤ :=
  if tally s .a < k ∨ tally s .b < k ∨ tally s .c < k then some (-1)
  else (slide s k s 0 (tally s) 0 0).map (fun maxSubstrLen => s.length-maxSubstrLen)

end Program

/-! ## Letters outside a window -/

variable {s : List Letter} {k : ℕ}

theorem tally_eq (s : List Letter) (x : Letter) : tally s x = s.count x := by
  have h : ∀ (l : List Letter) (num : Letter → ℤ),
      l.foldl (fun num x => Function.update num x (num x+1)) num x = num x+l.count x := by
    intro l
    induction l with
    | nil => simp
    | cons d l ih =>
      intro num
      rw [List.foldl_cons, ih, List.count_cons]
      by_cases hd : d = x
      · subst hd
        simp only [Function.update_self, beq_self_eq_true, if_true, Nat.cast_add, Nat.cast_one]
        ring
      · simp [Function.update_of_ne (Ne.symm hd), hd]
  simpa [tally] using h s (fun _ => 0)

def outside (s : List Letter) (l m : ℕ) (x : Letter) : ℕ := (s.take l).count x+(s.drop m).count x

theorem outside_self (s : List Letter) (m : ℕ) (x : Letter) : outside s m m x = s.count x := by
  rw [outside, ← List.count_append, List.take_append_drop]

theorem outside_left {l : ℕ} (h : l < s.length) (m : ℕ) (x : Letter) :
    outside s (l+1) m x = outside s l m x+if s[l] = x then 1 else 0 := by
  simp only [outside, List.take_succ_eq_append_getElem h, List.count_append, List.count_singleton,
    beq_iff_eq]
  omega

theorem outside_right (l : ℕ) {m : ℕ} (h : m < s.length) (x : Letter) :
    outside s l m x = outside s l (m+1) x+if s[m] = x then 1 else 0 := by
  simp only [outside, List.drop_eq_getElem_cons h, List.count_cons, beq_iff_eq]
  omega

theorem outside_mono {l l' m m' : ℕ} (hl : l ≤ l') (hm : m' ≤ m) (x : Letter) :
    outside s l m x ≤ outside s l' m' x := by
  apply Nat.add_le_add
  · exact (List.take_sublist_take_left hl).count_le x
  · exact (List.drop_sublist_drop_left s hm).count_le x

def Valid (s : List Letter) (k l m : ℕ) : Prop := ∀ x, k ≤ outside s l m x

theorem valid_mono {l l' m m' : ℕ} (hl : l ≤ l') (hm : m' ≤ m) (h : Valid s k l m) :
    Valid s k l' m' := fun x => (h x).trans (outside_mono hl hm x)

/-! ## The window drawn after its right end -/

structure Window (s : List Letter) (k : ℕ) (num : Letter → ℤ) (left m : ℕ) : Prop where
  counts : ∀ x, num x = outside s left m x
  ordered : left ≤ m
  tight : ∀ l < left, ¬Valid s k l m

theorem window_right {num : Letter → ℤ} {left m : ℕ} (hm : m < s.length)
    (h : Window s k num left m) :
    Window s k (Function.update num s[m] (num s[m]-1)) left (m+1) := by
  constructor
  · intro x
    have hc := h.counts x
    rw [outside_right left hm x] at hc
    by_cases hs : s[m] = x
    · subst hs
      simp [hc]
    · simp [Function.update_of_ne (Ne.symm hs), hs, hc]
  · exact h.ordered.trans (Nat.le_succ m)
  · intro l hl hv
    exact h.tight l hl (valid_mono le_rfl (Nat.le_succ m) hv)

theorem window_left {num : Letter → ℤ} {left m : ℕ} (hl : left < s.length) (hm : left < m)
    (hv : ¬Valid s k left m) (h : Window s k num left m) :
    Window s k (Function.update num s[left] (num s[left]+1)) (left+1) m := by
  constructor
  · intro x
    rw [outside_left hl, Nat.cast_add, ← h.counts x]
    by_cases hs : s[left] = x
    · subst hs
      simp
    · simp [Function.update_of_ne (Ne.symm hs), hs]
  · exact hm
  · intro l hlt
    rcases Nat.lt_succ_iff_lt_or_eq.mp hlt with hlt | heq
    · exact h.tight l hlt
    · rwa [heq]

/-- The inner loop ends inside the string: an empty window leaves everything outside. -/
theorem shrink_spec (hs : ∀ x, k ≤ s.count x) {m : ℕ} (hm : m ≤ s.length) (x : Letter)
    (num : Letter → ℤ) (left : ℕ) (h : Window s k num left m)
    (hc : ∀ d ≠ x, k ≤ outside s left m d) :
    ∃ num' left', shrink s k x num left = some (num',left') ∧
      Window s k num' left' m ∧ Valid s k left' m := by
  induction num, left using shrink.induct s k x with
  | case1 num left hlow hlt ih =>
    have hshort : outside s left m x < k := by
      have := h.counts x
      omega
    have hne : left ≠ m := by
      intro he
      rw [he, outside_self] at hshort
      exact absurd (hs x) (by omega)
    have hlm : left < m := lt_of_le_of_ne h.ordered hne
    rw [shrink, if_pos hlow, dif_pos hlt]
    apply ih
    · exact window_left hlt hlm (fun hv => absurd (hv x) (by omega)) h
    · intro d hd
      exact (hc d hd).trans (outside_mono (Nat.le_succ left) le_rfl d)
  | case2 num left hlow hge =>
    have heq : left = m := le_antisymm h.ordered (by omega)
    have htotal := h.counts x
    rw [heq, outside_self] at htotal
    exact absurd (hs x) (by omega)
  | case3 num left hhigh =>
    rw [shrink, if_neg hhigh]
    refine ⟨num,left,rfl,h,?_⟩
    intro d
    by_cases hd : d = x
    · subst hd
      have := h.counts d
      omega
    · exact hc d hd

/-! ## The longest window -/

structure Longest (s : List Letter) (k right : ℕ) (n : ℤ) : Prop where
  reached : ∃ l m, l ≤ m ∧ m ≤ right ∧ Valid s k l m ∧ n = m-l
  bound : ∀ l m, l ≤ m → m ≤ right → Valid s k l m → (m : ℤ)-l ≤ n

theorem longest_step {num : Letter → ℤ} {left right : ℕ} {n : ℤ} (hn : Longest s k right n)
    (hw : Window s k num left (right+1)) (hv : Valid s k left (right+1)) :
    Longest s k (right+1) (max n (right-left+1)) := by
  constructor
  · rcases le_total n (right-left+1) with hle | hle
    · refine ⟨left,right+1,hw.ordered,le_rfl,hv,?_⟩
      rw [max_eq_right hle]
      push_cast
      ring
    · obtain ⟨l,m,hlm,hm,hlv,he⟩ := hn.reached
      exact ⟨l,m,hlm,hm.trans (Nat.le_succ right),hlv,by rw [max_eq_left hle, he]⟩
  · intro l m hlm hm hlv
    rcases Nat.le_succ_iff.mp hm with hm | hm
    · exact (hn.bound l m hlm hm hlv).trans (le_max_left _ _)
    · subst hm
      have hleft : left ≤ l := by
        by_contra hlt
        exact hw.tight l (by omega) hlv
      apply le_max_of_le_right
      push_cast
      omega

theorem slide_spec (hs : ∀ x, k ≤ s.count x) (rest : List Letter) :
    ∀ (right : ℕ) (num : Letter → ℤ) (left : ℕ) (n : ℤ), s.drop right = rest →
      right ≤ s.length → Window s k num left right → Valid s k left right →
      Longest s k right n →
      ∃ n', slide s k rest right num left n = some n' ∧ Longest s k s.length n' := by
  induction rest with
  | nil =>
    intro right num left n hdrop hle hw hv hn
    have hend : right = s.length := le_antisymm hle (List.drop_eq_nil_iff.mp hdrop)
    exact ⟨n,rfl,hend ▸ hn⟩
  | cons x rest ih =>
    intro right num left n hdrop hle hw hv hn
    have hlt : right < s.length := by
      by_contra hge
      rw [List.drop_eq_nil_of_le (by omega)] at hdrop
      cases hdrop
    rw [List.drop_eq_getElem_cons hlt] at hdrop
    obtain ⟨hc,hrest⟩ := List.cons.inj hdrop
    subst hc
    have hother : ∀ d ≠ s[right], k ≤ outside s left (right+1) d := by
      intro d hd
      have := hv d
      rwa [outside_right left hlt d, if_neg (Ne.symm hd)] at this
    obtain ⟨num',left',hshrink,hw',hv'⟩ :=
      shrink_spec hs hlt s[right] _ left (window_right hlt hw) hother
    rw [slide, hshrink]
    exact ih (right+1) num' left' _ hrest hlt hw' hv' (longest_step hn hw' hv')

def Suffices (s : List Letter) (k l r : ℕ) : Prop :=
  l+r ≤ s.length ∧ ∀ x, k ≤ (s.take l++s.drop (s.length-r)).count x

theorem suffices_iff (l r : ℕ) :
    Suffices s k l r ↔ l+r ≤ s.length ∧ Valid s k l (s.length-r) := by
  simp only [Suffices, Valid, outside, List.count_append]

theorem longest_least {n : ℤ} (h : Longest s k s.length n) :
    ∃ m : ℕ, s.length-n = m ∧ IsLeast {m | ∃ l r, Suffices s k l r ∧ m = l+r} m := by
  obtain ⟨l,m,hlm,hm,hv,he⟩ := h.reached
  refine ⟨l+(s.length-m),by omega,⟨l,s.length-m,?_,rfl⟩,?_⟩
  · rw [suffices_iff, Nat.sub_sub_self hm]
    exact ⟨by omega,hv⟩
  · rintro _ ⟨l',r',hsuf,rfl⟩
    rw [suffices_iff] at hsuf
    have := h.bound l' (s.length-r') (by omega) (by omega) hsuf.2
    omega

theorem takeCharacters_short (h : ∃ x, s.count x < k) : takeCharacters s k = some (-1) := by
  have hlow : tally s .a < k ∨ tally s .b < k ∨ tally s .c < k := by
    simp only [tally_eq, Nat.cast_lt]
    obtain ⟨x,hc⟩ := h
    cases x with
    | a => exact Or.inl hc
    | b => exact Or.inr (Or.inl hc)
    | c => exact Or.inr (Or.inr hc)
  rw [takeCharacters, if_pos hlow]

theorem takeCharacters_enough (h : ∀ x, k ≤ s.count x) :
    ∃ m : ℕ, takeCharacters s k = some (m : ℤ) ∧
      IsLeast {m | ∃ l r, Suffices s k l r ∧ m = l+r} m := by
  have hhigh : ¬(tally s .a < k ∨ tally s .b < k ∨ tally s .c < k) := by
    simp only [tally_eq, Nat.cast_lt, not_or, not_lt]
    exact ⟨h .a,h .b,h .c⟩
  have hv : Valid s k 0 0 := by
    intro x
    rw [outside_self]
    exact h x
  have hw : Window s k (tally s) 0 0 := by
    constructor
    · intro x
      rw [tally_eq, outside_self]
    · exact le_rfl
    · intro l hl
      exact absurd hl (Nat.not_lt_zero l)
  have hn : Longest s k 0 0 := by
    constructor
    · exact ⟨0,0,le_rfl,le_rfl,hv,by simp⟩
    · intro l m hlm hm _
      omega
  obtain ⟨n,hslide,hlong⟩ := slide_spec h s 0 (tally s) 0 0 rfl (Nat.zero_le _) hw hv hn
  obtain ⟨m,hm,hleast⟩ := longest_least hlong
  refine ⟨m,?_,hleast⟩
  rw [takeCharacters, if_neg hhigh, hslide, Option.map_some, hm]

/-- The result is -1 exactly when some letter is too rare, and otherwise the least number of
characters taken from both ends; in both cases the pass stays inside the string. -/
theorem takeCharacters_spec (s : List Letter) (k : ℕ) :
    (takeCharacters s k = some (-1) ↔ ∃ x, s.count x < k) ∧
    ((∀ x, k ≤ s.count x) → ∃ m : ℕ, takeCharacters s k = some (m : ℤ) ∧
      IsLeast {m | ∃ l r, Suffices s k l r ∧ m = l+r} m) ∧
    takeCharacters s k ≠ none := by
  by_cases h : ∃ x, s.count x < k
  · refine ⟨iff_of_true (takeCharacters_short h) h,?_,by simp [takeCharacters_short h]⟩
    intro hall
    obtain ⟨x,hc⟩ := h
    exact absurd (hall x) (by omega)
  · push Not at h
    obtain ⟨m,hm,hleast⟩ := takeCharacters_enough h
    refine ⟨?_,fun _ => ⟨m,hm,hleast⟩,by simp [hm]⟩
    rw [hm]
    constructor
    · intro he
      have := Option.some.inj he
      omega
    · rintro ⟨x,hc⟩
      exact absurd (h x) (by omega)

end Gopher.TakeCharacters
