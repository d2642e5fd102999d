import Mathlib.Algebra.BigOperators.Group.Finset.Basic
import Mathlib.Algebra.BigOperators.Intervals
import Mathlib.Order.Bounds.Basic
import Mathlib.Tactic

/-!
# The node with the highest edge score

The score of a node is the sum of the indices that point to it. The pass keeps
the scores so far in a map, in 64 bits, and the best node beside it.
-/

set_option autoImplicit false

namespace Gopher.EdgeScore

def lookup (dstToScore : ℕ → Option Int64) (v : ℕ) : Int64 := (dstToScore v).getD 0

def record (dstToScore : ℕ → Option Int64) (src dst : ℕ) : ℕ → Option Int64 :=
  match dstToScore dst with
  | none => Function.update dstToScore dst (some (Int64.ofNat src))
  | some score => Function.update dstToScore dst (some (score+Int64.ofNat src))

def visit (src dst : ℕ) (s : (ℕ → Option Int64) × ℕ) : (ℕ → Option Int64) × ℕ :=
  let dstToScore := record s.1 src dst
  if lookup dstToScore dst > lookup dstToScore s.2 ∨
      lookup dstToScore dst = lookup dstToScore s.2 ∧ dst < s.2 then (dstToScore,dst)
  else (dstToScore,s.2)

def scan : List ℕ → ℕ → (ℕ → Option Int64) × ℕ → (ℕ → Option Int64) × ℕ
  | [], _, s => s
  | dst::rest, idx, s => scan rest (idx+1) (visit (idx+1) dst s)

def edgeScore : List ℕ → Option ℕ
  | [] => none
  | first::rest =>
    if (first::rest).length = 1 then some first
    else some (scan rest 0 (Function.update (fun _ => none) first (some 0),first)).2

/-! ## Scores -/

def score (edges : List ℕ) (v : ℕ) : ℕ :=
  ∑ i ∈ Finset.range edges.length with edges[i]? = some v, i

theorem score_snoc (done : List ℕ) (dst v : ℕ) :
    score (done++[dst]) v = score done v+if dst = v then done.length else 0 := by
  have hsame : ∀ i ∈ Finset.range done.length,
      (if (done++[dst])[i]? = some v then i else 0) = if done[i]? = some v then i else 0 := by
    intro i hi
    rw [List.getElem?_append_left (Finset.mem_range.mp hi)]
  rw [score, score, Finset.sum_filter, Finset.sum_filter, List.length_append,
    List.length_singleton, Finset.sum_range_succ, Finset.sum_congr rfl hsame]
  simp

theorem score_single (first v : ℕ) : score [first] v = 0 := by
  simp [score]

theorem score_le_append (done rest : List ℕ) (v : ℕ) : score done v ≤ score (done++rest) v := by
  induction rest using List.reverseRecOn with
  | nil => rw [List.append_nil]
  | append_singleton rest dst ih =>
    rw [← List.append_assoc, score_snoc]
    exact ih.trans (Nat.le_add_right _ _)

theorem score_eq_zero {edges : List ℕ} {v : ℕ} (h : v ∉ edges) : score edges v = 0 := by
  apply Finset.sum_eq_zero
  intro i hi
  exact absurd (List.mem_of_getElem? (Finset.mem_filter.mp hi).2) h

theorem score_lt {edges : List ℕ} (h : edges.length ≤ 2^32) (v : ℕ) : score edges v < 2^63 := by
  have hle : score edges v ≤ ∑ i ∈ Finset.range edges.length, i :=
    Finset.sum_le_sum_of_subset (Finset.filter_subset _ _)
  have hmono : ∑ i ∈ Finset.range edges.length, i ≤ ∑ i ∈ Finset.range (2^32), i :=
    Finset.sum_le_sum_of_subset (Finset.range_mono h)
  rw [Finset.sum_range_id (2^32)] at hmono
  omega

/-! ## The scores in the map -/

def Scored (done : List ℕ) (dstToScore : ℕ → Option Int64) : Prop :=
  ∀ v, lookup dstToScore v = Int64.ofNat (score done v)

theorem lookup_record (dstToScore : ℕ → Option Int64) (src dst v : ℕ) :
    lookup (record dstToScore src dst) v =
      lookup dstToScore v+Int64.ofNat (if dst = v then src else 0) := by
  unfold record
  split
  · rename_i hnone
    by_cases hv : dst = v
    · subst hv
      simp [lookup, hnone]
    · simp [lookup, Function.update_of_ne (Ne.symm hv), hv]
  · rename_i old hsome
    by_cases hv : dst = v
    · subst hv
      simp [lookup, hsome]
    · simp [lookup, Function.update_of_ne (Ne.symm hv), hv]

theorem record_scored {done : List ℕ} {dstToScore : ℕ → Option Int64}
    (h : Scored done dstToScore) (dst : ℕ) :
    Scored (done++[dst]) (record dstToScore done.length dst) := by
  intro v
  rw [lookup_record, h v, score_snoc, Int64.ofNat_add]

theorem start_scored (first : ℕ) : Scored [first] (Function.update (fun _ => none) first (some 0)) := by
  intro v
  rw [score_single]
  by_cases hv : v = first
  · simp [lookup, hv]
  · simp [lookup, Function.update_of_ne hv]

theorem ofNat_lt_iff {a b : ℕ} (ha : a < 2^63) (hb : b < 2^63) :
    Int64.ofNat a < Int64.ofNat b ↔ a < b := by
  rw [Int64.lt_iff_toInt_lt, Int64.toInt_ofNat_of_lt ha, Int64.toInt_ofNat_of_lt hb]
  omega

theorem ofNat_eq_iff {a b : ℕ} (ha : a < 2^63) (hb : b < 2^63) :
    Int64.ofNat a = Int64.ofNat b ↔ a = b := by
  rw [← Int64.toInt_inj, Int64.toInt_ofNat_of_lt ha, Int64.toInt_ofNat_of_lt hb]
  omega

/-! ## The best node so far -/

def Best (done : List ℕ) (ans : ℕ) : Prop :=
  ∀ v, score done v < score done ans ∨
    score done v = score done ans ∧ (ans ≤ v ∨ score done ans = 0)

structure Tracks (done : List ℕ) (s : (ℕ → Option Int64) × ℕ) : Prop where
  scores : Scored done s.1
  mem : s.2 ∈ done
  best : Best done s.2

section Visit

variable {done : List ℕ} {ans dst : ℕ}

theorem score_snoc_self (done : List ℕ) (dst : ℕ) :
    score (done++[dst]) dst = score done dst+done.length := by
  rw [score_snoc, if_pos rfl]

theorem score_snoc_of_ne (done : List ℕ) {v : ℕ} (hv : dst ≠ v) :
    score (done++[dst]) v = score done v := by
  rw [score_snoc, if_neg hv, Nat.add_zero]

theorem Best.overtaken (h : Best done ans)
    (hbetter : score (done++[dst]) ans < score (done++[dst]) dst ∨
      score (done++[dst]) dst = score (done++[dst]) ans ∧ dst < ans) : Best (done++[dst]) dst := by
  intro v
  by_cases hv : dst = v
  · subst hv
    exact Or.inr ⟨rfl,Or.inl le_rfl⟩
  · have hne : dst ≠ ans := by
      rintro rfl
      omega
    have hbest := h v
    rw [score_snoc_of_ne done hne] at hbetter
    rw [score_snoc_of_ne done hv]
    omega

theorem Best.kept (h : Best done ans) (hpos : 0 < done.length)
    (hworse : ¬(score (done++[dst]) ans < score (done++[dst]) dst ∨
      score (done++[dst]) dst = score (done++[dst]) ans ∧ dst < ans)) : Best (done++[dst]) ans := by
  intro v
  have hbest := h v
  have hself := score_snoc_self done dst
  by_cases hans : dst = ans
  · subst hans
    by_cases hv : dst = v
    · subst hv
      exact Or.inr ⟨rfl,Or.inl le_rfl⟩
    · rw [score_snoc_of_ne done hv]
      omega
  · rw [score_snoc_of_ne done hans] at hworse ⊢
    by_cases hv : dst = v
    · subst hv
      omega
    · rw [score_snoc_of_ne done hv]
      exact hbest

theorem visit_tracks {s : (ℕ → Option Int64) × ℕ} (h : Tracks done s) (dst : ℕ)
    (hsmall : ∀ v, score (done++[dst]) v < 2^63) :
    Tracks (done++[dst]) (visit done.length dst s) := by
  have hscores := record_scored h.scores dst
  unfold visit
  simp only [hscores _, gt_iff_lt, ofNat_lt_iff (hsmall _) (hsmall _),
    ofNat_eq_iff (hsmall _) (hsmall _)]
  split
  · rename_i hbetter
    exact ⟨hscores,by simp,h.best.overtaken hbetter⟩
  · rename_i hworse
    exact ⟨hscores,by simp [h.mem],h.best.kept (List.length_pos_of_mem h.mem) hworse⟩

end Visit

theorem scan_tracks (rest : List ℕ) : ∀ (done : List ℕ) (idx : ℕ) (s : (ℕ → Option Int64) × ℕ),
    done.length = idx+1 → Tracks done s → (∀ v, score (done++rest) v < 2^63) →
    Tracks (done++rest) (scan rest idx s) := by
  induction rest with
  | nil =>
    intro done idx s _ h _
    simpa [scan] using h
  | cons dst rest ih =>
    intro done idx s hlen h hsmall
    have happend : done++dst::rest = (done++[dst])++rest := by simp
    rw [happend] at hsmall ⊢
    have hvisit := visit_tracks h dst
      (fun v => (score_le_append (done++[dst]) rest v).trans_lt (hsmall v))
    rw [hlen] at hvisit
    exact ih (done++[dst]) (idx+1) _ (by simp [hlen]) hvisit hsmall

theorem start_tracks (first : ℕ) :
    Tracks [first] (Function.update (fun _ => none) first (some 0),first) :=
  ⟨start_scored first,List.mem_singleton_self first,fun v => by simp [score_single]⟩

theorem exists_score_pos {edges : List ℕ} (h : 2 ≤ edges.length) : ∃ v, 0 < score edges v := by
  refine ⟨edges[1],?_⟩
  have hmem : 1 ∈ (Finset.range edges.length).filter (fun i => edges[i]? = some edges[1]) := by
    simp
    omega
  exact Nat.lt_of_lt_of_le Nat.one_pos
    (Finset.single_le_sum (f := fun i => i) (fun _ _ => Nat.zero_le _) hmem)

def best (edges : List ℕ) : Set ℕ :=
  {v | v < edges.length ∧ ∀ w < edges.length, score edges w ≤ score edges v}

theorem tracks_isLeast {edges : List ℕ} {s : (ℕ → Option Int64) × ℕ} (h : Tracks edges s)
    (h2 : 2 ≤ edges.length) (hedges : ∀ e ∈ edges, e < edges.length) :
    IsLeast (best edges) s.2 := by
  obtain ⟨u,hu⟩ := exists_score_pos h2
  have hpos : 0 < score edges s.2 := by
    have := h.best u
    omega
  constructor
  · refine ⟨hedges s.2 h.mem,?_⟩
    intro w _
    have := h.best w
    omega
  · intro v hv
    have hle := hv.2 s.2 (hedges s.2 h.mem)
    have := h.best v
    omega

/-- As long as no score leaves 64 bits, the result is the least node, among all nodes, of the
highest score. -/
theorem edgeScore_isLeast (edges : List ℕ) (hne : edges ≠ [])
    (hedges : ∀ e ∈ edges, e < edges.length)
    (hsmall : ∀ v < edges.length, score edges v < 2^63) :
    ∃ v, edgeScore edges = some v ∧ IsLeast (best edges) v := by
  have hall : ∀ v, score edges v < 2^63 := by
    intro v
    by_cases hv : v ∈ edges
    · exact hsmall v (hedges v hv)
    · rw [score_eq_zero hv]
      decide
  obtain ⟨first,rest,rfl⟩ := List.exists_cons_of_ne_nil hne
  cases rest with
  | nil =>
    have hfirst : first = 0 := by simpa using hedges first (by simp)
    refine ⟨0,by simp [edgeScore, hfirst],⟨by simp,?_⟩,?_⟩
    · intro w _
      rw [score_single, score_single]
    · intro w _
      exact Nat.zero_le w
  | cons second rest =>
    have h := scan_tracks (second::rest) [first] 0 _ rfl (start_tracks first) hall
    refine ⟨_,?_,tracks_isLeast h (by simp) hedges⟩
    rw [edgeScore, if_neg (by simp)]

theorem edgeScore_four :
    ([2,0,0,2] : List ℕ) ≠ [] ∧ (∀ e ∈ ([2,0,0,2] : List ℕ), e < 4) ∧
      edgeScore [2,0,0,2] = some 0 ∧ IsLeast (best [2,0,0,2]) 0 := by
  have hedges : ∀ e ∈ ([2,0,0,2] : List ℕ), e < 4 := by decide
  obtain ⟨v,hv,hleast⟩ := edgeScore_isLeast [2,0,0,2] (by decide) hedges
    (fun v _ => score_lt (by decide) v)
  have hv0 : v = 0 := Option.some.inj (hv.symm.trans (by decide))
  subst hv0
  exact ⟨by decide,hedges,hv,hleast⟩

/-! ## A score that leaves 64 bits -/

def hub (n : ℕ) : List ℕ := 0::List.replicate n 0++[1]

theorem scan_snoc (rest : List ℕ) (dst idx : ℕ) (s : (ℕ → Option Int64) × ℕ) :
    scan (rest++[dst]) idx s = visit (idx+rest.length+1) dst (scan rest idx s) := by
  induction rest generalizing idx s with
  | nil => rfl
  | cons d rest ih =>
    rw [List.cons_append, scan, ih, scan, List.length_cons, Nat.add_right_comm idx 1,
      Nat.add_assoc idx]

theorem visit_again (src : ℕ) (s : (ℕ → Option Int64) × ℕ) :
    visit src s.2 s = (record s.1 src s.2,s.2) := by
  unfold visit
  simp

theorem scan_replicate (n : ℕ) : ∀ (done : List ℕ) (idx : ℕ) (s : (ℕ → Option Int64) × ℕ),
    done.length = idx+1 → Scored done s.1 →
    Scored (done++List.replicate n s.2) (scan (List.replicate n s.2) idx s).1 ∧
      (scan (List.replicate n s.2) idx s).2 = s.2 := by
  induction n with
  | zero =>
    intro done idx s _ h
    exact ⟨by simpa [scan] using h,rfl⟩
  | succ n ih =>
    intro done idx s hlen h
    have hnext := record_scored h s.2
    rw [hlen] at hnext
    rw [List.replicate_succ, scan, visit_again, ← List.singleton_append, ← List.append_assoc]
    exact ih (done++[s.2]) (idx+1) (record s.1 (idx+1) s.2,s.2) (by simp [hlen]) hnext

theorem score_hub_zero (n : ℕ) : score (hub n) 0 = ∑ i ∈ Finset.range (n+1), i := by
  rw [hub, score_snoc, if_neg Nat.one_ne_zero, Nat.add_zero, ← List.replicate_succ, score,
    Finset.sum_filter, List.length_replicate]
  apply Finset.sum_congr rfl
  intro i hi
  rw [List.getElem?_replicate_of_lt (Finset.mem_range.mp hi), if_pos rfl]

theorem score_hub_one (n : ℕ) : score (hub n) 1 = n+1 := by
  have hzero : score (0::List.replicate n 0) 1 = 0 := score_eq_zero (by simp)
  rw [hub, score_snoc, hzero, if_pos rfl]
  simp

theorem lt_two_of_mem_hub {n v : ℕ} (h : v ∈ hub n) : v < 2 := by
  rcases List.mem_append.mp h with h | h
  · rcases List.mem_cons.mp h with rfl | h
    · exact Nat.zero_lt_two
    · rw [List.eq_of_mem_replicate h]
      exact Nat.zero_lt_two
  · rw [List.mem_singleton.mp h]
    exact Nat.one_lt_two

theorem score_hub_other (n v : ℕ) (h : 2 ≤ v) : score (hub n) v = 0 :=
  score_eq_zero (fun hv => absurd (lt_two_of_mem_hub hv) (not_lt.mpr h))

theorem edgeScore_hub (n : ℕ)
    (h : Int64.ofNat (∑ i ∈ Finset.range (n+1), i) < Int64.ofNat (n+1)) :
    edgeScore (hub n) = some 1 := by
  obtain ⟨hs,hans⟩ := scan_replicate n [0] 0 (Function.update (fun _ => none) 0 (some 0),0) rfl
    (start_scored 0)
  have hlast := record_scored hs 1
  have hlen : ([0]++List.replicate n 0).length = 0+(List.replicate n 0).length+1 := by simp
  rw [hlen] at hlast
  have hbetter : Int64.ofNat (score (hub n) 0) < Int64.ofNat (score (hub n) 1) := by
    rw [score_hub_zero, score_hub_one]
    exact h
  rw [hub, List.cons_append, edgeScore, if_neg (by simp), scan_snoc, visit]
  dsimp only at hs hans ⊢
  rw [hans, hlast 0, hlast 1]
  exact congrArg some (congrArg Prod.snd (if_pos (Or.inl hbetter)))

theorem best_hub (n : ℕ) (h : n+1 ≤ ∑ i ∈ Finset.range (n+1), i) : IsLeast (best (hub n)) 0 := by
  refine ⟨⟨by simp [hub],?_⟩,fun _ _ => Nat.zero_le _⟩
  intro w _
  rw [score_hub_zero]
  match w with
  | 0 => rw [score_hub_zero]
  | 1 => rwa [score_hub_one]
  | w+2 => rw [score_hub_other n (w+2) (by omega)]; exact Nat.zero_le _

theorem length_hub (n : ℕ) : (hub n).length = n+2 := by
  simp [hub]

/-- The sum of the indices of the first node becomes negative, and the last one wins. -/
theorem edgeScore_overflow :
    (∀ e ∈ hub (2^32), e < (hub (2^32)).length) ∧
      edgeScore (hub (2^32)) = some 1 ∧ IsLeast (best (hub (2^32))) 0 := by
  have hsum : ∑ i ∈ Finset.range (2^32+1), i = 2^63+2^31 := by
    rw [Finset.sum_range_id]
    norm_num
  refine ⟨?_,edgeScore_hub (2^32) (by rw [hsum]; decide),best_hub (2^32) (by rw [hsum]; norm_num)⟩
  intro e he
  rw [length_hub]
  exact (lt_two_of_mem_hub he).trans_le (Nat.le_add_left 2 _)

end Gopher.EdgeScore
