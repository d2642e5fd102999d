import Mathlib.Data.List.Count
import Mathlib.Data.List.Nodup
import Mathlib.Tactic
import Gopher.MapOrders
import Gopher.MapReduce

/-!
# The city without an outgoing path

Every city of a path becomes a key, with the number of paths that leave it.
The result is a city with the number zero, whichever the enumeration of the
map meets first, and the empty string if there is none.
-/

set_option autoImplicit false

namespace Gopher.DestCity
open Gopher.MapOrders Gopher.MapReduce

inductive Panic where
  | indexOutOfRange
  deriving DecidableEq

def index (path : List GoString) (i : ℕ) : Except Panic GoString :=
  match path[i]? with
  | some city => .ok city
  | none => .error .indexOutOfRange

def leave (outDegree : Map GoString ℕ) (city : GoString) : Map GoString ℕ :=
  match outDegree.lookup city with
  | some v => outDegree.insert city (v+1)
  | none => outDegree.insert city 1

def reach (outDegree : Map GoString ℕ) (city : GoString) : Map GoString ℕ :=
  match outDegree.lookup city with
  | some _ => outDegree
  | none => outDegree.insert city 0

def addPath (outDegree : Map GoString ℕ) (path : List GoString) :
    Except Panic (Map GoString ℕ) := do
  let src ← index path 0
  let outDegree := leave outDegree src
  let dst ← index path 1
  return reach outDegree dst

def destCity (it : Iteration GoString ℕ) (paths : List (List GoString)) :
    Except Panic GoString := do
  let outDegree ← paths.foldlM addPath ∅
  return (((it.order outDegree).find? (fun e => e.2 = 0)).map Prod.fst).getD []

/-! ## Degrees -/

theorem lookup_leave (m : Map GoString ℕ) (city c : GoString) :
    (leave m city).lookup c =
      if c = city then some ((m.lookup city).getD 0+1) else m.lookup c := by
  unfold leave
  split
  · rename_i v hv
    rw [lookup_insert, hv]
    rfl
  · rename_i hv
    rw [lookup_insert, hv]
    rfl

theorem lookup_reach (m : Map GoString ℕ) (city c : GoString) :
    (reach m city).lookup c =
      if c = city then some ((m.lookup city).getD 0) else m.lookup c := by
  unfold reach
  split
  · rename_i v hv
    split
    · rename_i hc
      rw [hc, hv]
      rfl
    · rfl
  · rename_i hv
    rw [lookup_insert, hv]
    rfl

def Degrees (edges : List (GoString × GoString)) (m : Map GoString ℕ) : Prop :=
  ∀ c, m.lookup c = if c ∈ edges.map Prod.fst ∨ c ∈ edges.map Prod.snd then
    some ((edges.map Prod.fst).count c) else none

theorem Degrees.getD {edges : List (GoString × GoString)} {m : Map GoString ℕ}
    (h : Degrees edges m) (c : GoString) :
    (m.lookup c).getD 0 = (edges.map Prod.fst).count c := by
  rw [h c]
  split
  · rfl
  · rename_i hc
    rw [List.count_eq_zero_of_not_mem (fun hm => hc (Or.inl hm))]
    rfl

theorem Degrees.snoc {edges : List (GoString × GoString)} {m : Map GoString ℕ}
    (h : Degrees edges m) (a b : GoString) :
    Degrees (edges++[(a,b)]) (reach (leave m a) b) := by
  intro c
  rw [lookup_reach, lookup_leave, lookup_leave, h.getD a, h c]
  simp only [List.map_append, List.map_cons, List.map_nil, List.mem_append, List.mem_singleton,
    List.count_append, List.count_singleton]
  by_cases hcb : c = b
  · subst hcb
    by_cases hca : c = a
    · simp [hca]
    · have := h.getD c
      simp [hca, this, Ne.symm hca]
  · by_cases hca : c = a
    · simp [hca, show a ≠ b from hca ▸ hcb]
    · simp only [hcb, hca, or_false, if_false]
      simp [Ne.symm hca]

theorem foldlM_addPath (edges : List (GoString × GoString)) :
    ∃ m, (edges.map (fun e => [e.1,e.2])).foldlM addPath ∅ = .ok m ∧ Degrees edges m := by
  induction edges using List.reverseRecOn with
  | nil => exact ⟨∅,rfl,fun c => by simp⟩
  | append_singleton edges e ih =>
    obtain ⟨m,hm,hdeg⟩ := ih
    refine ⟨reach (leave m e.1) e.2,?_,hdeg.snoc e.1 e.2⟩
    rw [List.map_append, List.foldlM_append, hm]
    rfl

/-! ## The result -/

def Sink (edges : List (GoString × GoString)) (c : GoString) : Prop :=
  c ∈ edges.map Prod.snd ∧ c ∉ edges.map Prod.fst

theorem Degrees.lookup_eq_zero {edges : List (GoString × GoString)} {m : Map GoString ℕ}
    (h : Degrees edges m) (c : GoString) : m.lookup c = some 0 ↔ Sink edges c := by
  rw [h c, Sink]
  constructor
  · intro hc
    split at hc
    · rename_i hmem
      have hsrc := List.count_eq_zero.mp (Option.some.inj hc)
      exact ⟨hmem.resolve_left hsrc,hsrc⟩
    · cases hc
  · rintro ⟨hdst,hsrc⟩
    rw [if_pos (Or.inr hdst), List.count_eq_zero_of_not_mem hsrc]

theorem destCity_sink (it : Iteration GoString ℕ) (edges : List (GoString × GoString)) :
    ∃ r, destCity it (edges.map (fun e => [e.1,e.2])) = .ok r ∧
      (Sink edges r ∨ r = [] ∧ ∀ c, ¬Sink edges c) := by
  obtain ⟨m,hm,hdeg⟩ := foldlM_addPath edges
  have hrun : destCity it (edges.map (fun e => [e.1,e.2])) =
      .ok ((((it.order m).find? (fun e => e.2 = 0)).map Prod.fst).getD []) := by
    rw [destCity, hm]
    rfl
  refine ⟨_,hrun,?_⟩
  cases hf : (it.order m).find? (fun e => e.2 = 0) with
  | some e =>
    left
    have hzero : e.2 = 0 := by simpa using List.find?_some hf
    apply (hdeg.lookup_eq_zero e.1).mp
    rw [← hzero]
    exact (it.mem_order m).mp (List.mem_of_find?_eq_some hf)
  | none =>
    right
    refine ⟨rfl,?_⟩
    intro c hc
    have hmem := (it.mem_order m).mpr ((hdeg.lookup_eq_zero c).mpr hc)
    exact absurd (List.find?_eq_none.mp hf _ hmem) (by simp)

/-! ## Chains -/

def chain : List GoString → List (GoString × GoString)
  | a::b::cities => (a,b)::chain (b::cities)
  | _ => []

theorem map_fst_chain (cities : List GoString) :
    (chain cities).map Prod.fst = cities.dropLast := by
  induction cities with
  | nil => rfl
  | cons a cities ih =>
    cases cities with
    | nil => rfl
    | cons b cities => rw [chain, List.map_cons, ih, List.dropLast_cons_cons]

theorem map_snd_chain (cities : List GoString) : (chain cities).map Prod.snd = cities.tail := by
  induction cities with
  | nil => rfl
  | cons a cities ih =>
    cases cities with
    | nil => rfl
    | cons b cities => rw [chain, List.map_cons, ih, List.tail_cons, List.tail_cons]

theorem sink_chain {init : List GoString} {last : GoString} (hinit : init ≠ [])
    (hnodup : (init++[last]).Nodup) (c : GoString) :
    Sink (chain (init++[last])) c ↔ c = last := by
  have hlast : last ∉ init := by
    intro hmem
    exact (List.nodup_append.mp hnodup).2.2 last hmem last (List.mem_singleton.mpr rfl) rfl
  rw [Sink, map_fst_chain, map_snd_chain, List.dropLast_concat, List.tail_append_of_ne_nil hinit,
    List.mem_append, List.mem_singleton]
  constructor
  · rintro ⟨hmem | hmem,hnot⟩
    · exact absurd (List.mem_of_mem_tail hmem) hnot
    · exact hmem
  · rintro rfl
    exact ⟨Or.inr rfl,hlast⟩

theorem sink_perm {edges edges' : List (GoString × GoString)} (h : edges.Perm edges')
    (c : GoString) : Sink edges c ↔ Sink edges' c := by
  rw [Sink, Sink, (h.map Prod.snd).mem_iff, (h.map Prod.fst).mem_iff]

theorem exists_edges {paths : List (List GoString)} (h : ∀ p ∈ paths, p.length = 2) :
    ∃ edges : List (GoString × GoString), paths = edges.map (fun e => [e.1,e.2]) := by
  induction paths with
  | nil => exact ⟨[],rfl⟩
  | cons p paths ih =>
    obtain ⟨edges,rfl⟩ := ih (fun q hq => h q (List.mem_cons_of_mem p hq))
    obtain ⟨a,b,rfl⟩ := List.length_eq_two.mp (h p List.mem_cons_self)
    exact ⟨(a,b)::edges,rfl⟩

/-- The end of a chain is found in whatever order its edges are given and the map is
enumerated, and a result that is not empty is reached by a path and left by none. -/
theorem destCity_finds_end (it : Iteration GoString ℕ) :
    (∀ (init : List GoString) (last : GoString) (edges : List (GoString × GoString)),
      init ≠ [] → (init++[last]).Nodup → edges.Perm (chain (init++[last])) →
      destCity it (edges.map (fun e => [e.1,e.2])) = .ok last) ∧
    ∀ paths : List (List GoString), (∀ p ∈ paths, p.length = 2) →
      ∃ r, destCity it paths = .ok r ∧
        (r ≠ [] → (∃ p ∈ paths, p[1]? = some r) ∧ ∀ p ∈ paths, p[0]? ≠ some r) := by
  constructor
  · intro init last edges hinit hnodup hperm
    obtain ⟨r,hr,hsink⟩ := destCity_sink it edges
    have hiff : ∀ c, Sink edges c ↔ c = last := by
      intro c
      rw [sink_perm hperm, sink_chain hinit hnodup]
    rcases hsink with hs | ⟨-,hnone⟩
    · rw [hr, (hiff r).mp hs]
    · exact absurd ((hiff last).mpr rfl) (hnone last)
  · intro paths hlen
    obtain ⟨edges,rfl⟩ := exists_edges hlen
    obtain ⟨r,hr,hsink⟩ := destCity_sink it edges
    refine ⟨r,hr,?_⟩
    intro hne
    rcases hsink with ⟨hdst,hsrc⟩ | ⟨hnil,-⟩
    · constructor
      · obtain ⟨e,he,rfl⟩ := List.mem_map.mp hdst
        exact ⟨[e.1,e.2],List.mem_map.mpr ⟨e,he,rfl⟩,rfl⟩
      · intro p hp hp0
        obtain ⟨e,he,rfl⟩ := List.mem_map.mp hp
        cases hp0
        exact hsrc (List.mem_map.mpr ⟨e,he,rfl⟩)
    · exact absurd hnil hne

theorem destCity_finds_end_two :
    destCity (latestFirst GoString ℕ) [[[1],[2]],[[0],[1]]] = .ok [2] :=
  (destCity_finds_end (latestFirst GoString ℕ)).1 [[0],[1]] [2] [([1],[2]),([0],[1])] (by decide)
    (by decide) (by decide)

end Gopher.DestCity
