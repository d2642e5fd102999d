import Mathlib.Data.List.FinRange
import Mathlib.Data.List.Forall2
import Mathlib.Data.List.Sort
import Mathlib.Tactic

/-!
# Linearizability

Every operation has a time at which it was invoked and a time at which it
returned. A history is linearizable for a sequential object when its operations
can be put in one order which the object accepts and in which nothing comes
before an operation that had returned before it was invoked.

Each operation of such an order can be given a point between its two times so
that the points never decrease. Merging by points shows that an object made of
independent parts is linearizable exactly when every part is.
-/

set_option autoImplicit false

namespace Gopher.Linearizability

variable {α β σ τ κ : Type*}

section Orders

variable [LinearOrder τ] (call ret : α → τ) (step : σ → α → Option σ) (init : σ)

def InOrder (l : List α) : Prop := l.Pairwise (fun a b => ¬ret b < call a)

structure Linearizes (ops l : List α) : Prop where
  perm : l.Perm ops
  inOrder : InOrder call ret l
  legal : (l.foldlM step init).isSome

def Linearizable (ops : List α) : Prop := ∃ l, Linearizes call ret step init ops l

/-- Some of the operations in an order the object accepts, each one after all that had
returned before it was invoked. -/
structure Partial (ops l : List α) : Prop where
  nodup : l.Nodup
  subset : l ⊆ ops
  closed : ∀ p a q, l = p++a::q → ∀ b ∈ ops, ret b < call a → b ∈ p
  legal : (l.foldlM step init).isSome

variable {call ret step init}

/-- A partial order of distinct operations that leaves none out linearizes them. -/
theorem Partial.linearizes {ops l : List α} (h : Partial call ret step init ops l)
    (hall : ops ⊆ l) (hnodup : ops.Nodup) : Linearizes call ret step init ops l := by
  refine ⟨(List.perm_ext_iff_of_nodup h.nodup hnodup).mpr
    (fun a => ⟨fun ha => h.subset ha,fun ha => hall ha⟩),?_,h.legal⟩
  rw [InOrder, List.pairwise_iff_forall_sublist]
  intro a b hab hlt
  obtain ⟨p,q,rfl,ha,hb⟩ := List.cons_sublist_iff.mp hab
  obtain ⟨p₁,p₂,rfl⟩ := List.append_of_mem ha
  have hbq : b ∈ q := List.singleton_sublist.mp hb
  have hbp : b ∈ p₁ := h.closed p₁ a (p₂++q) (by simp) b (h.subset (by simp [hbq])) hlt
  exact (List.nodup_append'.mp h.nodup).2.2 (by simp [hbp]) hbq

theorem Linearizes.partial {ops l : List α} (h : Linearizes call ret step init ops l)
    (hnodup : ops.Nodup) (htimes : ∀ a ∈ ops, call a ≤ ret a) :
    Partial call ret step init ops l := by
  refine ⟨h.perm.nodup_iff.mpr hnodup,h.perm.subset,?_,h.legal⟩
  rintro p a q rfl b hb hlt
  rcases List.mem_append.mp (h.perm.mem_iff.mpr hb) with hp | hq
  · exact hp
  · have hpair := (List.pairwise_append.mp h.inOrder).2.1
    rcases List.mem_cons.mp hq with rfl | hq
    · exact absurd hlt (htimes b hb).not_gt
    · exact absurd hlt ((List.pairwise_cons.mp hpair).1 b hq)

/-- Only the comparisons of a return with an invocation matter. -/
theorem Linearizes.congr {τ' : Type*} [LinearOrder τ'] {call' ret' : α → τ'} {ops l : List α}
    (h : Linearizes call ret step init ops l)
    (htimes : ∀ a ∈ ops, ∀ b ∈ ops, ret' b < call' a → ret b < call a) :
    Linearizes call' ret' step init ops l := by
  refine ⟨h.perm,?_,h.legal⟩
  apply h.inOrder.imp_of_mem
  intro a b ha hb hnot hlt
  exact hnot (htimes a (h.perm.mem_iff.mp ha) b (h.perm.mem_iff.mp hb) hlt)

theorem Partial.congr {τ' : Type*} [LinearOrder τ'] {call' ret' : α → τ'} {ops l : List α}
    (h : Partial call ret step init ops l)
    (htimes : ∀ a ∈ ops, ∀ b ∈ ops, ret' b < call' a → ret b < call a) :
    Partial call' ret' step init ops l := by
  refine ⟨h.nodup,h.subset,?_,h.legal⟩
  rintro p a q rfl b hb hlt
  exact h.closed p a q rfl b hb (htimes a (h.subset (by simp)) b hb hlt)

end Orders

theorem exists_perm_map {g : β → α} {l : List α} {ids : List β} (h : l.Perm (ids.map g)) :
    ∃ m : List β, m.Perm ids ∧ m.map g = l := by
  have himage : List.Forall₂ (fun a i => a = g i) (ids.map g) ids := by
    rw [List.forall₂_map_left_iff, List.forall₂_same]
    exact fun _ _ => rfl
  obtain ⟨m,hm,hperm⟩ := List.perm_comp_forall₂ h himage
  refine ⟨m,hperm,?_⟩
  clear h hperm himage
  induction hm with
  | nil => rfl
  | cons hab _ ih => rw [List.map_cons, ih, ← hab]

section Names

variable [LinearOrder τ] {call ret : α → τ} {step : σ → α → Option σ} {init : σ}

theorem linearizable_map_iff (g : β → α) (ids : List β) :
    Linearizable call ret step init (ids.map g) ↔
      Linearizable (call ∘ g) (ret ∘ g) (fun s i => step s (g i)) init ids := by
  constructor
  · rintro ⟨l,hl⟩
    obtain ⟨m,hm,rfl⟩ := exists_perm_map hl.perm
    refine ⟨m,hm,List.pairwise_map.mp hl.inOrder,?_⟩
    rw [← List.foldlM_map]
    exact hl.legal
  · rintro ⟨m,hm⟩
    refine ⟨m.map g,hm.perm.map g,List.pairwise_map.mpr hm.inOrder,?_⟩
    rw [List.foldlM_map]
    exact hm.legal

theorem linearizable_places_iff {τ' : Type*} [LinearOrder τ'] {call' ret' : ℕ → τ'}
    {step' : σ → ℕ → Option σ} (ops : List α)
    (hstep : ∀ s i a, ops[i]? = some a → step' s i = step s a)
    (htimes : ∀ i j a b, ops[i]? = some a → ops[j]? = some b →
      (ret' j < call' i ↔ ret b < call a)) :
    Linearizable call' ret' step' init (List.range ops.length) ↔
      Linearizable call ret step init ops := by
  have hplace : ∀ i : Fin ops.length, ops[i.val]? = some (ops.get i) :=
    fun i => List.getElem?_eq_getElem i.isLt
  have hsteps : (fun s (i : Fin ops.length) => step' s i.val) = fun s i => step s (ops.get i) := by
    funext s i
    exact hstep s i _ (hplace i)
  rw [← List.map_coe_finRange_eq_range, linearizable_map_iff, hsteps]
  conv_rhs => rw [← List.map_get_finRange ops]
  rw [linearizable_map_iff]
  constructor
  · rintro ⟨l,hl⟩
    exact ⟨l,hl.congr (fun i _ j _ hlt => (htimes i j _ _ (hplace i) (hplace j)).mpr hlt)⟩
  · rintro ⟨l,hl⟩
    exact ⟨l,hl.congr (fun i _ j _ hlt => (htimes i j _ _ (hplace i) (hplace j)).mp hlt)⟩

end Names

section Points

variable [LinearOrder τ] {call ret : α → τ}

def stamp (call : α → τ) : τ → List α → List (τ × α)
  | _, [] => []
  | m, a::l => (max m (call a),a)::stamp call (max m (call a)) l

theorem map_snd_stamp (l : List α) (m : τ) : (stamp call m l).map Prod.snd = l := by
  induction l generalizing m with
  | nil => rfl
  | cons a l ih => rw [stamp, List.map_cons, ih]

theorem le_of_mem_stamp {l : List α} {m : τ} {p : τ × α} (hp : p ∈ stamp call m l) :
    m ≤ p.1 ∧ call p.2 ≤ p.1 := by
  induction l generalizing m with
  | nil => cases hp
  | cons a l ih =>
    rcases List.mem_cons.mp hp with rfl | hp
    · exact ⟨le_max_left _ _,le_max_right _ _⟩
    · obtain ⟨hm,hc⟩ := ih hp
      exact ⟨(le_max_left _ _).trans hm,hc⟩

theorem stamp_sorted (l : List α) (m : τ) :
    (stamp call m l).Pairwise (fun p q => p.1 ≤ q.1) := by
  induction l generalizing m with
  | nil => exact List.Pairwise.nil
  | cons a l ih => exact List.pairwise_cons.mpr ⟨fun p hp => (le_of_mem_stamp hp).1,ih _⟩

/-- In an order that respects the times no point is later than the return. -/
theorem stamp_le_ret {l : List α} (hl : InOrder call ret l) (htimes : ∀ a ∈ l, call a ≤ ret a)
    {m : τ} (hm : ∀ a ∈ l, m ≤ ret a) {p : τ × α} (hp : p ∈ stamp call m l) : p.1 ≤ ret p.2 := by
  induction l generalizing m with
  | nil => cases hp
  | cons a l ih =>
    have hpair := List.pairwise_cons.mp hl
    rcases List.mem_cons.mp hp with rfl | hp
    · exact max_le (hm a List.mem_cons_self) (htimes a List.mem_cons_self)
    · apply ih hpair.2 (fun b hb => htimes b (List.mem_cons_of_mem a hb)) _ hp
      intro b hb
      exact max_le (hm b (List.mem_cons_of_mem a hb)) (not_lt.mp (hpair.1 b hb))

/-- Points for an order: each lies between the two times of its operation. -/
theorem exists_points {l : List α} (hl : InOrder call ret l) (htimes : ∀ a ∈ l, call a ≤ ret a) :
    ∃ ps : List (τ × α), ps.map Prod.snd = l ∧ ps.Pairwise (fun p q => p.1 ≤ q.1) ∧
      ∀ p ∈ ps, call p.2 ≤ p.1 ∧ p.1 ≤ ret p.2 := by
  cases l with
  | nil => exact ⟨[],rfl,List.Pairwise.nil,by simp⟩
  | cons a l =>
    refine ⟨stamp call (call a) (a::l),map_snd_stamp _ _,stamp_sorted _ _,?_⟩
    intro p hp
    refine ⟨(le_of_mem_stamp hp).2,stamp_le_ret hl htimes ?_ hp⟩
    intro b hb
    rcases List.mem_cons.mp hb with rfl | hb
    · exact htimes b List.mem_cons_self
    · exact not_lt.mp ((List.pairwise_cons.mp hl).1 b hb)

theorem flatMap_single {β : Type*} [DecidableEq κ] {keys : List κ} (hkeys : keys.Nodup) {k : κ}
    (hk : k ∈ keys) (l : List β) : keys.flatMap (fun j => if j = k then l else []) = l := by
  induction keys with
  | nil => cases hk
  | cons j keys ih =>
    rw [List.nodup_cons] at hkeys
    rw [List.flatMap_cons]
    by_cases h : j = k
    · subst h
      have hnil : ∀ i ∈ keys, (if i = j then l else []) = [] := by
        intro i hi
        rw [if_neg]
        rintro rfl
        exact hkeys.1 hi
      rw [if_pos rfl, List.flatMap_congr hnil]
      simp
    · rw [if_neg h, List.nil_append]
      exact ih hkeys.2 ((List.mem_cons.mp hk).resolve_left (fun h' => h h'.symm))

theorem filter_flatMap_key {β : Type*} [DecidableEq κ] {key : β → κ} {keys : List κ}
    (hkeys : keys.Nodup) {part : κ → List β} (hkey : ∀ k, ∀ p ∈ part k, key p = k) {k : κ}
    (hk : k ∈ keys) : (keys.flatMap part).filter (fun p => key p = k) = part k := by
  have hother : ∀ j ∈ keys, (part j).filter (fun p => key p = k) =
      if j = k then part k else [] := by
    intro j _
    split
    · rename_i h
      subst h
      exact List.filter_eq_self.mpr (fun p hp => by simpa using hkey _ p hp)
    · rename_i h
      exact List.filter_eq_nil_iff.mpr (fun p hp => by simpa [hkey _ p hp] using h)
  rw [List.filter_flatMap, List.flatMap_congr hother, flatMap_single hkeys hk]

theorem inOrder_of_points {l : List (τ × α)} (hl : l.Pairwise (fun p q => p.1 ≤ q.1))
    (hpoint : ∀ p ∈ l, call p.2 ≤ p.1 ∧ p.1 ≤ ret p.2) : InOrder call ret (l.map Prod.snd) := by
  rw [InOrder, List.pairwise_map]
  apply hl.imp_of_mem
  intro p q hp hq hpq hlt
  exact absurd (((hpoint p hp).1.trans hpq).trans (hpoint q hq).2) hlt.not_ge

/-- Sorted lists with different keys, merged: each is found again under its key. -/
theorem exists_merge [DecidableEq κ] (key : α → κ) (keys : List κ) (hkeys : keys.Nodup)
    (part : κ → List (τ × α)) (hsorted : ∀ k, (part k).Pairwise (fun p q => p.1 ≤ q.1))
    (hkey : ∀ k, ∀ p ∈ part k, key p.2 = k) :
    ∃ l : List (τ × α), l.Perm (keys.flatMap part) ∧ l.Pairwise (fun p q => p.1 ≤ q.1) ∧
      ∀ k ∈ keys, l.filter (fun p => key p.2 = k) = part k := by
  have htrans : ∀ p q r : τ × α, decide (p.1 ≤ q.1) → decide (q.1 ≤ r.1) →
      decide (p.1 ≤ r.1) := by
    simp only [decide_eq_true_eq]
    exact fun p q r => le_trans
  have htotal : ∀ p q : τ × α, decide (p.1 ≤ q.1) || decide (q.1 ≤ p.1) := by
    simp only [Bool.or_eq_true, decide_eq_true_eq]
    exact fun p q => le_total _ _
  have hperm := List.mergeSort_perm (keys.flatMap part) (fun p q => decide (p.1 ≤ q.1))
  refine ⟨_,hperm,(List.pairwise_mergeSort htrans htotal _).imp of_decide_eq_true,?_⟩
  intro k hk
  have hpart : (keys.flatMap part).filter (fun p => key p.2 = k) = part k :=
    filter_flatMap_key hkeys hkey hk
  have hsub : (part k).Sublist ((keys.flatMap part).mergeSort (fun p q => decide (p.1 ≤ q.1))) := by
    apply List.sublist_mergeSort htrans htotal
    · exact (hsorted k).imp (fun h => by simpa using h)
    · rw [← hpart]
      exact List.filter_sublist
  have hfilter := hsub.filter (fun p => decide (key p.2 = k))
  have hself : (part k).filter (fun p => decide (key p.2 = k)) = part k :=
    List.filter_eq_self.mpr (fun p hp => by simpa using hkey k p hp)
  rw [hself] at hfilter
  refine (hfilter.eq_of_length ?_).symm
  have hlen := (hperm.filter (fun p => decide (key p.2 = k))).length_eq
  rw [hpart] at hlen
  exact hlen.symm

end Points

section Parts

variable [DecidableEq κ] (key : α → κ) (step : σ → α → Option σ)

def together (f : κ → σ) (a : α) : Option (κ → σ) :=
  (step (f (key a)) a).map (Function.update f (key a))

theorem together_legal_iff (l : List α) (f : κ → σ) :
    (l.foldlM (together key step) f).isSome ↔
      ∀ k, ((l.filter (fun a => key a = k)).foldlM step (f k)).isSome := by
  induction l generalizing f with
  | nil => simp
  | cons a l ih =>
    rw [List.foldlM_cons, together]
    cases hstep : step (f (key a)) a with
    | none =>
      simp only [Option.map_none, Option.bind_eq_bind, Option.bind_none, Option.isSome_none,
        Bool.false_eq_true, false_iff, not_forall]
      refine ⟨key a,?_⟩
      simp [List.foldlM_cons, hstep]
    | some s =>
      simp only [Option.map_some, Option.bind_eq_bind, Option.bind_some]
      rw [ih]
      apply forall_congr'
      intro k
      by_cases hk : key a = k
      · subst hk
        simp [List.foldlM_cons, hstep]
      · rw [Function.update_of_ne (fun h => hk h.symm)]
        simp [hk]

theorem perm_flatMap_filter (keys : List κ) (hkeys : keys.Nodup) (l : List α)
    (hl : ∀ a ∈ l, key a ∈ keys) :
    (keys.flatMap (fun k => l.filter (fun a => key a = k))).Perm l := by
  induction keys generalizing l with
  | nil =>
    cases l with
    | nil => exact List.Perm.refl _
    | cons a l => exact absurd (hl a List.mem_cons_self) List.not_mem_nil
  | cons k keys ih =>
    rw [List.nodup_cons] at hkeys
    have hrest : ∀ j ∈ keys, l.filter (fun a => key a = j) =
        (l.filter (fun a => !decide (key a = k))).filter (fun a => key a = j) := by
      intro j hj
      rw [List.filter_filter]
      apply List.filter_congr
      intro a _
      by_cases h : key a = j
      · have hne : key a ≠ k := fun hk => hkeys.1 (hk ▸ h ▸ hj)
        simp [h, h ▸ hne]
      · simp [h]
    rw [List.flatMap_cons, List.flatMap_congr hrest]
    refine List.Perm.trans (List.Perm.append_left _ (ih hkeys.2 _ ?_))
      (List.filter_append_perm (fun a => decide (key a = k)) l)
    intro a ha
    have ha' : a ∈ l ∧ key a ≠ k := by simpa using ha
    exact (List.mem_cons.mp (hl a ha'.1)).resolve_left ha'.2

variable [LinearOrder τ] {call ret : α → τ} {init : κ → σ} {ops : List α}

theorem exists_part_points (htimes : ∀ a ∈ ops, call a ≤ ret a)
    (h : ∀ k ∈ ops.map key,
      Linearizable call ret step (init k) (ops.filter (fun a => key a = k))) (k : κ) :
    ∃ ps : List (τ × α),
      (k ∈ ops.map key → (ps.map Prod.snd).Perm (ops.filter (fun a => key a = k)) ∧
        ((ps.map Prod.snd).foldlM step (init k)).isSome) ∧
      ps.Pairwise (fun p q => p.1 ≤ q.1) ∧
      ∀ p ∈ ps, key p.2 = k ∧ call p.2 ≤ p.1 ∧ p.1 ≤ ret p.2 := by
  by_cases hk : k ∈ ops.map key
  · obtain ⟨l,hl⟩ := h k hk
    have hmem : ∀ a ∈ l, a ∈ ops ∧ key a = k := by
      intro a ha
      simpa using hl.perm.mem_iff.mp ha
    obtain ⟨ps,hps,hsorted,hpoints⟩ :=
      exists_points hl.inOrder (fun a ha => htimes a (hmem a ha).1)
    refine ⟨ps,fun _ => by rw [hps]; exact ⟨hl.perm,hl.legal⟩,hsorted,?_⟩
    intro p hp
    refine ⟨(hmem p.2 ?_).2,hpoints p hp⟩
    rw [← hps]
    exact List.mem_map_of_mem hp
  · exact ⟨[],fun h => absurd h hk,List.Pairwise.nil,by simp⟩

theorem together_legal {l : List α} (hkeys : ∀ a ∈ l, key a ∈ ops.map key)
    (h : ∀ k ∈ ops.map key, ((l.filter (fun a => key a = k)).foldlM step (init k)).isSome) :
    (l.foldlM (together key step) init).isSome := by
  rw [together_legal_iff]
  intro k
  by_cases hk : k ∈ ops.map key
  · exact h k hk
  · have hnil : l.filter (fun a => key a = k) = [] := by
      rw [List.filter_eq_nil_iff]
      intro a ha heq
      exact hk (of_decide_eq_true heq ▸ hkeys a ha)
    rw [hnil]
    rfl

/-- The whole is linearizable exactly when every part is. -/
theorem linearizable_together_iff (init : κ → σ) (ops : List α)
    (htimes : ∀ a ∈ ops, call a ≤ ret a) :
    Linearizable call ret (together key step) init ops ↔
      ∀ k ∈ ops.map key,
        Linearizable call ret step (init k) (ops.filter (fun a => key a = k)) := by
  constructor
  · rintro ⟨l,hl⟩ k _
    exact ⟨l.filter (fun a => key a = k),hl.perm.filter _,hl.inOrder.filter _,
      (together_legal_iff key step l init).mp hl.legal k⟩
  · intro h
    choose part hpart hsorted hpoints using exists_part_points key step htimes h
    obtain ⟨l,hperm,hl,hfilter⟩ := exists_merge key (ops.map key).dedup (List.nodup_dedup _)
      part hsorted (fun k p hp => (hpoints k p hp).1)
    have hmem : ∀ p ∈ l, ∃ k ∈ ops.map key, p ∈ part k := by
      intro p hp
      obtain ⟨k,hk,hpk⟩ := List.mem_flatMap.mp (hperm.mem_iff.mp hp)
      exact ⟨k,List.mem_dedup.mp hk,hpk⟩
    refine ⟨l.map Prod.snd,?_,?_,?_⟩
    · calc (l.map Prod.snd).Perm ((ops.map key).dedup.flatMap part |>.map Prod.snd) := hperm.map _
        _ = (ops.map key).dedup.flatMap (fun k => (part k).map Prod.snd) := List.map_flatMap
        _ |>.Perm ((ops.map key).dedup.flatMap (fun k => ops.filter (fun a => key a = k))) := by
          apply List.Perm.flatMap_left
          intro k hk
          exact (hpart k (List.mem_dedup.mp hk)).1
        _ |>.Perm ops := perm_flatMap_filter key _ (List.nodup_dedup _) ops
          (fun a ha => List.mem_dedup.mpr (List.mem_map_of_mem ha))
    · apply inOrder_of_points hl
      intro p hp
      obtain ⟨k,-,hpk⟩ := hmem p hp
      exact (hpoints k p hpk).2
    · apply together_legal key step
      · intro a ha
        obtain ⟨p,hp,rfl⟩ := List.mem_map.mp ha
        obtain ⟨k,hk,hpk⟩ := hmem p hp
        rwa [(hpoints k p hpk).1]
      · intro k hk
        rw [List.filter_map]
        show (((l.filter (fun p => key p.2 = k)).map Prod.snd).foldlM step (init k)).isSome
        rw [hfilter k (List.mem_dedup.mpr hk)]
        exact (hpart k hk).2

end Parts

end Gopher.Linearizability
