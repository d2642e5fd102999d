import Mathlib.Data.List.FinRange
import Mathlib.Data.List.Nodup
import Mathlib.Tactic
import Gopher.MapOrders

/-!
# Lists grouped by a key

Every element is appended to the list of its key. However the map is then
enumerated, the groups split the positions of the list: every position stands
in one group, each group keeps the order, and two positions share a group
exactly when their elements have the same key.
-/

set_option autoImplicit false

namespace Gopher.Grouping
open Gopher.MapOrders

variable {α κ : Type*} [DecidableEq κ]

def addTo (key : α → κ) (m : Map κ (List α)) (a : α) : Map κ (List α) :=
  m.insert (key a) ((m.lookup (key a)).getD []++[a])

def collect (key : α → κ) (l : List α) : Map κ (List α) := l.foldl (addTo key) ∅

structure Splits (same : α → α → Prop) (l : List α) (groups : List (List α))
    (places : List (List (Fin l.length))) : Prop where
  groups_eq : groups = places.map (fun p => p.map l.get)
  nonempty : ∀ p ∈ places, p ≠ []
  ordered : ∀ p ∈ places, p.Pairwise (fun i j => i < j)
  all_once : places.flatten.Perm (List.finRange l.length)
  same_iff : ∀ (g h : ℕ) (p q : List (Fin l.length)), places[g]? = some p → places[h]? = some q →
    ∀ i ∈ p, ∀ j ∈ q, g = h ↔ same (l.get i) (l.get j)

theorem lookup_collect (key : α → κ) (l : List α) (k : κ) :
    (collect key l).lookup k =
      if k ∈ l.map key then some (l.filter (fun a => key a = k)) else none := by
  induction l using List.reverseRecOn with
  | nil => simp [collect]
  | append_singleton l a ih =>
    have hstep : collect key (l++[a]) = addTo key (collect key l) a := by
      rw [collect, List.foldl_append]
      rfl
    have hold : ∀ k, k ∉ l.map key → l.filter (fun a => key a = k) = [] := by
      intro k hk
      rw [List.filter_eq_nil_iff]
      intro b hb hkey
      exact hk (List.mem_map.mpr ⟨b,hb,by simpa using hkey⟩)
    rw [hstep, addTo]
    by_cases hk : k = key a
    · subst hk
      rw [AList.lookup_insert, if_pos (by simp), List.filter_append]
      rw [ih]
      split
      · simp
      · rename_i hnot
        simp [hold _ hnot]
    · rw [AList.lookup_insert_ne hk, ih]
      simp only [List.map_append, List.map_singleton, List.mem_append, List.mem_singleton, hk,
        or_false, List.filter_append, List.filter_singleton, Ne.symm hk]
      simp

def placesOf (key : α → κ) (l : List α) (k : κ) : List (Fin l.length) :=
  (List.finRange l.length).filter (fun i => key (l.get i) = k)

theorem mem_placesOf {key : α → κ} {l : List α} {k : κ} {i : Fin l.length} :
    i ∈ placesOf key l k ↔ key (l.get i) = k := by
  simp [placesOf]

theorem map_get_placesOf (key : α → κ) (l : List α) (k : κ) :
    (placesOf key l k).map l.get = l.filter (fun a => key a = k) := by
  have hl : (List.finRange l.length).map l.get = l := List.map_get_finRange l
  conv_rhs => rw [← hl]
  rw [List.filter_map]
  rfl

theorem placesOf_flatten (key : α → κ) (l : List α) {keys : List κ} (hnodup : keys.Nodup)
    (hkeys : ∀ a ∈ l, key a ∈ keys) :
    (keys.map (placesOf key l)).flatten.Perm (List.finRange l.length) := by
  rw [List.perm_ext_iff_of_nodup _ (List.nodup_finRange _)]
  · intro i
    simp only [List.mem_flatten, List.mem_map, List.mem_finRange, iff_true]
    exact ⟨_,⟨key (l.get i),hkeys _ (List.get_mem l i),rfl⟩,mem_placesOf.mpr rfl⟩
  · rw [List.nodup_flatten]
    constructor
    · intro p hp
      obtain ⟨k,-,rfl⟩ := List.mem_map.mp hp
      exact (List.nodup_finRange _).filter _
    · rw [List.pairwise_map]
      apply hnodup.imp
      intro a b hab i ha hb
      exact hab ((mem_placesOf.mp ha).symm.trans (mem_placesOf.mp hb))

theorem mem_order_collect {key : α → κ} {l : List α} {it : Iteration κ (List α)}
    {e : κ × List α} (he : e ∈ it.order (collect key l)) :
    e.1 ∈ l.map key ∧ e.2 = l.filter (fun a => key a = e.1) := by
  have hlook := (it.mem_order _).mp he
  rw [lookup_collect] at hlook
  split at hlook
  · rename_i hmem
    exact ⟨hmem,(Option.some.inj hlook).symm⟩
  · cases hlook

theorem collect_splits (key : α → κ) (l : List α) (it : Iteration κ (List α)) :
    Splits (fun a b => key a = key b) l ((it.order (collect key l)).map Prod.snd)
      (((it.order (collect key l)).map Prod.fst).map (placesOf key l)) := by
  have hnodup := it.nodup_keys (collect key l)
  constructor
  · rw [List.map_map, List.map_map]
    apply List.map_congr_left
    intro e he
    rw [(mem_order_collect he).2]
    exact (map_get_placesOf key l e.1).symm
  · intro p hp hnil
    obtain ⟨k,hk,rfl⟩ := List.mem_map.mp hp
    obtain ⟨e,he,rfl⟩ := List.mem_map.mp hk
    obtain ⟨a,ha,hkey⟩ := List.mem_map.mp (mem_order_collect he).1
    obtain ⟨i,rfl⟩ := List.get_of_mem ha
    exact absurd (mem_placesOf.mpr hkey) (hnil ▸ List.not_mem_nil)
  · intro p hp
    obtain ⟨k,-,rfl⟩ := List.mem_map.mp hp
    exact (List.pairwise_lt_finRange _).filter _
  · apply placesOf_flatten key l hnodup
    intro a ha
    have hlook := lookup_collect key l (key a)
    rw [if_pos (List.mem_map_of_mem ha)] at hlook
    exact List.mem_map.mpr ⟨_,(it.mem_order _).mpr hlook,rfl⟩
  · intro g h p q hp hq i hi j hj
    rw [List.getElem?_map] at hp hq
    obtain ⟨k,hk,rfl⟩ := Option.map_eq_some_iff.mp hp
    obtain ⟨k',hk',rfl⟩ := Option.map_eq_some_iff.mp hq
    rw [mem_placesOf.mp hi, mem_placesOf.mp hj]
    constructor
    · rintro rfl
      exact Option.some.inj (hk.symm.trans hk')
    · rintro rfl
      have hg := (List.getElem?_eq_some_iff.mp hk).1
      exact (List.getElem?_inj hg hnodup).mp (hk.trans hk'.symm)

theorem Splits.flatten_perm {same : α → α → Prop} {l : List α} {groups : List (List α)}
    {places : List (List (Fin l.length))} (h : Splits same l groups places) :
    groups.flatten.Perm l := by
  have hl : (List.finRange l.length).map l.get = l := List.map_get_finRange l
  rw [h.groups_eq, ← List.map_flatten]
  conv_rhs => rw [← hl]
  exact h.all_once.map _

theorem Splits.group_ne_nil {same : α → α → Prop} {l : List α} {groups : List (List α)}
    {places : List (List (Fin l.length))} (h : Splits same l groups places) :
    ∀ group ∈ groups, group ≠ [] := by
  intro group hgroup
  rw [h.groups_eq] at hgroup
  obtain ⟨p,hp,rfl⟩ := List.mem_map.mp hgroup
  simpa using h.nonempty p hp

theorem Splits.mono {same same' : α → α → Prop} {l : List α} {groups : List (List α)}
    {places : List (List (Fin l.length))} (h : Splits same l groups places)
    (hiff : ∀ a ∈ l, ∀ b ∈ l, same a b ↔ same' a b) : Splits same' l groups places := by
  refine ⟨h.groups_eq,h.nonempty,h.ordered,h.all_once,?_⟩
  intro g k p q hp hq i hi j hj
  rw [h.same_iff g k p q hp hq i hi j hj]
  exact hiff _ (List.get_mem l i) _ (List.get_mem l j)

end Gopher.Grouping
