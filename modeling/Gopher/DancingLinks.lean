import Mathlib.Data.List.Nodup
import Mathlib.Tactic

/-!
# Doubly linked lists and their removed nodes

The links of a list are two maps from nodes to nodes. A node that is taken out
of its list keeps its own links, so it can be put back: as long as everything
that was changed in between has been undone, putting it back restores all links
as they were.
-/

set_option autoImplicit false

namespace Gopher.DancingLinks

variable {P : Type*}

@[ext] structure Links (P : Type*) where
  next : P → Option P
  prev : P → Option P

namespace Links

structure Linked (links : Links P) (l : List P) : Prop where
  nodup : l.Nodup
  neighbours : ∀ front a back, l = front++a::back →
    links.prev a = front.getLast? ∧ links.next a = back.head?

section Neighbours

variable {links : Links P} {front back : List P} {before p : P}

theorem Linked.prev_eq (h : Linked links (front++before::p::back)) :
    links.prev p = some before := by
  rw [(h.neighbours (front++[before]) p back (by simp)).1]
  simp

theorem Linked.next_eq (h : Linked links (front++p::back)) : links.next p = back.head? :=
  (h.neighbours front p back rfl).2

theorem Linked.next_behind (h : Linked links (front++before::p::back)) :
    links.next p = back.head? :=
  (h.neighbours (front++[before]) p back (by simp)).2

theorem Linked.not_mem_around (h : Linked links (front++before::p::back)) : p ∉ before::back := by
  have hnodup := (List.nodup_append'.mp h.nodup).2.1
  rw [← List.singleton_append, List.nodup_middle] at hnodup
  exact (List.nodup_cons.mp hnodup).1

theorem Linked.ne_before (h : Linked links (front++before::p::back)) : p ≠ before :=
  fun hp => h.not_mem_around (List.mem_cons.mpr (Or.inl hp))

end Neighbours

variable [DecidableEq P]

def setNext (links : Links P) (p : P) (q : Option P) : Links P :=
  { links with next := Function.update links.next p q }

def setPrev (links : Links P) (p : P) (q : Option P) : Links P :=
  { links with prev := Function.update links.prev p q }

@[simp] theorem next_setNext (links : Links P) (p : P) (q : Option P) :
    (links.setNext p q).next = Function.update links.next p q := rfl

@[simp] theorem prev_setNext (links : Links P) (p : P) (q : Option P) :
    (links.setNext p q).prev = links.prev := rfl

@[simp] theorem next_setPrev (links : Links P) (p : P) (q : Option P) :
    (links.setPrev p q).next = links.next := rfl

@[simp] theorem prev_setPrev (links : Links P) (p : P) (q : Option P) :
    (links.setPrev p q).prev = Function.update links.prev p q := rfl

def setPrevOf (links : Links P) : Option P → Option P → Links P
  | some after, q => links.setPrev after q
  | none, _ => links

def unlink (links : Links P) (before : P) (after : Option P) : Links P :=
  (links.setNext before after).setPrevOf after (some before)

def relink (links : Links P) (p before : P) (after : Option P) : Links P :=
  (links.setNext before (some p)).setPrevOf after (some p)

theorem next_setPrevOf (links : Links P) (after q : Option P) :
    (links.setPrevOf after q).next = links.next := by
  cases after with
  | none => rfl
  | some _ => rfl

theorem prev_setPrevOf_of_ne (links : Links P) {after : Option P} (q : Option P) {a : P}
    (h : after ≠ some a) : (links.setPrevOf after q).prev a = links.prev a := by
  cases after with
  | none => rfl
  | some b => exact Function.update_of_ne (fun hab => h (by rw [hab])) _ _

variable {links : Links P} {front back : List P} {before p : P}

omit [DecidableEq P] in
theorem split_cases {l₁ l₂ m₁ m₂ : List P} {a b : P} (h : l₁++a::l₂ = m₁++b::m₂) :
    (∃ c, l₁ = m₁++b::c ∧ m₂ = c++a::l₂) ∨ (l₁ = m₁ ∧ a = b ∧ l₂ = m₂) ∨
      ∃ c, m₁ = l₁++a::c ∧ l₂ = c++b::m₂ := by
  rcases List.append_eq_append_iff.mp h with ⟨c,hm,hl⟩ | ⟨c,hl,hm⟩
  · cases c with
    | nil =>
      obtain ⟨hab,htail⟩ := List.cons_eq_cons.mp hl
      exact Or.inr (Or.inl ⟨by simpa using hm.symm,hab,htail⟩)
    | cons x c =>
      obtain ⟨hax,htail⟩ := List.cons_eq_cons.mp hl
      exact Or.inr (Or.inr ⟨c,by rw [hm, hax],htail⟩)
  · cases c with
    | nil =>
      obtain ⟨hba,htail⟩ := List.cons_eq_cons.mp hm
      exact Or.inr (Or.inl ⟨by simpa using hl,hba.symm,htail.symm⟩)
    | cons x c =>
      obtain ⟨hbx,htail⟩ := List.cons_eq_cons.mp hm
      exact Or.inl ⟨c,by rw [hl, hbx],htail⟩

theorem Linked.unlink (h : Linked links (front++before::p::back)) :
    Linked (links.unlink before back.head?) (front++before::back) := by
  have hnodup : (front++before::back).Nodup :=
    h.nodup.sublist ((List.Sublist.refl front).append ((List.sublist_cons_self p back).cons_cons before))
  refine ⟨hnodup,?_⟩
  intro f a b hsplit
  have hfresh : a ∉ f++b := (List.nodup_cons.mp (List.nodup_middle.mp (hsplit ▸ hnodup))).1
  rw [Links.unlink, next_setPrevOf]
  rcases split_cases hsplit.symm with ⟨c,rfl,rfl⟩ | ⟨rfl,rfl,rfl⟩ | ⟨c,rfl,rfl⟩
  · obtain ⟨hprev,hnext⟩ := h.neighbours (front++before::p::c) a b (by simp)
    have hne : a ≠ before := by
      rintro rfl
      simp at hfresh
    refine ⟨?_,by rw [next_setNext, Function.update_of_ne hne, hnext]⟩
    cases c with
    | nil => simp [setPrevOf]
    | cons x c =>
      have hax : some x ≠ some a := by
        rintro ⟨⟩
        simp at hfresh
      rw [List.cons_append, List.head?_cons, prev_setPrevOf_of_ne _ _ hax, prev_setNext, hprev]
      simp
  · obtain ⟨hprev,-⟩ := h.neighbours f a (p::b) rfl
    have hne : b.head? ≠ some a := by
      intro hb
      have hmem := List.mem_of_head? hb
      simp [hmem] at hfresh
    exact ⟨by rw [prev_setPrevOf_of_ne _ _ hne, prev_setNext, hprev],by simp⟩
  · obtain ⟨hprev,hnext⟩ := h.neighbours f a (c++before::p::back) (by simp)
    have hne : a ≠ before := by
      rintro rfl
      simp at hfresh
    have hback : back.head? ≠ some a := by
      intro hb
      have hmem := List.mem_of_head? hb
      simp [hmem] at hfresh
    refine ⟨by rw [prev_setPrevOf_of_ne _ _ hback, prev_setNext, hprev],?_⟩
    rw [next_setNext, Function.update_of_ne hne, hnext]
    cases c with
    | nil => rfl
    | cons x c => rfl

theorem Linked.unlink_own (h : Linked links (front++before::p::back)) :
    (links.unlink before back.head?).prev p = some before ∧
      (links.unlink before back.head?).next p = back.head? := by
  have hback : back.head? ≠ some p := fun hb =>
    h.not_mem_around (List.mem_cons_of_mem _ (List.mem_of_head? hb))
  refine ⟨by rw [Links.unlink, prev_setPrevOf_of_ne _ _ hback, prev_setNext, h.prev_eq],?_⟩
  rw [Links.unlink, next_setPrevOf, next_setNext, Function.update_of_ne h.ne_before, h.next_behind]

theorem Linked.relink_unlink (h : Linked links (front++before::p::back)) :
    (links.unlink before back.head?).relink p before back.head? = links := by
  have hbefore := (h.neighbours front before (p::back) rfl).2
  apply Links.ext
  · rw [relink, next_setPrevOf, next_setNext, Links.unlink, next_setPrevOf, next_setNext,
      Function.update_idem]
    exact Function.update_eq_self_iff.mpr hbefore.symm
  · cases back with
    | nil => rfl
    | cons after back =>
      have hafter := (h.neighbours (front++[before,p]) after back (by simp)).1
      simp only [relink, Links.unlink, List.head?_cons, setPrevOf, prev_setPrev, prev_setNext,
        Function.update_idem]
      exact Function.update_eq_self_iff.mpr (by rw [hafter]; simp)

end Links

end Gopher.DancingLinks
