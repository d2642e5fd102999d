import Gopher.DancingLinks
import Gopher.LinearizationSearch
import Gopher.MapOrders

/-!
# The entries of a history as linked nodes

A node is an address; its links are kept apart from its other fields, which
never change once it is made. Every pointer that is followed may be nil, and
following nil is a panic, here no result. The nodes are made from the last entry
to the first, so that the return of a call is already there when the call comes.
-/

set_option autoImplicit false

namespace Gopher.Porcupine
open Gopher.DancingLinks Gopher.DancingLinks.Links Gopher.MapOrders
open Gopher.LinearizationSearch

variable {ι ο : Type*}

/-- The kind of an entry goes with its value: an input is that of a call, an output that of a
return. -/
structure Entry (ι ο : Type*) where
  value : ι ⊕ ο
  id : ℕ
  time : ℤ
  clientId : ℤ

def Entry.event (e : Entry ι ο) : Event :=
  match e.value with
  | .inl _ => .call e.id
  | .inr _ => .ret e.id

structure Node (ι ο : Type*) where
  value : Option (ι ⊕ ο)
  matched : Option ℕ
  id : ℤ

structure Heap (ι ο : Type*) where
  node : ℕ → Node ι ο
  links : Links ℕ
  size : ℕ

namespace Heap

def empty : Heap ι ο where
  node _ := ⟨none,none,0⟩
  links := ⟨fun _ => none,fun _ => none⟩
  size := 0

def alloc (heap : Heap ι ο) (n : Node ι ο) : Heap ι ο where
  node := Function.update heap.node heap.size n
  links := (heap.links.setNext heap.size none).setPrev heap.size none
  size := heap.size+1

def event (heap : Heap ι ο) (p : ℕ) : Event :=
  match (heap.node p).matched with
  | some _ => .call (heap.node p).id.toNat
  | none => .ret (heap.node p).id.toNat

end Heap

def insertBefore (links : Links ℕ) (n : ℕ) : Option ℕ → Links ℕ
  | none => links
  | some mark =>
    match links.prev mark with
    | none => (links.setPrev mark (some n)).setNext n (some mark)
    | some beforeMark =>
      (((links.setPrev mark (some n)).setNext n (some mark)).setPrev n (some beforeMark)).setNext
        beforeMark (some n)

structure Linking (ι ο : Type*) where
  heap : Heap ι ο
  root : Option ℕ
  matching : Map ℕ ℕ

def addNode (l : Linking ι ο) (n : Node ι ο) : Heap ι ο :=
  { l.heap.alloc n with links := insertBefore (l.heap.alloc n).links l.heap.size l.root }

def linkEntry (elem : Entry ι ο) (l : Linking ι ο) : Linking ι ο :=
  match elem.value with
  | .inr output =>
    { heap := addNode l ⟨some (.inr output),none,elem.id⟩
      root := some l.heap.size
      matching := l.matching.insert elem.id l.heap.size }
  | .inl input =>
    { heap := addNode l ⟨some (.inl input),l.matching.lookup elem.id,elem.id⟩
      root := some l.heap.size
      matching := l.matching }

def makeLinkedEntries (entries : List (Entry ι ο)) : Linking ι ο :=
  entries.foldr linkEntry ⟨Heap.empty,none,∅⟩

def length (links : Links ℕ) : ℕ → Option ℕ → Option ℕ
  | _, none => some 0
  | 0, some _ => none
  | fuel+1, some n => (length links fuel (links.next n)).map (fun l => l+1)

def lift (heap : Heap ι ο) (entry : ℕ) : Option (Links ℕ) := do
  let prev ← heap.links.prev entry
  let links := heap.links.setNext prev (heap.links.next entry)
  let next ← links.next entry
  let links := links.setPrev next (links.prev entry)
  let matching ← (heap.node entry).matched
  let prev ← links.prev matching
  let links := links.setNext prev (links.next matching)
  match links.next matching with
  | some next => some (links.setPrev next (links.prev matching))
  | none => some links

def unlift (heap : Heap ι ο) (entry : ℕ) : Option (Links ℕ) := do
  let matching ← (heap.node entry).matched
  let prev ← heap.links.prev matching
  let links := heap.links.setNext prev (some matching)
  let links := match links.next matching with
    | some next => links.setPrev next (some matching)
    | none => links
  let prev ← links.prev entry
  let links := links.setNext prev (some entry)
  let next ← links.next entry
  some (links.setPrev next (some entry))

/-! ## Taking out a call and its return -/

section Lift

variable {heap : Heap ι ο} {head before before' p m next : ℕ}
  {front front' rest back qs rs₁ rs₂ : List ℕ}

structure Around (heap : Heap ι ο) (front : List ℕ) (before p next : ℕ) (rest front' : List ℕ)
    (before' m : ℕ) (back : List ℕ) : Prop where
  call : Linked heap.links (front++before::p::rest)
  next_eq : rest.head? = some next
  ret : Linked (heap.links.unlink before (some next)) (front'++before'::m::back)
  matched : (heap.node p).matched = some m

theorem Around.lift_eq (h : Around heap front before p next rest front' before' m back) :
    lift heap p = some ((heap.links.unlink before (some next)).unlink before' back.head?) := by
  have hnext : heap.links.next p = some next := h.call.next_behind.trans h.next_eq
  have hfirst : (heap.links.setNext before (some next)).next p = some next := by
    rw [next_setNext, Function.update_of_ne h.call.ne_before, hnext]
  have hprev' := h.ret.prev_eq
  have hnext' := h.ret.next_behind
  simp only [Links.unlink, setPrevOf] at hprev' hnext'
  simp only [lift, h.call.prev_eq, hnext, hfirst, h.matched, prev_setNext, Option.bind_eq_bind,
    Option.bind_some, hprev', hnext', Links.unlink, setPrevOf]
  rw [next_setNext, Function.update_of_ne h.ret.ne_before, hnext']
  cases back with
  | nil => rfl
  | cons r back => rfl

theorem Around.unlift_eq (h : Around heap front before p next rest front' before' m back) :
    unlift { heap with links := (heap.links.unlink before (some next)).unlink before' back.head? }
      p = some heap.links := by
  have hown := h.ret.unlink_own
  have hown' := h.call.unlink_own
  have hback' := h.call.relink_unlink
  rw [h.next_eq] at hown' hback'
  have hret : ∀ links : Links ℕ, links.next m = back.head? →
      (match (links.setNext before' (some m)).next m with
        | some next => (links.setNext before' (some m)).setPrev next (some m)
        | none => links.setNext before' (some m)) = links.relink m before' back.head? := by
    intro links hlinks
    rw [next_setNext, Function.update_of_ne h.ret.ne_before, hlinks, relink]
    cases back with
    | nil => rfl
    | cons r back => rfl
  have hsecond : ((heap.links.unlink before (some next)).setNext before (some p)).next p =
      some next := by
    rw [next_setNext, Function.update_of_ne h.call.ne_before, hown'.2]
  simp only [unlift, h.matched, hown.1, Option.bind_eq_bind, Option.bind_some]
  rw [hret _ hown.2, h.ret.relink_unlink]
  simp only [hown'.1, hsecond, Option.bind_some]
  exact congrArg some hback'

theorem exists_append_singleton (a : ℕ) (l : List ℕ) : ∃ front before, a::l = front++[before] :=
  ⟨_,_,(List.dropLast_append_getLast (List.cons_ne_nil a l)).symm⟩

theorem exists_around (hlinked : Linked heap.links (head::(qs++p::(rs₁++m::rs₂))))
    (hmatch : (heap.node p).matched = some m) :
    ∃ front before next front' before',
      Around heap front before p next (rs₁++m::rs₂) front' before' m rs₂ ∧
        head::(qs++(rs₁++rs₂)) = front'++before'::rs₂ := by
  obtain ⟨front,before,hfront⟩ := exists_append_singleton head qs
  obtain ⟨front',before',hfront'⟩ := exists_append_singleton head (qs++rs₁)
  obtain ⟨next,hnext⟩ : ∃ next, (rs₁++m::rs₂).head? = some next :=
    ⟨_,List.head?_eq_some_head (by simp)⟩
  have hlist : head::(qs++p::(rs₁++m::rs₂)) = front++before::p::(rs₁++m::rs₂) := by
    rw [← List.cons_append, hfront, List.append_assoc]
    rfl
  have hlist' : ∀ l, (front++[before])++(rs₁++l) = front'++before'::l := by
    intro l
    calc (front++[before])++(rs₁++l) = (head::(qs++rs₁))++l := by rw [← hfront]; simp
      _ = front'++before'::l := by rw [hfront']; simp
  have hcall : Linked heap.links (front++before::p::(rs₁++m::rs₂)) := hlist ▸ hlinked
  have hret := hcall.unlink
  rw [hnext, List.append_cons, hlist'] at hret
  refine ⟨front,before,next,front',before',⟨hcall,hnext,hret,hmatch⟩,?_⟩
  rw [← hlist', ← hfront, List.cons_append]

/-- A call is taken out together with its return; putting them back restores the links. -/
theorem lift_linked (hlinked : Linked heap.links (head::(qs++p::(rs₁++m::rs₂))))
    (hmatch : (heap.node p).matched = some m) :
    ∃ links, lift heap p = some links ∧ Linked links (head::(qs++(rs₁++rs₂))) ∧
      unlift { heap with links := links } p = some heap.links := by
  obtain ⟨front,before,next,front',before',h,hrest⟩ := exists_around hlinked hmatch
  refine ⟨_,h.lift_eq,?_,h.unlift_eq⟩
  rw [hrest]
  exact h.ret.unlink

end Lift

/-! ## Building the list -/

section Build

theorem insertBefore_linked {links : Links ℕ} {l : List ℕ} {n : ℕ} (h : Linked links l)
    (hn : n ∉ l) (hprev : links.prev n = none) (hnext : links.next n = none) :
    Linked (insertBefore links n l.head?) (n::l) := by
  refine ⟨List.nodup_cons.mpr ⟨hn,h.nodup⟩,?_⟩
  intro front a back hsplit
  cases l with
  | nil =>
    cases front with
    | nil =>
      obtain ⟨rfl,rfl⟩ := List.cons_eq_cons.mp hsplit
      exact ⟨hprev,hnext⟩
    | cons b front => simp at hsplit
  | cons mark l =>
    have hmark := (h.neighbours [] mark l rfl).1
    simp only [List.head?_cons, insertBefore, List.getLast?_nil] at hmark ⊢
    rw [hmark]
    simp only [prev_setNext, prev_setPrev, next_setNext, next_setPrev]
    cases front with
    | nil =>
      obtain ⟨rfl,rfl⟩ := List.cons_eq_cons.mp hsplit
      have hne : n ≠ mark := fun h => hn (by simp [h])
      rw [Function.update_of_ne hne]
      exact ⟨hprev,by simp⟩
    | cons b front =>
      obtain ⟨rfl,htail⟩ := List.cons_eq_cons.mp hsplit
      obtain ⟨hp,hx⟩ := h.neighbours front a back htail
      have hmem : a ∈ mark::l := by simp [htail]
      have hna : a ≠ n := fun h => hn (h ▸ hmem)
      rw [Function.update_of_ne hna, hx]
      refine ⟨?_,rfl⟩
      cases front with
      | nil =>
        obtain ⟨rfl,-⟩ := List.cons_eq_cons.mp htail
        simp
      | cons c front =>
        have ham : a ≠ mark := by
          obtain ⟨rfl,htl⟩ := List.cons_eq_cons.mp htail
          have hnodup := (List.nodup_cons.mp h.nodup).1
          rintro rfl
          exact hnodup (by simp [htl])
        rw [Function.update_of_ne ham, hp]
        rfl

structure Holds (heap : Heap ι ο) (ps : List ℕ) (es : List (Entry ι ο)) : Prop where
  linked : Linked heap.links ps
  bound : ∀ p ∈ ps, p < heap.size
  events : ps.map heap.event = es.map Entry.event
  data : ps.map (fun p => ((heap.node p).value,(heap.node p).id)) =
    es.map (fun e => (some e.value,(e.id : ℤ)))
  matched : ∀ p ∈ ps, ∀ i, heap.event p = .call i →
    ∃ m ∈ ps, (heap.node p).matched = some m ∧ heap.event m = .ret i

def Paired : List (Entry ι ο) → Prop
  | [] => True
  | e::es => (∀ i, e.event = .call i → .ret i ∈ es.map Entry.event) ∧ Paired es

structure Built (l : Linking ι ο) (ps : List ℕ) (es : List (Entry ι ο)) : Prop
    extends Holds l.heap ps es where
  root : l.root = ps.head?
  lookup : ∀ i p, l.matching.lookup i = some p → p ∈ ps ∧ l.heap.event p = .ret i
  returns : ∀ i, .ret i ∈ es.map Entry.event → ∃ p, l.matching.lookup i = some p

theorem addNode_links_linked {l : Linking ι ο} {ps : List ℕ} (hlinked : Linked l.heap.links ps)
    (hbound : ∀ p ∈ ps, p < l.heap.size) (hroot : l.root = ps.head?) (n : Node ι ο) :
    Linked (addNode l n).links (l.heap.size::ps) := by
  have hfresh : l.heap.size ∉ ps := fun h => (hbound _ h).false
  rw [addNode, hroot]
  apply insertBefore_linked
  · refine ⟨hlinked.nodup,fun front a back hsplit => ?_⟩
    have hne : a ≠ l.heap.size := by
      rintro rfl
      exact hfresh (by simp [hsplit])
    simp only [Heap.alloc, prev_setPrev, prev_setNext, next_setPrev, next_setNext,
      Function.update_of_ne hne]
    exact hlinked.neighbours front a back hsplit
  · exact hfresh
  · simp [Heap.alloc]
  · simp [Heap.alloc]

theorem addNode_node_of_lt {l : Linking ι ο} {n : Node ι ο} {p : ℕ} (h : p < l.heap.size) :
    (addNode l n).node p = l.heap.node p :=
  Function.update_of_ne h.ne _ _

theorem addNode_node_new (l : Linking ι ο) (n : Node ι ο) :
    (addNode l n).node l.heap.size = n :=
  Function.update_self _ _ _

theorem addNode_event_of_lt {l : Linking ι ο} {n : Node ι ο} {p : ℕ} (h : p < l.heap.size) :
    (addNode l n).event p = l.heap.event p := by
  rw [Heap.event, Heap.event, addNode_node_of_lt h]

/-- A node for one more entry in front: a return, or a call whose return is known. -/
theorem holds_addNode {l : Linking ι ο} {ps : List ℕ} {es : List (Entry ι ο)}
    (h : Built l ps es) (e : Entry ι ο) {matched : Option ℕ}
    (hevent : (addNode l ⟨some e.value,matched,e.id⟩).event l.heap.size = e.event)
    (hmatched : ∀ i, e.event = .call i → ∃ m ∈ ps, matched = some m ∧ l.heap.event m = .ret i) :
    Holds (addNode l ⟨some e.value,matched,e.id⟩) (l.heap.size::ps) (e::es) where
  linked := addNode_links_linked h.linked h.bound h.root _
  bound := by
    intro p hp
    rcases List.mem_cons.mp hp with rfl | hp
    · exact Nat.lt_succ_self _
    · exact (h.bound p hp).trans (Nat.lt_succ_self _)
  events := by
    rw [List.map_cons, List.map_cons, hevent, ← h.events]
    congr 1
    apply List.map_congr_left
    intro p hp
    exact addNode_event_of_lt (h.bound p hp)
  data := by
    rw [List.map_cons, List.map_cons, addNode_node_new, ← h.data]
    congr 1
    apply List.map_congr_left
    intro p hp
    rw [addNode_node_of_lt (h.bound p hp)]
  matched := by
    intro p hp i hi
    rcases List.mem_cons.mp hp with rfl | hp
    · rw [hevent] at hi
      obtain ⟨m,hm,rfl,hret⟩ := hmatched i hi
      refine ⟨m,List.mem_cons_of_mem _ hm,?_,?_⟩
      · rw [addNode_node_new]
      · rw [addNode_event_of_lt (h.bound m hm), hret]
    · rw [addNode_event_of_lt (h.bound p hp)] at hi
      obtain ⟨m,hm,hpm,hret⟩ := h.matched p hp i hi
      refine ⟨m,List.mem_cons_of_mem _ hm,?_,?_⟩
      · rw [addNode_node_of_lt (h.bound p hp), hpm]
      · rw [addNode_event_of_lt (h.bound m hm), hret]

theorem linkEntry_ret {l : Linking ι ο} {ps : List ℕ} {es : List (Entry ι ο)} (h : Built l ps es)
    (output : ο) (id : ℕ) (time clientId : ℤ) :
    Built (linkEntry ⟨.inr output,id,time,clientId⟩ l) (l.heap.size::ps)
      (⟨.inr output,id,time,clientId⟩::es) := by
  have hnew : (addNode l ⟨some (.inr output),none,id⟩).event l.heap.size = .ret id := by
    rw [Heap.event, addNode_node_new]
    rfl
  have hholds : Holds (addNode l ⟨some (.inr output),none,id⟩) (l.heap.size::ps)
      (⟨.inr output,id,time,clientId⟩::es) :=
    holds_addNode h ⟨.inr output,id,time,clientId⟩ hnew (fun i hi => by cases hi)
  refine ⟨hholds,rfl,?_,?_⟩
  · intro i p hp
    simp only [linkEntry] at hp ⊢
    rw [lookup_insert] at hp
    split at hp
    · rename_i hi
      cases hp
      rw [hi, hnew]
      exact ⟨List.mem_cons_self,rfl⟩
    · obtain ⟨hmem,hret⟩ := h.lookup i p hp
      rw [addNode_event_of_lt (h.bound p hmem)]
      exact ⟨List.mem_cons_of_mem _ hmem,hret⟩
  · intro i hi
    simp only [linkEntry]
    rw [lookup_insert]
    split
    · exact ⟨_,rfl⟩
    · rename_i hne
      rcases List.mem_cons.mp hi with heq | hi
      · exact absurd (Event.ret.inj heq) hne
      · exact h.returns i hi

theorem linkEntry_call {l : Linking ι ο} {ps : List ℕ} {es : List (Entry ι ο)} (h : Built l ps es)
    (input : ι) (id : ℕ) (time clientId : ℤ) (hpaired : .ret id ∈ es.map Entry.event) :
    Built (linkEntry ⟨.inl input,id,time,clientId⟩ l) (l.heap.size::ps)
      (⟨.inl input,id,time,clientId⟩::es) := by
  obtain ⟨m,hm⟩ := h.returns id hpaired
  obtain ⟨hmem,hret⟩ := h.lookup id m hm
  have hholds : Holds (addNode l ⟨some (.inl input),l.matching.lookup id,id⟩) (l.heap.size::ps)
      (⟨.inl input,id,time,clientId⟩::es) := by
    apply holds_addNode h ⟨.inl input,id,time,clientId⟩
    · rw [Heap.event, addNode_node_new, hm]
      rfl
    · intro i hi
      cases hi
      exact ⟨m,hmem,hm,hret⟩
  refine ⟨hholds,rfl,?_,?_⟩
  · intro i p hp
    obtain ⟨hin,hev⟩ := h.lookup i p hp
    refine ⟨List.mem_cons_of_mem _ hin,?_⟩
    simp only [linkEntry]
    rw [addNode_event_of_lt (h.bound p hin), hev]
  · intro i hi
    rcases List.mem_cons.mp hi with heq | hi
    · cases heq
    · exact h.returns i hi

theorem linkEntry_built {l : Linking ι ο} {ps : List ℕ} {e : Entry ι ο} {es : List (Entry ι ο)}
    (h : Built l ps es) (hpaired : Paired (e::es)) :
    Built (linkEntry e l) (l.heap.size::ps) (e::es) := by
  obtain ⟨value,id,time,clientId⟩ := e
  cases value with
  | inr output => exact linkEntry_ret h output id time clientId
  | inl input => exact linkEntry_call h input id time clientId (hpaired.1 id rfl)

theorem makeLinkedEntries_built (es : List (Entry ι ο)) (hpaired : Paired es) :
    ∃ ps, Built (makeLinkedEntries es) ps es := by
  induction es with
  | nil =>
    refine ⟨[],⟨⟨⟨List.nodup_nil,by simp⟩,by simp,rfl,rfl,by simp⟩,rfl,?_,by simp⟩⟩
    intro i p hp
    simp [makeLinkedEntries] at hp
  | cons e es ih =>
    obtain ⟨ps,hps⟩ := ih hpaired.2
    exact ⟨_,linkEntry_built hps hpaired⟩

theorem paired_of_wellFormed {n : ℕ} (es : List (Entry ι ο)) (front : List Event)
    (h : WellFormed (front++es.map Entry.event) n) : Paired es := by
  induction es generalizing front with
  | nil => trivial
  | cons e es ih =>
    refine ⟨?_,ih (front++[e.event]) (by simpa using h)⟩
    intro i hi
    rw [List.map_cons, hi] at h
    have hfront : Event.call i ∉ front := by
      intro hmem
      exact (List.nodup_append'.mp h.nodup).2.2 hmem List.mem_cons_self
    have hcall : callAt (front++.call i::es.map Entry.event) i = front.length := by
      rw [callAt, List.idxOf_append_of_notMem hfront, List.idxOf_cons_self, Nat.add_zero]
    have hn : i < n := (h.mem_iff (.call i)).mp (by simp)
    have hmem : Event.ret i ∈ front++.call i::es.map Entry.event := (h.mem_iff (.ret i)).mpr hn
    have hlt := h.ordered i hn
    rcases List.mem_append.mp hmem with hin | hin
    · have hret : retAt (front++.call i::es.map Entry.event) i < front.length := by
        rw [retAt, List.idxOf_append_of_mem hin]
        exact List.idxOf_lt_length_of_mem hin
      omega
    · simpa using hin

theorem length_eq {links : Links ℕ} {l : List ℕ} (h : Linked links l) (front back : List ℕ)
    (hl : l = front++back) {fuel : ℕ} (hfuel : back.length ≤ fuel) :
    length links fuel back.head? = some back.length := by
  induction back generalizing front fuel with
  | nil =>
    cases fuel with
    | zero => rfl
    | succ fuel => rfl
  | cons a back ih =>
    obtain ⟨fuel,rfl⟩ : ∃ k, fuel = k+1 := ⟨fuel-1,by simp at hfuel; omega⟩
    rw [List.head?_cons, length, (h.neighbours front a back hl).2,
      ih (front++[a]) (by simp [hl]) (by simpa using hfuel)]
    rfl

end Build

end Gopher.Porcupine
