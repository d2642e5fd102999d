import Gopher.Bitsets
import Gopher.Grouping
import Gopher.LinkedEntries

/-!
# The linearizability check of one history

The loop over the linked entries, statement by statement: the entry under the
cursor is tried, passed over or undone. A sequence that is recorded is a new
slice at an address of its own. An index out of range, nil that is followed and a
value of the wrong kind are panics, here no result.

Every turn does what the search over lists does, so the check never panics and
always ends; its verdict is exact, and so are the sequences it records.
-/

set_option autoImplicit false

namespace Gopher.Porcupine
open Gopher.DancingLinks Gopher.DancingLinks.Links Gopher.MapOrders Gopher.Grouping
open Gopher.LinearizationSearch Gopher.Linearizability Gopher.Bitsets Gopher.Loops

variable {σ ι ο : Type}

structure Object (σ ι ο : Type) where
  init : σ
  step : σ → ι → ο → Bool × σ
  equal : σ → σ → Bool

structure CacheEntry (σ : Type) where
  linearized : Bitset
  state : σ

structure CallsEntry (σ : Type) where
  entry : ℕ
  state : σ

structure Seq where
  address : ℕ
  ids : List ℤ
  deriving DecidableEq

structure CheckState (σ ι ο : Type) where
  heap : Heap ι ο
  headEntry : ℕ
  entry : Option ℕ
  linearized : Bitset
  cache : Map (BitVec 64) (List (CacheEntry σ))
  calls : List (CallsEntry σ)
  state : σ
  longest : List (Option Seq)
  slices : ℕ

abbrev Verdict : Type := Bool × List (Option Seq)

def cacheContains (obj : Object σ ι ο) (cache : Map (BitVec 64) (List (CacheEntry σ)))
    (entry : CacheEntry σ) : Bool :=
  ((cache.lookup (Bitsets.hash entry.linearized)).getD []).any
    (fun elem => equals entry.linearized elem.linearized && obj.equal entry.state elem.state)

def index (id : ℤ) : Option ℕ := if 0 ≤ id then some id.toNat else none

namespace CheckState

variable (st : CheckState σ ι ο)

def callIds : List ℤ := st.calls.map (fun v => (st.heap.node v.entry).id)

def newSeq : Seq := ⟨st.slices,st.callIds⟩

def recordOne (seq : Seq) (longest : List (Option Seq)) (id : ℤ) : Option (List (Option Seq)) := do
  let i ← index id
  let old ← longest[i]?
  some (if old.all (fun q => q.ids.length < seq.ids.length) then longest.set i (some seq)
    else longest)

def recordLongest : Option (List (Option Seq)) := st.callIds.foldlM (recordOne st.newSeq) st.longest

def passOver (entry : ℕ) : CheckState σ ι ο := { st with entry := st.heap.links.next entry }

def enter (entry : ℕ) (newLinearized : Bitset) (newState : σ) : Option (CheckState σ ι ο) := do
  let links ← lift st.heap entry
  some { st with
    heap := { st.heap with links := links }
    entry := links.next st.headEntry
    linearized := newLinearized
    cache := addTo (fun e => Bitsets.hash e.linearized) st.cache ⟨newLinearized,newState⟩
    calls := st.calls++[⟨entry,st.state⟩]
    state := newState }

def longestNow (computePartial : Bool) : Option (List (Option Seq)) :=
  if computePartial then st.recordLongest else some st.longest

def undo (computePartial : Bool) (callsTop : CallsEntry σ) : Option (CheckState σ ι ο) := do
  let longest ← st.longestNow computePartial
  let i ← index (st.heap.node callsTop.entry).id
  let linearized ← clear st.linearized i
  let links ← unlift st.heap callsTop.entry
  some { st with
    heap := { st.heap with links := links }
    entry := links.next callsTop.entry
    linearized := linearized
    calls := st.calls.dropLast
    state := callsTop.state
    longest := longest
    slices := st.slices+1 }

end CheckState

def tryCall (obj : Object σ ι ο) (st : CheckState σ ι ο) (entry matching : ℕ) :
    Option (CheckState σ ι ο) :=
  match (st.heap.node entry).value, (st.heap.node matching).value with
  | some (.inl input), some (.inr output) =>
    if (obj.step st.state input output).1 then do
      let i ← index (st.heap.node entry).id
      let newLinearized ← set st.linearized i
      if cacheContains obj st.cache ⟨newLinearized,(obj.step st.state input output).2⟩ then
        some (st.passOver entry)
      else st.enter entry newLinearized (obj.step st.state input output).2
    else some (st.passOver entry)
  | _, _ => none

def goOn : Option (CheckState σ ι ο) → CheckState σ ι ο ⊕ Option Verdict
  | some st => .inl st
  | none => .inr none

/-- One turn of the loop; `killed` is what it reads from the flag. -/
def checkTurn (obj : Object σ ι ο) (computePartial killed : Bool) (st : CheckState σ ι ο) :
    CheckState σ ι ο ⊕ Option Verdict :=
  match st.heap.links.next st.headEntry with
  | none => .inr (some (true,st.longest.map (fun _ => some st.newSeq)))
  | some _ =>
    if killed then .inr (some (false,st.longest))
    else match st.entry with
      | none => .inr none
      | some entry =>
        match (st.heap.node entry).matched with
        | some matching => goOn (tryCall obj st entry matching)
        | none =>
          match st.calls.getLast? with
          | none => .inr (some (false,st.longest))
          | some callsTop => goOn (st.undo computePartial callsTop)

def startCheck (obj : Object σ ι ο) (history : List (Entry ι ο)) : Option (CheckState σ ι ο) := do
  let l := makeLinkedEntries history
  let len ← length l.heap.links l.heap.size l.root
  some {
    heap := addNode l ⟨none,none,-1⟩
    headEntry := l.heap.size
    entry := l.root
    linearized := newBitset (len/2)
    cache := ∅
    calls := []
    state := obj.init
    longest := List.replicate (len/2) none
    slices := 0 }

def checkSingle (obj : Object σ ι ο) (history : List (Entry ι ο)) (computePartial : Bool)
    (fuel : ℕ) : Option (Option Verdict) :=
  match startCheck obj history with
  | none => some none
  | some st => loop (checkTurn obj computePartial false) fuel st

/-! ## The search that the check performs -/

def attempt (obj : Object σ ι ο) (table : List (ι × ο)) (s : σ) (i : ℕ) : Option σ :=
  match table[i]? with
  | none => none
  | some (input,output) =>
    if (obj.step s input output).1 then some (obj.step s input output).2 else none

structure EntriesOf (table : List (ι × ο)) (es : List (Entry ι ο)) : Prop where
  wellFormed : WellFormed (es.map Entry.event) table.length
  input : ∀ e ∈ es, ∀ x, e.value = .inl x → ∃ y, table[e.id]? = some (x,y)
  output : ∀ e ∈ es, ∀ y, e.value = .inr y → ∃ x, table[e.id]? = some (x,y)

structure Layout (table : List (ι × ο)) (heap : Heap ι ο) (ps : List ℕ) : Prop where
  nodup : (ps.map heap.event).Nodup
  id : ∀ p ∈ ps, (heap.node p).id = ((heap.event p).id : ℤ)
  call : ∀ p ∈ ps, ∀ i, heap.event p = .call i → ∃ m ∈ ps, ∃ x y,
    (heap.node p).matched = some m ∧ heap.event m = .ret i ∧ table[i]? = some (x,y) ∧
    (heap.node p).value = some (.inl x) ∧ (heap.node m).value = some (.inr y)

section Layout

variable {table : List (ι × ο)} {heap : Heap ι ο} {ps : List ℕ} {es : List (Entry ι ο)}

theorem Holds.exists_entry (h : Holds heap ps es) {p : ℕ} (hp : p ∈ ps) :
    ∃ e ∈ es, heap.event p = e.event ∧ (heap.node p).value = some e.value ∧
      (heap.node p).id = e.id := by
  obtain ⟨k,hk,rfl⟩ := List.getElem_of_mem hp
  have hlen : ps.length = es.length := by simpa using congrArg List.length h.events
  have hevent := List.getElem_of_eq h.events (i := k) (by simpa using hk)
  have hdata := List.getElem_of_eq h.data (i := k) (by simpa using hk)
  simp only [List.getElem_map, Prod.mk.injEq] at hevent hdata
  exact ⟨es[k],List.getElem_mem _,hevent,hdata.1,hdata.2⟩

theorem Entry.event_id (e : Entry ι ο) : e.event.id = e.id := by
  obtain ⟨value,id,time,clientId⟩ := e
  cases value with
  | inl x => rfl
  | inr y => rfl

theorem Holds.layout (h : Holds heap ps es) (hes : EntriesOf table es) : Layout table heap ps where
  nodup := by
    rw [h.events]
    exact hes.wellFormed.nodup
  id := by
    intro p hp
    obtain ⟨e,-,hevent,-,hid⟩ := h.exists_entry hp
    rw [hid, hevent, e.event_id]
  call := by
    intro p hp i hi
    obtain ⟨m,hm,hmatch,hret⟩ := h.matched p hp i hi
    obtain ⟨e,he,hevent,hvalue,-⟩ := h.exists_entry hp
    obtain ⟨r,hr,hrevent,hrvalue,-⟩ := h.exists_entry hm
    rw [hi] at hevent
    rw [hret] at hrevent
    obtain ⟨v,id,time,clientId⟩ := e
    obtain ⟨w,id',time',clientId'⟩ := r
    cases v with
    | inr y => cases hevent
    | inl x =>
      cases w with
      | inl x' => cases hrevent
      | inr y =>
        cases hevent
        cases hrevent
        obtain ⟨y',hx⟩ := hes.input _ he x rfl
        obtain ⟨x',hy⟩ := hes.output _ hr y rfl
        cases Option.some.inj (hx.symm.trans hy)
        exact ⟨m,hm,x,y,hmatch,hret,hx,hvalue,hrvalue⟩

theorem Layout.congr {heap' : Heap ι ο} (h : Layout table heap ps)
    (hnode : ∀ p ∈ ps, heap'.node p = heap.node p) : Layout table heap' ps := by
  have hevent : ∀ p ∈ ps, heap'.event p = heap.event p := by
    intro p hp
    rw [Heap.event, Heap.event, hnode p hp]
  refine ⟨?_,?_,?_⟩
  · rw [List.map_congr_left hevent]
    exact h.nodup
  · intro p hp
    rw [hnode p hp, hevent p hp, h.id p hp]
  · intro p hp i hi
    rw [hevent p hp] at hi
    obtain ⟨m,hm,x,y,hmatch,hret,htable,hx,hy⟩ := h.call p hp i hi
    refine ⟨m,hm,x,y,?_,?_,htable,?_,?_⟩
    · rw [hnode p hp, hmatch]
    · rw [hevent m hm, hret]
    · rw [hnode p hp, hx]
    · rw [hnode m hm, hy]

theorem without_pair {i : ℕ} {as bs cs : List Event}
    (h : (as++.call i::(bs++.ret i::cs)).Nodup) :
    without i (as++(bs++.ret i::cs)) = as++(bs++cs) := by
  have hcall := (List.nodup_cons.mp (List.nodup_middle.mp h)).1
  have hret : Event.ret i ∉ as++(bs++cs) := by
    have hperm : (as++.call i::(bs++.ret i::cs)).Perm (.ret i::.call i::(as++(bs++cs))) := by
      rw [← List.append_assoc as bs (.ret i::cs)] at *
      refine List.perm_middle.trans ((List.Perm.cons _ ?_).trans (List.Perm.swap _ _ _))
      rw [← List.append_assoc, ← List.append_assoc]
      exact List.perm_middle
    exact fun hin => (List.nodup_cons.mp (hperm.nodup_iff.mp h)).1 (List.mem_cons_of_mem _ hin)
  have hother : ∀ e ∈ as++(bs++cs), e.id ≠ i := by
    intro e he hid
    cases e with
    | call j =>
      cases hid
      exact hcall (by simp only [List.mem_append, List.mem_cons] at he ⊢; tauto)
    | ret j =>
      cases hid
      exact hret he
  have hself : without i (as++(bs++cs)) = as++(bs++cs) :=
    List.filter_eq_self.mpr (fun e he => by simpa using hother e he)
  rw [← hself]
  simp [without, Event.id]

theorem Layout.exists_match {history : List Event} (h : Layout table heap ps)
    (hw : WellFormed history table.length) {set : Finset ℕ} {qs rs : List ℕ} {p i : ℕ}
    (hsub : ∀ q ∈ qs++p::rs, q ∈ ps)
    (hrest : (qs++p::rs).map heap.event = remaining history set)
    (hp : heap.event p = .call i) :
    ∃ m rs₁ rs₂ x y, rs = rs₁++m::rs₂ ∧ (heap.node p).matched = some m ∧
      table[i]? = some (x,y) ∧ (heap.node p).value = some (.inl x) ∧
      (heap.node m).value = some (.inr y) ∧
      without i ((qs++rs).map heap.event) = (qs++(rs₁++rs₂)).map heap.event := by
  obtain ⟨m,hm,x,y,hmatch,hret,htable,hx,hy⟩ := h.call p (hsub p (by simp)) i hp
  have hcall : Event.call i ∈ remaining history set := by
    rw [← hrest, ← hp]
    exact List.mem_map_of_mem (by simp)
  obtain ⟨hin,hnot⟩ := mem_remaining.mp hcall
  have hi : i < table.length := (hw.mem_iff _).mp hin
  have hmem : Event.ret i ∈ (qs++p::rs).map heap.event := by
    rw [hrest]
    exact mem_remaining.mpr ⟨(hw.mem_iff _).mpr hi,hnot⟩
  obtain ⟨m',hm',hret'⟩ := List.mem_map.mp hmem
  obtain rfl : m' = m := List.inj_on_of_nodup_map h.nodup (hsub m' hm') hm (hret'.trans hret.symm)
  have hsorted := remaining_sorted hw.nodup set
  rw [← hrest, List.map_append, List.map_cons, hp] at hsorted
  have hbehind : m' ∈ rs := by
    rcases List.mem_append.mp hm' with hq | hq
    · have hlt := (List.pairwise_append.mp hsorted).2.2 _ (List.mem_map_of_mem hq) _
        List.mem_cons_self
      rw [hret] at hlt
      exact absurd hlt (hw.ordered i hi).not_gt
    · rcases List.mem_cons.mp hq with rfl | hq
      · rw [hp] at hret
        cases hret
      · exact hq
  obtain ⟨rs₁,rs₂,rfl⟩ := List.append_of_mem hbehind
  refine ⟨m',rs₁,rs₂,x,y,rfl,hmatch,htable,hx,hy,?_⟩
  have hnodup : ((qs++p::(rs₁++m'::rs₂)).map heap.event).Nodup := by
    rw [hrest]
    exact hw.nodup.filter _
  simp only [List.map_append, List.map_cons, hp, hret] at hnodup ⊢
  exact without_pair hnodup

end Layout

/-! ## The loop and the search in step -/

inductive Lifted (head : ℕ) (heap : Heap ι ο) (ps : List ℕ) :
    List (Frame σ) → List (CallsEntry σ) → Links ℕ → List ℕ → Prop
  | start {links : Links ℕ} (linked : Linked links (head::ps)) : Lifted head heap ps [] [] links ps
  | push {frames : List (Frame σ)} {calls : List (CallsEntry σ)} {links links' : Links ℕ}
      {qs rs left : List ℕ} {p i : ℕ} {s : σ}
      (below : Lifted head heap ps frames calls links (qs++p::rs))
      (event_eq : heap.event p = .call i) (linked : Linked links' (head::left))
      (subset : ∀ q ∈ left, q ∈ qs++rs)
      (undo : unlift { heap with links := links' } p = some links) :
      Lifted head heap ps (⟨qs.map heap.event,i,rs.map heap.event,s⟩::frames) (calls++[⟨p,s⟩])
        links' left

section Lifted

variable {table : List (ι × ο)} {heap : Heap ι ο} {ps left : List ℕ} {head : ℕ}
  {frames : List (Frame σ)} {calls : List (CallsEntry σ)} {links : Links ℕ}

theorem Lifted.linked (h : Lifted head heap ps frames calls links left) :
    Linked links (head::left) := by
  cases h with
  | start linked => exact linked
  | push below event_eq linked subset undo => exact linked

theorem Lifted.subset (h : Lifted head heap ps frames calls links left) : ∀ q ∈ left, q ∈ ps := by
  induction h with
  | start linked => exact fun q hq => hq
  | push below event_eq linked subset undo ih =>
    intro q hq
    apply ih
    have := subset q hq
    simp only [List.mem_append, List.mem_cons] at this ⊢
    tauto

theorem Lifted.ids (hl : Layout table heap ps)
    (h : Lifted head heap ps frames calls links left) :
    calls.map (fun v => (heap.node v.entry).id) = (taken frames).map (Nat.cast : ℕ → ℤ) := by
  induction h with
  | start linked => rfl
  | @push frames calls links links' qs rs left p i s below event_eq linked subset undo ih =>
    have hp : p ∈ ps := below.subset p (by simp)
    rw [List.map_append, ih, taken_cons, List.map_append, List.map_singleton, List.map_singleton,
      hl.id p hp, event_eq]
    rfl

theorem Lifted.last {top : Frame σ} (h : Lifted head heap ps (top::frames) calls links left) :
    ∃ calls' links' qs rs p, calls = calls'++[⟨p,top.state⟩] ∧
      Lifted head heap ps frames calls' links' (qs++p::rs) ∧ heap.event p = .call top.id ∧
      top.before = qs.map heap.event ∧ top.after = rs.map heap.event ∧
      unlift { heap with links := links } p = some links' := by
  cases h with
  | push below event_eq linked subset undo =>
    exact ⟨_,_,_,_,_,rfl,below,event_eq,rfl,rfl,undo⟩

theorem Lifted.calls_nil (h : Lifted head heap ps ([] : List (Frame σ)) calls links left) :
    calls = [] := by
  cases h
  rfl

end Lifted

def CacheAgrees (n : ℕ) (e : CacheEntry σ) (c : Finset ℕ × σ) : Prop :=
  Represents n e.linearized c.1 ∧ e.state = c.2

def LongestAgrees (n : ℕ) (longest : List (Option Seq)) (f : ℕ → Option (List ℕ)) : Prop :=
  longest.map (Option.map Seq.ids) =
    (List.range n).map (fun i => (f i).map (List.map (Nat.cast : ℕ → ℤ)))

/-- A state of the loop and a state of the search that it carries out. -/
structure Sim (n : ℕ) (heap : Heap ι ο) (head : ℕ) (ps : List ℕ) (a : Search σ)
    (c : CheckState σ ι ο) : Prop where
  heap_eq : c.heap = { heap with links := c.heap.links }
  head_eq : c.headEntry = head
  cursor : ∃ qs rs, Lifted head heap ps a.frames c.calls c.heap.links (qs++rs) ∧
    a.before = qs.map heap.event ∧ a.after = rs.map heap.event ∧ c.entry = rs.head?
  state : c.state = a.state
  linearized : Represents n c.linearized (taken a.frames).toFinset
  cache : ∃ es, c.cache = collect (fun e => Bitsets.hash e.linearized) es ∧
    List.Forall₂ (CacheAgrees n) es a.cache
  longest : LongestAgrees n c.longest a.longest

theorem index_natCast (i : ℕ) : index (i : ℤ) = some i := by
  rw [index, if_pos (Int.natCast_nonneg i), Int.toNat_natCast]

/-- Entries with equal bitsets share a hash, so the hash hides none of them. -/
theorem cacheContains_eq {n : ℕ} (obj : Object σ ι ο) {es : List (CacheEntry σ)}
    {cache : List (Finset ℕ × σ)} (h : List.Forall₂ (CacheAgrees n) es cache) {b : Bitset}
    {set : Finset ℕ} (hb : Represents n b set) (s : σ) :
    cacheContains obj (collect (fun e => Bitsets.hash e.linearized) es) ⟨b,s⟩ =
      found obj.equal cache set s := by
  have hbucket : ((collect (fun e => Bitsets.hash e.linearized) es).lookup (Bitsets.hash b)).getD [] =
      es.filter (fun e => Bitsets.hash e.linearized = Bitsets.hash b) := by
    rw [lookup_collect]
    split
    · rfl
    · rename_i hnone
      symm
      rw [Option.getD_none, List.filter_eq_nil_iff]
      intro e he hhash
      exact hnone (List.mem_map.mpr ⟨e,he,by simpa using hhash⟩)
  rw [cacheContains, hbucket, found, List.any_filter]
  clear hbucket
  induction h with
  | nil => rfl
  | @cons e c es cache hec h ih =>
    rw [List.any_cons, List.any_cons, ih]
    congr 1
    have heq : equals b e.linearized = decide (set = c.1) := by
      rw [Bool.eq_iff_iff, equals_iff hb hec.1, decide_eq_true_iff]
    rw [← hec.2, ← heq]
    cases hsame : equals b e.linearized with
    | false => simp
    | true => simp [(equals_iff_eq _ _).mp hsame]

section Longest

variable {n : ℕ} {longest : List (Option Seq)} {f : ℕ → Option (List ℕ)}

theorem LongestAgrees.length_eq (h : LongestAgrees n longest f) : longest.length = n := by
  simpa using congrArg List.length h

theorem LongestAgrees.get (h : LongestAgrees n longest f) {i : ℕ} (hi : i < n) :
    ∃ old, longest[i]? = some old ∧ old.map Seq.ids = (f i).map (List.map (Nat.cast : ℕ → ℤ)) := by
  have hlt : i < longest.length := h.length_eq.symm ▸ hi
  refine ⟨longest[i],List.getElem?_eq_getElem hlt,?_⟩
  have := List.getElem_of_eq h (i := i) (by simpa using hlt)
  simpa using this

theorem longestAgrees_iff : LongestAgrees n longest f ↔ longest.length = n ∧
    ∀ (i : ℕ) (old : Option Seq), longest[i]? = some old →
      old.map Seq.ids = (f i).map (List.map (Nat.cast : ℕ → ℤ)) := by
  constructor
  · intro h
    refine ⟨h.length_eq,fun i old hold => ?_⟩
    have hi : i < n := h.length_eq ▸ (List.getElem?_eq_some_iff.mp hold).1
    obtain ⟨old',hold',heq⟩ := h.get hi
    cases Option.some.inj (hold.symm.trans hold')
    exact heq
  · rintro ⟨hlen,h⟩
    apply List.ext_getElem (by simp [hlen])
    intro i hi hi'
    simp only [List.getElem_map, List.getElem_range]
    exact h i _ (List.getElem?_eq_getElem (by simpa using hi))

def recordAt (seq : List ℕ) (f : ℕ → Option (List ℕ)) (i k : ℕ) : Option (List ℕ) :=
  if k = i ∧ ∀ q ∈ f k, q.length < seq.length then some seq else f k

theorem foldl_recordAt (seq l : List ℕ) (f : ℕ → Option (List ℕ)) (k : ℕ) :
    l.foldl (recordAt seq) f k =
      if k ∈ l ∧ ∀ q ∈ f k, q.length < seq.length then some seq else f k := by
  induction l generalizing f with
  | nil => simp
  | cons i l ih =>
    rw [List.foldl_cons, ih]
    by_cases hshort : ∀ q ∈ f k, q.length < seq.length
    · by_cases hk : k = i
      · have hnew : recordAt seq f i k = some seq := if_pos ⟨hk,hshort⟩
        rw [hnew, ite_self, if_pos ⟨by simp [hk],hshort⟩]
      · have hold : recordAt seq f i k = f k := if_neg (fun h => hk h.1)
        simp only [hold, List.mem_cons, hk, false_or]
    · have hold : recordAt seq f i k = f k := if_neg (fun h => hshort h.2)
      rw [hold, if_neg (fun h => hshort h.2), if_neg (fun h => hshort h.2)]

theorem recordOne_agrees (h : LongestAgrees n longest f) {seq : Seq} {l : List ℕ}
    (hseq : seq.ids = l.map Nat.cast) {i : ℕ} (hi : i < n) :
    ∃ longest', CheckState.recordOne seq longest i = some longest' ∧
      LongestAgrees n longest' (recordAt l f i) := by
  obtain ⟨old,hold,heq⟩ := h.get hi
  have hshort : (old.all (fun q => q.ids.length < seq.ids.length) = true) ↔
      ∀ q ∈ f i, q.length < l.length := by
    rw [hseq, List.length_map]
    cases hf : f i with
    | none =>
      rw [hf, Option.map_none, Option.map_eq_none_iff] at heq
      simp [heq]
    | some q =>
      rw [hf, Option.map_some, Option.map_eq_some_iff] at heq
      obtain ⟨s,rfl,hs⟩ := heq
      simp [hs]
  have hone : CheckState.recordOne seq longest i =
      some (if old.all (fun q => q.ids.length < seq.ids.length) then longest.set i (some seq)
        else longest) := by
    simp [CheckState.recordOne, index_natCast, hold]
  refine ⟨_,hone,?_⟩
  rw [longestAgrees_iff] at h ⊢
  split
  · rename_i hall
    refine ⟨by rw [List.length_set, h.1],fun k old' hk => ?_⟩
    rw [List.getElem?_set] at hk
    split at hk
    · rename_i hik
      subst hik
      rw [if_pos (h.1.symm ▸ hi)] at hk
      cases hk
      rw [recordAt, if_pos ⟨rfl,hshort.mp hall⟩, Option.map_some, Option.map_some, hseq]
    · rename_i hik
      rw [recordAt, if_neg (fun hc => hik hc.1.symm)]
      exact h.2 k old' hk
  · rename_i hall
    refine ⟨h.1,fun k old' hk => ?_⟩
    rw [recordAt, if_neg]
    · exact h.2 k old' hk
    · rintro ⟨rfl,hc⟩
      exact hall (hshort.mpr hc)

theorem foldlM_recordOne_agrees (seq : Seq) {l : List ℕ} (hseq : seq.ids = l.map Nat.cast)
    (ids : List ℕ) (hids : ∀ i ∈ ids, i < n) (h : LongestAgrees n longest f) :
    ∃ longest', (ids.map (Nat.cast : ℕ → ℤ)).foldlM (CheckState.recordOne seq) longest =
        some longest' ∧
      LongestAgrees n longest' (ids.foldl (recordAt l) f) := by
  induction ids generalizing longest f with
  | nil => exact ⟨longest,rfl,h⟩
  | cons i ids ih =>
    obtain ⟨longest₁,hone,hagrees⟩ := recordOne_agrees h hseq (hids i List.mem_cons_self)
    obtain ⟨longest₂,hrest,hagrees'⟩ :=
      ih (fun k hk => hids k (List.mem_cons_of_mem _ hk)) hagrees
    refine ⟨longest₂,?_,hagrees'⟩
    rw [List.map_cons, List.foldlM_cons, hone]
    exact hrest

end Longest

section Turn

variable {obj : Object σ ι ο} {table : List (ι × ο)} {heap : Heap ι ο} {head : ℕ} {ps : List ℕ}
  {a : Search σ} {c : CheckState σ ι ο}

theorem Sim.node_eq (h : Sim table.length heap head ps a c) (p : ℕ) :
    c.heap.node p = heap.node p := by
  rw [h.heap_eq]

theorem Sim.callIds_eq (h : Sim table.length heap head ps a c) (hl : Layout table heap ps) :
    c.callIds = (taken a.frames).map (Nat.cast : ℕ → ℤ) := by
  obtain ⟨qs,rs,hlifted,-⟩ := h.cursor
  rw [← hlifted.ids hl, CheckState.callIds]
  simp only [h.node_eq]

theorem Sim.passOver (h : Sim table.length heap head ps a c) {e : Event} {after : List Event}
    (hafter : a.after = e::after) {p : ℕ} (hp : c.entry = some p) :
    Sim table.length heap head ps (a.advance e after) (c.passOver p) := by
  obtain ⟨qs,rs,hlifted,hbefore,hrest,hentry⟩ := h.cursor
  obtain ⟨q,rs,rfl⟩ : ∃ q rs', rs = q::rs' := by
    cases rs with
    | nil => simp [hafter] at hrest
    | cons q rs => exact ⟨q,rs,rfl⟩
  cases Option.some.inj (hp.symm.trans hentry)
  rw [hafter, List.map_cons, List.cons.injEq] at hrest
  refine ⟨h.heap_eq,h.head_eq,⟨qs++[p],rs,?_,?_,hrest.2,?_⟩,h.state,h.linearized,h.cache,h.longest⟩
  · rw [List.append_assoc]
    exact hlifted
  · rw [Search.advance, hbefore, hrest.1, List.map_append]
    rfl
  · exact (show Linked c.heap.links ((head::qs)++p::rs) from hlifted.linked).next_eq

theorem Sim.enter (h : Sim table.length heap head ps a c) (hl : Layout table heap ps)
    {history : List Event} (hw : WellFormed history table.length)
    (hrest : a.before++a.after = remaining history (taken a.frames).toFinset)
    {i : ℕ} {after : List Event} (hafter : a.after = .call i::after) {p : ℕ}
    (hp : c.entry = some p) {b : Bitset}
    (hb : Represents table.length b (insert i (taken a.frames).toFinset)) (s : σ) :
    ∃ c', c.enter p b s = some c' ∧ Sim table.length heap head ps (a.push i after s) c' := by
  obtain ⟨qs,rs,hlifted,hbefore,hevents,hentry⟩ := h.cursor
  obtain ⟨q,rs,rfl⟩ : ∃ q rs', rs = q::rs' := by
    cases rs with
    | nil => simp [hafter] at hevents
    | cons q rs => exact ⟨q,rs,rfl⟩
  cases Option.some.inj (hp.symm.trans hentry)
  have hevents' := hevents
  rw [hafter, List.map_cons, List.cons.injEq] at hevents'
  obtain ⟨hcall,htail⟩ := hevents'
  rw [hbefore, hevents, ← List.map_append] at hrest
  obtain ⟨m,rs₁,rs₂,x,y,rfl,hmatch,-,-,-,hwithout⟩ :=
    hl.exists_match hw hlifted.subset hrest hcall.symm
  obtain ⟨links,hlift,hlinked,hundo⟩ :=
    lift_linked hlifted.linked (show (c.heap.node p).matched = some m by rw [h.node_eq, hmatch])
  obtain ⟨es,hcache,hes⟩ := h.cache
  rw [CheckState.enter, hlift]
  refine ⟨_,rfl,?_,h.head_eq,⟨[],qs++(rs₁++rs₂),?_,rfl,?_,?_⟩,rfl,?_,⟨es++[⟨b,s⟩],?_,?_⟩,h.longest⟩
  · rw [h.heap_eq]
  · simp only [Search.push, hbefore, htail, h.state]
    refine Lifted.push hlifted hcall.symm hlinked ?_ ?_
    · intro r hr
      simp only [List.mem_append, List.mem_cons] at hr ⊢
      tauto
    · rw [h.heap_eq] at hundo
      exact hundo
  · rw [Search.push, hbefore, htail, ← List.map_append]
    exact hwithout
  · rw [h.head_eq]
    exact (show Linked links ([]++head::(qs++(rs₁++rs₂))) from hlinked).next_eq
  · simp only [Search.push]
    rw [toFinset_taken_cons]
    exact hb
  · rw [hcache, collect, collect, List.foldl_append]
    rfl
  · exact List.rel_append hes (List.Forall₂.cons ⟨hb,rfl⟩ List.Forall₂.nil)

theorem Sim.longestNow (h : Sim table.length heap head ps a c) (hl : Layout table heap ps)
    (htaken : ∀ i ∈ taken a.frames, i < table.length) (computePartial : Bool) :
    ∃ longest, c.longestNow computePartial = some longest ∧
      LongestAgrees table.length longest
        (if computePartial then record a.longest (taken a.frames) else a.longest) := by
  cases computePartial with
  | false => exact ⟨c.longest,rfl,h.longest⟩
  | true =>
    have hids := h.callIds_eq hl
    obtain ⟨longest,hrun,hagrees⟩ :=
      foldlM_recordOne_agrees c.newSeq hids (taken a.frames) htaken h.longest
    have hrec : (taken a.frames).foldl (recordAt (taken a.frames)) a.longest =
        record a.longest (taken a.frames) :=
      funext (fun k => foldl_recordAt _ _ _ k)
    refine ⟨longest,?_,?_⟩
    · rw [CheckState.longestNow, if_pos rfl, CheckState.recordLongest, hids]
      exact hrun
    · rwa [if_pos rfl, ← hrec]

theorem Sim.undo (h : Sim table.length heap head ps a c) (hl : Layout table heap ps)
    (htaken : ∀ i ∈ taken a.frames, i < table.length) (hnodup : (taken a.frames).Nodup)
    {top : Frame σ} {frames : List (Frame σ)} (hframes : a.frames = top::frames)
    (computePartial : Bool) :
    ∃ callsTop c', c.calls.getLast? = some callsTop ∧ c.undo computePartial callsTop = some c' ∧
      Sim table.length heap head ps (a.pop computePartial top frames) c' := by
  obtain ⟨longest,hlongest,hagrees⟩ := h.longestNow hl htaken computePartial
  obtain ⟨qs,rs,hlifted,-⟩ := h.cursor
  rw [hframes] at hlifted
  obtain ⟨calls,links,qs',rs',p,hcalls,hbelow,hcall,hbefore,hafter,hundo⟩ := hlifted.last
  have hp : (c.heap.node p).id = (top.id : ℤ) := by
    rw [h.node_eq, hl.id p (hbelow.subset p (by simp)), hcall]
    rfl
  have htop : top.id < table.length := htaken _ (by simp [hframes])
  obtain ⟨b,hb,hrep⟩ := clear_represents h.linearized htop
  have hunlift : unlift c.heap p = some links := by
    rw [h.heap_eq]
    exact hundo
  refine ⟨⟨p,top.state⟩,?_⟩
  simp only [CheckState.undo, hlongest, hp, index_natCast, hb, hunlift, Option.bind_eq_bind,
    Option.bind_some]
  refine ⟨_,?_,rfl,?_⟩
  · rw [hcalls, List.getLast?_concat]
  · refine ⟨?_,h.head_eq,⟨qs'++[p],rs',?_,?_,hafter,?_⟩,rfl,?_,h.cache,hagrees⟩
    · rw [h.heap_eq]
    · rw [hcalls, List.dropLast_concat, List.append_assoc]
      exact hbelow
    · rw [Search.pop, hbefore, ← hcall, List.map_append]
      rfl
    · exact (show Linked links ((head::qs')++p::rs') from hbelow.linked).next_eq
    · have hset : (taken a.frames).toFinset.erase top.id = (taken frames).toFinset := by
        rw [hframes, taken_cons, List.nodup_append'] at hnodup
        rw [hframes, toFinset_taken_cons, Finset.erase_insert]
        rw [List.mem_toFinset]
        exact fun hin => hnodup.2.2 hin List.mem_cons_self
      rw [hset] at hrep
      exact hrep

def Matches (n : ℕ) (heap : Heap ι ο) (head : ℕ) (ps : List ℕ) :
    Search σ ⊕ Option Outcome → CheckState σ ι ο ⊕ Option Verdict → Prop
  | .inl a, .inl c => Sim n heap head ps a c
  | .inr (some o), .inr (some v) => v.1 = o.1 ∧ LongestAgrees n v.2 o.2
  | .inr none, _ => True
  | _, _ => False

theorem Sim.next_head (h : Sim table.length heap head ps a c) :
    c.heap.links.next c.headEntry = none ↔ a.before++a.after = [] := by
  obtain ⟨qs,rs,hlifted,hbefore,hafter,-⟩ := h.cursor
  rw [h.head_eq, (show Linked c.heap.links ([]++head::(qs++rs)) from hlifted.linked).next_eq,
    hbefore, hafter, ← List.map_append, List.map_eq_nil_iff, List.head?_eq_none_iff]

theorem Sim.entry_event (h : Sim table.length heap head ps a c) {e : Event} {after : List Event}
    (hafter : a.after = e::after) : ∃ p, c.entry = some p ∧ heap.event p = e := by
  obtain ⟨qs,rs,-,-,hrest,hentry⟩ := h.cursor
  cases rs with
  | nil => simp [hafter] at hrest
  | cons q rs =>
    rw [hafter, List.map_cons, List.cons.injEq] at hrest
    exact ⟨q,hentry,hrest.1.symm⟩

theorem Sim.tryCall (h : Sim table.length heap head ps a c) (hl : Layout table heap ps)
    {history : List Event} (hw : WellFormed history table.length)
    (hrest : a.before++a.after = remaining history (taken a.frames).toFinset)
    {i : ℕ} {after : List Event} (hafter : a.after = .call i::after) {p m : ℕ}
    (hp : c.entry = some p) (hevent : heap.event p = .call i)
    (hm : (heap.node p).matched = some m) (computePartial : Bool) :
    Matches table.length heap head ps (turn (attempt obj table) obj.equal computePartial a)
      (goOn (tryCall obj c p m)) := by
  have hmem : p ∈ ps := by
    obtain ⟨qs,rs,hlifted,-,-,hentry⟩ := h.cursor
    have hhead : p ∈ rs := List.mem_of_mem_head? (hentry ▸ hp)
    exact hlifted.subset p (List.mem_append_right _ hhead)
  obtain ⟨m',-,x,y,hmatch,-,htable,hx,hy⟩ := hl.call p hmem i hevent
  cases Option.some.inj (hm.symm.trans hmatch)
  have hi : i < table.length := (List.getElem?_eq_some_iff.mp htable).1
  have hid : (c.heap.node p).id = (i : ℤ) := by
    rw [h.node_eq, hl.id p hmem, hevent]
    rfl
  obtain ⟨b,hb,hrep⟩ := set_represents h.linearized hi
  obtain ⟨es,hcache,hes⟩ := h.cache
  have hmore : a.before++a.after ≠ [] := by simp [hafter]
  rw [turn, if_neg hmore, hafter]
  simp only [Porcupine.tryCall, h.node_eq p, h.node_eq m, hx, hy, attempt, htable, ← h.state]
  by_cases hok : (obj.step c.state x y).1 = true
  · rw [← h.node_eq p]
    simp only [hok, if_true, hid, index_natCast, hb, Option.bind_eq_bind, Option.bind_some]
    rw [hcache, cacheContains_eq obj hes hrep]
    split
    · exact h.passOver hafter hp
    · obtain ⟨c',henter,hsim⟩ := h.enter hl hw hrest hafter hp hrep (obj.step c.state x y).2
      rw [henter]
      exact hsim
  · simp only [hok]
    exact h.passOver hafter hp

/-- Every turn of the loop is a turn of the search. -/
theorem checkTurn_matches (hl : Layout table heap ps) {history : List Event}
    (hw : WellFormed history table.length) {computePartial : Bool} {init : σ}
    (hinv : Inv (attempt obj table) computePartial history init a)
    (h : Sim table.length heap head ps a c) :
    Matches table.length heap head ps (turn (attempt obj table) obj.equal computePartial a)
      (checkTurn obj computePartial false c) := by
  obtain ⟨hrest,hnodup,-⟩ := hinv.path.facts
  have htaken : ∀ i ∈ taken a.frames, i < table.length := hinv.path.taken_lt hw
  have hhead := h.next_head
  cases hnext : c.heap.links.next c.headEntry with
  | none =>
    rw [turn, if_pos (hhead.mp hnext)]
    simp only [checkTurn, hnext]
    refine ⟨rfl,?_⟩
    rw [longestAgrees_iff, List.length_map]
    refine ⟨h.longest.length_eq,fun i old hold => ?_⟩
    rw [List.getElem?_map, Option.map_eq_some_iff] at hold
    obtain ⟨-,-,rfl⟩ := hold
    rw [Option.map_some, Option.map_some, ← h.callIds_eq hl]
    rfl
  | some first =>
    have hmore : a.before++a.after ≠ [] := fun hnil => by simp [hhead.mpr hnil] at hnext
    cases hafter : a.after with
    | nil =>
      rw [turn, if_neg hmore, hafter]
      trivial
    | cons e after =>
      obtain ⟨p,hp,hevent⟩ := h.entry_event hafter
      simp only [checkTurn, hnext, hp, h.node_eq p, Bool.false_eq_true, if_false]
      cases hmatch : (heap.node p).matched with
      | some m =>
        have hcall : heap.event p = .call (heap.node p).id.toNat := by rw [Heap.event, hmatch]
        rw [hcall] at hevent
        subst hevent
        exact h.tryCall hl hw hrest hafter hp hcall hmatch computePartial
      | none =>
        have hret : heap.event p = .ret (heap.node p).id.toNat := by rw [Heap.event, hmatch]
        rw [hret] at hevent
        subst hevent
        rw [turn, if_neg hmore, hafter]
        cases hframes : a.frames with
        | nil =>
          obtain ⟨qs,rs,hlifted,-⟩ := h.cursor
          rw [hframes] at hlifted
          simp only [hlifted.calls_nil, List.getLast?_nil]
          exact ⟨rfl,h.longest⟩
        | cons top frames =>
          obtain ⟨callsTop,c',hlast,hundo,hsim⟩ :=
            h.undo hl htaken hnodup hframes computePartial
          simp only [hlast, hundo]
          exact hsim

end Turn

/-! ## The whole check -/

section Check

variable {obj : Object σ ι ο} {table : List (ι × ο)} {es : List (Entry ι ο)}

def Object.Respects (obj : Object σ ι ο) : Prop :=
  ∀ s t x y, obj.equal s t = true → (obj.step s x y).1 = true →
    (obj.step t x y).1 = true ∧ obj.equal (obj.step s x y).2 (obj.step t x y).2 = true

theorem Object.Respects.attempt (h : obj.Respects) (table : List (ι × ο)) (s t : σ) (i : ℕ) (s' : σ)
    (hsame : obj.equal s t = true) (hs : attempt obj table s i = some s') :
    ∃ t', attempt obj table t i = some t' ∧ obj.equal s' t' = true := by
  rw [Porcupine.attempt] at hs ⊢
  cases htable : table[i]? with
  | none =>
    rw [htable] at hs
    cases hs
  | some op =>
    obtain ⟨x,y⟩ := op
    simp only [htable] at hs ⊢
    split at hs
    · rename_i hok
      cases hs
      obtain ⟨hok',heq⟩ := h s t x y hsame hok
      exact ⟨_,if_pos hok',heq⟩
    · cases hs

theorem startCheck_sim (obj : Object σ ι ο) (hes : EntriesOf table es) :
    ∃ c heap head ps, startCheck obj es = some c ∧ Layout table heap ps ∧
      Sim table.length heap head ps (Search.start (es.map Entry.event) obj.init) c := by
  obtain ⟨ps,hbuilt⟩ := makeLinkedEntries_built es (paired_of_wellFormed es [] hes.wellFormed)
  have hlen : ps.length = 2*table.length := by
    rw [← hes.wellFormed.length_eq, ← hbuilt.events, List.length_map]
  have hbound : ps.length ≤ (makeLinkedEntries es).heap.size := by
    have hsub : ps ⊆ List.range (makeLinkedEntries es).heap.size :=
      fun p hp => List.mem_range.mpr (hbuilt.bound p hp)
    simpa using (List.subperm_of_subset hbuilt.linked.nodup hsub).length_le
  have hlength : length (makeLinkedEntries es).heap.links (makeLinkedEntries es).heap.size
      (makeLinkedEntries es).root = some (2*table.length) := by
    rw [hbuilt.root, length_eq hbuilt.linked [] ps rfl hbound, hlen]
  have hhalf : 2*table.length/2 = table.length := by omega
  have hevents : ∀ p ∈ ps, (addNode (makeLinkedEntries es) ⟨none,none,-1⟩).event p =
      (makeLinkedEntries es).heap.event p :=
    fun p hp => addNode_event_of_lt (hbuilt.bound p hp)
  rw [startCheck]
  simp only [hlength, hhalf, Option.bind_eq_bind, Option.bind_some]
  refine ⟨_,addNode (makeLinkedEntries es) ⟨none,none,-1⟩,(makeLinkedEntries es).heap.size,ps,rfl,?_,
    ⟨rfl,rfl,⟨[],ps,?_,rfl,?_,hbuilt.root⟩,rfl,newBitset_represents _,⟨[],rfl,List.Forall₂.nil⟩,?_⟩⟩
  · exact (hbuilt.toHolds.layout hes).congr
      (fun p hp => addNode_node_of_lt (hbuilt.bound p hp))
  · exact Lifted.start (addNode_links_linked hbuilt.linked hbuilt.bound hbuilt.root _)
  · rw [Search.start, List.map_congr_left hevents, hbuilt.events]
  · rw [LongestAgrees, List.map_replicate]
    simp [Search.start]

def Addressed (longest : List (Option Seq)) (slices : ℕ) : Prop :=
  ∃ g : ℕ → List ℤ, ∀ seq, some seq ∈ longest → seq.address < slices ∧ seq.ids = g seq.address

theorem mem_recordOne {seq new : Seq} {longest longest' : List (Option Seq)} {id : ℤ}
    (h : CheckState.recordOne new longest id = some longest') (hseq : some seq ∈ longest') :
    some seq ∈ longest ∨ seq = new := by
  rw [CheckState.recordOne] at h
  obtain ⟨i,-,h⟩ := Option.bind_eq_some_iff.mp h
  obtain ⟨old,-,h⟩ := Option.bind_eq_some_iff.mp h
  cases Option.some.inj h
  split at hseq
  · rcases List.mem_or_eq_of_mem_set hseq with hmem | heq
    · exact Or.inl hmem
    · exact Or.inr (Option.some.inj heq)
  · exact Or.inl hseq

theorem mem_foldlM_recordOne {seq new : Seq} (ids : List ℤ) {longest longest' : List (Option Seq)}
    (h : ids.foldlM (CheckState.recordOne new) longest = some longest')
    (hseq : some seq ∈ longest') : some seq ∈ longest ∨ seq = new := by
  induction ids generalizing longest with
  | nil =>
    cases Option.some.inj h
    exact Or.inl hseq
  | cons id ids ih =>
    rw [List.foldlM_cons] at h
    obtain ⟨mid,hone,hrest⟩ := Option.bind_eq_some_iff.mp h
    rcases ih hrest with hmem | heq
    · exact mem_recordOne hone hmem
    · exact Or.inr heq

theorem Addressed.undo {c c' : CheckState σ ι ο} (h : Addressed c.longest c.slices)
    {computePartial : Bool} {callsTop : CallsEntry σ}
    (hundo : c.undo computePartial callsTop = some c') : Addressed c'.longest c'.slices := by
  obtain ⟨g,hg⟩ := h
  rw [CheckState.undo] at hundo
  obtain ⟨longest,hlongest,hundo⟩ := Option.bind_eq_some_iff.mp hundo
  obtain ⟨i,-,hundo⟩ := Option.bind_eq_some_iff.mp hundo
  obtain ⟨b,-,hundo⟩ := Option.bind_eq_some_iff.mp hundo
  obtain ⟨links,-,hundo⟩ := Option.bind_eq_some_iff.mp hundo
  cases Option.some.inj hundo
  have hmem : ∀ seq, some seq ∈ longest → some seq ∈ c.longest ∨ seq = c.newSeq := by
    intro seq hseq
    cases computePartial with
    | false =>
      cases Option.some.inj hlongest
      exact Or.inl hseq
    | true => exact mem_foldlM_recordOne _ hlongest hseq
  refine ⟨Function.update g c.slices c.callIds,fun seq hseq => ?_⟩
  rcases hmem seq hseq with hold | rfl
  · obtain ⟨hlt,hids⟩ := hg seq hold
    rw [Function.update_of_ne hlt.ne, hids]
    exact ⟨hlt.trans (Nat.lt_succ_self _),rfl⟩
  · refine ⟨Nat.lt_succ_self _,?_⟩
    rw [show (c.newSeq).address = c.slices from rfl, Function.update_self]
    rfl

theorem tryCall_longest {c c' : CheckState σ ι ο} {p m : ℕ} (h : tryCall obj c p m = some c') :
    c'.longest = c.longest ∧ c'.slices = c.slices := by
  rw [tryCall] at h
  split at h
  · split at h
    · obtain ⟨i,-,h⟩ := Option.bind_eq_some_iff.mp h
      obtain ⟨b,-,h⟩ := Option.bind_eq_some_iff.mp h
      split at h
      · cases Option.some.inj h
        exact ⟨rfl,rfl⟩
      · rw [CheckState.enter] at h
        obtain ⟨links,-,h⟩ := Option.bind_eq_some_iff.mp h
        cases Option.some.inj h
        exact ⟨rfl,rfl⟩
    · cases Option.some.inj h
      exact ⟨rfl,rfl⟩
  · cases h

theorem goOn_eq_inl {o : Option (CheckState σ ι ο)} {c : CheckState σ ι ο} (h : goOn o = .inl c) :
    o = some c := by
  cases o with
  | none => cases h
  | some c' => rw [Sum.inl.inj h]

theorem Addressed.turn {c c' : CheckState σ ι ο} (h : Addressed c.longest c.slices)
    {computePartial killed : Bool} (hturn : checkTurn obj computePartial killed c = .inl c') :
    Addressed c'.longest c'.slices := by
  unfold checkTurn at hturn
  split at hturn
  · cases hturn
  · split at hturn
    · cases hturn
    · split at hturn
      · cases hturn
      · split at hturn
        · obtain ⟨hlongest,hslices⟩ := tryCall_longest (goOn_eq_inl hturn)
          rw [hlongest, hslices]
          exact h
        · split at hturn
          · cases hturn
          · exact h.undo (goOn_eq_inl hturn)

def Good (obj : Object σ ι ο) (table : List (ι × ο)) (history : List Event) (computePartial : Bool)
    (m : ℕ) (c : CheckState σ ι ο) : Prop :=
  ∃ a heap head ps, Layout table heap ps ∧
    Inv (attempt obj table) computePartial history obj.init a ∧
    Sim table.length heap head ps a c ∧ LinearizationSearch.measure a = m ∧
    Addressed c.longest c.slices

def ExactVerdict (obj : Object σ ι ο) (table : List (ι × ο)) (history : List Event)
    (computePartial : Bool) (v : Verdict) : Prop :=
  ∃ o, Exact (attempt obj table) computePartial history obj.init o ∧ v.1 = o.1 ∧
    LongestAgrees table.length v.2 o.2

structure VerdictOk (obj : Object σ ι ο) (table : List (ι × ο)) (history : List Event)
    (computePartial killed : Bool) (v : Verdict) : Prop where
  exact : killed = false ∨ v.1 = true → ExactVerdict obj table history computePartial v
  sound : ∃ f, LongestAgrees table.length v.2 f ∧ ∀ i < table.length, ∀ q, f i = some q →
    i ∈ q ∧ Continues (attempt obj table) history obj.init q
  addressed : ∃ slices, Addressed v.2 slices

theorem ExactVerdict.sound {history : List Event} (hw : WellFormed history table.length)
    {computePartial : Bool} {v : Verdict}
    (h : ExactVerdict obj table history computePartial v) :
    ∃ f, LongestAgrees table.length v.2 f ∧ ∀ i < table.length, ∀ q, f i = some q →
      i ∈ q ∧ Continues (attempt obj table) history obj.init q := by
  obtain ⟨⟨verdict,longest⟩,ho,-,hagrees⟩ := h
  refine ⟨longest,hagrees,?_⟩
  cases verdict with
  | false => exact fun i _ q hq => ho.2 i q hq
  | true =>
    obtain ⟨l,hl,hrest,rfl⟩ := ho
    intro i hi q hq
    cases Option.some.inj hq
    exact ⟨List.mem_toFinset.mp ((remaining_eq_nil_iff hw _).mp hrest i hi),hl⟩

theorem checkTurn_running {history : List Event} (hw : WellFormed history table.length)
    (hobj : obj.Respects) {computePartial : Bool} {m : ℕ} {c : CheckState σ ι ο}
    (h : Good obj table history computePartial m c) :
    AdvancesFrom (Good obj table history computePartial)
      (fun r => ∃ v, r = some v ∧ ExactVerdict obj table history computePartial v) m
      (checkTurn obj computePartial false c) := by
  obtain ⟨a,heap,head,ps,hl,hinv,hsim,rfl,haddr⟩ := h
  have hturn := turn_advances hw (hobj.attempt table) a hinv
  have hmatch := checkTurn_matches hl hw hinv hsim
  cases hcheck : checkTurn obj computePartial false c with
  | inl c' =>
    cases hsearch : turn (attempt obj table) obj.equal computePartial a with
    | inl a' =>
      rw [hcheck, hsearch] at hmatch
      rw [hsearch] at hturn
      exact ⟨_,hturn.2,a',heap,head,ps,hl,hturn.1,hmatch,rfl,haddr.turn hcheck⟩
    | inr r =>
      rw [hsearch] at hturn
      obtain ⟨o,rfl,-⟩ := hturn
      rw [hcheck, hsearch] at hmatch
      exact hmatch.elim
  | inr r' =>
    cases hsearch : turn (attempt obj table) obj.equal computePartial a with
    | inl a' =>
      rw [hcheck, hsearch] at hmatch
      cases r' with
      | none => exact hmatch.elim
      | some v => exact hmatch.elim
    | inr r =>
      rw [hsearch] at hturn
      obtain ⟨o,rfl,hexact⟩ := hturn
      rw [hcheck, hsearch] at hmatch
      cases r' with
      | none => exact hmatch.elim
      | some v => exact ⟨v,rfl,o,hexact,hmatch.1,hmatch.2⟩

/-- The slots that come with a verdict: those of the loop, or the whole sequence for all. -/
theorem checkTurn_inr {computePartial killed : Bool} {c : CheckState σ ι ο} {v : Verdict}
    (h : checkTurn obj computePartial killed c = .inr (some v)) :
    v.2 = c.longest ∨ v.2 = c.longest.map (fun _ => some c.newSeq) := by
  unfold checkTurn at h
  split at h
  · cases Sum.inr.inj h
    exact Or.inr rfl
  · split at h
    · cases Sum.inr.inj h
      exact Or.inl rfl
    · split at h
      · cases Sum.inr.inj h
      · split at h
        · rename_i p m hm
          cases htry : tryCall obj c _ m with
          | none => rw [htry] at h; cases Sum.inr.inj h
          | some c' => rw [htry] at h; cases h
        · split at h
          · cases Sum.inr.inj h
            exact Or.inl rfl
          · rename_i callsTop hlast
            cases hundo : c.undo computePartial callsTop with
            | none => rw [hundo] at h; cases Sum.inr.inj h
            | some c' => rw [hundo] at h; cases h

theorem Addressed.verdict {computePartial killed : Bool} {c : CheckState σ ι ο} {v : Verdict}
    (hc : Addressed c.longest c.slices)
    (h : checkTurn obj computePartial killed c = .inr (some v)) : ∃ slices, Addressed v.2 slices := by
  rcases checkTurn_inr h with heq | heq
  · exact ⟨c.slices,heq ▸ hc⟩
  · refine ⟨c.slices+1,fun _ => c.callIds,fun seq hseq => ?_⟩
    rw [heq, List.mem_map] at hseq
    obtain ⟨-,-,hnew⟩ := hseq
    cases Option.some.inj hnew
    exact ⟨Nat.lt_succ_self _,rfl⟩

/-- A turn with the flag as it is: it goes on with less left to do, or ends with a verdict. -/
theorem checkTurn_advances {history : List Event} (hw : WellFormed history table.length)
    (hobj : obj.Respects) {computePartial : Bool} (killed : Bool) {m : ℕ} {c : CheckState σ ι ο}
    (h : Good obj table history computePartial m c) :
    AdvancesFrom (Good obj table history computePartial)
      (fun r => ∃ v, r = some v ∧ VerdictOk obj table history computePartial killed v) m
      (checkTurn obj computePartial killed c) := by
  have hrun := checkTurn_running hw hobj h
  obtain ⟨a,heap,head,ps,hl,hinv,hsim,rfl,haddr⟩ := h
  have hexact : ∀ v, checkTurn obj computePartial false c = .inr (some v) →
      VerdictOk obj table history computePartial killed v := by
    intro v hv
    rw [hv] at hrun
    obtain ⟨v',hsome,hv'⟩ := hrun
    cases hsome
    exact ⟨fun _ => hv',hv'.sound hw,haddr.verdict hv⟩
  cases killed with
  | false =>
    cases hcheck : checkTurn obj computePartial false c with
    | inl c' =>
      rw [hcheck] at hrun
      exact hrun
    | inr r =>
      rw [hcheck] at hrun
      obtain ⟨v,rfl,-⟩ := hrun
      exact ⟨v,rfl,hexact v hcheck⟩
  | true =>
    cases hnext : c.heap.links.next c.headEntry with
    | none =>
      have hfalse : checkTurn obj computePartial false c =
          .inr (some (true,c.longest.map (fun _ => some c.newSeq))) := by
        simp only [checkTurn, hnext]
      have htrue : checkTurn obj computePartial true c =
          .inr (some (true,c.longest.map (fun _ => some c.newSeq))) := by
        simp only [checkTurn, hnext]
      rw [htrue]
      exact ⟨_,rfl,hexact _ hfalse⟩
    | some first =>
      have htrue : checkTurn obj computePartial true c = .inr (some (false,c.longest)) := by
        simp only [checkTurn, hnext, if_true]
      rw [htrue]
      refine ⟨_,rfl,?_,⟨a.longest,hsim.longest,fun i _ q hq => hinv.sound i q hq⟩,haddr.verdict htrue⟩
      rintro (hkill | hok)
      · cases hkill
      · cases hok

def enough (es : List (Entry ι ο)) : ℕ := es.length*weight es.length

theorem startCheck_good (obj : Object σ ι ο) (hes : EntriesOf table es) (computePartial : Bool) :
    ∃ c, startCheck obj es = some c ∧
      Good obj table (es.map Entry.event) computePartial (enough es) c := by
  obtain ⟨c,heap,head,ps,hstart,hl,hsim⟩ := startCheck_sim obj hes
  refine ⟨c,hstart,_,heap,head,ps,hl,start_inv _ _,hsim,?_,?_⟩
  · simp [LinearizationSearch.measure, cost, Search.start, enough]
  · rw [startCheck] at hstart
    obtain ⟨len,-,hstart⟩ := Option.bind_eq_some_iff.mp hstart
    cases Option.some.inj hstart
    exact ⟨fun _ => [],fun seq hseq => by simp at hseq⟩

/-- The check ends without a panic, with an exact verdict. -/
theorem checkSingle_exact (hes : EntriesOf table es) (hobj : obj.Respects) (computePartial : Bool)
    {fuel : ℕ} (hfuel : enough es < fuel) :
    ∃ v, checkSingle obj es computePartial fuel = some (some v) ∧
      ExactVerdict obj table (es.map Entry.event) computePartial v := by
  obtain ⟨c,hstart,hgood⟩ := startCheck_good obj hes computePartial
  obtain ⟨r,hr,v,rfl,hv⟩ := loop_total_from _ _ _
    (fun m c => checkTurn_running hes.wellFormed hobj) fuel _ c hgood hfuel
  refine ⟨v,?_,hv⟩
  rw [checkSingle, hstart]
  exact hr

end Check

end Gopher.Porcupine
