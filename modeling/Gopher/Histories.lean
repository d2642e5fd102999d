import Gopher.CheckSingle
import Gopher.ListQueries

/-!
# Histories of operations and of events

Operations with their two times become entries sorted by time, calls before
returns where the times are equal. The sort is not stable, so any arrangement
that the order allows may come out; the check does not depend on which one.

Events are taken in the order in which they come and get new ids, in the order
in which the old ones first occur.
-/

set_option autoImplicit false

namespace Gopher.Porcupine
open Gopher.LinearizationSearch Gopher.Linearizability Gopher.ListQueries Gopher.MapOrders

variable {σ ι ο : Type}

structure Operation (ι ο : Type) where
  clientId : ℤ
  input : ι
  call : ℤ
  output : ο
  ret : ℤ

def Entry.isCall (e : Entry ι ο) : Bool := e.value.isLeft

def less (a b : Entry ι ο) : Bool :=
  if a.time ≠ b.time then decide (a.time < b.time) else a.isCall && !b.isCall

def callOf (op : Operation ι ο) (id : ℕ) : Entry ι ο := ⟨.inl op.input,id,op.call,op.clientId⟩

def returnOf (op : Operation ι ο) (id : ℕ) : Entry ι ο := ⟨.inr op.output,id,op.ret,op.clientId⟩

def entriesOf (history : List (Operation ι ο)) : List (Entry ι ο) :=
  history.zipIdx.flatMap (fun p => [callOf p.1 p.2,returnOf p.1 p.2])

abbrev TimeSorter (ι ο : Type) : Type := Sorter (fun a b : Entry ι ο => less b a = false)

theorem less_eq_false_iff (a b : Entry ι ο) :
    less b a = false ↔ a.time < b.time ∨ a.time = b.time ∧ (b.isCall = true → a.isCall = true) := by
  rw [less]
  by_cases h : b.time = a.time
  · simp [h]
  · rw [if_pos h, decide_eq_false_iff_not]
    omega

instance : Std.Total (fun a b : Entry ι ο => less b a = false) where
  total a b := by
    simp only [less_eq_false_iff]
    cases a.isCall <;> cases b.isCall <;> simp <;> omega

instance : IsTrans (Entry ι ο) (fun a b => less b a = false) where
  trans a b c := by
    simp only [less_eq_false_iff]
    rintro (hab | ⟨hab,hcall⟩) (hbc | ⟨hbc,hcall'⟩)
    · exact Or.inl (hab.trans hbc)
    · exact Or.inl (hbc ▸ hab)
    · exact Or.inl (hab ▸ hbc)
    · exact Or.inr ⟨hab.trans hbc,fun h => hcall (hcall' h)⟩

def insertByTime : TimeSorter ι ο := Sorter.insertion _

def makeEntries (sorter : TimeSorter ι ο) (history : List (Operation ι ο)) : List (Entry ι ο) :=
  sorter.sort (entriesOf history)

def tableOf (history : List (Operation ι ο)) : List (ι × ο) :=
  history.map (fun op => (op.input,op.output))

def perform (obj : Object σ ι ο) (s : σ) (op : Operation ι ο) : Option σ :=
  if (obj.step s op.input op.output).1 then some (obj.step s op.input op.output).2 else none

/-! ## Places in the sorted entries -/

section Places

variable {es : List (Entry ι ο)} {x y : Entry ι ο}

theorem exists_place (hn : (es.map Entry.event).Nodup) (hx : x ∈ es) :
    ∃ (k : ℕ) (hk : k < es.length), es[k] = x ∧ (es.map Entry.event).idxOf x.event = k := by
  obtain ⟨k,hk,rfl⟩ := List.getElem_of_mem hx
  refine ⟨k,hk,rfl,?_⟩
  have h := hn.idxOf_getElem k (by simpa using hk)
  simpa using h

theorem not_less_of_place_lt (hs : es.Pairwise (fun a b => less b a = false))
    (hn : (es.map Entry.event).Nodup) (hx : x ∈ es) (hy : y ∈ es)
    (h : (es.map Entry.event).idxOf x.event < (es.map Entry.event).idxOf y.event) :
    less y x = false := by
  obtain ⟨k,hk,rfl,hkx⟩ := exists_place hn hx
  obtain ⟨l,hl,rfl,hly⟩ := exists_place hn hy
  rw [hkx, hly] at h
  exact List.pairwise_iff_getElem.mp hs k l hk hl h

theorem less_self (x : Entry ι ο) : less x x = false := by
  simp [less]

theorem place_lt_of_less (hs : es.Pairwise (fun a b => less b a = false))
    (hn : (es.map Entry.event).Nodup) (hx : x ∈ es) (hy : y ∈ es) (h : less x y = true) :
    (es.map Entry.event).idxOf x.event < (es.map Entry.event).idxOf y.event := by
  rcases lt_trichotomy ((es.map Entry.event).idxOf x.event)
    ((es.map Entry.event).idxOf y.event) with hlt | heq | hgt
  · exact hlt
  · obtain ⟨k,hk,rfl,hkx⟩ := exists_place hn hx
    obtain ⟨l,hl,rfl,hly⟩ := exists_place hn hy
    rw [hkx, hly] at heq
    subst heq
    rw [less_self] at h
    cases h
  · rw [not_less_of_place_lt hs hn hy hx hgt] at h
    cases h

end Places

/-! ## The entries of operations -/

section Operations

variable {sorter : TimeSorter ι ο} {history : List (Operation ι ο)}

theorem mem_makeEntries {e : Entry ι ο} : e ∈ makeEntries sorter history ↔
    ∃ i op, history[i]? = some op ∧ (e = callOf op i ∨ e = returnOf op i) := by
  rw [makeEntries, (sorter.perm _).mem_iff, entriesOf, List.mem_flatMap]
  constructor
  · rintro ⟨⟨op,i⟩,hp,he⟩
    exact ⟨i,op,List.mem_zipIdx_iff_getElem?.mp hp,by simpa using he⟩
  · rintro ⟨i,op,hop,he⟩
    exact ⟨(op,i),List.mem_zipIdx_iff_getElem?.mpr hop,by simpa using he⟩

theorem makeEntries_nodup : ((makeEntries sorter history).map Entry.event).Nodup := by
  have hevents : (entriesOf history).map Entry.event =
      (List.range history.length).flatMap (fun i => [.call i,.ret i]) := by
    rw [entriesOf, List.map_flatMap, List.range_eq_range', ← List.zipIdx_map_snd, List.flatMap_map]
    rfl
  rw [makeEntries, ((sorter.perm _).map _).nodup_iff, hevents, List.nodup_flatMap]
  refine ⟨fun i _ => by simp,?_⟩
  apply List.nodup_range.imp
  intro i j hij e hi hj
  simp only [List.mem_cons, List.not_mem_nil, or_false] at hi hj
  rcases hi with rfl | rfl
  · rcases hj with hj | hj
    · exact hij (Event.call.inj hj)
    · cases hj
  · rcases hj with hj | hj
    · cases hj
    · exact hij (Event.ret.inj hj)

/-- A return comes before a call exactly when its time is earlier. -/
theorem retAt_lt_callAt_iff {a b : Operation ι ο} {i j : ℕ} (hi : history[i]? = some a)
    (hj : history[j]? = some b) :
    retAt ((makeEntries sorter history).map Entry.event) j <
      callAt ((makeEntries sorter history).map Entry.event) i ↔ b.ret < a.call := by
  have hcall : callOf a i ∈ makeEntries sorter history := mem_makeEntries.mpr ⟨i,a,hi,Or.inl rfl⟩
  have hret : returnOf b j ∈ makeEntries sorter history := mem_makeEntries.mpr ⟨j,b,hj,Or.inr rfl⟩
  constructor
  · intro h
    have hnot := not_less_of_place_lt (sorter.sorted _) makeEntries_nodup hret hcall h
    rw [less] at hnot
    split at hnot
    · rename_i hne
      exact lt_of_le_of_ne (not_lt.mp (of_decide_eq_false hnot)) (Ne.symm hne)
    · cases hnot
  · intro h
    apply place_lt_of_less (sorter.sorted _) makeEntries_nodup hret hcall
    have hne : (returnOf b j).time ≠ (callOf a i).time := h.ne
    rw [less, if_pos hne]
    exact decide_eq_true h

theorem makeEntries_entriesOf (sorter : TimeSorter ι ο)
    (htimes : ∀ op ∈ history, op.call ≤ op.ret) :
    EntriesOf (tableOf history) (makeEntries sorter history) where
  wellFormed := by
    refine ⟨makeEntries_nodup,?_,?_⟩
    · intro e
      rw [tableOf, List.length_map]
      constructor
      · intro he
        obtain ⟨x,hx,rfl⟩ := List.mem_map.mp he
        obtain ⟨i,op,hop,rfl | rfl⟩ := mem_makeEntries.mp hx
        · exact (List.getElem?_eq_some_iff.mp hop).1
        · exact (List.getElem?_eq_some_iff.mp hop).1
      · intro hlt
        have hop := List.getElem?_eq_getElem hlt
        cases e with
        | call i => exact List.mem_map.mpr ⟨_,mem_makeEntries.mpr ⟨i,_,hop,Or.inl rfl⟩,rfl⟩
        | ret i => exact List.mem_map.mpr ⟨_,mem_makeEntries.mpr ⟨i,_,hop,Or.inr rfl⟩,rfl⟩
    · intro i hi
      rw [tableOf, List.length_map] at hi
      have hop := List.getElem?_eq_getElem hi
      have hnot : ¬retAt ((makeEntries sorter history).map Entry.event) i <
          callAt ((makeEntries sorter history).map Entry.event) i :=
        (retAt_lt_callAt_iff hop hop).not.mpr (htimes _ (List.getElem_mem hi)).not_gt
      refine lt_of_le_of_ne (not_lt.mp hnot) ?_
      intro heq
      have hcall : Event.call i ∈ (makeEntries sorter history).map Entry.event :=
        List.mem_map.mpr ⟨_,mem_makeEntries.mpr ⟨i,_,hop,Or.inl rfl⟩,rfl⟩
      cases (List.idxOf_inj hcall).mp heq
  input := by
    intro e he x hx
    obtain ⟨i,op,hop,rfl | rfl⟩ := mem_makeEntries.mp he
    · cases hx
      exact ⟨op.output,by simp [tableOf, callOf, hop]⟩
    · cases hx
  output := by
    intro e he y hy
    obtain ⟨i,op,hop,rfl | rfl⟩ := mem_makeEntries.mp he
    · cases hy
    · cases hy
      exact ⟨op.input,by simp [tableOf, returnOf, hop]⟩

theorem linearizable_makeEntries_iff (obj : Object σ ι ο) :
    Linearizable (callAt ((makeEntries sorter history).map Entry.event))
        (retAt ((makeEntries sorter history).map Entry.event))
        (attempt obj (tableOf history)) obj.init (List.range (tableOf history).length) ↔
      Linearizable Operation.call Operation.ret (perform obj) obj.init history := by
  rw [tableOf, List.length_map]
  apply linearizable_places_iff
  · intro s i op hop
    simp [attempt, perform, hop]
  · intro i j a b ha hb
    exact retAt_lt_callAt_iff ha hb

def callTime (history : List (Operation ι ο)) (i : ℕ) : ℤ :=
  (history[i]?.map Operation.call).getD 0

def retTime (history : List (Operation ι ο)) (i : ℕ) : ℤ :=
  (history[i]?.map Operation.ret).getD 0

def IsPartial (obj : Object σ ι ο) (history : List (Operation ι ο)) (l : List ℕ) : Prop :=
  Partial (callTime history) (retTime history) (attempt obj (tableOf history)) obj.init
    (List.range history.length) l

theorem partial_makeEntries_iff (obj : Object σ ι ο) (l : List ℕ) :
    Partial (callAt ((makeEntries sorter history).map Entry.event))
        (retAt ((makeEntries sorter history).map Entry.event))
        (attempt obj (tableOf history)) obj.init (List.range (tableOf history).length) l ↔
      IsPartial obj history l := by
  have htimes : ∀ i ∈ List.range history.length, ∀ j ∈ List.range history.length,
      (retAt ((makeEntries sorter history).map Entry.event) j <
        callAt ((makeEntries sorter history).map Entry.event) i ↔
          retTime history j < callTime history i) := by
    intro i hi j hj
    have hi' := List.getElem?_eq_getElem (List.mem_range.mp hi)
    have hj' := List.getElem?_eq_getElem (List.mem_range.mp hj)
    rw [retAt_lt_callAt_iff hi' hj', retTime, callTime, hi', hj']
    rfl
  rw [IsPartial, tableOf, List.length_map]
  constructor
  · exact fun h => h.congr (fun i hi j hj => (htimes i hi j hj).mpr)
  · exact fun h => h.congr (fun i hi j hj => (htimes i hi j hj).mp)

theorem ExactVerdict.operations_iff {obj : Object σ ι ο} {computePartial : Bool} {v : Verdict}
    (htimes : ∀ op ∈ history, op.call ≤ op.ret)
    (h : ExactVerdict obj (tableOf history) ((makeEntries sorter history).map Entry.event)
      computePartial v) :
    v.1 = true ↔ Linearizable Operation.call Operation.ret (perform obj) obj.init history := by
  obtain ⟨o,ho,hv,-⟩ := h
  rw [hv, ho.linearizable_iff (makeEntries_entriesOf sorter htimes).wellFormed,
    linearizable_makeEntries_iff]

def LongestSlot (obj : Object σ ι ο) (history : List (Operation ι ο)) (i : ℕ)
    (slot : Option Seq) : Prop :=
  (∀ seq ∈ slot, ∃ l, seq.ids = l.map (Nat.cast : ℕ → ℤ) ∧ i ∈ l ∧ IsPartial obj history l) ∧
    ∀ l, IsPartial obj history l → i ∈ l → ∃ seq ∈ slot, l.length ≤ seq.ids.length

theorem ExactVerdict.longestSlot {obj : Object σ ι ο} {v : Verdict}
    (htimes : ∀ op ∈ history, op.call ≤ op.ret)
    (h : ExactVerdict obj (tableOf history) ((makeEntries sorter history).map Entry.event) true v) :
    v.2.length = history.length ∧
      ∀ i slot, v.2[i]? = some slot → LongestSlot obj history i slot := by
  obtain ⟨o,ho,-,hagrees⟩ := h
  have hlen : (tableOf history).length = history.length := List.length_map _
  refine ⟨hagrees.length_eq.trans hlen,fun i slot hslot => ?_⟩
  have hi : i < (tableOf history).length :=
    hagrees.length_eq ▸ (List.getElem?_eq_some_iff.mp hslot).1
  have heq := (longestAgrees_iff.mp hagrees).2 i slot hslot
  obtain ⟨hsound,hmax⟩ := ho.longest (makeEntries_entriesOf sorter htimes).wellFormed hi
  constructor
  · intro seq hseq
    rw [Option.mem_def.mp hseq, Option.map_some, eq_comm, Option.map_eq_some_iff] at heq
    obtain ⟨l,hl,hids⟩ := heq
    obtain ⟨hmem,hseq⟩ := hsound l hl
    exact ⟨l,hids.symm,hmem,(partial_makeEntries_iff obj l).mp hseq⟩
  · intro l hl hmem
    obtain ⟨q,hq,hle⟩ := hmax l ((partial_makeEntries_iff obj l).mpr hl) hmem
    rw [hq, Option.map_some, Option.map_eq_some_iff] at heq
    obtain ⟨seq,hseq,hids⟩ := heq
    refine ⟨seq,hseq,?_⟩
    rw [hids, List.length_map]
    exact hle

/-- The check of a history of operations ends, in a number of turns known beforehand, without a
panic. It succeeds exactly when the history is linearizable, and the sequences are as long as
they can be. -/
theorem checkSingle_operations (obj : Object σ ι ο) (hobj : obj.Respects)
    (sorter : TimeSorter ι ο) (history : List (Operation ι ο))
    (htimes : ∀ op ∈ history, op.call ≤ op.ret) (computePartial : Bool) (fuel : ℕ)
    (hfuel : enough (makeEntries sorter history) < fuel) :
    ∃ ok longest,
      checkSingle obj (makeEntries sorter history) computePartial fuel = some (some (ok,longest)) ∧
      (ok = true ↔ Linearizable Operation.call Operation.ret (perform obj) obj.init history) ∧
      (computePartial = true → longest.length = history.length ∧
        ∀ i slot, longest[i]? = some slot → LongestSlot obj history i slot) := by
  obtain ⟨v,hrun,hv⟩ :=
    checkSingle_exact (makeEntries_entriesOf sorter htimes) hobj computePartial hfuel
  refine ⟨v.1,v.2,hrun,hv.operations_iff htimes,?_⟩
  rintro rfl
  exact hv.longestSlot htimes

def register : Object ℕ (Option ℕ) ℕ where
  init := 0
  step s input output := input.elim (decide (output = s),s) (fun n => (true,n))
  equal s t := decide (s = t)

theorem register_respects : register.Respects := by
  intro s t x y hst hok
  obtain rfl : s = t := of_decide_eq_true hst
  exact ⟨hok,decide_eq_true rfl⟩

def overlapping : List (Operation (Option ℕ) ℕ) := [⟨0,some 1,0,0,5⟩,⟨1,none,1,0,2⟩]

theorem checkSingle_overlapping :
    (∀ op ∈ overlapping, op.call ≤ op.ret) ∧
    ∃ ok longest, checkSingle register (makeEntries insertByTime overlapping) true
        (enough (makeEntries insertByTime overlapping)+1) = some (some (ok,longest)) ∧
      (ok = true ↔ Linearizable Operation.call Operation.ret (perform register) 0 overlapping) ∧
      (true = true → longest.length = overlapping.length ∧
        ∀ i slot, longest[i]? = some slot → LongestSlot register overlapping i slot) :=
  ⟨by decide,checkSingle_operations register register_respects insertByTime overlapping (by decide)
    true _ (Nat.lt_succ_self _)⟩

end Operations

/-! ## The entries of events -/

structure HistoryEvent (κ ι ο : Type) where
  clientId : ℤ
  value : ι ⊕ ο
  id : κ

structure Renumbering (ι ο : Type) where
  events : List (HistoryEvent ℕ ι ο)
  ids : Map ℤ ℕ
  next : ℕ

def HistoryEvent.withId (v : HistoryEvent ℤ ι ο) (id : ℕ) : HistoryEvent ℕ ι ο :=
  ⟨v.clientId,v.value,id⟩

def renumberOne (r : Renumbering ι ο) (v : HistoryEvent ℤ ι ο) : Renumbering ι ο :=
  match r.ids.lookup v.id with
  | some id => { r with events := r.events++[v.withId id] }
  | none =>
    { events := r.events++[v.withId r.next]
      ids := r.ids.insert v.id r.next
      next := r.next+1 }

def renumber (events : List (HistoryEvent ℤ ι ο)) : List (HistoryEvent ℕ ι ο) :=
  (events.foldl renumberOne ⟨[],∅,0⟩).events

def convertEntries (events : List (HistoryEvent ℕ ι ο)) : List (Entry ι ο) :=
  events.zipIdx.map (fun p => ⟨p.1.value,p.1.id,p.2,p.1.clientId⟩)

def idsOf (events : List (HistoryEvent ℤ ι ο)) : List ℤ :=
  events.foldl (fun ids v => if v.id ∈ ids then ids else ids++[v.id]) []

section Renumber

variable {events : List (HistoryEvent ℤ ι ο)}

theorem idsOf_concat (events : List (HistoryEvent ℤ ι ο)) (v : HistoryEvent ℤ ι ο) :
    idsOf (events++[v]) = if v.id ∈ idsOf events then idsOf events else idsOf events++[v.id] := by
  rw [idsOf, List.foldl_append]
  rfl

theorem mem_idsOf {k : ℤ} : k ∈ idsOf events ↔ k ∈ events.map HistoryEvent.id := by
  induction events using List.reverseRecOn with
  | nil => simp [idsOf]
  | append_singleton events v ih =>
    rw [idsOf_concat, List.map_append, List.mem_append, ← ih]
    split
    · rename_i hv
      simp only [List.map_singleton, List.mem_singleton]
      constructor
      · exact Or.inl
      · rintro (h | rfl)
        · exact h
        · exact hv
    · simp

theorem nodup_idsOf : (idsOf events).Nodup := by
  induction events using List.reverseRecOn with
  | nil => exact List.nodup_nil
  | append_singleton events v ih =>
    rw [idsOf_concat]
    split
    · exact ih
    · rename_i hv
      rw [← List.concat_eq_append]
      exact ih.concat hv

theorem foldl_renumberOne (events : List (HistoryEvent ℤ ι ο)) :
    (events.foldl renumberOne ⟨[],∅,0⟩).events =
        events.map (fun v => v.withId ((idsOf events).idxOf v.id)) ∧
      (∀ k, (events.foldl renumberOne ⟨[],∅,0⟩).ids.lookup k =
        if k ∈ idsOf events then some ((idsOf events).idxOf k) else none) ∧
      (events.foldl renumberOne ⟨[],∅,0⟩).next = (idsOf events).length := by
  induction events using List.reverseRecOn with
  | nil => simp [idsOf]
  | append_singleton events v ih =>
    obtain ⟨hevents,hids,hnext⟩ := ih
    rw [List.foldl_append, List.foldl_cons, List.foldl_nil, idsOf_concat, renumberOne, hids v.id]
    by_cases hv : v.id ∈ idsOf events
    · simp only [if_pos hv]
      refine ⟨?_,hids,hnext⟩
      rw [hevents, List.map_append]
      rfl
    · have hold : ∀ k ∈ idsOf events, (idsOf events++[v.id]).idxOf k = (idsOf events).idxOf k :=
        fun k hk => List.idxOf_append_of_mem hk
      have hnew : (idsOf events++[v.id]).idxOf v.id = (idsOf events).length := by
        rw [List.idxOf_append_of_notMem hv, List.idxOf_cons_self, Nat.add_zero]
      simp only [if_neg hv]
      refine ⟨?_,?_,?_⟩
      · rw [hevents, hnext, List.map_append, List.map_singleton, hnew]
        congr 1
        apply List.map_congr_left
        intro w hw
        rw [hold w.id (mem_idsOf.mpr (List.mem_map_of_mem hw))]
      · intro k
        rw [lookup_insert]
        split
        · rename_i hk
          rw [hk, hnew, if_pos (by simp), hnext]
        · rename_i hk
          rw [hids k]
          by_cases hmem : k ∈ idsOf events
          · rw [if_pos hmem, if_pos (by simp [hmem]), hold k hmem]
          · rw [if_neg hmem, if_neg (by simp [hmem, hk])]
      · rw [hnext, List.length_append]
        rfl

theorem renumber_eq (events : List (HistoryEvent ℤ ι ο)) :
    renumber events = events.map (fun v => v.withId ((idsOf events).idxOf v.id)) :=
  (foldl_renumberOne events).1

def HistoryEvent.mark (v : HistoryEvent ℤ ι ο) : Bool × ℤ := (v.value.isRight,v.id)

structure Complete (events : List (HistoryEvent ℤ ι ο)) : Prop where
  nodup : (events.map HistoryEvent.mark).Nodup
  called : ∀ v ∈ events, (false,v.id) ∈ events.map HistoryEvent.mark
  returned : ∀ v ∈ events, (true,v.id) ∈ events.map HistoryEvent.mark
  ordered : ∀ v ∈ events, (events.map HistoryEvent.mark).idxOf (false,v.id) <
    (events.map HistoryEvent.mark).idxOf (true,v.id)

def callPlace (events : List (HistoryEvent ℤ ι ο)) (k : ℤ) : ℕ :=
  (events.map HistoryEvent.mark).idxOf (false,k)

def retPlace (events : List (HistoryEvent ℤ ι ο)) (k : ℤ) : ℕ :=
  (events.map HistoryEvent.mark).idxOf (true,k)

structure Describes (f : ℤ → ι × ο) (events : List (HistoryEvent ℤ ι ο)) : Prop where
  input : ∀ v ∈ events, ∀ x, v.value = .inl x → (f v.id).1 = x
  output : ∀ v ∈ events, ∀ y, v.value = .inr y → (f v.id).2 = y

def performId (obj : Object σ ι ο) (f : ℤ → ι × ο) (s : σ) (k : ℤ) : Option σ :=
  if (obj.step s (f k).1 (f k).2).1 then some (obj.step s (f k).1 (f k).2).2 else none

def rankMark (ids : List ℤ) : Bool × ℤ → Event
  | (false,k) => .call (ids.idxOf k)
  | (true,k) => .ret (ids.idxOf k)

theorem mem_convertEntries {es : List (HistoryEvent ℕ ι ο)} {e : Entry ι ο}
    (he : e ∈ convertEntries es) : ∃ v ∈ es, e.value = v.value ∧ e.id = v.id := by
  obtain ⟨⟨v,i⟩,hv,rfl⟩ := List.mem_map.mp he
  exact ⟨v,List.fst_mem_of_mem_zipIdx hv,rfl,rfl⟩

theorem convert_renumber_events (events : List (HistoryEvent ℤ ι ο)) :
    (convertEntries (renumber events)).map Entry.event =
      (events.map HistoryEvent.mark).map (rankMark (idsOf events)) := by
  have hconvert : ∀ es : List (HistoryEvent ℕ ι ο), (convertEntries es).map Entry.event =
      es.map (fun v => (⟨v.value,v.id,0,v.clientId⟩ : Entry ι ο).event) := by
    intro es
    rw [convertEntries, List.map_map]
    conv_rhs => rw [← List.zipIdx_map_fst 0 es, List.map_map]
    rfl
  rw [hconvert, renumber_eq, List.map_map, List.map_map]
  apply List.map_congr_left
  intro v _
  obtain ⟨clientId,value,id⟩ := v
  cases value with
  | inl x => rfl
  | inr y => rfl

theorem idxOf_map_of_nodup {α β : Type*} [BEq α] [LawfulBEq α] [BEq β] [LawfulBEq β] {f : α → β}
    {l : List α} (hl : l.Nodup) (hf : (l.map f).Nodup) {a : α} (ha : a ∈ l) :
    (l.map f).idxOf (f a) = l.idxOf a := by
  obtain ⟨k,hk,rfl⟩ := List.getElem_of_mem ha
  have h := hf.idxOf_getElem k (by simpa using hk)
  rw [List.getElem_map] at h
  rw [h, hl.idxOf_getElem k hk]

theorem mem_ids_of_mark {m : Bool × ℤ} (hm : m ∈ events.map HistoryEvent.mark) :
    m.2 ∈ idsOf events := by
  obtain ⟨v,hv,rfl⟩ := List.mem_map.mp hm
  exact mem_idsOf.mpr (List.mem_map_of_mem hv)

theorem nodup_rankMark (h : Complete events) :
    ((events.map HistoryEvent.mark).map (rankMark (idsOf events))).Nodup := by
  apply List.Nodup.map_on _ h.nodup
  intro m hm m' hm' heq
  have hin := mem_ids_of_mark hm
  obtain ⟨kind,k⟩ := m
  obtain ⟨kind',k'⟩ := m'
  cases kind with
  | false =>
    cases kind' with
    | false => exact congrArg (Prod.mk false) ((List.idxOf_inj hin).mp (Event.call.inj heq))
    | true => cases heq
  | true =>
    cases kind' with
    | false => cases heq
    | true => exact congrArg (Prod.mk true) ((List.idxOf_inj hin).mp (Event.ret.inj heq))

theorem exists_event {i : ℕ} {k : ℤ} (hk : (idsOf events)[i]? = some k) :
    (idsOf events).idxOf k = i ∧ ∃ v ∈ events, v.id = k := by
  obtain ⟨hi,rfl⟩ := List.getElem?_eq_some_iff.mp hk
  refine ⟨nodup_idsOf.idxOf_getElem i hi,?_⟩
  exact List.mem_map.mp (mem_idsOf.mp (List.getElem_mem hi))

theorem callAt_convert (h : Complete events) {i : ℕ} {k : ℤ}
    (hk : (idsOf events)[i]? = some k) :
    callAt ((convertEntries (renumber events)).map Entry.event) i = callPlace events k := by
  obtain ⟨hi,v,hv,rfl⟩ := exists_event hk
  rw [convert_renumber_events, callAt, callPlace, ← hi]
  exact idxOf_map_of_nodup h.nodup (nodup_rankMark h) (h.called v hv)

theorem retAt_convert (h : Complete events) {i : ℕ} {k : ℤ}
    (hk : (idsOf events)[i]? = some k) :
    retAt ((convertEntries (renumber events)).map Entry.event) i = retPlace events k := by
  obtain ⟨hi,v,hv,rfl⟩ := exists_event hk
  rw [convert_renumber_events, retAt, retPlace, ← hi]
  exact idxOf_map_of_nodup h.nodup (nodup_rankMark h) (h.returned v hv)

theorem convert_wellFormed (h : Complete events) :
    WellFormed ((convertEntries (renumber events)).map Entry.event) (idsOf events).length := by
  refine ⟨?_,?_,?_⟩
  · rw [convert_renumber_events]
    exact nodup_rankMark h
  · intro e
    rw [convert_renumber_events, List.mem_map]
    constructor
    · rintro ⟨m,hm,rfl⟩
      have hin := mem_ids_of_mark hm
      obtain ⟨kind,k⟩ := m
      cases kind with
      | false => exact List.idxOf_lt_length_of_mem hin
      | true => exact List.idxOf_lt_length_of_mem hin
    · intro hlt
      obtain ⟨hi,v,hv,hid⟩ := exists_event (List.getElem?_eq_getElem hlt)
      cases e with
      | call i => exact ⟨(false,v.id),h.called v hv,by rw [rankMark, hid]; exact congrArg _ hi⟩
      | ret i => exact ⟨(true,v.id),h.returned v hv,by rw [rankMark, hid]; exact congrArg _ hi⟩
  · intro i hi
    have hk := List.getElem?_eq_getElem hi
    obtain ⟨-,v,hv,hid⟩ := exists_event hk
    rw [callAt_convert h hk, retAt_convert h hk, ← hid]
    exact h.ordered v hv

theorem exists_source {e : Entry ι ο} (he : e ∈ convertEntries (renumber events))
    (f : ℤ → ι × ο) : ∃ v ∈ events, e.value = v.value ∧
      ((idsOf events).map f)[e.id]? = some (f v.id) := by
  obtain ⟨w,hw,hvalue,hid⟩ := mem_convertEntries he
  rw [renumber_eq] at hw
  obtain ⟨v,hv,rfl⟩ := List.mem_map.mp hw
  have hmem : v.id ∈ idsOf events := mem_idsOf.mpr (List.mem_map_of_mem hv)
  refine ⟨v,hv,hvalue,?_⟩
  rw [hid]
  simp [HistoryEvent.withId, List.getElem?_idxOf hmem]

theorem convertEntries_entriesOf (h : Complete events) {f : ℤ → ι × ο} (hf : Describes f events) :
    EntriesOf ((idsOf events).map f) (convertEntries (renumber events)) where
  wellFormed := by
    rw [List.length_map]
    exact convert_wellFormed h
  input := by
    intro e he x hx
    obtain ⟨v,hv,hvalue,hat⟩ := exists_source he f
    exact ⟨(f v.id).2,by rw [hat, ← hf.input v hv x (hvalue.symm.trans hx)]⟩
  output := by
    intro e he y hy
    obtain ⟨v,hv,hvalue,hat⟩ := exists_source he f
    exact ⟨(f v.id).1,by rw [hat, ← hf.output v hv y (hvalue.symm.trans hy)]⟩

theorem linearizable_convert_iff (h : Complete events) (f : ℤ → ι × ο)
    (obj : Object σ ι ο) :
    Linearizable (callAt ((convertEntries (renumber events)).map Entry.event))
        (retAt ((convertEntries (renumber events)).map Entry.event))
        (attempt obj ((idsOf events).map f)) obj.init (List.range ((idsOf events).map f).length) ↔
      Linearizable (callPlace events) (retPlace events) (performId obj f) obj.init
        (idsOf events) := by
  rw [List.length_map]
  apply linearizable_places_iff
  · intro s i k hk
    simp [attempt, performId, hk]
  · intro i j a b ha hb
    rw [callAt_convert h ha, retAt_convert h hb]

end Renumber

end Gopher.Porcupine
