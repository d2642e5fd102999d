import Gopher.CheckParallel
import Gopher.Histories

/-!
# Checking operations and events

A model says how a history is partitioned, what a step does and when two states
are equal; what it leaves out gets a default. The parts of a history are turned
into entries and checked in parallel. The descriptions for pictures are left out.
-/

set_option autoImplicit false

namespace Gopher.Porcupine
open Gopher.LinearizationSearch Gopher.Linearizability Gopher.MapOrders
open Gopher.StepRuns Gopher.FairRuns

variable {σ ι ο : Type}

structure Model (σ ι ο : Type) where
  partition : Option (List (Operation ι ο) → List (List (Operation ι ο)))
  partitionEvent : Option (List (HistoryEvent ℤ ι ο) → List (List (HistoryEvent ℤ ι ο)))
  init : σ
  step : σ → ι → ο → Bool × σ
  equal : Option (σ → σ → Bool)

structure FullModel (σ ι ο : Type) extends Object σ ι ο where
  partition : List (Operation ι ο) → List (List (Operation ι ο))
  partitionEvent : List (HistoryEvent ℤ ι ο) → List (List (HistoryEvent ℤ ι ο))

def noPartition (history : List (Operation ι ο)) : List (List (Operation ι ο)) := [history]

def noPartitionEvent (history : List (HistoryEvent ℤ ι ο)) : List (List (HistoryEvent ℤ ι ο)) :=
  [history]

def shallowEqual [DecidableEq σ] (state1 state2 : σ) : Bool := decide (state1 = state2)

def fillDefault [DecidableEq σ] (model : Model σ ι ο) : FullModel σ ι ο where
  init := model.init
  step := model.step
  equal := model.equal.getD shallowEqual
  partition := model.partition.getD noPartition
  partitionEvent := model.partitionEvent.getD noPartitionEvent

section Checks

variable [DecidableEq σ] (model : Model σ ι ο) (order : Iteration ℕ (List ℤ))

def checkOperations (sorter : TimeSorter ι ο) (history : List (Operation ι ο)) (verbose : Bool)
    (timeout : ℤ) : Setup σ ι ο where
  model := (fillDefault model).toObject
  history := ((fillDefault model).partition history).map (makeEntries sorter)
  computeInfo := verbose
  timeout := timeout
  order := order

def checkEvents (history : List (HistoryEvent ℤ ι ο)) (verbose : Bool) (timeout : ℤ) :
    Setup σ ι ο where
  model := (fillDefault model).toObject
  history := ((fillDefault model).partitionEvent history).map
    (fun subhistory => convertEntries (renumber subhistory))
  computeInfo := verbose
  timeout := timeout
  order := order

end Checks

def answered (s : ParState σ ι ο) : Option CheckResult :=
  match s.main with
  | .finished r _ => some r
  | _ => none

theorem finished_of_answered {s : ParState σ ι ο} {result : CheckResult}
    (h : answered s = some result) : ∃ info, s.main = .finished result info := by
  unfold answered at h
  split at h
  · rename_i r info hmain
    cases Option.some.inj h
    exact ⟨info,hmain⟩
  · cases h

/-- Equal states of a model answer alike, if it has an equality of its own. -/
def Model.Respects (model : Model σ ι ο) : Prop :=
  ∀ equal ∈ model.equal, Object.Respects ⟨model.init,model.step,equal⟩

theorem Model.Respects.full [DecidableEq σ] {model : Model σ ι ο} (h : model.Respects) :
    (fillDefault model).toObject.Respects := by
  intro s t x y hequal hok
  cases heq : model.equal with
  | none =>
    simp only [fillDefault, heq, Option.getD_none, shallowEqual, decide_eq_true_eq] at hequal hok ⊢
    subst hequal
    exact ⟨hok,rfl⟩
  | some equal =>
    simp only [fillDefault, heq, Option.getD_some] at hequal hok ⊢
    exact h equal heq s t x y hequal hok

section Parts

variable {α : Type} {r : α → Part ι ο → Prop} {subs : List α} {parts : List (Part ι ο)}

theorem exists_parts (h : ∀ sub ∈ subs, ∃ part, r sub part) :
    ∃ parts, List.Forall₂ r subs parts := by
  induction subs with
  | nil => exact ⟨[],List.Forall₂.nil⟩
  | cons sub subs ih =>
    obtain ⟨part,hpart⟩ := h sub List.mem_cons_self
    obtain ⟨parts,hparts⟩ := ih (fun s hs => h s (List.mem_cons_of_mem _ hs))
    exact ⟨part::parts,List.Forall₂.cons hpart hparts⟩

theorem map_entries_eq {f : α → List (Entry ι ο)} (hr : ∀ sub part, r sub part → f sub = part.entries)
    (h : List.Forall₂ r subs parts) : subs.map f = parts.map Part.entries := by
  induction h with
  | nil => rfl
  | cons hab _ ih => rw [List.map_cons, List.map_cons, hr _ _ hab, ih]

theorem exists_counterpart {β γ : Type} {q : β → γ → Prop} {l : List β} {l' : List γ}
    (h : List.Forall₂ q l l') {b : β} (hb : b ∈ l) : ∃ c ∈ l', q b c := by
  induction h with
  | nil => cases hb
  | cons hbc _ ih =>
    rcases List.mem_cons.mp hb with rfl | hb
    · exact ⟨_,List.mem_cons_self,hbc⟩
    · obtain ⟨c,hc,hq⟩ := ih hb
      exact ⟨c,List.mem_cons_of_mem _ hc,hq⟩

theorem answer_subs {p : Setup σ ι ο} {lin : α → Prop} {f : α → List (Entry ι ο)}
    (hobj : p.model.Respects) (hhistory : p.history = subs.map f)
    (hentries : ∀ sub part, r sub part → f sub = part.entries)
    (hlin : ∀ sub part, r sub part → (part.Linearizable p.model ↔ lin sub))
    (hparts : List.Forall₂ r subs parts) (schedule : List Action) {result : CheckResult}
    (h : answered (run p.step schedule p.start) = some result) :
    (result = .ok → ∀ sub ∈ subs, lin sub) ∧ (result = .illegal → ∃ sub ∈ subs, ¬lin sub) ∧
      (result = .unknown → 0 < p.timeout) := by
  obtain ⟨info,hmain⟩ := finished_of_answered h
  rw [map_entries_eq hentries hparts] at hhistory
  obtain ⟨hok,hillegal,hunknown⟩ := Setup.answer hobj hhistory schedule hmain
  refine ⟨fun hr sub hsub => ?_,fun hr => ?_,hunknown⟩
  · obtain ⟨part,hpart,hsp⟩ := exists_counterpart hparts hsub
    exact (hlin sub part hsp).mp (hok hr part hpart)
  · obtain ⟨part,hpart,hnot⟩ := hillegal hr
    obtain ⟨sub,hsub,hsp⟩ := exists_counterpart (q := flip r) (List.Forall₂.flip hparts) hpart
    exact ⟨sub,hsub,fun hs => hnot ((hlin sub part hsp).mpr hs)⟩

theorem ends_of_parts {p : Setup σ ι ο} {f : α → List (Entry ι ο)} (hobj : p.model.Respects)
    (hhistory : p.history = subs.map f) (hentries : ∀ sub part, r sub part → f sub = part.entries)
    (hparts : List.Forall₂ r subs parts) (hne : subs ≠ []) (schedule : ℕ → Action)
    (hfair : Fair (fun a => a ≠ .timeout) schedule) :
    ∃ n result, answered (after p.step schedule p.start n) = some result := by
  have hne' : parts ≠ [] := by
    rintro rfl
    exact hne (List.forall₂_nil_right_iff.mp hparts)
  rw [map_entries_eq hentries hparts] at hhistory
  obtain ⟨n,result,info,hmain⟩ := Setup.fair_finishes hobj hhistory hne' schedule hfair
  exact ⟨n,result,by rw [answered, hmain]⟩

end Parts

section Operations

variable {sorter : TimeSorter ι ο} {sub : List (Operation ι ο)} {part : Part ι ο}

def PartOf (sorter : TimeSorter ι ο) (sub : List (Operation ι ο)) (part : Part ι ο) : Prop :=
  part.entries = makeEntries sorter sub ∧ part.table = tableOf sub

theorem exists_partOf (sorter : TimeSorter ι ο) (htimes : ∀ op ∈ sub, op.call ≤ op.ret) :
    ∃ part, PartOf sorter sub part :=
  ⟨⟨_,_,makeEntries_entriesOf sorter htimes⟩,rfl,rfl⟩

theorem PartOf.linearizable_iff (h : PartOf sorter sub part) (obj : Object σ ι ο) :
    part.Linearizable obj ↔
      Linearizable Operation.call Operation.ret (perform obj) obj.init sub := by
  rw [Part.Linearizable, Part.events, h.1, h.2]
  exact linearizable_makeEntries_iff obj

theorem PartOf.partial_iff (h : PartOf sorter sub part) (obj : Object σ ι ο) (l : List ℕ) :
    part.Partial obj l ↔ IsPartial obj sub l := by
  rw [Part.Partial, Part.events, h.1, h.2]
  exact partial_makeEntries_iff obj l

variable [DecidableEq σ] (model : Model σ ι ο) (order : Iteration ℕ (List ℤ))
  (sorter : TimeSorter ι ο) (history : List (Operation ι ο))

/-- However the goroutines are scheduled, whatever the sort does with equal times: an answer is
right, and only a check with a time limit may have none. -/
theorem checkOperations_answer (hmodel : model.Respects)
    (htimes : ∀ sub ∈ (fillDefault model).partition history, ∀ op ∈ sub, op.call ≤ op.ret)
    (verbose : Bool) (timeout : ℤ) (schedule : List Action) (result : CheckResult)
    (h : answered (run (checkOperations model order sorter history verbose timeout).step schedule
      (checkOperations model order sorter history verbose timeout).start) = some result) :
    (result = .ok → ∀ sub ∈ (fillDefault model).partition history, Linearizable Operation.call
      Operation.ret (perform (fillDefault model).toObject) model.init sub) ∧
    (result = .illegal → ∃ sub ∈ (fillDefault model).partition history, ¬Linearizable
      Operation.call Operation.ret (perform (fillDefault model).toObject) model.init sub) ∧
    (result = .unknown → 0 < timeout) := by
  obtain ⟨parts,hparts⟩ := exists_parts
    (fun sub hsub => exists_partOf sorter (htimes sub hsub))
  exact answer_subs hmodel.full rfl (fun sub part hpart => hpart.1.symm)
    (fun sub part hpart => hpart.linearizable_iff _) hparts schedule h

def registerModel : Model ℕ (Option ℕ) ℕ where
  partition := none
  partitionEvent := none
  init := 0
  step := register.step
  equal := none

theorem registerModel_respects : registerModel.Respects := by
  intro equal hequal
  cases hequal

def oneByOne : List Action :=
  [.main,.main]++List.replicate 12 (.thread 0)++[.result,.main,.main,.main]

theorem checkOperations_overlapping :
    answered (run (checkOperations registerModel (latestFirst _ _) insertByTime overlapping false
      0).step oneByOne (checkOperations registerModel (latestFirst _ _) insertByTime overlapping
        false 0).start) = some .ok ∧
    ∀ sub ∈ (fillDefault registerModel).partition overlapping, Linearizable Operation.call
      Operation.ret (perform (fillDefault registerModel).toObject) 0 sub :=
  ⟨by decide +kernel,(checkOperations_answer registerModel (latestFirst _ _) insertByTime overlapping
    registerModel_respects (by decide +kernel) false 0 oneByOne .ok (by decide +kernel)).1 rfl⟩

/-- An answer comes under every fair scheduler if there is a part to check. -/
theorem checkOperations_ends (hmodel : model.Respects)
    (hne : (fillDefault model).partition history ≠ [])
    (htimes : ∀ sub ∈ (fillDefault model).partition history, ∀ op ∈ sub, op.call ≤ op.ret)
    (verbose : Bool) (timeout : ℤ) (schedule : ℕ → Action)
    (hfair : Fair (fun a => a ≠ .timeout) schedule) :
    ∃ n result, answered (after (checkOperations model order sorter history verbose timeout).step
      schedule (checkOperations model order sorter history verbose timeout).start n) =
        some result := by
  obtain ⟨parts,hparts⟩ := exists_parts
    (fun sub hsub => exists_partOf sorter (htimes sub hsub))
  exact ends_of_parts hmodel.full rfl (fun sub part hpart => hpart.1.symm) hparts hne schedule hfair

def everyTurn (n : ℕ) : Action :=
  match n.unpair.1 with
  | 0 => .main
  | 1 => .result
  | i+2 => .thread i

theorem everyTurn_fair : Fair (fun a => a ≠ .timeout) everyTurn := by
  intro a ha n
  cases a with
  | main => exact ⟨Nat.pair 0 n,Nat.right_le_pair 0 n,by simp [everyTurn]⟩
  | result => exact ⟨Nat.pair 1 n,Nat.right_le_pair 1 n,by simp [everyTurn]⟩
  | timeout => exact absurd rfl ha
  | thread i => exact ⟨Nat.pair (i+2) n,Nat.right_le_pair (i+2) n,by simp [everyTurn]⟩

theorem checkOperations_overlapping_ends :
    ∃ n result, answered (after (checkOperations registerModel (latestFirst _ _) insertByTime
      overlapping true 5).step everyTurn (checkOperations registerModel (latestFirst _ _)
        insertByTime overlapping true 5).start n) = some result :=
  checkOperations_ends registerModel (latestFirst _ _) insertByTime overlapping
    registerModel_respects (by decide +kernel) (by decide +kernel) true 5 everyTurn everyTurn_fair

/-- The sequences that come with an answer: each is an order in which some operations of its part
may have been performed; without a time limit there is a longest one for every operation. -/
theorem checkOperations_partials (hmodel : model.Respects)
    (htimes : ∀ sub ∈ (fillDefault model).partition history, ∀ op ∈ sub, op.call ≤ op.ret)
    (timeout : ℤ) (schedule : List Action) (result : CheckResult) (info : LinearizationInfo ι ο)
    (h : (run (checkOperations model order sorter history true timeout).step schedule
      (checkOperations model order sorter history true timeout).start).main =
        .finished result info) (i : ℕ) (sub : List (Operation ι ο))
    (hsub : ((fillDefault model).partition history)[i]? = some sub) :
    ∃ partials, info.partialLinearizations[i]? = some partials ∧
      (∀ q ∈ partials, ∃ l, q = l.map (Nat.cast : ℕ → ℤ) ∧ l ≠ [] ∧
        IsPartial (fillDefault model).toObject sub l) ∧
      (timeout ≤ 0 → ∀ l, IsPartial (fillDefault model).toObject sub l → ∀ j ∈ l,
        ∃ q ∈ partials, (j : ℤ) ∈ q ∧ l.length ≤ q.length) := by
  obtain ⟨parts,hparts⟩ := exists_parts
    (fun sub hsub => exists_partOf sorter (htimes sub hsub))
  have hhistory := map_entries_eq (f := makeEntries sorter)
    (fun sub part (hpart : PartOf sorter sub part) => hpart.1.symm) hparts
  obtain ⟨hlt,rfl⟩ := List.getElem?_eq_some_iff.mp hsub
  have hlt' : i < parts.length := hparts.length_eq ▸ hlt
  have hpart : PartOf sorter _ parts[i] := hparts.get hlt hlt'
  obtain ⟨partials,hget,hsound,hlongest⟩ := Setup.answer_info
    (p := checkOperations model order sorter history true timeout) hmodel.full hhistory rfl
    schedule h (List.getElem?_eq_getElem hlt')
  refine ⟨partials,hget,?_,?_⟩
  · intro q hq
    obtain ⟨l,hl,hne,hseq⟩ := hsound q hq
    exact ⟨l,hl,hne,(hpart.partial_iff _ l).mp hseq⟩
  · intro htimeout l hl j hj
    exact hlongest htimeout l ((hpart.partial_iff _ l).mpr hl) j hj

theorem checkOperations_overlapping_partials :
    ∃ info partials, (run (checkOperations registerModel (latestFirst _ _) insertByTime overlapping
        true 0).step oneByOne (checkOperations registerModel (latestFirst _ _) insertByTime
          overlapping true 0).start).main = .finished .ok info ∧
      info.partialLinearizations[0]? = some partials ∧
      ∀ l, IsPartial (fillDefault registerModel).toObject overlapping l → ∀ j ∈ l,
        ∃ q ∈ partials, (j : ℤ) ∈ q ∧ l.length ≤ q.length := by
  have hok : answered (run (checkOperations registerModel (latestFirst _ _) insertByTime
      overlapping true 0).step oneByOne (checkOperations registerModel (latestFirst _ _)
        insertByTime overlapping true 0).start) = some .ok := by
    decide +kernel
  obtain ⟨info,hmain⟩ := finished_of_answered hok
  obtain ⟨partials,hget,-,hlongest⟩ := checkOperations_partials registerModel (latestFirst _ _)
    insertByTime overlapping registerModel_respects (by decide +kernel) 0 oneByOne .ok info hmain 0
    overlapping rfl
  exact ⟨info,partials,hmain,hget,hlongest le_rfl⟩

end Operations

section Events

variable {f : ℤ → ι × ο} {sub : List (HistoryEvent ℤ ι ο)} {part : Part ι ο}

def EventPartOf (f : ℤ → ι × ο) (sub : List (HistoryEvent ℤ ι ο)) (part : Part ι ο) : Prop :=
  Complete sub ∧ part.entries = convertEntries (renumber sub) ∧ part.table = (idsOf sub).map f

theorem EventPartOf.linearizable_iff (h : EventPartOf f sub part) (obj : Object σ ι ο) :
    part.Linearizable obj ↔
      Linearizable (callPlace sub) (retPlace sub) (performId obj f) obj.init (idsOf sub) := by
  obtain ⟨hcomplete,hentries,htable⟩ := h
  rw [Part.Linearizable, Part.events, hentries, htable]
  exact linearizable_convert_iff hcomplete f obj

theorem checkEvents_answer [DecidableEq σ] (model : Model σ ι ο) (order : Iteration ℕ (List ℤ))
    (history : List (HistoryEvent ℤ ι ο)) (f : ℤ → ι × ο) (hmodel : model.Respects)
    (hcomplete : ∀ sub ∈ (fillDefault model).partitionEvent history, Complete sub)
    (hf : ∀ sub ∈ (fillDefault model).partitionEvent history, Describes f sub)
    (verbose : Bool) (timeout : ℤ) (schedule : List Action) (result : CheckResult)
    (h : answered (run (checkEvents model order history verbose timeout).step schedule
      (checkEvents model order history verbose timeout).start) = some result) :
    (result = .ok → ∀ sub ∈ (fillDefault model).partitionEvent history, Linearizable
      (callPlace sub) (retPlace sub) (performId (fillDefault model).toObject f) model.init
      (idsOf sub)) ∧
    (result = .illegal → ∃ sub ∈ (fillDefault model).partitionEvent history, ¬Linearizable
      (callPlace sub) (retPlace sub) (performId (fillDefault model).toObject f) model.init
      (idsOf sub)) ∧
    (result = .unknown → 0 < timeout) := by
  obtain ⟨parts,hparts⟩ := exists_parts (r := EventPartOf f) (fun sub hsub =>
    ⟨⟨_,_,convertEntries_entriesOf (hcomplete sub hsub) (hf sub hsub)⟩,hcomplete sub hsub,
      rfl,rfl⟩)
  exact answer_subs hmodel.full rfl (fun sub part hpart => hpart.2.1.symm)
    (fun sub part hpart => hpart.linearizable_iff _) hparts schedule h

def overlappingEvents : List (HistoryEvent ℤ (Option ℕ) ℕ) :=
  [⟨0,.inl (some 1),10⟩,⟨1,.inl none,20⟩,⟨1,.inr 0,20⟩,⟨0,.inr 0,10⟩]

theorem overlappingEvents_complete : Complete overlappingEvents :=
  ⟨by decide,by decide,by decide,by decide⟩

theorem checkEvents_overlapping :
    answered (run (checkEvents registerModel (latestFirst _ _) overlappingEvents false 0).step
      oneByOne (checkEvents registerModel (latestFirst _ _) overlappingEvents false 0).start) =
        some .ok ∧
    ∀ sub ∈ (fillDefault registerModel).partitionEvent overlappingEvents, Linearizable
      (callPlace sub) (retPlace sub) (performId (fillDefault registerModel).toObject
        (fun k => if k = 10 then (some 1,0) else (none,0))) 0 (idsOf sub) := by
  have hsub : ∀ sub ∈ (fillDefault registerModel).partitionEvent overlappingEvents,
      sub = overlappingEvents := fun sub hsub => List.mem_singleton.mp hsub
  refine ⟨by decide +kernel,(checkEvents_answer registerModel (latestFirst _ _) overlappingEvents
    (fun k => if k = 10 then (some 1,0) else (none,0)) registerModel_respects ?_ ?_ false 0 oneByOne
    .ok (by decide +kernel)).1 rfl⟩
  · intro sub hs
    rw [hsub sub hs]
    exact overlappingEvents_complete
  · intro sub hs
    rw [hsub sub hs]
    constructor
    · simp [overlappingEvents]
    · simp [overlappingEvents]

end Events

end Gopher.Porcupine
