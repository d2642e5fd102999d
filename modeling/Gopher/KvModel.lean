import Gopher.CheckOperations
import Gopher.MapReduce

/-!
# The model of a key-value store

The model is that of one key; histories are partitioned by key, the parts in the
order of the keys. Checking a history by this model decides whether the whole
store is linearizable.
-/

set_option autoImplicit false

namespace Gopher.KvModel
open Gopher.Porcupine Gopher.Linearizability Gopher.Grouping Gopher.MapOrders Gopher.ListQueries
open Gopher.MapReduce Gopher.StepRuns Gopher.FairRuns

/-- 0 is a get, 1 a put, and everything else is taken for an append. -/
structure KvInput where
  op : UInt8
  key : GoString
  value : GoString
  deriving DecidableEq

structure KvOutput where
  value : GoString
  deriving DecidableEq

abbrev KvOperation : Type := Operation KvInput KvOutput

def keyOf (v : KvOperation) : GoString := v.input.key

abbrev StringSorter : Type := Sorter (fun a b : GoString => ¬b < a)

def partition (it : Iteration GoString (List KvOperation)) (sorter : StringSorter)
    (history : List KvOperation) : List (List KvOperation) :=
  let m := collect keyOf history
  (sorter.sort ((it.order m).map Prod.fst)).map (fun k => (m.lookup k).getD [])

def step (st : GoString) (inp : KvInput) (out : KvOutput) : Bool × GoString :=
  if inp.op = 0 then (decide (out.value = st),st)
  else if inp.op = 1 then (true,inp.value)
  else (true,st++inp.value)

def kvModel (it : Iteration GoString (List KvOperation)) (sorter : StringSorter) :
    Model GoString KvInput KvOutput where
  partition := some (partition it sorter)
  partitionEvent := none
  init := []
  step := step
  equal := none

/-! ## The whole store -/

abbrev Store : Type := GoString → GoString

def storeStep (store : Store) (v : KvOperation) : Option Store :=
  if v.input.op = 0 then if v.output.value = store v.input.key then some store else none
  else if v.input.op = 1 then some (Function.update store v.input.key v.input.value)
  else some (Function.update store v.input.key (store v.input.key++v.input.value))

section Partition

variable (it : Iteration GoString (List KvOperation)) (sorter : StringSorter)
  (history : List KvOperation)

theorem mem_partition {sub : List KvOperation} :
    sub ∈ partition it sorter history ↔
      ∃ k ∈ history.map keyOf, sub = history.filter (fun v => keyOf v = k) := by
  have hkeys : ∀ k, k ∈ (it.order (collect keyOf history)).map Prod.fst ↔
      k ∈ history.map keyOf := by
    intro k
    constructor
    · intro hk
      obtain ⟨⟨k',sub⟩,hmem,rfl⟩ := List.mem_map.mp hk
      have hlook := (it.mem_order _).mp hmem
      rw [lookup_collect] at hlook
      split at hlook
      · assumption
      · cases hlook
    · intro hk
      refine List.mem_map.mpr ⟨(k,history.filter (fun v => keyOf v = k)),(it.mem_order _).mpr ?_,rfl⟩
      rw [lookup_collect, if_pos hk]
  rw [partition, List.mem_map]
  constructor
  · rintro ⟨k,hk,rfl⟩
    rw [(sorter.perm _).mem_iff, hkeys] at hk
    exact ⟨k,hk,by rw [lookup_collect, if_pos hk]; rfl⟩
  · rintro ⟨k,hk,rfl⟩
    refine ⟨k,?_,by rw [lookup_collect, if_pos hk]; rfl⟩
    rw [(sorter.perm _).mem_iff, hkeys]
    exact hk

end Partition

theorem storeStep_eq (it : Iteration GoString (List KvOperation)) (sorter : StringSorter) :
    storeStep = together keyOf (perform (fillDefault (kvModel it sorter)).toObject) := by
  funext store v
  simp only [storeStep, together, perform, fillDefault, kvModel, step, keyOf]
  by_cases hget : v.input.op = 0
  · simp only [if_pos hget, decide_eq_true_eq]
    split
    · rw [Option.map_some, Function.update_eq_self]
    · rfl
  · simp only [if_neg hget]
    by_cases hput : v.input.op = 1
    · simp only [if_pos hput, if_true, Option.map_some]
    · simp only [if_neg hput, if_true, Option.map_some]

theorem kvModel_respects (it : Iteration GoString (List KvOperation)) (sorter : StringSorter) :
    (kvModel it sorter).Respects := by
  intro equal hequal
  cases hequal

/-- All parts are linearizable exactly when the store is. -/
theorem parts_linearizable_iff (it : Iteration GoString (List KvOperation)) (sorter : StringSorter)
    (history : List KvOperation) (htimes : ∀ v ∈ history, v.call ≤ v.ret) :
    (∀ sub ∈ partition it sorter history, Linearizable Operation.call Operation.ret
        (perform (fillDefault (kvModel it sorter)).toObject) ([] : GoString) sub) ↔
      Linearizable Operation.call Operation.ret storeStep (fun _ => []) history := by
  rw [storeStep_eq it sorter, linearizable_together_iff keyOf _ _ history htimes]
  constructor
  · intro h k hk
    exact h _ ((mem_partition it sorter history).mpr ⟨k,hk,rfl⟩)
  · intro h sub hsub
    obtain ⟨k,hk,rfl⟩ := (mem_partition it sorter history).mp hsub
    exact h k hk

section Checks

variable (it : Iteration GoString (List KvOperation)) (keySorter : StringSorter)
  (order : Iteration ℕ (List ℤ)) (sorter : TimeSorter KvInput KvOutput)

/-- `CheckOperations` with this model, on a history that is not empty: under every fair scheduler
it returns, and what it returns is whether the whole store is linearizable. -/
theorem checkOperations_store (history : List KvOperation) (hne : history ≠ [])
    (htimes : ∀ v ∈ history, v.call ≤ v.ret) (schedule : ℕ → Action)
    (hfair : Fair (fun a => a ≠ .timeout) schedule) :
    ∃ n result, answered (after
        (checkOperations (kvModel it keySorter) order sorter history false 0).step schedule
        (checkOperations (kvModel it keySorter) order sorter history false 0).start n) =
          some result ∧
      (result = .ok ↔
        Linearizable Operation.call Operation.ret storeStep (fun _ => []) history) := by
  have hsubs : ∀ sub ∈ (fillDefault (kvModel it keySorter)).partition history,
      ∀ v ∈ sub, v.call ≤ v.ret := by
    intro sub hsub v hv
    obtain ⟨k,-,rfl⟩ := (mem_partition it keySorter history).mp hsub
    exact htimes v (List.mem_of_mem_filter hv)
  have hparts : (fillDefault (kvModel it keySorter)).partition history ≠ [] := by
    obtain ⟨v,rest,rfl⟩ := List.exists_cons_of_ne_nil hne
    exact List.ne_nil_of_mem ((mem_partition it keySorter (v::rest)).mpr ⟨keyOf v,by simp,rfl⟩)
  obtain ⟨parts,hparts'⟩ := exists_parts
    (fun sub hsub => exists_partOf sorter (hsubs sub hsub))
  obtain ⟨n,result,hresult⟩ := ends_of_parts
    (p := checkOperations (kvModel it keySorter) order sorter history false 0)
    (kvModel_respects it keySorter).full rfl (fun sub part hpart => hpart.1.symm) hparts' hparts
    schedule hfair
  refine ⟨n,result,hresult,?_⟩
  rw [after_eq_run] at hresult
  obtain ⟨hok,hillegal,hunknown⟩ := answer_subs
    (p := checkOperations (kvModel it keySorter) order sorter history false 0)
    (kvModel_respects it keySorter).full rfl (fun sub part hpart => hpart.1.symm)
    (fun sub part hpart => hpart.linearizable_iff _) hparts' _ hresult
  rw [← parts_linearizable_iff it keySorter history htimes]
  refine ⟨hok,fun hall => ?_⟩
  cases result with
  | ok => rfl
  | unknown => exact absurd (hunknown rfl) (lt_irrefl 0)
  | illegal =>
    obtain ⟨sub,hsub,hnot⟩ := hillegal rfl
    exact absurd (hall sub hsub) hnot

instance : Std.Total (fun a b : GoString => ¬b < a) where
  total a b := by
    rcases lt_or_ge a b with h | h
    · exact Or.inl h.not_gt
    · exact Or.inr h.not_gt

instance : IsTrans GoString (fun a b => ¬b < a) where
  trans a b c := by
    simp only [not_lt]
    exact le_trans

def insertStrings : StringSorter := Sorter.insertion _

def putThenGet : List KvOperation :=
  [⟨0,⟨1,ascii "k",ascii "v"⟩,0,⟨[]⟩,1⟩,⟨0,⟨0,ascii "k",[]⟩,2,⟨ascii "v"⟩,3⟩]

theorem checkOperations_putThenGet :
    ∃ n result, answered (after
        (checkOperations (kvModel (latestFirst _ _) insertStrings) (latestFirst _ _) insertByTime
          putThenGet false 0).step everyTurn
        (checkOperations (kvModel (latestFirst _ _) insertStrings) (latestFirst _ _) insertByTime
          putThenGet false 0).start n) = some result ∧
      (result = .ok ↔
        Linearizable Operation.call Operation.ret storeStep (fun _ => []) putThenGet) :=
  checkOperations_store (latestFirst _ _) insertStrings (latestFirst _ _) insertByTime putThenGet
    (by decide) (by decide) everyTurn everyTurn_fair

/-- An empty history has no parts, and then `CheckOperations` waits forever. -/
theorem checkOperations_empty_hangs (verbose : Bool) (schedule : List Action) :
    answered (run (checkOperations (kvModel it keySorter) order sorter [] verbose 0).step schedule
      (checkOperations (kvModel it keySorter) order sorter [] verbose 0).start) = none := by
  have hnil : (checkOperations (kvModel it keySorter) order sorter [] verbose 0).history = [] := by
    have hparts : partition it keySorter [] = [] := by
      rw [List.eq_nil_iff_forall_not_mem]
      intro sub hsub
      obtain ⟨k,hk,-⟩ := (mem_partition it keySorter []).mp hsub
      cases hk
    show (partition it keySorter []).map (makeEntries sorter) = []
    rw [hparts, List.map_nil]
  have hnever := Setup.never_finishes _ hnil le_rfl schedule
  cases h : answered (run (checkOperations (kvModel it keySorter) order sorter [] verbose 0).step
    schedule (checkOperations (kvModel it keySorter) order sorter [] verbose 0).start) with
  | none => rfl
  | some result =>
    obtain ⟨info,hmain⟩ := finished_of_answered h
    exact absurd ⟨result,info,hmain⟩ hnever

end Checks

end Gopher.KvModel
