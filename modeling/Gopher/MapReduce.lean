import Gopher.ListQueries
import Gopher.SortedBlocks

/-!
# Sequential map and reduce

A string is its bytes, compared one after the other. The map and the reduce
function are whatever the plugin has, and the sort is any function that orders
the pairs by key. Beside the output file the calls of the reduce function are
recorded.
-/

set_option autoImplicit false

namespace Gopher.MapReduce
open Gopher.ListQueries Gopher.SortedBlocks

abbrev GoString : Type := List (Fin 256)

def ascii (s : String) : GoString := s.toList.map (fun c => Fin.ofNat 256 c.toNat)

structure KeyValue where
  key : GoString
  value : GoString
  deriving DecidableEq

def less (a b : KeyValue) : Prop := a.key < b.key

inductive File where
  | missing
  | unreadable
  | content (bytes : GoString)
  deriving DecidableEq

inductive Exit where
  | usage
  | cannotOpen (filename : GoString)
  | cannotRead (filename : GoString)
  deriving DecidableEq

structure Call where
  key : GoString
  values : List GoString
  deriving DecidableEq

structure Output where
  calls : List Call
  ofile : GoString
  deriving DecidableEq

section Program

variable (disk : GoString → File) (mapf : GoString → GoString → List KeyValue)
  (reducef : GoString → List GoString → GoString)

def readAll (filename : GoString) : Except Exit GoString :=
  match disk filename with
  | .missing => .error (.cannotOpen filename)
  | .unreadable => .error (.cannotRead filename)
  | .content bytes => .ok bytes

def mapFiles : List GoString → List KeyValue → Except Exit (List KeyValue)
  | [], intermediate => .ok intermediate
  | filename::rest, intermediate =>
    match readAll disk filename with
    | .error e => .error e
    | .ok content => mapFiles rest (intermediate++mapf filename content)

def blockEnd (intermediate : List KeyValue) (key : GoString) (j : ℕ) : ℕ :=
  if h : j < intermediate.length then
    if intermediate[j].key = key then blockEnd intermediate key (j+1) else j
  else j
termination_by intermediate.length-j

theorem blockEnd_eq (l : List KeyValue) (key : GoString) (j : ℕ) :
    blockEnd l key j = j+((l.drop j).takeWhile (fun kv => kv.key = key)).length := by
  induction j using blockEnd.induct l key with
  | case1 j h hkey ih =>
    rw [blockEnd, dif_pos h, if_pos hkey, ih, List.drop_eq_getElem_cons h,
      List.takeWhile_cons_of_pos (by simpa using hkey), List.length_cons]
    omega
  | case2 j h hkey =>
    rw [blockEnd, dif_pos h, if_neg hkey, List.drop_eq_getElem_cons h,
      List.takeWhile_cons_of_neg (by simpa using hkey), List.length_nil, Nat.add_zero]
  | case3 j h =>
    rw [blockEnd, dif_neg h, List.drop_eq_nil_of_le (by omega), List.takeWhile_nil,
      List.length_nil, Nat.add_zero]

theorem le_blockEnd (l : List KeyValue) (key : GoString) (j : ℕ) : j ≤ blockEnd l key j := by
  rw [blockEnd_eq]
  omega

theorem blockEnd_le (l : List KeyValue) (key : GoString) {j : ℕ} (hj : j ≤ l.length) :
    blockEnd l key j ≤ l.length := by
  have hlen := (List.takeWhile_sublist (l := l.drop j) (fun kv => decide (kv.key = key))).length_le
  rw [List.length_drop] at hlen
  rw [blockEnd_eq]
  omega

def collect (intermediate : List KeyValue) (j : ℕ) (hj : j ≤ intermediate.length) (k : ℕ)
    (values : List GoString) : List GoString :=
  if h : k < j then collect intermediate j hj (k+1) (values++[intermediate[k].value])
  else values
termination_by j-k

theorem collect_eq (l : List KeyValue) (j : ℕ) (hj : j ≤ l.length) (k : ℕ)
    (values : List GoString) :
    collect l j hj k values = values++((l.drop k).take (j-k)).map KeyValue.value := by
  induction k, values using collect.induct l j hj with
  | case1 k values h ih =>
    obtain ⟨n,hn⟩ : ∃ n, j-k = n+1 := ⟨j-k-1,by omega⟩
    rw [collect, dif_pos h, ih, List.drop_eq_getElem_cons (i := k) (by omega), hn,
      List.take_succ_cons, List.map_cons, show j-(k+1) = n by omega, List.append_assoc]
    rfl
  | case2 k values h =>
    rw [collect, dif_neg h, show j-k = 0 by omega, List.take_zero, List.map_nil, List.append_nil]

def line (key output : GoString) : GoString := key++ascii " "++output++ascii "\n"

def Output.add (out : Output) (call : Call) : Output where
  calls := out.calls++[call]
  ofile := out.ofile++line call.key (reducef call.key call.values)

def reduceLoop (intermediate : List KeyValue) (i : ℕ) (out : Output) : Output :=
  if h : i < intermediate.length then
    have := le_blockEnd intermediate intermediate[i].key (i+1)
    reduceLoop intermediate (blockEnd intermediate intermediate[i].key (i+1))
      (Output.add reducef out
        { key := intermediate[i].key
          values := collect intermediate (blockEnd intermediate intermediate[i].key (i+1))
            (blockEnd_le intermediate _ h) i [] })
  else out
termination_by intermediate.length-i

def main (sorter : Sorter (fun a b => ¬less b a)) (args : List GoString) : Except Exit Output :=
  if args.length < 3 then .error .usage
  else
    match mapFiles disk mapf (args.drop 2) [] with
    | .error e => .error e
    | .ok intermediate => .ok (reduceLoop reducef (sorter.sort intermediate) 0 ⟨[],[]⟩)

end Program

/-! ## The loop takes the blocks -/

def callOf (block : GoString × List KeyValue) : Call where
  key := block.1
  values := block.2.map KeyValue.value

theorem collect_block (l : List KeyValue) {i : ℕ} (h : i < l.length) :
    collect l (blockEnd l l[i].key (i+1)) (blockEnd_le l _ h) i [] =
      (l[i]::(l.drop (i+1)).takeWhile (fun kv => kv.key = l[i].key)).map KeyValue.value := by
  have hpre := List.prefix_iff_eq_take.mp
    (List.takeWhile_prefix (l := l.drop (i+1)) (fun kv => decide (kv.key = l[i].key)))
  rw [collect_eq, List.nil_append, List.drop_eq_getElem_cons h, blockEnd_eq,
    show ∀ n, i+1+n-i = n+1 by omega, List.take_succ_cons, ← hpre]

theorem drop_blockEnd (l : List KeyValue) (key : GoString) (j : ℕ) :
    l.drop (blockEnd l key j) = (l.drop j).dropWhile (fun kv => kv.key = key) := by
  rw [blockEnd_eq, ← List.drop_drop]
  nth_rewrite 2 [← List.takeWhile_append_dropWhile (p := fun kv => decide (kv.key = key))
    (l := l.drop j)]
  exact List.drop_left

theorem reduceLoop_eq (reducef : GoString → List GoString → GoString) (l : List KeyValue) (i : ℕ)
    (out : Output) :
    reduceLoop reducef l i out =
      ((blocks KeyValue.key (l.drop i)).map callOf).foldl (Output.add reducef) out := by
  induction i, out using reduceLoop.induct reducef l with
  | case1 i out h _ ih =>
    rw [reduceLoop, dif_pos h]
    rw [ih, List.drop_eq_getElem_cons h, blocks, List.map_cons, List.foldl_cons,
      drop_blockEnd, collect_block l h, callOf]
    congr!
  | case2 i out h =>
    rw [reduceLoop, dif_neg h, List.drop_eq_nil_of_le (by omega), blocks]
    rfl

theorem foldl_add (reducef : GoString → List GoString → GoString) (calls : List Call)
    (out : Output) :
    calls.foldl (Output.add reducef) out =
      { calls := out.calls++calls
        ofile := out.ofile++calls.flatMap (fun c => line c.key (reducef c.key c.values)) } := by
  induction calls generalizing out with
  | nil => simp
  | cons c calls ih =>
    rw [List.foldl_cons, ih]
    simp [Output.add]

/-! ## What is emitted and how it is grouped -/

def Readable (disk : GoString → File) (filename : GoString) : Prop :=
  ∃ bytes, disk filename = .content bytes

def contentOf (disk : GoString → File) (filename : GoString) : GoString :=
  match disk filename with
  | .content bytes => bytes
  | _ => []

def emitted (disk : GoString → File) (mapf : GoString → GoString → List KeyValue)
    (filenames : List GoString) (key : GoString) : List GoString :=
  filenames.flatMap (fun filename =>
    ((mapf filename (contentOf disk filename)).filter (fun kv => kv.key = key)).map KeyValue.value)

structure Grouped (emitted : GoString → List GoString) (calls : List Call) : Prop where
  increasing : (calls.map Call.key).Pairwise (· < ·)
  keys : ∀ key, key ∈ calls.map Call.key ↔ emitted key ≠ []
  values : ∀ call ∈ calls, call.values.Perm (emitted call.key)

theorem mapFiles_ok (disk : GoString → File) (mapf : GoString → GoString → List KeyValue)
    (filenames : List GoString) (acc l : List KeyValue) :
    mapFiles disk mapf filenames acc = .ok l ↔ (∀ f ∈ filenames, Readable disk f) ∧
      l = acc++filenames.flatMap (fun f => mapf f (contentOf disk f)) := by
  induction filenames generalizing acc with
  | nil => simp [mapFiles, eq_comm]
  | cons f rest ih =>
    rw [mapFiles, List.forall_mem_cons, List.flatMap_cons]
    cases hf : disk f with
    | missing => simp [readAll, Readable, hf]
    | unreadable => simp [readAll, Readable, hf]
    | content bytes => simp [readAll, Readable, contentOf, hf, ih]

theorem mem_sorted_blocks (sorter : Sorter (fun a b => ¬less b a)) (l : List KeyValue)
    (key : GoString) (b : List KeyValue) :
    (key,b) ∈ blocks KeyValue.key (sorter.sort l) ↔
      b = (sorter.sort l).filter (fun kv => kv.key = key) ∧ b ≠ [] := by
  have hsorted : Sorted KeyValue.key (sorter.sort l) :=
    (sorter.sorted l).imp (fun h => not_lt.mp h)
  convert mem_blocks hsorted key b

theorem grouped_blocks (sorter : Sorter (fun a b => ¬less b a)) (l : List KeyValue) :
    Grouped (fun key => (l.filter (fun kv => kv.key = key)).map KeyValue.value)
      ((blocks KeyValue.key (sorter.sort l)).map callOf) := by
  have hperm : ∀ key, ((sorter.sort l).filter (fun kv => kv.key = key)).Perm
      (l.filter (fun kv => kv.key = key)) := fun key => (sorter.perm l).filter _
  refine ⟨?_,?_,?_⟩
  · rw [List.map_map]
    exact blocks_increasing ((sorter.sorted l).imp (fun h => not_lt.mp h))
  · intro key
    rw [List.map_map, List.mem_map, Ne, List.map_eq_nil_iff]
    constructor
    · rintro ⟨⟨k,b⟩,hb,rfl⟩ hnil
      obtain ⟨rfl,hne⟩ := (mem_sorted_blocks sorter l k b).mp hb
      exact hne ((hnil ▸ hperm k).eq_nil)
    · intro hne
      refine ⟨(key,_),(mem_sorted_blocks sorter l key _).mpr ⟨rfl,fun hnil => hne ?_⟩,rfl⟩
      exact (hnil ▸ (hperm key).symm).eq_nil
  · intro call hcall
    obtain ⟨⟨k,b⟩,hb,rfl⟩ := List.mem_map.mp hcall
    obtain ⟨rfl,-⟩ := (mem_sorted_blocks sorter l k b).mp hb
    exact (hperm k).map KeyValue.value

section Runs

variable (disk : GoString → File) (mapf : GoString → GoString → List KeyValue)
  (reducef : GoString → List GoString → GoString) (sorter : Sorter (fun a b => ¬less b a))
  (prog plugin : GoString) (filenames : List GoString)

def callsOf : List Call :=
  (blocks KeyValue.key
    (sorter.sort (filenames.flatMap (fun f => mapf f (contentOf disk f))))).map callOf

theorem callsOf_grouped :
    Grouped (emitted disk mapf filenames) (callsOf disk mapf sorter filenames) := by
  have h := grouped_blocks sorter (filenames.flatMap (fun f => mapf f (contentOf disk f)))
  have hemit : (fun key => ((filenames.flatMap (fun f => mapf f (contentOf disk f))).filter
      (fun kv => kv.key = key)).map KeyValue.value) = emitted disk mapf filenames := by
    funext key
    rw [List.filter_flatMap, List.map_flatMap]
    rfl
  rwa [hemit] at h

theorem main_ok (out : Output) :
    main disk mapf reducef sorter (prog::plugin::filenames) = .ok out ↔
      (filenames ≠ [] ∧ ∀ f ∈ filenames, Readable disk f) ∧
        out =
          { calls := callsOf disk mapf sorter filenames
            ofile := (callsOf disk mapf sorter filenames).flatMap
              (fun c => line c.key (reducef c.key c.values)) } := by
  have hmap := mapFiles_ok disk mapf filenames []
  cases filenames with
  | nil => simp [main]
  | cons f rest =>
    rw [main, if_neg (by simp)]
    cases hr : mapFiles disk mapf (f::rest) [] with
    | error e =>
      have hbad : ¬∀ g ∈ f::rest, Readable disk g := by
        intro hall
        have := (hmap _).mpr ⟨hall,rfl⟩
        rw [hr] at this
        cases this
      simp only [List.drop_succ_cons, List.drop_zero, hr]
      exact ⟨nofun,fun h => absurd h.1.2 hbad⟩
    | ok l =>
      obtain ⟨hall,rfl⟩ := (hmap l).mp hr
      simp only [List.drop_succ_cons, List.drop_zero, hr, Except.ok.injEq, reduceLoop_eq,
        foldl_add, List.nil_append]
      exact ⟨fun h => ⟨⟨List.cons_ne_nil f rest,hall⟩,h.symm⟩,fun h => h.2.symm⟩

end Runs

end Gopher.MapReduce
