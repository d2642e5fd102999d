import Gopher.StepRuns

/-!
# The tester's copy of the committed logs

The goroutines that read what the peers apply, with and without snapshots, and one
goroutine that submits a command and waits for agreement. What the peers send is
arbitrary.
-/

set_option autoImplicit false

namespace Gopher.RaftLogs
open Gopher.StepRuns

variable {V : Type}

inductive ApplyError (V : Type) where
  | mismatch (index : ℤ) (server : ℕ) (command : V) (other : ℕ) (old : V)
  | outOfOrder (server : ℕ) (index : ℤ)
  | unexpected (server : ℕ) (expected got : ℤ)
  | wrongSnapshot (server : ℕ)
  deriving DecidableEq

inductive Fatal (V : Type) where
  | applyError (e : ApplyError V)
  | nilSnapshot
  | snapshotDecode
  deriving DecidableEq

structure Snapshot (V : Type) where
  lastIncludedIndex : ℤ
  xlog : List V
  deriving DecidableEq

/-- Bytes that cannot be decoded are a snapshot of nothing; no bytes are no snapshot. -/
structure ApplyMsg (V : Type) where
  commandValid : Bool
  command : V
  commandIndex : ℤ
  snapshotValid : Bool
  snapshot : Option (Option (Snapshot V))
  snapshotIndex : ℤ

inductive ApplierPc (V : Type) where
  | reading
  | checking (command : V) (index : ℤ)
  | advancing (index : ℤ) (err : Option (ApplyError V))
  | snapshotting (index : ℤ) (err : Option (ApplyError V))
  | reporting (err : Option (ApplyError V))
  deriving DecidableEq

structure Applier (V : Type) where
  server : ℕ
  pc : ApplierPc V
  deriving DecidableEq

/-- Where `one` stands; within `nCommitted` the servers below `i` have been counted. -/
inductive TesterPc (V : Type) where
  | outer (starts : ℕ)
  | trying (starts si : ℕ)
  | polling (starts : ℕ) (index : ℤ)
  | counting (starts : ℕ) (index : ℤ) (i count : ℕ) (cmd : Option V)
  | returned (index : ℤ)
  | mismatch (index : ℤ) (cmd cmd1 : V)
  | failed
  deriving DecidableEq

structure Config (V : Type) where
  logs : ℕ → ℤ → Option V
  lastApplied : ℕ → ℤ
  maxIndex : ℤ
  appliers : List (Applier V)
  tester : TesterPc V
  fatal : Option (Fatal V)
  taken : List (Snapshot V)

structure Setup (V : Type) where
  n : ℕ
  snapshot : Bool
  nil : V
  cmd : V
  expectedServers : ℤ
  retry : Bool

inductive Action (V : Type) where
  | restart (i : ℕ) (saved : Option (Option (Snapshot V)))
  | receive (k : ℕ) (m : ApplyMsg V)
  | proceed (k : ℕ)
  | loop (again finished : Bool)
  | tryServer (index : Option ℤ)
  | poll (inTime : Bool)
  | count

section Checks

variable [DecidableEq V]

def mismatchOf (logs : ℕ → ℤ → Option V) (n i : ℕ) (v : V) (index : ℤ) :
    Option (ApplyError V) :=
  (List.range n).foldl (fun err j =>
    match logs j index with
    | some old => if old ≠ v then some (.mismatch index i v j old) else err
    | none => err) none

namespace Config

variable (s : Config V)

def checkLogs (n i : ℕ) (v : V) (index : ℤ) : (Option (ApplyError V) × Bool) × Config V :=
  ((mismatchOf s.logs n i v index,(s.logs i (index-1)).isSome),
    { s with
      logs := Function.update s.logs i (Function.update (s.logs i) index (some v))
      maxIndex := max s.maxIndex index })

def applyCommand (n i : ℕ) (v : V) (index : ℤ) : Option (ApplyError V) × Config V :=
  let checked := s.checkLogs n i v index
  (if 1 < index ∧ checked.1.2 = false then some (.outOfOrder i index) else checked.1.1,checked.2)

def setPc (k : ℕ) (pc : ApplierPc V) : Config V :=
  { s with appliers := s.appliers.modify k (fun a => { a with pc := pc }) }

def adopt (i : ℕ) (snap : Snapshot V) : Config V :=
  { s with
    logs := Function.update s.logs i (fun k => if 0 ≤ k then snap.xlog[k.toNat]? else none)
    lastApplied := Function.update s.lastApplied i snap.lastIncludedIndex }

def ingestSnap (i : ℕ) (snapshot : Option (Option (Snapshot V))) (index : ℤ) :
    Option (ApplyError V) × Config V :=
  match snapshot with
  | none => (none,{ s with fatal := some .nilSnapshot })
  | some none => (none,{ s with fatal := some .snapshotDecode })
  | some (some snap) =>
    if index ≠ -1 ∧ index ≠ snap.lastIncludedIndex then (some (.wrongSnapshot i),s)
    else (none,s.adopt i snap)

end Config

namespace Setup

variable (p : Setup V)

def restart (s : Config V) (i : ℕ) (saved : Option (Option (Snapshot V))) : Config V :=
  if i < p.n then
    let s₁ := { s with lastApplied := Function.update s.lastApplied i 0 }
    let s₂ := if saved.isSome then (s₁.ingestSnap i saved (-1)).2 else s₁
    { s₂ with appliers := s₂.appliers++[⟨i,.reading⟩] }
  else s

def receive (s : Config V) (k : ℕ) (m : ApplyMsg V) : Config V :=
  match s.appliers[k]? with
  | some ⟨i,.reading⟩ =>
    if p.snapshot then
      if m.snapshotValid then
        let ingested := s.ingestSnap i m.snapshot m.snapshotIndex
        ingested.2.setPc k (.reporting ingested.1)
      else if m.commandValid then
        if m.commandIndex ≠ s.lastApplied i+1 then
          s.setPc k (.advancing m.commandIndex
            (some (.unexpected i (s.lastApplied i+1) m.commandIndex)))
        else s.setPc k (.checking m.command m.commandIndex)
      else s
    else if m.commandValid then
      let applied := s.applyCommand p.n i m.command m.commandIndex
      applied.2.setPc k (.reporting applied.1)
    else s
  | _ => s

def snapshotAt (s : Config V) (i : ℕ) (index : ℤ) : Snapshot V :=
  ⟨index,(List.range (index+1).toNat).map (fun j => (s.logs i j).getD p.nil)⟩

def proceed (s : Config V) (k : ℕ) : Config V :=
  match s.appliers[k]? with
  | some ⟨i,.checking v index⟩ =>
    let applied := s.applyCommand p.n i v index
    applied.2.setPc k (.advancing index applied.1)
  | some ⟨i,.advancing index err⟩ =>
    { s with lastApplied := Function.update s.lastApplied i index }.setPc k
      (.snapshotting index err)
  | some ⟨i,.snapshotting index err⟩ =>
    (if (index+1)%10 = 0 then { s with taken := s.taken++[p.snapshotAt s i index] } else s).setPc k
      (.reporting err)
  | some ⟨_,.reporting (some e)⟩ => { s with fatal := some (.applyError e) }
  | some ⟨_,.reporting none⟩ => s.setPc k .reading
  | _ => s

def countStep (s : Config V) (starts : ℕ) (index : ℤ) (i count : ℕ) (cmd : Option V) :
    TesterPc V :=
  if i < p.n then
    match s.logs i index, cmd with
    | none, _ => .counting starts index (i+1) count cmd
    | some cmd1, some old =>
      if 0 < count ∧ old ≠ cmd1 then .mismatch index old cmd1
      else .counting starts index (i+1) (count+1) (some cmd1)
    | some cmd1, none => .counting starts index (i+1) (count+1) (some cmd1)
  else if 0 < count ∧ p.expectedServers ≤ count ∧ cmd = some p.cmd then .returned index
  else .polling starts index

def testerStep (s : Config V) (a : Action V) : TesterPc V :=
  match s.tester, a with
  | .outer starts, .loop again finished =>
    if again then .trying starts 0 else if finished then .returned (-1) else .failed
  | .trying starts si, .tryServer index =>
    if si < p.n then
      match index with
      | some index =>
        if index = -1 then .outer ((starts+1)%p.n) else .polling ((starts+1)%p.n) index
      | none => .trying ((starts+1)%p.n) (si+1)
    else .outer starts
  | .polling starts index, .poll inTime =>
    if inTime then .counting starts index 0 0 none else if p.retry then .outer starts else .failed
  | .counting starts index i count cmd, .count => p.countStep s starts index i count cmd
  | pc, _ => pc

def step (a : Action V) (s : Config V) : Config V :=
  if s.fatal.isSome then s
  else match a with
    | .restart i saved => p.restart s i saved
    | .receive k m => p.receive s k m
    | .proceed k => p.proceed s k
    | a => { s with tester := p.testerStep s a }

end Setup

end Checks

def start : Config V where
  logs := fun _ _ => none
  lastApplied := fun _ => 0
  maxIndex := 0
  appliers := []
  tester := .outer 0
  fatal := none
  taken := []

end Gopher.RaftLogs
