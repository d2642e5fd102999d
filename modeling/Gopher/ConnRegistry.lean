import Mathlib.Data.List.AList
import Gopher.StepRuns
import Gopher.MsgSerializer

/-!
# The connection registry under accepts and stops

The accept loop tests the limit, then creates the connection under the next
value of a 32-bit counter; stops run concurrently and remove by id. A
connection is an object: its serial number stands for the pointer and its id
is the field that the registry uses as key. `Stop` can be called on any
connection made so far; the list of live connections is derived from the run
and read by no step.
-/

set_option autoImplicit false

namespace Gopher.ConnRegistry
open Gopher.StepRuns Gopher.MsgSerializer

structure Conn where
  serial : ℕ
  id : UInt32
  deriving DecidableEq, Repr

abbrev ConnDict : Type := AList (fun _ : UInt32 => Conn)

def addConn (d : ConnDict) (c : Conn) : ConnDict := d.insert c.id c

def delConn (d : ConnDict) (c : Conn) : ConnDict := d.erase c.id

def notFoundText (connId : UInt32) : String := "Connection ID = " ++ toString connId ++ " not found"

def getConnById (d : ConnDict) (connId : UInt32) : Except GoError Conn :=
  match d.lookup connId with
  | some c => .ok c
  | none => .error (.text (notFoundText connId))

def getConnNum (d : ConnDict) : ℕ := d.keys.length

inductive StopPc where
  | idle
  | passed (c : Conn)
  | flagged (c : Conn)
  deriving DecidableEq, Repr

structure State (κ : Type*) where
  connId : UInt32
  admitted : Bool
  connDict : ConnDict
  isClosed : Conn → Bool
  stopper : κ → StopPc
  made : List Conn
  live : List Conn

inductive Action (κ : Type*) where
  | acceptError
  | accept
  | newConn
  | test (k : κ) (c : Conn)
  | flag (k : κ)
  | delConn (k : κ)

def listening (κ : Type*) : State κ where
  connId := 0
  admitted := false
  connDict := ∅
  isClosed := fun _ => false
  stopper := fun _ => .idle
  made := []
  live := []

variable {κ : Type*} [DecidableEq κ]

def State.next (s : State κ) : Conn := { serial := s.made.length, id := s.connId }

def acceptStep (conf : Conf) (s : State κ) : State κ :=
  if s.admitted then s
  else if (getConnNum s.connDict : ℤ) ≥ conf.maxConnNum then s
  else { s with admitted := true }

def newConnStep (s : State κ) : State κ :=
  if s.admitted then
    { s with
      connDict := addConn s.connDict s.next
      connId := s.connId+1
      admitted := false
      made := s.made++[s.next]
      live := s.live++[s.next] }
  else s

def testStep (k : κ) (c : Conn) (s : State κ) : State κ :=
  match s.stopper k with
  | .idle =>
    if c ∈ s.made ∧ s.isClosed c = false then
      { s with stopper := Function.update s.stopper k (.passed c) }
    else s
  | _ => s

def flagStep (k : κ) (s : State κ) : State κ :=
  match s.stopper k with
  | .passed c =>
    { s with
      isClosed := Function.update s.isClosed c true
      stopper := Function.update s.stopper k (.flagged c) }
  | _ => s

def delConnStep (k : κ) (s : State κ) : State κ :=
  match s.stopper k with
  | .flagged c =>
    { s with
      connDict := delConn s.connDict c
      stopper := Function.update s.stopper k .idle
      live := s.live.erase c }
  | _ => s

def step (conf : Conf) (a : Action κ) (s : State κ) : State κ :=
  match a with
  | .acceptError => s
  | .accept => acceptStep conf s
  | .newConn => newConnStep s
  | .test k c => testStep k c s
  | .flag k => flagStep k s
  | .delConn k => delConnStep k s

/-- The connections made and not yet removed by their `Stop` have distinct
ids, are found under them and respect the limit. -/
structure Registered (conf : Conf) (s : State κ) : Prop where
  distinct : (s.live.map Conn.id).Nodup
  found : ∀ c ∈ s.live, getConnById s.connDict c.id = .ok c
  bounded : (s.live.length : ℤ) ≤ conf.maxConnNum

/-- A new connection gets an id that no live connection has, and a removal
that comes after the connection is gone does not hit the id of a live one. -/
def Guard : Action κ → State κ → Prop
  | .newConn, s => s.admitted = true → ∀ c ∈ s.live, c.id ≠ s.connId
  | .delConn k, s => ∀ c, s.stopper k = .flagged c → c ∉ s.live → ∀ d ∈ s.live, d.id ≠ c.id
  | _, _ => True

def Sized (conf : Conf) (s : State κ) : Prop :=
  (getConnNum s.connDict : ℤ) ≤ conf.maxConnNum ∧
  (s.admitted = true → (getConnNum s.connDict : ℤ) < conf.maxConnNum)

theorem getConnById_ok_iff (d : ConnDict) (connId : UInt32) (c : Conn) :
    getConnById d connId = .ok c ↔ d.lookup connId = some c := by
  unfold getConnById
  cases d.lookup connId <;> simp

theorem addConn_num (d : ConnDict) (c : Conn) : getConnNum (addConn d c) ≤ getConnNum d+1 := by
  simp only [getConnNum, addConn, AList.keys_insert, List.length_cons]
  have := List.length_erase_le (a := c.id) (l := d.keys)
  omega

theorem delConn_num (d : ConnDict) (c : Conn) : getConnNum (delConn d c) ≤ getConnNum d := by
  simp only [getConnNum, delConn, AList.keys_erase]
  exact List.length_erase_le

theorem sized_step (conf : Conf) (a : Action κ) (s : State κ) (h : Sized conf s) :
    Sized conf (step conf a s) := by
  obtain ⟨hs,ha⟩ := h
  cases a with
  | acceptError => exact ⟨hs,ha⟩
  | accept =>
    simp only [step, acceptStep]
    split_ifs with hc hl
    · exact ⟨hs,ha⟩
    · exact ⟨hs,ha⟩
    · exact ⟨hs,fun _ => by simpa using hl⟩
  | newConn =>
    simp only [step, newConnStep]
    split_ifs with hc
    · have hn := addConn_num s.connDict s.next
      have hlt := ha hc
      exact ⟨by simp only; omega,by simp⟩
    · exact ⟨hs,ha⟩
  | test k c =>
    simp only [step, testStep]
    split
    · split_ifs <;> exact ⟨hs,ha⟩
    · exact ⟨hs,ha⟩
  | flag k =>
    simp only [step, flagStep]
    split <;> exact ⟨hs,ha⟩
  | delConn k =>
    simp only [step, delConnStep]
    split
    · next c _ =>
      have hn := delConn_num s.connDict c
      exact ⟨by simp only; omega,fun hc => by have := ha hc; simp only; omega⟩
    · exact ⟨hs,ha⟩

omit [DecidableEq κ] in
/-- Distinct ids that are all found are at most as many as the keys. -/
theorem live_le_num {s : State κ} (hd : (s.live.map Conn.id).Nodup)
    (hf : ∀ c ∈ s.live, getConnById s.connDict c.id = .ok c) :
    s.live.length ≤ getConnNum s.connDict := by
  have hsub : s.live.map Conn.id ⊆ s.connDict.keys := by
    intro x hx
    obtain ⟨c,hc,rfl⟩ := List.mem_map.mp hx
    have hl := (getConnById_ok_iff _ _ _).mp (hf c hc)
    exact AList.mem_keys.mp (AList.lookup_isSome.mp (by rw [hl]; rfl))
  simpa [getConnNum] using (List.subperm_of_subset hd hsub).length_le

omit [DecidableEq κ] in
theorem registered_of_sized {conf : Conf} {s : State κ} (h : Sized conf s)
    (hd : (s.live.map Conn.id).Nodup)
    (hf : ∀ c ∈ s.live, getConnById s.connDict c.id = .ok c) : Registered conf s where
  distinct := hd
  found := hf
  bounded := by
    have := live_le_num hd hf
    have := h.1
    omega

theorem newConn_registered (conf : Conf) (s : State κ) (hs : Sized conf s)
    (h : Registered conf s) :
    Registered conf (newConnStep s) ↔ Guard (κ := κ) .newConn s := by
  have hsized := sized_step conf .newConn s hs
  simp only [step] at hsized
  constructor
  · intro ht ha c hc he
    have hd := ht.distinct
    simp only [newConnStep, ha, if_true, List.map_append, List.map_cons, List.map_nil] at hd
    obtain ⟨-,-,hne⟩ := List.nodup_append.mp hd
    exact hne c.id (List.mem_map_of_mem hc) s.connId (by simp [State.next]) he
  · intro hg
    by_cases ha : s.admitted = true
    · apply registered_of_sized hsized
      · simp only [newConnStep, ha, if_true, List.map_append, List.map_cons, List.map_nil]
        refine List.nodup_append.mpr ⟨h.distinct,List.nodup_singleton _,?_⟩
        intro x hx y hy
        obtain ⟨c,hc,rfl⟩ := List.mem_map.mp hx
        rw [List.mem_singleton.mp hy]
        exact hg ha c hc
      · intro c hc
        simp only [newConnStep, ha, if_true, List.mem_append, List.mem_singleton] at hc ⊢
        rw [getConnById_ok_iff, addConn]
        rcases hc with hc | rfl
        · have hne : c.id ≠ s.next.id := hg ha c hc
          rw [AList.lookup_insert_ne hne]
          exact (getConnById_ok_iff _ _ _).mp (h.found c hc)
        · exact AList.lookup_insert _
    · rw [newConnStep, if_neg ha]
      exact h

theorem delConn_registered (conf : Conf) (s : State κ) (k : κ) (hs : Sized conf s)
    (h : Registered conf s) :
    Registered conf (delConnStep k s) ↔ Guard (.delConn k) s := by
  have hsized := sized_step conf (.delConn k) s hs
  simp only [step] at hsized
  constructor
  · intro ht c hk hc d hd he
    have hf := ht.found d
    simp only [delConnStep, hk, List.erase_of_not_mem hc] at hf
    have hl := (getConnById_ok_iff _ _ _).mp (hf hd)
    rw [delConn, he, AList.lookup_erase] at hl
    cases hl
  · intro hg
    cases hk : s.stopper k with
    | idle => simpa only [delConnStep, hk] using h
    | passed c => simpa only [delConnStep, hk] using h
    | flagged c =>
      have hnd : s.live.Nodup := h.distinct.of_map
      have hother : ∀ d ∈ s.live.erase c, d ∈ s.live ∧ d.id ≠ c.id := by
        intro d hd
        have hmem := List.mem_of_mem_erase hd
        by_cases hc : c ∈ s.live
        · refine ⟨hmem,fun he => ?_⟩
          have hdc : d = c := List.inj_on_of_nodup_map h.distinct hmem hc he
          rw [hdc] at hd
          exact hnd.not_mem_erase hd
        · exact ⟨hmem,hg c hk hc d hmem⟩
      apply registered_of_sized hsized
      · simp only [delConnStep, hk]
        exact h.distinct.sublist ((List.erase_sublist).map _)
      · intro d hd
        simp only [delConnStep, hk] at hd ⊢
        obtain ⟨hmem,hne⟩ := hother d hd
        rw [getConnById_ok_iff, delConn, AList.lookup_erase_ne hne]
        exact (getConnById_ok_iff _ _ _).mp (h.found d hmem)

/-- One step keeps the registry right exactly under the guard. -/
theorem step_registered (conf : Conf) (a : Action κ) (s : State κ) (hs : Sized conf s)
    (h : Registered conf s) : Registered conf (step conf a s) ↔ Guard a s := by
  cases a with
  | acceptError => exact iff_of_true h trivial
  | accept =>
    refine iff_of_true ?_ trivial
    simp only [step, acceptStep]
    split_ifs <;> exact ⟨h.distinct,h.found,h.bounded⟩
  | newConn => exact newConn_registered conf s hs h
  | test k c =>
    refine iff_of_true ?_ trivial
    simp only [step, testStep]
    split
    · split_ifs <;> exact ⟨h.distinct,h.found,h.bounded⟩
    · exact h
  | flag k =>
    refine iff_of_true ?_ trivial
    simp only [step, flagStep]
    split
    · exact ⟨h.distinct,h.found,h.bounded⟩
    · exact h
  | delConn k => exact delConn_registered conf s k hs h

def Action.creates : Action κ → Bool
  | .newConn => true
  | _ => false

structure Numbered (s : State κ) : Prop where
  counter : s.connId = UInt32.ofNat s.made.length
  ids : ∀ c ∈ s.made, c.id = UInt32.ofNat c.serial ∧ c.serial < s.made.length
  live : ∀ c ∈ s.live, c ∈ s.made
  passed : ∀ k c, s.stopper k = .passed c → c ∈ s.made
  flagged : ∀ k c, s.stopper k = .flagged c → c ∈ s.made

omit [DecidableEq κ] in
theorem newConn_numbered (s : State κ) (h : Numbered s) : Numbered (newConnStep s) := by
  unfold newConnStep
  split_ifs with ha
  · refine ⟨?_,?_,?_,?_,?_⟩
    · simp [h.counter]
    · intro c hc
      rcases List.mem_append.mp hc with hc | hc
      · obtain ⟨hid,hlt⟩ := h.ids c hc
        exact ⟨hid,by simp only [List.length_append, List.length_singleton]; omega⟩
      · rw [List.mem_singleton.mp hc]
        exact ⟨h.counter,by simp [State.next]⟩
    · intro c hc
      rcases List.mem_append.mp hc with hc | hc
      · exact List.mem_append_left _ (h.live c hc)
      · exact List.mem_append_right _ hc
    · exact fun k c hk => List.mem_append_left _ (h.passed k c hk)
    · exact fun k c hk => List.mem_append_left _ (h.flagged k c hk)
  · exact h

theorem Numbered.update {s : State κ} (h : Numbered s) (isClosed : Conn → Bool)
    (connDict : ConnDict) (live : List Conn) (k : κ) (pc : StopPc) (hl : ∀ c ∈ live, c ∈ s.live)
    (hp : ∀ c, pc = .passed c ∨ pc = .flagged c → c ∈ s.made) :
    Numbered { s with
      isClosed := isClosed
      connDict := connDict
      live := live
      stopper := Function.update s.stopper k pc } where
  counter := h.counter
  ids := h.ids
  live c hc := h.live c (hl c hc)
  passed := by
    apply (Function.forall_update_iff s.stopper (fun _ pc => ∀ c, pc = .passed c → c ∈ s.made)).mpr
    exact ⟨fun c hc => hp c (.inl hc),fun j _ => h.passed j⟩
  flagged := by
    apply (Function.forall_update_iff s.stopper (fun _ pc => ∀ c, pc = .flagged c → c ∈ s.made)).mpr
    exact ⟨fun c hc => hp c (.inr hc),fun j _ => h.flagged j⟩

theorem numbered_step (conf : Conf) (a : Action κ) (s : State κ) (h : Numbered s) :
    Numbered (step conf a s) := by
  cases a with
  | acceptError => exact h
  | accept =>
    simp only [step, acceptStep]
    split_ifs <;> exact ⟨h.counter,h.ids,h.live,h.passed,h.flagged⟩
  | newConn => exact newConn_numbered s h
  | test k c =>
    simp only [step, testStep]
    split
    · split_ifs with hc
      · exact h.update _ _ _ k _ (fun _ => id) (by rintro d (hd | hd) <;> cases hd; exact hc.1)
      · exact h
    · exact h
  | flag k =>
    simp only [step, flagStep]
    split
    · next c hk =>
      exact h.update _ _ _ k _ (fun _ => id)
        (by rintro d (hd | hd) <;> cases hd; exact h.passed k c hk)
    · exact h
  | delConn k =>
    simp only [step, delConnStep]
    split
    · next c hk =>
      exact h.update _ _ _ k _ (fun _ => List.mem_of_mem_erase)
        (by rintro d (hd | hd) <;> cases hd)
    · exact h

theorem made_step (conf : Conf) (a : Action κ) (s : State κ) :
    (step conf a s).made.length ≤ s.made.length+(if a.creates then 1 else 0) := by
  cases a with
  | newConn =>
    simp only [step, newConnStep, Action.creates, if_true]
    split <;> simp
  | _ =>
    simp only [step, acceptStep, testStep, flagStep, delConnStep]
    (repeat' split) <;> simp

omit [DecidableEq κ] in
/-- Below the wrap of the counter an id names one connection. -/
theorem Numbered.inj {s : State κ} (h : Numbered s) (hn : s.made.length ≤ 2^32) {c d : Conn}
    (hc : c ∈ s.made) (hd : d ∈ s.made) (he : c.id = d.id) : c = d := by
  obtain ⟨hci,hcl⟩ := h.ids c hc
  obtain ⟨hdi,hdl⟩ := h.ids d hd
  have hs : c.serial = d.serial := by
    have ht := congrArg UInt32.toNat he
    rwa [hci, hdi, UInt32.toNat_ofNat', UInt32.toNat_ofNat', Nat.mod_eq_of_lt (by omega),
      Nat.mod_eq_of_lt (by omega)] at ht
  cases c
  cases d
  simp_all

omit [DecidableEq κ] in
theorem Numbered.guard {s : State κ} (h : Numbered s) (a : Action κ)
    (hn : s.made.length+(if a.creates then 1 else 0) ≤ 2^32) : Guard a s := by
  cases a with
  | newConn =>
    intro _ c hc he
    obtain ⟨hid,hlt⟩ := h.ids c (h.live c hc)
    have ht := congrArg UInt32.toNat (hid.symm.trans (he.trans h.counter))
    simp only [Action.creates, if_true] at hn
    rw [UInt32.toNat_ofNat', UInt32.toNat_ofNat', Nat.mod_eq_of_lt (by omega),
      Nat.mod_eq_of_lt (by omega)] at ht
    omega
  | delConn k =>
    intro c hk hc d hd he
    exact hc (h.inj (by simpa [Action.creates] using hn) (h.live d hd) (h.flagged k c hk) he ▸ hd)
  | acceptError => trivial
  | accept => trivial
  | test k c => trivial
  | flag k => trivial

/-- The first `2^32` connections meet the guard in every schedule. -/
theorem unwrapped_guard (conf : Conf) (as : List (Action κ)) (s : State κ) (h : Numbered s)
    (hn : s.made.length+as.countP Action.creates ≤ 2^32) : Along (step conf) Guard as s := by
  induction as generalizing s with
  | nil => trivial
  | cons a as ih =>
    rw [List.countP_cons] at hn
    have hm := made_step conf a s
    exact ⟨h.guard a (by omega),ih _ (numbered_step conf a s h) (by omega)⟩

omit [DecidableEq κ] in
theorem listening_numbered : Numbered (listening κ) :=
  ⟨rfl,by simp [listening],by simp [listening],by simp [listening],by simp [listening]⟩

/-- Over runs of any length the registry is right in every state exactly when
no accept reuses the id of a live connection and no late removal hits one. -/
theorem registry_exact (conf : Conf) (hmax : 0 ≤ conf.maxConnNum) (as : List (Action κ)) :
    Throughout (step conf) (Registered conf) as (listening κ) ↔
      Along (step conf) Guard as (listening κ) := by
  apply throughout_iff_along (step conf) Guard (Sized conf) (Registered conf)
    (fun a s hs _ => sized_step conf a s hs) (fun a s hs h => step_registered conf a s hs h)
  · exact ⟨by simpa [listening, getConnNum] using hmax,by intro h; cases h⟩
  · exact ⟨List.nodup_nil,(by intro c hc; cases hc),by simpa [listening] using hmax⟩

def twoConns : Conf := { maxConnNum := 2 }

theorem registry_two_conns :
    0 ≤ twoConns.maxConnNum ∧ Throughout (step twoConns) (Registered twoConns)
      [.accept,.newConn,.accept,.newConn,.test () ⟨0,0⟩,.flag (),.delConn ()] (listening Unit) :=
  ⟨by decide,(registry_exact twoConns (by decide) _).mpr
    (unwrapped_guard twoConns _ _ listening_numbered (by decide))⟩

def State.visited (s : State κ) (k : κ) : State κ :=
  { s with
    connId := s.connId+1
    connDict := delConn (addConn s.connDict s.next) s.next
    isClosed := Function.update s.isClosed s.next true
    stopper := Function.update s.stopper k .idle
    made := s.made++[s.next]
    live := (s.live++[s.next]).erase s.next }

theorem visit_run (conf : Conf) (k : κ) (s : State κ) (ha : s.admitted = false)
    (hn : (getConnNum s.connDict : ℤ) < conf.maxConnNum) (hk : s.stopper k = .idle)
    (hf : s.isClosed s.next = false) :
    run (step conf) [.accept,.newConn,.test k s.next,.flag k,.delConn k] s = s.visited k := by
  have haccept : step conf .accept s = { s with admitted := true } := by
    simp only [step, acceptStep, ha, Bool.false_eq_true, if_false, if_neg (not_le.mpr hn)]
  have hnew : step conf .newConn { s with admitted := true } =
      { s with
        connDict := addConn s.connDict s.next
        connId := s.connId+1
        made := s.made++[s.next]
        live := s.live++[s.next] } := by
    simp only [step, newConnStep, if_true, ha]
    rfl
  rw [run_cons, haccept, run_cons, hnew, State.visited]
  generalize s.next = c at *
  simp [step, testStep, flagStep, delConnStep, hk, hf]

def visits : ℕ → List (Action Unit)
  | 0 => [.accept,.newConn]
  | n+1 => visits n++[.accept,.newConn,.test () { serial := n+1, id := UInt32.ofNat (n+1) },
      .flag (),.delConn ()]

structure Visited (n : ℕ) (s : State Unit) : Prop where
  next : s.next = { serial := n+1, id := UInt32.ofNat (n+1) }
  admitted : s.admitted = false
  keys : s.connDict.keys = [0]
  fresh : ∀ c, n < c.serial → s.isClosed c = false
  idle : s.stopper () = .idle
  live : s.live = [{ serial := 0, id := 0 }]

theorem visited_step (n : ℕ) (s : State Unit) (hn : n+1 < 2^32) (h : Visited n s) :
    Visited (n+1) (s.visited ()) := by
  have hid : s.next.id ≠ 0 := by
    intro he
    have := congrArg UInt32.toNat he
    rw [h.next, UInt32.toNat_ofNat', Nat.mod_eq_of_lt hn] at this
    simp at this
  have hmade : s.made.length = n+1 := congrArg Conn.serial h.next
  have hconn : s.connId = UInt32.ofNat (n+1) := congrArg Conn.id h.next
  refine ⟨?_,h.admitted,?_,?_,by simp [State.visited],?_⟩
  · simp [State.next, State.visited, hmade, hconn]
  · change ((s.connDict.insert s.next.id s.next).erase s.next.id).keys = [0]
    rw [AList.keys_erase, AList.keys_insert, List.erase_cons_head, h.keys,
      List.erase_of_not_mem (by simpa using hid)]
  · intro c hc
    have hne : c ≠ s.next := by
      rintro rfl
      rw [h.next] at hc
      simp at hc
    have := h.fresh c (by omega)
    simpa [State.visited, Function.update_of_ne hne] using this
  · rw [State.visited, h.live, h.next]
    simp

theorem visited_num {n : ℕ} {s : State Unit} (h : Visited n s) : getConnNum s.connDict = 1 := by
  rw [getConnNum, h.keys]
  rfl

theorem visits_visited (n : ℕ) (hn : n < 2^32) :
    Visited n (run (step twoConns) (visits n) (listening Unit)) := by
  induction n with
  | zero =>
    refine ⟨?_,?_,?_,?_,?_,?_⟩ <;> simp [visits, step, acceptStep, newConnStep, listening, twoConns,
      getConnNum, State.next, addConn]
  | succ n ih =>
    have h := ih (by omega)
    rw [visits, run_append, ← h.next,
      visit_run twoConns () _ h.admitted (by rw [visited_num h]; decide) h.idle
        (h.fresh _ (by rw [h.next]; simp))]
    exact visited_step n _ hn h

theorem collides (n : ℕ) (hn : n+1 = 2^32) :
    ¬Registered twoConns (run (step twoConns) (visits n++[.accept,.newConn]) (listening Unit)) := by
  have h := visits_visited n (by omega)
  rw [run_append]
  generalize run (step twoConns) (visits n) (listening Unit) = s at h
  have hid : s.connId = 0 := by
    have := congrArg Conn.id h.next
    rw [hn] at this
    simpa [State.next] using this
  intro hr
  have hd := hr.distinct
  simp [step, acceptStep, newConnStep, h.admitted, visited_num h, h.live, State.next, hid,
    twoConns] at hd

/-- The counter comes back to the id of a connection that never left: two live
connections share an id, and the registry knows only the second. -/
theorem wrapped_id_collides :
    ¬Registered twoConns
      (run (step twoConns) (visits (2^32-1)++[.accept,.newConn]) (listening Unit)) :=
  collides _ (by norm_num)

end Gopher.ConnRegistry
