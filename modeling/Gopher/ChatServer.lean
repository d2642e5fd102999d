import Gopher.StepRuns
import Gopher.FixedArray

/-!
# The client table of the chat server

The accept loop and one handler for each client share an array of
`CLIENT_CAP` pointers and a counter under one lock. Every critical section is
one action. A pointer is the number of the accepted connection it points to,
since every turn of the accept loop has its own variable. An index outside
the array and a nil pointer end the process, as does the end of `main`.
-/

set_option autoImplicit false

namespace Gopher.ChatServer
open Gopher.StepRuns Gopher.FixedArray

def clientCap : ℕ := 3

abbrev Conn : Type := ℕ

abbrev Msg : Type := List UInt8

structure Table where
  connArr : Slots Conn clientCap
  connArrLen : ℕ
  deriving DecidableEq, Repr

def addConn (conn : Conn) (t : Table) : Option Table := do
  let arr ← t.connArr.write t.connArrLen (some conn)
  return { connArr := arr, connArrLen := t.connArrLen+1 }

/-- The scan for the pointer, with the given number of turns left. Once it is
found the same variable runs on to the end of the table. -/
def removeFrom (conn : Conn) (t : Table) (i : ℕ) : ℕ → Option Table
  | 0 => some t
  | n+1 => do
    let c ← t.connArr.read i
    if c ≠ some conn then removeFrom conn t (i+1) n
    else
      let arr ← t.connArr.shift i (t.connArrLen-1-i)
      return { connArr := arr, connArrLen := t.connArrLen-1 }

def delConn (conn : Conn) (t : Table) : Option Table := removeFrom conn t 0 t.connArrLen

def writeFrom (arr : Slots Conn clientCap) (i : ℕ) : ℕ → Option (List Conn)
  | 0 => some []
  | n+1 => do
    let c ← arr.read i
    let conn ← c
    let rest ← writeFrom arr (i+1) n
    return conn::rest

inductive Status where
  | serving
  | exited
  | panicked
  deriving DecidableEq, Repr

/-- No step reads who has left and what was received; `received` keeps with a
message the clients that were connected when it came. -/
structure State where
  table : Table
  status : Status
  accepted : ℕ
  gone : List Conn
  received : List (Msg × List Conn)
  writes : List (Msg × Conn)
  deriving DecidableEq, Repr

inductive Action where
  | accept
  | acceptErr
  | receive (conn : Conn) (msg : Msg)
  | disconnect (conn : Conn)
  deriving DecidableEq, Repr

def start : State where
  table := { connArr := Slots.blank Conn clientCap, connArrLen := 0 }
  status := .serving
  accepted := 0
  gone := []
  received := []
  writes := []

def State.live (s : State) : List Conn := (List.range s.accepted).filter (fun c => c ∉ s.gone)

def acceptStep (s : State) : State :=
  match addConn s.accepted s.table with
  | none => { s with status := .panicked, accepted := s.accepted+1 }
  | some t => { s with table := t, accepted := s.accepted+1 }

def receiveStep (msg : Msg) (s : State) : State :=
  match writeFrom s.table.connArr 0 s.table.connArrLen with
  | none => { s with status := .panicked }
  | some conns => { s with writes := s.writes++conns.map (fun c => (msg,c)) }

def disconnectStep (conn : Conn) (s : State) : State :=
  match delConn conn s.table with
  | none => { s with status := .panicked, gone := s.gone++[conn] }
  | some t => { s with table := t, gone := s.gone++[conn] }

def State.record (s : State) (msg : Msg) (conns : List Conn) : State :=
  { s with received := s.received++[(msg,conns)] }

def step (a : Action) (s : State) : State :=
  if s.status ≠ .serving then s
  else
    match a with
    | .accept => acceptStep s
    | .acceptErr => { s with status := .exited }
    | .receive conn msg => if conn ∈ s.live then (receiveStep msg s).record msg s.live else s
    | .disconnect conn => if conn ∈ s.live then disconnectStep conn s else s

def delivery (r : Msg × List Conn) : List (Msg × Conn) := r.2.map (fun c => (r.1,c))

/-- No index left the array, the used part of the array is the list of the
connected clients, and every message went once to everyone connected. -/
structure Exact (s : State) : Prop where
  inside : s.status ≠ .panicked
  listed : s.table.connArr.Lists s.table.connArrLen s.live
  delivered : s.writes = s.received.flatMap delivery

def Guard (a : Action) (s : State) : Prop :=
  match a with
  | .accept => s.status = .serving → s.live.length < clientCap
  | _ => True

theorem live_accept (s : State) (h : ∀ c ∈ s.gone, c < s.accepted) :
    ({ s with accepted := s.accepted+1 } : State).live = s.live++[s.accepted] := by
  have hnew : s.accepted ∉ s.gone := fun hm => absurd (h _ hm) (lt_irrefl _)
  simp [State.live, List.range_succ, hnew]

theorem live_nodup (s : State) : s.live.Nodup := List.nodup_range.filter _

theorem live_lt {s : State} {c : Conn} (h : c ∈ s.live) : c < s.accepted :=
  List.mem_range.mp (List.mem_of_mem_filter h)

theorem live_disconnect (s : State) (conn : Conn) (as bs : List Conn)
    (h : s.live = as++conn::bs) :
    ({ s with gone := s.gone++[conn] } : State).live = as++bs := by
  have hsplit : ({ s with gone := s.gone++[conn] } : State).live =
      s.live.filter (fun c => c ≠ conn) := by
    simp only [State.live, List.filter_filter]
    apply List.filter_congr
    intro c _
    by_cases hc : c = conn <;> simp [hc]
  have hnd := live_nodup s
  rw [h, List.nodup_middle, List.nodup_cons] at hnd
  have hother : ∀ c ∈ as++bs, c ≠ conn := fun c hc he => hnd.1 (he ▸ hc)
  rw [hsplit, h, List.filter_append, List.filter_cons_of_neg (by simp), ← List.filter_append]
  exact List.filter_eq_self.mpr (fun c hc => by simpa using hother c hc)

theorem addConn_lists {t : Table} {conns : List Conn} (h : t.connArr.Lists t.connArrLen conns)
    (conn : Conn) (hroom : t.connArrLen < clientCap) :
    ∃ u, addConn conn t = some u ∧ u.connArr.Lists u.connArrLen (conns++[conn]) := by
  obtain ⟨arr,hw,harr⟩ := Slots.lists_push h conn hroom
  exact ⟨{ connArr := arr, connArrLen := t.connArrLen+1 },by simp [addConn, hw],harr⟩

/-- The scan skips the clients in front and closes the gap. -/
theorem removeFrom_lists (conn : Conn) (suf pre bs : List Conn) (t : Table)
    (h : t.connArr.Lists t.connArrLen (pre++(suf++conn::bs))) (hne : conn ∉ suf) :
    ∃ u, removeFrom conn t pre.length (suf.length+bs.length+1) = some u ∧
      u.connArr.Lists u.connArrLen (pre++(suf++bs)) := by
  have hlen : t.connArrLen = (pre++(suf++conn::bs)).length := by
    obtain ⟨_,-,hl⟩ := h
    exact hl
  simp only [List.length_append, List.length_cons] at hlen
  induction suf generalizing pre with
  | nil =>
    have hread := Slots.lists_read h (i := pre.length) (by omega)
    obtain ⟨arr,hs,harr⟩ := Slots.lists_shift pre bs h
    refine ⟨{ connArr := arr, connArrLen := t.connArrLen-1 },?_,harr⟩
    simp only [List.nil_append, List.getElem?_append_right (le_refl _), Nat.sub_self,
      List.getElem?_cons_zero] at hread
    simp [removeFrom, hread, hs]
  | cons c suf ih =>
    have hread := Slots.lists_read h (i := pre.length) (by simp at hlen; omega)
    simp only [List.cons_append, List.getElem?_append_right (le_refl _), Nat.sub_self,
      List.getElem?_cons_zero] at hread
    have hc : c ≠ conn := fun he => hne (by simp [he])
    obtain ⟨u,hu,hl⟩ := ih (pre++[c]) (by simpa using h) (fun hm => hne (by simp [hm]))
      (by simp at hlen ⊢; omega)
    refine ⟨u,?_,by simpa using hl⟩
    rw [List.length_append, List.length_singleton] at hu
    have hturns : (c::suf).length+bs.length+1 = (suf.length+bs.length+1)+1 := by
      simp only [List.length_cons]
      omega
    rw [hturns, removeFrom, hread]
    simp [hc, hu]

theorem delConn_lists {t : Table} {as bs : List Conn} {conn : Conn}
    (h : t.connArr.Lists t.connArrLen (as++conn::bs)) (hne : conn ∉ as) :
    ∃ u, delConn conn t = some u ∧ u.connArr.Lists u.connArrLen (as++bs) := by
  have hlen : t.connArrLen = as.length+bs.length+1 := by
    obtain ⟨_,-,hl⟩ := h
    simp only [List.length_append, List.length_cons] at hl
    omega
  rw [delConn, hlen]
  exact removeFrom_lists conn as [] bs t h hne

theorem writeFrom_lists (arr : Slots Conn clientCap) (n : ℕ) (bs as : List Conn)
    (h : arr.Lists n (as++bs)) : writeFrom arr as.length bs.length = some bs := by
  have hlen : n = as.length+bs.length := by
    obtain ⟨_,-,hl⟩ := h
    simpa using hl
  induction bs generalizing as with
  | nil => rfl
  | cons b bs ih =>
    have hread := Slots.lists_read h (i := as.length) (by simp at hlen; omega)
    simp only [List.getElem?_append_right (le_refl _), Nat.sub_self,
      List.getElem?_cons_zero] at hread
    have hrest := ih (as++[b]) (by simpa using h) (by simp at hlen ⊢; omega)
    rw [List.length_append, List.length_singleton] at hrest
    simp [writeFrom, hread, hrest]

def Known (s : State) : Prop := ∀ c ∈ s.gone, c < s.accepted

theorem known_step (a : Action) (s : State) (h : Known s) : Known (step a s) := by
  unfold step
  split_ifs with hs
  · exact h
  cases a with
  | accept =>
    have hn : Known { s with accepted := s.accepted+1 } :=
      fun c hc => (h c hc).trans (Nat.lt_succ_self _)
    simp only [acceptStep]
    cases addConn s.accepted s.table <;> exact hn
  | acceptErr => exact h
  | receive conn msg =>
    simp only [receiveStep, State.record]
    split_ifs
    · cases writeFrom s.table.connArr 0 s.table.connArrLen <;> exact h
    · exact h
  | disconnect conn =>
    simp only [disconnectStep]
    split_ifs with hl
    · have hn : Known { s with gone := s.gone++[conn] } := by
        intro c hc
        rcases List.mem_append.mp hc with hc | hc
        · exact h c hc
        · rw [List.mem_singleton.mp hc]
          exact live_lt (s := s) hl
      cases delConn conn s.table <;> exact hn
    · exact h

theorem accept_exact (s : State) (hk : Known s) (h : Exact s) :
    Exact (acceptStep s) ↔ s.live.length < clientCap := by
  obtain ⟨rest,hcells,hlen⟩ := h.listed
  constructor
  · intro hn
    by_contra hfull
    have hnone : addConn s.accepted s.table = none := by
      simp [addConn, Slots.write_full (some s.accepted) (by omega : clientCap ≤ s.table.connArrLen)]
    exact hn.inside (by simp [acceptStep, hnone])
  · intro hroom
    obtain ⟨t,ht,hl⟩ := addConn_lists h.listed s.accepted (by omega)
    simp only [acceptStep, ht]
    refine ⟨h.inside,?_,h.delivered⟩
    rw [show ({ s with table := t, accepted := s.accepted+1 } : State).live = s.live++[s.accepted]
      from live_accept s hk]
    exact hl

theorem receive_exact (msg : Msg) (s : State) (h : Exact s) :
    Exact ((receiveStep msg s).record msg s.live) := by
  have hlen : s.table.connArrLen = s.live.length := by
    obtain ⟨_,-,hl⟩ := h.listed
    exact hl
  have hall := writeFrom_lists s.table.connArr s.table.connArrLen s.live [] h.listed
  rw [List.length_nil, ← hlen] at hall
  simp only [receiveStep, hall, State.record]
  refine ⟨h.inside,h.listed,?_⟩
  simp [h.delivered, delivery]

theorem disconnect_exact (conn : Conn) (s : State) (hc : conn ∈ s.live) (h : Exact s) :
    Exact (disconnectStep conn s) := by
  obtain ⟨as,bs,hsplit⟩ := List.append_of_mem hc
  have hnd := live_nodup s
  rw [hsplit, List.nodup_middle, List.nodup_cons, List.mem_append, not_or] at hnd
  have hlisted := h.listed
  rw [hsplit] at hlisted
  obtain ⟨t,ht,hl⟩ := delConn_lists hlisted hnd.1.1
  simp only [disconnectStep, ht]
  refine ⟨h.inside,?_,h.delivered⟩
  rw [show ({ s with table := t, gone := s.gone++[conn] } : State).live = as++bs
    from live_disconnect s conn as bs hsplit]
  exact hl

/-- One critical section keeps the table exact except an accept without room. -/
theorem step_exact (a : Action) (s : State) (hk : Known s) (h : Exact s) :
    Exact (step a s) ↔ Guard a s := by
  unfold step
  split_ifs with hs
  · refine iff_of_true h ?_
    cases a <;> first | trivial | exact fun he => absurd he hs
  have hserving : s.status = .serving := not_not.mp hs
  cases a with
  | accept => simpa [Guard, hserving] using accept_exact s hk h
  | acceptErr => exact iff_of_true ⟨nofun,h.listed,h.delivered⟩ trivial
  | receive conn msg =>
    refine iff_of_true ?_ trivial
    dsimp only
    split_ifs
    · exact receive_exact msg s h
    · exact h
  | disconnect conn =>
    refine iff_of_true ?_ trivial
    dsimp only
    split_ifs with hc
    · exact disconnect_exact conn s hc h
    · exact h

theorem start_exact : Exact start := ⟨nofun,⟨_,rfl,rfl⟩,rfl⟩

/-- The client table is right in every state of a schedule exactly when no
client is accepted while `CLIENT_CAP` clients are connected. -/
theorem chat_table_exact (as : List Action) :
    Throughout step Exact as start ↔ Along step Guard as start :=
  throughout_iff_along step Guard Known Exact (fun a s hk _ => known_step a s hk)
    (fun a s hk h => step_exact a s hk h) as start nofun start_exact

theorem fourth_client_panics :
    ¬Exact (run step [.accept,.accept,.accept,.accept] start) := by
  intro h
  exact h.inside (by decide)

end Gopher.ChatServer
