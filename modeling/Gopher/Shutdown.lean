import Gopher.GoChannel
import Gopher.ConnRegistry

/-!
# Stopping the server

`Stop` of the server runs as one call chain while nothing else runs:
`DelAllConn` holds the write lock of the registry and stops the connections
in the order in which the map is ranged over, whatever that order is. The
lock is not reentrant, so a chain that asks for it while it holds it never
returns. The hook is any function on the state of the application.
-/

set_option autoImplicit false

namespace Gopher.Shutdown
open Gopher.GoChannel Gopher.ConnRegistry

/-- What a `Stop` reads and writes of one connection. An open connection has
its channels as they were made and its socket was never closed. -/
structure ConnState where
  isClosed : Bool
  closes : ℕ
  closedChan : Chan Unit
  packetChan : Chan (List UInt8)
  fresh : isClosed = false →
    closes = 0 ∧ closedChan = Chan.make 1 ∧ packetChan = Chan.make 0

inductive Halt where
  | ownLock
  | blocked
  | panicked
  deriving DecidableEq, Repr

structure World (σ : Type) where
  locked : Bool
  connDict : ConnDict
  conn : Conn → ConnState
  app : σ

variable {σ : Type}

def lock (w : World σ) : Except Halt (World σ) :=
  if w.locked then .error .ownLock else .ok { w with locked := true }

def unlock (w : World σ) : World σ := { w with locked := false }

def onChan {α : Type} : Outcome α → Except Halt α
  | .panic => .error .panicked
  | .block => .error .blocked
  | .done next => .ok next

def World.write (w : World σ) (c : Conn) (closes : ℕ) (closedChan : Chan Unit)
    (packetChan : Chan (List UInt8)) : World σ :=
  let s : ConnState :=
    { isClosed := true
      closes := closes
      closedChan := closedChan
      packetChan := packetChan
      fresh := nofun }
  { w with conn := Function.update w.conn c s }

def doBeforeConnStop (hook : Option (Conn → σ → σ)) (c : Conn) (w : World σ) : World σ :=
  match hook with
  | none => w
  | some f => { w with app := f c w.app }

def connManDelConn (c : Conn) (w : World σ) : Except Halt (World σ) := do
  let w ← lock w
  return unlock { w with connDict := delConn w.connDict c }

def connStop (hook : Option (Conn → σ → σ)) (c : Conn) (w : World σ) :
    Except Halt (World σ) :=
  let s := w.conn c
  if s.isClosed then .ok w
  else do
    let w := w.write c s.closes s.closedChan s.packetChan
    let w := doBeforeConnStop hook c w
    let w := w.write c (s.closes+1) s.closedChan s.packetChan
    let signalled ← onChan (s.closedChan.send ())
    let w := w.write c (s.closes+1) signalled s.packetChan
    let w ← connManDelConn c w
    let closedChan ← onChan signalled.close
    let packetChan ← onChan s.packetChan.close
    return w.write c (s.closes+1) closedChan packetChan

def World.delete (w : World σ) (connId : UInt32) : World σ :=
  { w with connDict := w.connDict.erase connId }

/-- The loop of `DelAllConn`; an entry that is gone when its turn comes is not
visited. -/
def stopEach (hook : Option (Conn → σ → σ)) : List UInt32 → World σ → Except Halt (World σ)
  | [], w => .ok w
  | connId::order, w =>
    match w.connDict.lookup connId with
    | none => stopEach hook order w
    | some c => do
      let w ← connStop hook c w
      stopEach hook order (w.delete connId)

def delAllConn (hook : Option (Conn → σ → σ)) (order : List UInt32) (w : World σ) :
    Except Halt (World σ) := do
  let w ← lock w
  let w ← stopEach hook order w
  return unlock w

def serverStop (hook : Option (Conn → σ → σ)) (order : List UInt32) (w : World σ) :
    Except Halt (World σ) :=
  delAllConn hook order w

def Held (w : World σ) (c : Conn) : Prop := ∃ connId, w.connDict.lookup connId = some c

structure ShutDown (w v : World σ) : Prop where
  empty : v.connDict = ∅
  released : v.locked = false
  closed : ∀ c, Held w c → (v.conn c).isClosed = true ∧ (v.conn c).closes = 1

def Completes (hook : Option (Conn → σ → σ)) (order : List UInt32) (w : World σ) : Prop :=
  ∃ v, serverStop hook order w = .ok v ∧ ShutDown w v

theorem connStop_closed (hook : Option (Conn → σ → σ)) (c : Conn) (w : World σ)
    (h : (w.conn c).isClosed = true) : connStop hook c w = .ok w := by
  simp [connStop, h]

@[simp] theorem write_locked (w : World σ) (c : Conn) (n : ℕ) (d : Chan Unit)
    (p : Chan (List UInt8)) : (w.write c n d p).locked = w.locked := rfl

@[simp] theorem doBeforeConnStop_locked (hook : Option (Conn → σ → σ)) (c : Conn) (w : World σ) :
    (doBeforeConnStop hook c w).locked = w.locked := by
  cases hook <;> rfl

/-- Under the lock the `Stop` of an open connection gets as far as its own
removal from the registry, and no further. -/
theorem connStop_open (hook : Option (Conn → σ → σ)) (c : Conn) (w : World σ)
    (hl : w.locked = true) (h : (w.conn c).isClosed = false) :
    connStop hook c w = .error .ownLock := by
  obtain ⟨-,hchan,-⟩ := (w.conn c).fresh h
  have hsend : onChan ((w.conn c).closedChan.send ()) = .ok
      { cap := 1, buf := [()], closed := false, fits := le_rfl } := by
    rw [hchan]
    rfl
  simp [connStop, h, hsend, connManDelConn, lock, hl, bind, Except.bind]

theorem held_of_delete {w : World σ} {connId : UInt32} {c : Conn} (h : Held (w.delete connId) c) :
    Held w c := by
  obtain ⟨k,hk⟩ := h
  refine ⟨k,?_⟩
  by_cases he : k = connId
  · rw [he, World.delete, AList.lookup_erase] at hk
    cases hk
  · rwa [World.delete, AList.lookup_erase_ne he] at hk

theorem stopEach_closed (hook : Option (Conn → σ → σ)) (order : List UInt32) (w : World σ)
    (h : ∀ c, Held w c → (w.conn c).isClosed = true) :
    ∃ d : ConnDict, stopEach hook order w = .ok { w with connDict := d } ∧
      ∀ connId ∈ d.keys, connId ∈ w.connDict.keys ∧ connId ∉ order := by
  induction order generalizing w with
  | nil => exact ⟨w.connDict,rfl,fun connId hk => ⟨hk,by simp⟩⟩
  | cons k order ih =>
    rw [stopEach]
    cases hk : w.connDict.lookup k with
    | none =>
      obtain ⟨d,hd,hkeys⟩ := ih w h
      refine ⟨d,hd,fun connId hmem => ?_⟩
      obtain ⟨hin,hout⟩ := hkeys connId hmem
      refine ⟨hin,?_⟩
      rintro (_ | _)
      · exact AList.lookup_eq_none.mp hk hin
      · contradiction
    | some c =>
      obtain ⟨d,hd,hkeys⟩ := ih (w.delete k) (fun c hc => h c (held_of_delete hc))
      refine ⟨d,?_,fun connId hmem => ?_⟩
      · simp only [connStop_closed hook c w (h c ⟨k,hk⟩)]
        exact hd
      · obtain ⟨hin,hout⟩ := hkeys connId hmem
        rw [World.delete, AList.keys_erase,
          List.Nodup.mem_erase_iff w.connDict.keys_nodup] at hin
        exact ⟨hin.2,by simp [hin.1, hout]⟩

/-- An open connection whose turn comes stops the loop, wherever it stands. -/
theorem stopEach_open (hook : Option (Conn → σ → σ)) (order : List UInt32) (w : World σ)
    (hl : w.locked = true) {connId : UInt32} {c : Conn} (hmem : connId ∈ order)
    (hk : w.connDict.lookup connId = some c) (ho : (w.conn c).isClosed = false) :
    stopEach hook order w = .error .ownLock := by
  induction order generalizing w with
  | nil => cases hmem
  | cons k order ih =>
    rw [stopEach]
    by_cases he : connId = k
    · rw [← he, hk]
      simp only [connStop_open hook c w hl ho]
      rfl
    · have hrest : connId ∈ order := (List.mem_cons.mp hmem).resolve_left he
      cases hd : w.connDict.lookup k with
      | none => exact ih w hl hrest hk ho
      | some d =>
        cases hc : (w.conn d).isClosed with
        | true =>
          simp only [connStop_closed hook d w hc]
          exact ih (w.delete k) hl hrest (by rwa [World.delete, AList.lookup_erase_ne he]) ho
        | false =>
          simp only [connStop_open hook d w hl hc]
          rfl

theorem serverStop_closed (hook : Option (Conn → σ → σ)) (order : List UInt32) (w : World σ)
    (hl : w.locked = false) (hp : order.Perm w.connDict.keys)
    (h : ∀ c, Held w c → (w.conn c).isClosed = true) :
    serverStop hook order w = .ok { w with connDict := ∅ } := by
  obtain ⟨d,hd,hkeys⟩ := stopEach_closed hook order { w with locked := true } h
  have hempty : d = ∅ := by
    have hnil : d.keys = [] := List.eq_nil_iff_forall_not_mem.mpr fun connId hmem =>
      (hkeys connId hmem).2 (hp.mem_iff.mpr (hkeys connId hmem).1)
    exact AList.ext (List.map_eq_nil_iff.mp hnil)
  rw [hempty] at hd
  simp [serverStop, delAllConn, lock, hl, hd, unlock, bind, Except.bind, pure, Except.pure]

theorem serverStop_open (hook : Option (Conn → σ → σ)) (order : List UInt32) (w : World σ)
    (hl : w.locked = false) (hp : order.Perm w.connDict.keys) (c : Conn) (hc : Held w c)
    (ho : (w.conn c).isClosed = false) : serverStop hook order w = .error .ownLock := by
  obtain ⟨k,hk⟩ := hc
  have hmem : k ∈ order := hp.mem_iff.mpr
    (AList.mem_keys.mp (AList.lookup_isSome.mp (by rw [hk]; rfl)))
  have hstuck := stopEach_open hook order { w with locked := true } rfl hmem hk ho
  simp [serverStop, delAllConn, lock, hl, hstuck, bind, Except.bind]

/-- The shutdown completes exactly when every registered connection was closed once before it;
one open connection makes the chain wait for the lock that it holds, in every order of the range
and with every hook. -/
theorem shutdown_exact (hook : Option (Conn → σ → σ)) (order : List UInt32) (w : World σ)
    (hl : w.locked = false) (hp : order.Perm w.connDict.keys) :
    (Completes hook order w ↔
      ∀ c, Held w c → (w.conn c).isClosed = true ∧ (w.conn c).closes = 1) ∧
    (serverStop hook order w = .error .ownLock ↔
      ∃ c, Held w c ∧ (w.conn c).isClosed = false) := by
  by_cases h : ∀ c, Held w c → (w.conn c).isClosed = true
  · have hdone := serverStop_closed hook order w hl hp h
    refine ⟨⟨?_,?_⟩,iff_of_false ?_ ?_⟩
    · rintro ⟨v,hv,hshut⟩
      rw [hdone, Except.ok.injEq] at hv
      subst hv
      exact hshut.closed
    · intro hclosed
      exact ⟨_,hdone,rfl,hl,hclosed⟩
    · simp [hdone]
    · rintro ⟨c,hc,ho⟩
      simp [h c hc] at ho
  · push Not at h
    obtain ⟨c,hc,ho⟩ := h
    have ho : (w.conn c).isClosed = false := by simpa using ho
    have hstuck := serverStop_open hook order w hl hp c hc ho
    refine ⟨iff_of_false ?_ ?_,iff_of_true hstuck ⟨c,hc,ho⟩⟩
    · rintro ⟨v,hv,-⟩
      simp [hstuck] at hv
    · intro hall
      simp [(hall c hc).1] at ho

def newConnState : ConnState where
  isClosed := false
  closes := 0
  closedChan := Chan.make 1
  packetChan := Chan.make 0
  fresh _ := ⟨rfl,rfl,rfl⟩

def serving (conns : List Conn) : World Unit where
  locked := false
  connDict := conns.foldl addConn ∅
  conn := fun _ => newConnState
  app := ()

theorem shutdown_idle_or_busy :
    Completes none [] (serving []) ∧
      serverStop none [0] (serving [{ serial := 0, id := 0 }]) = .error .ownLock :=
  ⟨(shutdown_exact none [] (serving []) rfl (List.Perm.refl _)).1.mpr
      (by rintro c ⟨k,hk⟩; cases hk),
    (shutdown_exact none [0] (serving [{ serial := 0, id := 0 }]) rfl (List.Perm.refl _)).2.mpr
      ⟨{ serial := 0, id := 0 },⟨0,rfl⟩,rfl⟩⟩

theorem open_conn_deadlocks :
    ¬Completes none [0] (serving [{ serial := 0, id := 0 }]) := by
  have hstuck := serverStop_open none [0] (serving [{ serial := 0, id := 0 }]) rfl
    (List.Perm.refl _) { serial := 0, id := 0 } ⟨0,rfl⟩ rfl
  rintro ⟨v,hv,-⟩
  simp [hstuck] at hv

end Gopher.Shutdown
