import Gopher.StepRuns
import Gopher.GoChannel
import Gopher.ConnReader

/-!
# Requests through the worker pool

Readers push requests into the queue of the worker that their connection id
selects, and block while it is full. A worker takes one request at a time
and runs it through `UseRoute`. Every request carries the position at which
its reader made it, which stands for the identity of the pointer. The pool
has at least one worker; a queue may have no buffer at all.
-/

set_option autoImplicit false

namespace Gopher.WorkerPool
open Gopher.StepRuns Gopher.GoChannel Gopher.MsgSerializer Gopher.ConnReader

/-- What is fixed once the pool is started: its size, the length of a queue,
the ids of the connections and the messages that have a route. -/
structure Pool (ι : Type*) where
  workerPoolSize : UInt32
  pos : 0 < workerPoolSize
  reqChanLen : UInt32
  connId : ι → UInt32
  bound : UInt32 → Bool

namespace Pool

variable {ι : Type*} (p : Pool ι)

abbrev Worker : Type := Fin p.workerPoolSize.toNat

def workerId (i : ι) : p.Worker :=
  ⟨(p.connId i % p.workerPoolSize).toNat,by
    rw [UInt32.toNat_mod]
    exact Nat.mod_lt _ (UInt32.lt_iff_toNat_lt.mp p.pos)⟩

end Pool

structure Ticket (ι : Type*) extends Req ι where
  seq : ℕ
  deriving DecidableEq, Repr

/-- A worker is at its select, or inside `UseRoute` with a request: before the
lookup, or before one of the three handlers. -/
inductive WorkerPc (ι : Type*) where
  | select
  | lookup (r : Ticket ι)
  | preHandler (r : Ticket ι)
  | msgHandler (r : Ticket ι)
  | postHandler (r : Ticket ι)
  deriving DecidableEq, Repr

def WorkerPc.hand {ι : Type*} : WorkerPc ι → List (Ticket ι)
  | .select => []
  | .lookup r => [r]
  | .preHandler r => [r]
  | .msgHandler r => [r]
  | .postHandler r => [r]

structure State {ι : Type*} (p : Pool ι) where
  made : ι → ℕ
  pending : ι → Option (Ticket ι)
  reqChanArr : p.Worker → Chan (Ticket ι)
  worker : p.Worker → WorkerPc ι

inductive Action {ι : Type*} (p : Pool ι) where
  | read (i : ι) (m : Msg)
  | push (i : ι)
  | pop (w : p.Worker)
  | work (w : p.Worker)

variable {ι : Type*} {p : Pool ι}

def startWorkerPool (p : Pool ι) : State p where
  made := fun _ => 0
  pending := fun _ => none
  reqChanArr := fun _ => .make p.reqChanLen.toNat
  worker := fun _ => .select

def State.setWorker (s : State p) (w : p.Worker) (pc : WorkerPc ι) : State p :=
  { s with worker := Function.update s.worker w pc }

def State.setChan (s : State p) (w : p.Worker) (ch : Chan (Ticket ι)) : State p :=
  { s with reqChanArr := Function.update s.reqChanArr w ch }

variable [DecidableEq ι]

def State.sent (s : State p) (i : ι) : State p :=
  { s with pending := Function.update s.pending i none }

def State.receive (s : State p) (i : ι) (m : Msg) : State p :=
  { s with
    made := Function.update s.made i (s.made i+1)
    pending := Function.update s.pending i (some { conn := i, msg := m, seq := s.made i }) }

def readStep (i : ι) (m : Msg) (s : State p) : State p :=
  match s.pending i with
  | some _ => s
  | none => s.receive i m

/-- A blocked send completes when the worker waits at an empty queue. -/
def pushToReqChan (i : ι) (s : State p) : State p :=
  match s.pending i with
  | none => s
  | some r =>
    match (s.reqChanArr (p.workerId i)).send r with
    | .done ch => (s.setChan (p.workerId i) ch).sent i
    | .block =>
      if (s.reqChanArr (p.workerId i)).handoff = true ∧ s.worker (p.workerId i) = .select then
        (s.setWorker (p.workerId i) (.lookup r)).sent i
      else s
    | .panic => s

def popStep (w : p.Worker) (s : State p) : State p :=
  match s.worker w with
  | .select =>
    match (s.reqChanArr w).recv with
    | .done (some r,ch) => (s.setChan w ch).setWorker w (.lookup r)
    | _ => s
  | _ => s

def useRoute (w : p.Worker) (s : State p) : State p :=
  match s.worker w with
  | .select => s
  | .lookup r => s.setWorker w (if p.bound r.msg.id then .preHandler r else .select)
  | .preHandler r => s.setWorker w (.msgHandler r)
  | .msgHandler r => s.setWorker w (.postHandler r)
  | .postHandler _ => s.setWorker w .select

def step (a : Action p) (s : State p) : State p :=
  match a with
  | .read i m => readStep i m s
  | .push i => pushToReqChan i s
  | .pop w => popStep w s
  | .work w => useRoute w s

def come {β : Type*} [DecidableEq β] (old new : List β) : List β := if new = old then [] else new

def gone {β : Type*} [DecidableEq β] (old new : List β) : List β := if new = old then [] else old

section Histories

variable (a : Action p) (s : State p)

def made (i : ι) : List (Ticket ι) :=
  match a with
  | .read j m => if j = i ∧ s.pending i = none then [{ conn := i, msg := m, seq := s.made i }] else []
  | _ => []

def pushed (i : ι) : List (Ticket ι) :=
  gone (s.pending i).toList ((step a s).pending i).toList

def used (w : p.Worker) : List (Ticket ι) := come (s.worker w).hand ((step a s).worker w).hand

def handled (w : p.Worker) : List (Ticket ι) := gone (s.worker w).hand ((step a s).worker w).hand

end Histories

abbrev after (as : List (Action p)) : State p := run step as (startWorkerPool p)

abbrev history (note : Action p → State p → List (Ticket ι)) (as : List (Action p)) :
    List (Ticket ι) :=
  gathered step note as (startWorkerPool p)

def ofConn (i : ι) (rs : List (Ticket ι)) : List (Ticket ι) := rs.filter (fun r => r.conn = i)

def places (as : List (Action p)) (r : Ticket ι) : ℕ :=
  (∑ w, ((after as).reqChanArr w).buf.count r)+(∑ w, ((after as).worker w).hand.count r)+
    ∑ w, (history (handled · · w) as).count r

section Lists

variable {β : Type*} [DecidableEq β] {old new : List β}

theorem append_come : old++come old new = gone old new++new := by
  unfold come gone
  split_ifs with h
  · rw [h]
    simp
  · rfl

theorem gone_append (h : new = old ∨ new = []) : gone old new++new = old := by
  unfold gone
  split_ifs with he
  · simp [he]
  · simp [h.resolve_left he]

theorem come_eq_nil (h : new = old ∨ new = []) : come old new = [] := by
  unfold come
  split_ifs with he
  · rfl
  · exact h.resolve_left he

theorem mem_of_come {x : β} (h : x ∈ come old new) : x ∈ new := by
  unfold come at h
  split_ifs at h with he
  · cases h
  · exact h

@[simp] theorem come_self : come old old = [] := if_pos rfl

@[simp] theorem gone_self : gone old old = [] := if_pos rfl

@[simp] theorem gone_nil : gone [] new = [] := by
  unfold gone
  split_ifs <;> rfl

end Lists

@[simp] theorem ofConn_nil (i : ι) : ofConn i ([] : List (Ticket ι)) = [] := rfl

@[simp] theorem ofConn_append (i : ι) (rs qs : List (Ticket ι)) :
    ofConn i (rs++qs) = ofConn i rs++ofConn i qs := List.filter_append ..

theorem ofConn_other (i : ι) (r : Ticket ι) (h : r.conn ≠ i) : ofConn i [r] = [] := by
  simp [ofConn, h]

theorem ofConn_own (r : Ticket ι) : ofConn r.conn [r] = [r] := by
  simp [ofConn]

theorem ofConn_put (f : p.Worker → Chan (Ticket ι)) (ch : Chan (Ticket ι)) (r : Ticket ι)
    (h : ch.buf = (f (p.workerId r.conn)).buf++[r]) (i : ι) :
    ofConn i (Function.update f (p.workerId r.conn) ch (p.workerId i)).buf =
      ofConn i (f (p.workerId i)).buf++ofConn i [r] := by
  by_cases hw : p.workerId i = p.workerId r.conn
  · rw [hw, Function.update_self, h, ofConn_append]
  · have hr : r.conn ≠ i := fun he => hw (by rw [he])
    rw [Function.update_of_ne hw, ofConn_other i r hr, List.append_nil]

theorem ofConn_take (f : p.Worker → Chan (Ticket ι)) (ch : Chan (Ticket ι)) (r : Ticket ι)
    (h : (f (p.workerId r.conn)).buf = r::ch.buf) (i : ι) :
    ofConn i (f (p.workerId i)).buf =
      ofConn i [r]++ofConn i (Function.update f (p.workerId r.conn) ch (p.workerId i)).buf := by
  by_cases hw : p.workerId i = p.workerId r.conn
  · rw [hw, Function.update_self, h, ← ofConn_append]
    rfl
  · have hr : r.conn ≠ i := fun he => hw (by rw [he])
    rw [Function.update_of_ne hw, ofConn_other i r hr, List.nil_append]

theorem ofConn_come (f : p.Worker → WorkerPc ι) (r : Ticket ι)
    (h : f (p.workerId r.conn) = .select) (i : ι) :
    ofConn i (come (f (p.workerId i)).hand
      (Function.update f (p.workerId r.conn) (.lookup r) (p.workerId i)).hand) = ofConn i [r] := by
  by_cases hw : p.workerId i = p.workerId r.conn
  · rw [hw, Function.update_self, h]
    rfl
  · have hr : r.conn ≠ i := fun he => hw (by rw [he])
    rw [Function.update_of_ne hw, come_self, ofConn_other i r hr, ofConn_nil]

theorem ofConn_gone (f : ι → Option (Ticket ι)) (r : Ticket ι) (h : f r.conn = some r) (i : ι) :
    gone (f i).toList (Function.update f r.conn none i).toList = ofConn i [r] := by
  by_cases hi : i = r.conn
  · subst hi
    rw [Function.update_self, h, ofConn_own]
    rfl
  · rw [Function.update_of_ne hi, gone_self, ofConn_other i r (fun he => hi he.symm)]

omit [DecidableEq ι] in
theorem mem_update {β : Type*} (list : β → List (Ticket ι)) (f : p.Worker → β) (x : β)
    (w : p.Worker) (h : ∀ v, ∀ r ∈ list (f v), p.workerId r.conn = v)
    (hx : ∀ r ∈ list x, p.workerId r.conn = w) (v : p.Worker) (r : Ticket ι)
    (hr : r ∈ list (Function.update f w x v)) : p.workerId r.conn = v := by
  by_cases hv : v = w
  · subst hv
    rw [Function.update_self] at hr
    exact hx r hr
  · rw [Function.update_of_ne hv] at hr
    exact h v r hr

structure Inv (s : State p) : Prop where
  queued : ∀ w, ∀ r ∈ (s.reqChanArr w).buf, p.workerId r.conn = w
  held : ∀ w, ∀ r ∈ (s.worker w).hand, p.workerId r.conn = w
  named : ∀ i r, s.pending i = some r → r.conn = i
  opened : ∀ w, (s.reqChanArr w).closed = false ∧ (s.reqChanArr w).cap = p.reqChanLen.toNat

inductive Moved (s : State p) : State p → Prop where
  | stay : Moved s s
  | read (i : ι) (m : Msg) (hp : s.pending i = none) : Moved s (s.receive i m)
  | enqueue (r : Ticket ι) (ch : Chan (Ticket ι)) (hp : s.pending r.conn = some r)
      (hb : ch.buf = (s.reqChanArr (p.workerId r.conn)).buf++[r])
      (ho : ch.closed = false ∧ ch.cap = (s.reqChanArr (p.workerId r.conn)).cap) :
      Moved s ((s.setChan (p.workerId r.conn) ch).sent r.conn)
  | handoff (r : Ticket ι) (hp : s.pending r.conn = some r)
      (hb : (s.reqChanArr (p.workerId r.conn)).buf = [])
      (hw : s.worker (p.workerId r.conn) = .select) :
      Moved s ((s.setWorker (p.workerId r.conn) (.lookup r)).sent r.conn)
  | pop (r : Ticket ι) (ch : Chan (Ticket ι))
      (hw : s.worker (p.workerId r.conn) = .select)
      (hb : (s.reqChanArr (p.workerId r.conn)).buf = r::ch.buf)
      (ho : ch.closed = (s.reqChanArr (p.workerId r.conn)).closed ∧
        ch.cap = (s.reqChanArr (p.workerId r.conn)).cap) :
      Moved s ((s.setChan (p.workerId r.conn) ch).setWorker (p.workerId r.conn) (.lookup r))
  | work (w : p.Worker) (pc : WorkerPc ι) (hw : pc.hand = (s.worker w).hand ∨ pc.hand = []) :
      Moved s (s.setWorker w pc)

theorem read_moved (i : ι) (m : Msg) (s : State p) : Moved s (readStep i m s) := by
  unfold readStep
  split
  · exact .stay
  · next hp => exact .read i m hp

theorem push_moved (i : ι) {s : State p} (h : Inv s) : Moved s (pushToReqChan i s) := by
  unfold pushToReqChan
  split
  · exact .stay
  · next r hp =>
    obtain rfl := h.named i r hp
    split
    · next ch hd =>
      obtain ⟨-,ho,hc,hb⟩ := Chan.send_eq_done _ _ _ hd
      exact .enqueue r ch hp hb ⟨ho,hc⟩
    · split_ifs with hc
      · have he : (s.reqChanArr (p.workerId r.conn)).buf = [] := by
          have := hc.1
          simp only [Chan.handoff, Bool.and_eq_true, List.isEmpty_iff] at this
          exact this.2
        exact .handoff r hp he hc.2
      · exact .stay
    · exact .stay

theorem pop_moved (w : p.Worker) {s : State p} (h : Inv s) : Moved s (popStep w s) := by
  unfold popStep
  split
  · next hw =>
    split
    · next r ch hd =>
      obtain ⟨ho,hc,hb⟩ := Chan.recv_eq_done _ _ _ hd
      have hb : (s.reqChanArr w).buf = r::ch.buf := hb
      obtain rfl : p.workerId r.conn = w := h.queued w r (by rw [hb]; simp)
      exact .pop r ch hw hb ⟨ho,hc⟩
    · exact .stay
  · exact .stay

theorem work_moved (w : p.Worker) (s : State p) : Moved s (useRoute w s) := by
  unfold useRoute
  split
  · exact .stay
  · next r hw =>
    split_ifs
    · exact .work w _ (.inl (by rw [hw]; rfl))
    · exact .work w _ (.inr rfl)
  · next r hw => exact .work w _ (.inl (by rw [hw]; rfl))
  · next r hw => exact .work w _ (.inl (by rw [hw]; rfl))
  · exact .work w _ (.inr rfl)

theorem step_moved (a : Action p) {s : State p} (h : Inv s) : Moved s (step a s) := by
  cases a with
  | read i m => exact read_moved i m s
  | push i => exact push_moved i h
  | pop w => exact pop_moved w h
  | work w => exact work_moved w s

omit [DecidableEq ι] in
theorem inv_start : Inv (startWorkerPool p) where
  queued := by intro w r hr; cases hr
  held := by intro w r hr; cases hr
  named := by intro i r hr; cases hr
  opened := fun _ => ⟨rfl,rfl⟩

omit [DecidableEq ι] in
theorem opened_update {s : State p} (w : p.Worker) (ch : Chan (Ticket ι))
    (h : ∀ v, (s.reqChanArr v).closed = false ∧ (s.reqChanArr v).cap = p.reqChanLen.toNat)
    (hc : ch.closed = false ∧ ch.cap = (s.reqChanArr w).cap) (v : p.Worker) :
    (Function.update s.reqChanArr w ch v).closed = false ∧
      (Function.update s.reqChanArr w ch v).cap = p.reqChanLen.toNat := by
  by_cases hv : v = w
  · subst hv
    rw [Function.update_self]
    exact ⟨hc.1,hc.2.trans (h v).2⟩
  · rw [Function.update_of_ne hv]
    exact h v

theorem named_receive {s : State p} (h : Inv s) (i : ι) (m : Msg) (j : ι) (r : Ticket ι)
    (hr : (s.receive i m).pending j = some r) : r.conn = j := by
  by_cases hj : j = i
  · subst hj
    simp only [State.receive, Function.update_self, Option.some.injEq] at hr
    rw [← hr]
  · exact h.named j r (by simpa [State.receive, Function.update_of_ne hj] using hr)

theorem named_sent {s : State p} (h : Inv s) (i j : ι) (r : Ticket ι)
    (hr : Function.update s.pending i none j = some r) : r.conn = j := by
  by_cases hj : j = i
  · subst hj
    simp at hr
  · exact h.named j r (by simpa [Function.update_of_ne hj] using hr)

omit [DecidableEq ι] in
theorem held_lookup {s : State p} (h : Inv s) (r : Ticket ι) (v : p.Worker) (q : Ticket ι)
    (hq : q ∈ (Function.update s.worker (p.workerId r.conn) (.lookup r) v).hand) :
    p.workerId q.conn = v := by
  apply mem_update WorkerPc.hand s.worker _ _ h.held _ v q hq
  intro q hq
  rw [List.mem_singleton.mp hq]

theorem inv_moved {s t : State p} (h : Inv s) (hm : Moved s t) : Inv t := by
  cases hm with
  | stay => exact h
  | read i m hp => exact ⟨h.queued,h.held,named_receive h i m,h.opened⟩
  | enqueue r ch hp hb ho =>
    refine ⟨?_,h.held,named_sent h r.conn,opened_update _ ch h.opened ho⟩
    apply mem_update Chan.buf s.reqChanArr ch _ h.queued
    intro q hq
    rw [hb, List.mem_append, List.mem_singleton] at hq
    rcases hq with hq | rfl
    · exact h.queued _ q hq
    · rfl
  | handoff r hp hb hw => exact ⟨h.queued,held_lookup h r,named_sent h r.conn,h.opened⟩
  | pop r ch hw hb ho =>
    refine ⟨?_,held_lookup h r,h.named,
      opened_update _ ch h.opened ⟨ho.1.trans (h.opened _).1,ho.2⟩⟩
    apply mem_update Chan.buf s.reqChanArr ch _ h.queued
    intro q hq
    exact h.queued _ q (by rw [hb]; simp [hq])
  | work w pc hw =>
    refine ⟨h.queued,?_,h.named,h.opened⟩
    apply mem_update WorkerPc.hand s.worker pc w h.held
    intro q hq
    rcases hw with hw | hw
    · exact h.held w q (by rwa [hw] at hq)
    · rw [hw] at hq
      cases hq

theorem inv_step (a : Action p) (s : State p) (h : Inv s) : Inv (step a s) :=
  inv_moved h (step_moved a h)

theorem inv_after (as : List (Action p)) : Inv (after as) :=
  run_keeps step Inv inv_step as _ inv_start

/-- What a connection has in its queue, and what its reader adds, is what its worker takes and
what stays in the queue. -/
theorem moved_lane {s t : State p} (hm : Moved s t) (i : ι) :
    ofConn i (s.reqChanArr (p.workerId i)).buf++gone (s.pending i).toList (t.pending i).toList =
      ofConn i (come (s.worker (p.workerId i)).hand (t.worker (p.workerId i)).hand)++
        ofConn i (t.reqChanArr (p.workerId i)).buf := by
  cases hm with
  | stay => simp
  | read j m hp =>
    have hg : gone (s.pending i).toList ((s.receive j m).pending i).toList = [] := by
      by_cases hi : i = j
      · rw [hi, hp, Option.toList_none, gone_nil]
      · simp [State.receive, Function.update_of_ne hi]
    rw [hg]
    simp [State.receive]
  | enqueue r ch hp hb ho =>
    simp only [State.sent, State.setChan]
    rw [ofConn_gone s.pending r hp, ofConn_put s.reqChanArr ch r hb, come_self]
    rfl
  | handoff r hp hb hw =>
    simp only [State.sent, State.setWorker]
    rw [ofConn_gone s.pending r hp, ofConn_come s.worker r hw]
    by_cases hi : r.conn = i
    · subst hi
      simp [hb]
    · simp [ofConn_other i r hi]
  | pop r ch hw hb ho =>
    simp only [State.setChan, State.setWorker]
    rw [gone_self, ofConn_come s.worker r hw, List.append_nil, ofConn_take s.reqChanArr ch r hb]
  | work w pc hw =>
    have hc : come (s.worker (p.workerId i)).hand
        ((s.setWorker w pc).worker (p.workerId i)).hand = [] := by
      apply come_eq_nil
      by_cases hi : p.workerId i = w
      · subst hi
        simpa [State.setWorker] using hw
      · simp [State.setWorker, Function.update_of_ne hi]
    rw [hc]
    simp [State.setWorker]

theorem push_pending (i j : ι) (s : State p) :
    (pushToReqChan i s).pending j = s.pending j ∨ (pushToReqChan i s).pending j = none := by
  have hsent (t : State p) (ht : t.pending = s.pending) :
      (t.sent i).pending j = s.pending j ∨ (t.sent i).pending j = none := by
    by_cases hj : j = i
    · exact .inr (by simp [State.sent, hj])
    · exact .inl (by simp [State.sent, Function.update_of_ne hj, ht])
  unfold pushToReqChan
  split
  · exact .inl rfl
  · split
    · exact hsent _ rfl
    · split_ifs
      · exact hsent _ rfl
      · exact .inl rfl
    · exact .inl rfl

omit [DecidableEq ι] in
theorem pop_pending (w : p.Worker) (s : State p) : (popStep w s).pending = s.pending := by
  unfold popStep
  split
  · split <;> rfl
  · rfl

omit [DecidableEq ι] in
theorem work_pending (w : p.Worker) (s : State p) : (useRoute w s).pending = s.pending := by
  unfold useRoute
  split <;> rfl

/-- A reader holds what it made until its send completes. -/
theorem step_line (i : ι) (a : Action p) (s : State p) :
    (s.pending i).toList++made a s i = pushed a s i++((step a s).pending i).toList := by
  cases a with
  | read j m =>
    by_cases hj : j = i
    · subst hj
      cases hp : s.pending j with
      | none => simp [made, pushed, step, readStep, hp, State.receive]
      | some r => simp [made, pushed, step, readStep, hp]
    · have hs : (readStep j m s).pending i = s.pending i := by
        unfold readStep
        split
        · rfl
        · simp [State.receive, Function.update_of_ne (Ne.symm hj)]
      simp [made, pushed, step, hj, hs]
  | push j =>
    have h : ((pushToReqChan j s).pending i).toList = (s.pending i).toList ∨
        ((pushToReqChan j s).pending i).toList = [] := by
      rcases push_pending j i s with h | h
      · exact .inl (by rw [h])
      · exact .inr (by rw [h]; rfl)
    exact (List.append_nil _).trans (gone_append h).symm
  | pop w => simp [made, pushed, step, pop_pending]
  | work w => simp [made, pushed, step, work_pending]

theorem line_eq (as : List (Action p)) (i : ι) :
    history (made · · i) as = history (pushed · · i) as++((after as).pending i).toList :=
  run_conserves step (fun _ => True) (fun s => (s.pending i).toList) (made · · i) (pushed · · i)
    (fun _ _ _ => trivial) (fun a s _ => step_line i a s) as (startWorkerPool p) trivial

theorem hand_eq (as : List (Action p)) (w : p.Worker) :
    history (used · · w) as = history (handled · · w) as++((after as).worker w).hand :=
  run_conserves step (fun _ => True) (fun s => (s.worker w).hand) (used · · w) (handled · · w)
    (fun _ _ _ => trivial) (fun _ _ _ => append_come) as (startWorkerPool p) trivial

theorem lane_eq (as : List (Action p)) (i : ι) :
    history (pushed · · i) as = ofConn i (history (used · · (p.workerId i)) as)++
      ofConn i ((after as).reqChanArr (p.workerId i)).buf := by
  have h := run_conserves step Inv (fun s => ofConn i (s.reqChanArr (p.workerId i)).buf)
    (pushed · · i) (fun a s => ofConn i (used a s (p.workerId i))) inv_step
    (fun a s hs => moved_lane (step_moved a hs) i) as (startWorkerPool p) inv_start
  rw [gathered_comp step (used · · (p.workerId i)) (ofConn i) rfl (ofConn_append i)] at h
  exact h

theorem step_numbered (i : ι) (a : Action p) (s : State p) :
    List.range (s.made i)++(made a s i).map Ticket.seq = List.range ((step a s).made i) := by
  cases a with
  | read j m =>
    by_cases hj : j = i
    · subst hj
      cases hp : s.pending j with
      | none => simp [made, step, readStep, hp, State.receive, List.range_succ]
      | some r => simp [made, step, readStep, hp]
    · have hs : (readStep j m s).made i = s.made i := by
        unfold readStep
        split
        · rfl
        · simp [State.receive, Function.update_of_ne (Ne.symm hj)]
      simp [made, step, hj, hs]
  | push j =>
    have hs : (pushToReqChan j s).made = s.made := by
      unfold pushToReqChan
      split
      · rfl
      · split
        · rfl
        · split_ifs <;> rfl
        · rfl
    simp [made, step, hs]
  | pop w =>
    have hs : (popStep w s).made = s.made := by
      unfold popStep
      split
      · split <;> rfl
      · rfl
    simp [made, step, hs]
  | work w =>
    have hs : (useRoute w s).made = s.made := by
      unfold useRoute
      split <;> rfl
    simp [made, step, hs]

theorem made_numbered (as : List (Action p)) (i : ι) :
    (history (made · · i) as).map Ticket.seq = List.range (history (made · · i) as).length := by
  have h := run_conserves step (fun _ => True) (fun s => List.range (s.made i))
    (fun a s => (made a s i).map Ticket.seq) (fun _ _ => []) (fun _ _ _ => trivial)
    (fun a s _ => step_numbered i a s) as (startWorkerPool p) trivial
  rw [gathered_comp step (made · · i) (List.map Ticket.seq) rfl (fun _ _ => List.map_append),
    gathered_comp step (made · · i) (fun _ => []) rfl (fun _ _ => rfl)] at h
  have hseq : (history (made · · i) as).map Ticket.seq = List.range ((after as).made i) := h
  have hlen := congrArg List.length hseq
  rw [List.length_map, List.length_range] at hlen
  rw [hseq, hlen]

theorem made_named (as : List (Action p)) (i : ι) :
    ∀ r ∈ history (made · · i) as, r.conn = i := by
  refine gathered_all step (fun _ => True) (made · · i) (fun r => r.conn = i)
    (fun _ _ _ => trivial) ?_ as _ trivial
  intro a s _ r hr
  cases a with
  | read j m =>
    simp only [made] at hr
    split_ifs at hr
    · rw [List.mem_singleton.mp hr]
    · cases hr
  | push j => cases hr
  | pop w => cases hr
  | work w => cases hr

theorem used_home (as : List (Action p)) (w : p.Worker) :
    ∀ r ∈ history (used · · w) as, p.workerId r.conn = w :=
  gathered_all step Inv _ _ inv_step
    (fun a s hs r hr => (inv_step a s hs).held w r (mem_of_come hr)) as _ inv_start

theorem count_ofConn (rs : List (Ticket ι)) (r : Ticket ι) :
    (ofConn r.conn rs).count r = rs.count r := List.count_filter (by simp)

theorem sum_count_home (list : p.Worker → List (Ticket ι))
    (h : ∀ w, ∀ q ∈ list w, p.workerId q.conn = w) (r : Ticket ι) :
    ∑ w, (list w).count r = (list (p.workerId r.conn)).count r := by
  apply Finset.sum_eq_single_of_mem _ (Finset.mem_univ _)
  intro w _ hw
  exact List.count_eq_zero.mpr (fun hr => hw (h w r hr).symm)

/-- Queues, hands and the handled requests together hold a request as often
as its reader pushed it. -/
theorem places_eq (as : List (Action p)) (r : Ticket ι) :
    places as r = (history (pushed · · r.conn) as).count r := by
  have h := inv_after as
  have hq := sum_count_home (fun w => ((after as).reqChanArr w).buf) h.queued r
  have hw := sum_count_home (fun w => ((after as).worker w).hand) h.held r
  have hd := sum_count_home (fun w => history (handled · · w) as)
    (fun w q hq => used_home as w q (by rw [hand_eq]; simp [hq])) r
  rw [places, hq, hw, hd, lane_eq, hand_eq]
  simp only [List.count_append, ofConn_append, count_ofConn]
  omega

theorem made_nodup (as : List (Action p)) (i : ι) : (history (made · · i) as).Nodup := by
  apply List.Nodup.of_map Ticket.seq
  rw [made_numbered]
  exact List.nodup_range

omit [DecidableEq ι] in
theorem hand_single (pc : WorkerPc ι) (r q : Ticket ι) (hr : r ∈ pc.hand) (hq : q ∈ pc.hand) :
    r = q := by
  cases pc <;> simp_all [WorkerPc.hand]

theorem push_completes {s : State p} (h : Inv s) (i : ι) (r : Ticket ι) (hp : s.pending i = some r)
    (hroom : (s.reqChanArr (p.workerId i)).buf.length < p.reqChanLen.toNat ∨
      (s.reqChanArr (p.workerId i)).buf = [] ∧ s.worker (p.workerId i) = .select) :
    (step (.push i) s).pending i = none := by
  obtain ⟨ho,hc⟩ := h.opened (p.workerId i)
  simp only [step, pushToReqChan, hp]
  by_cases hl : (s.reqChanArr (p.workerId i)).buf.length < (s.reqChanArr (p.workerId i)).cap
  · obtain ⟨ch,hd,-⟩ := Chan.send_of_room _ r ho hl
    rw [hd]
    simp [State.sent]
  · have hd : (s.reqChanArr (p.workerId i)).send r = .block := by
      rw [Chan.send, ho, if_neg Bool.false_ne_true, dif_neg hl]
    obtain ⟨hb,hw⟩ := hroom.resolve_left (by rwa [hc] at hl)
    have hh : (s.reqChanArr (p.workerId i)).handoff = true := by
      rw [Chan.handoff, ho, hb]
      rfl
    rw [hd]
    simp [hh, hw, State.sent]

theorem pop_takes (w : p.Worker) (s : State p) (r : Ticket ι) (rest : List (Ticket ι))
    (hw : s.worker w = .select) (hb : (s.reqChanArr w).buf = r::rest) :
    ((step (.pop w) s).worker w).hand = [r] := by
  obtain ⟨ch,hd,-⟩ := Chan.recv_of_cons (s.reqChanArr w) hb
  simp [step, popStep, hw, hd, State.setWorker, WorkerPc.hand]

def WorkerPc.left {ι : Type*} : WorkerPc ι → ℕ
  | .select => 0
  | .lookup _ => 4
  | .preHandler _ => 3
  | .msgHandler _ => 2
  | .postHandler _ => 1

omit [DecidableEq ι] in
theorem work_left (w : p.Worker) (s : State p) :
    ((useRoute w s).worker w).left ≤ (s.worker w).left-1 := by
  unfold useRoute
  split
  · next hw => simp [hw, WorkerPc.left]
  · next r hw =>
    simp only [State.setWorker, Function.update_self, hw]
    split_ifs <;> simp [WorkerPc.left]
  all_goals next hw => simp [State.setWorker, hw, WorkerPc.left]

theorem works_left (w : p.Worker) (n : ℕ) (s : State p) :
    ((run step (List.replicate n (.work w)) s).worker w).left ≤ (s.worker w).left-n := by
  induction n generalizing s with
  | zero => exact le_rfl
  | succ n ih =>
    rw [List.replicate_succ, run_cons]
    have h1 := work_left w s
    have h2 := ih (step (.work w) s)
    have h3 : step (.work w) s = useRoute w s := rfl
    rw [h3] at h2 ⊢
    omega

theorem work_returns (w : p.Worker) (s : State p) :
    (run step (List.replicate 4 (.work w)) s).worker w = .select := by
  have h := works_left w 4 s
  have h4 : (s.worker w).left ≤ 4 := by cases s.worker w <;> simp [WorkerPc.left]
  have h0 : ((run step (List.replicate 4 (.work w)) s).worker w).left = 0 := by omega
  generalize (run step (List.replicate 4 (.work w)) s).worker w = pc at h0 ⊢
  cases pc <;> simp_all [WorkerPc.left]

/-- The reader of a connection makes distinct requests and pushes them in order, holding at most
one back. Those handed to `UseRoute`, all by the one worker of the connection, are a prefix of the
pushed ones. A pushed request is in exactly one place and nothing else is in any. Two requests
being handled are of different connections. No turn is wasted: a push into a queue with room or to
a waiting worker completes, a free worker takes the front of its queue, and four turns bring a
worker back to its select. -/
structure ExactlyOnce (as : List (Action p)) : Prop where
  named : ∀ i, ∀ r ∈ history (made · · i) as, r.conn = i
  numbered : ∀ i, (history (made · · i) as).map Ticket.seq =
    List.range (history (made · · i) as).length
  line : ∀ i, history (made · · i) as =
    history (pushed · · i) as++((after as).pending i).toList
  inOrder : ∀ i, ofConn i (history (used · · (p.workerId i)) as) <+: history (pushed · · i) as
  home : ∀ w, ∀ r ∈ history (used · · w) as, p.workerId r.conn = w
  once : ∀ i, ∀ r ∈ history (pushed · · i) as, places as r = 1
  known : ∀ r, 0 < places as r → r ∈ history (pushed · · r.conn) as
  serial : ∀ w v, ∀ r ∈ ((after as).worker w).hand, ∀ q ∈ ((after as).worker v).hand,
    r.conn = q.conn → w = v ∧ r = q
  accepts : ∀ i r, (after as).pending i = some r →
    (((after as).reqChanArr (p.workerId i)).buf.length < p.reqChanLen.toNat ∨
      ((after as).reqChanArr (p.workerId i)).buf = [] ∧
        (after as).worker (p.workerId i) = .select) →
    (step (.push i) (after as)).pending i = none
  takes : ∀ w r rest, (after as).worker w = .select →
    ((after as).reqChanArr w).buf = r::rest →
    ((step (.pop w) (after as)).worker w).hand = [r]
  returns : ∀ w, (run step (List.replicate 4 (.work w)) (after as)).worker w = .select

theorem pool_exactly_once (p : Pool ι) (as : List (Action p)) : ExactlyOnce as := by
  have h := inv_after as
  refine ⟨made_named as,made_numbered as,line_eq as,?_,used_home as,?_,?_,?_,
    push_completes h,(pop_takes · _),(work_returns · _)⟩
  · intro i
    rw [lane_eq as i]
    exact List.prefix_append ..
  · intro i r hr
    obtain rfl : r.conn = i := made_named as i r (by rw [line_eq]; simp [hr])
    have hn := made_nodup as r.conn
    rw [line_eq] at hn
    rw [places_eq as r]
    exact List.count_eq_one_of_mem (List.nodup_append.mp hn).1 hr
  · intro r hr
    rw [places_eq as r] at hr
    exact List.count_pos_iff.mp hr
  · intro w v r hr q hq hc
    obtain rfl : p.workerId r.conn = w := h.held w r hr
    obtain rfl : p.workerId q.conn = v := h.held v q hq
    have hw : p.workerId r.conn = p.workerId q.conn := by rw [hc]
    rw [← hw] at hq
    exact ⟨hw,hand_single _ r q hr hq⟩

end Gopher.WorkerPool
