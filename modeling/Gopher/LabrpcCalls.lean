import Gopher.Labrpc
import Gopher.FairRuns

/-!
# What a call of the simulated network means

A call is in one of a few joint stages of its goroutines, and every step takes it
to a later one. So it is executed at most once; if it succeeds it was executed,
by the server that its end was connected to, and that server had not been
replaced when the reply was checked; and if handlers return, every call returns.
-/

set_option autoImplicit false

namespace Gopher.Labrpc
open Gopher.MapOrders Gopher.MapReduce Gopher.StepRuns Gopher.FairRuns

variable {ε ν : Type}

def HandlerPc.started (i : ℕ) : HandlerPc → List (ℕ × ℕ)
  | .none => []
  | .dispatching _ => []
  | .serving server => [(i,server)]
  | .sending server _ => [(i,server)]
  | .finished server => [(i,server)]

def HandlerPc.executed (i : ℕ) (answer : GoString) : HandlerPc → List (ℕ × ℕ × GoString)
  | .sending server _ => [(i,server,answer)]
  | .finished server => [(i,server,answer)]
  | _ => []

inductive Live (answer : GoString) (n server : ℕ) : HandlerPc → Prop
  | dispatching (bound : server < n) : Live answer n server (.dispatching server)
  | serving : Live answer n server (.serving server)
  | sending : Live answer n server (.sending server ⟨true,answer⟩)

inductive Left (answer : GoString) (n : ℕ) : HandlerPc → Bool → Prop
  | none : Left answer n .none false
  | finished (server : ℕ) : Left answer n (.finished server) false
  | live {server : ℕ} {h : HandlerPc} (live : Live answer n server h) : Left answer n h true

inductive Stage (answer : GoString) (n : ℕ) : ClientPc → ProcPc ν → HandlerPc → Bool → Prop
  | selecting : Stage answer n .selecting .none .none false
  | aborted : Stage answer n (.returned false []) .none .none false
  | reading : Stage answer n .waiting .reading .none false
  | dropping (t : Target ν) (bound : t.server < n) :
      Stage answer n .waiting (.dropping t) .none false
  | waiting (t : Target ν) {h : HandlerPc} (live : Live answer n t.server h) :
      Stage answer n .waiting (.waiting t) h false
  | checked (t : Target ν) :
      Stage answer n .waiting (.checking t (some ⟨true,answer⟩)) (.finished t.server) false
  | abandoned (t : Target ν) {h : HandlerPc} {draining : Bool} (left : Left answer n h draining) :
      Stage answer n .waiting (.checking t none) h draining
  | deciding (t : Target ν) :
      Stage answer n .waiting (.deciding t ⟨true,answer⟩) (.finished t.server) false
  | delayed (server : ℕ) :
      Stage answer n .waiting (.delayed ⟨true,answer⟩) (.finished server) false
  | answering (server : ℕ) :
      Stage answer n .waiting (.replying ⟨true,answer⟩) (.finished server) false
  | failing {h : HandlerPc} {draining : Bool} (left : Left answer n h draining) :
      Stage answer n .waiting (.replying failure) h draining
  | answered (server : ℕ) :
      Stage answer n (.returned true answer) .finished (.finished server) false
  | failed {h : HandlerPc} {draining : Bool} (left : Left answer n h draining) :
      Stage answer n (.returned false []) .finished h draining

def CallRec.Ok (answer : GoString) (n : ℕ) (c : CallRec ε ν) : Prop :=
  Stage answer n c.client c.proc c.handler c.draining

def CallRec.rank (c : CallRec ε ν) : ℕ :=
  match c.proc with
  | .none => match c.client with
    | .selecting => 10
    | _ => 0
  | .reading => 9
  | .dropping _ => 8
  | .waiting _ => match c.handler with
    | .dispatching _ => 7
    | .serving _ => 6
    | _ => 5
  | .checking _ _ => 4
  | .deciding _ _ => 3
  | .delayed _ => 2
  | .replying _ => 1
  | .finished => 0

def CallRec.taken (c : CallRec ε ν) : ℕ :=
  match c.proc with
  | .none => 0
  | _ => 1

def CallRec.bytes (c : CallRec ε ν) : ℕ :=
  match c.proc with
  | .none => 0
  | .replying reply => c.req.args.length+reply.reply.length
  | .finished => c.req.args.length+match c.client with
    | .returned _ reply => reply.length
    | _ => 0
  | _ => c.req.args.length

def CallRec.target (c : CallRec ε ν) : Option (Target ν) :=
  match c.proc with
  | .dropping t => some t
  | .waiting t => some t
  | .checking t _ => some t
  | _ => none

def CallRec.passed (c : CallRec ε ν) : Bool :=
  match c.proc with
  | .deciding _ _ => true
  | .delayed _ => true
  | .replying reply => reply.ok
  | .finished => match c.client with
    | .returned ok _ => ok
    | _ => false
  | _ => false

def Move.ofHandler : Move → Bool
  | .dispatch => true
  | .serve => true
  | .drain => true
  | _ => false

def State.countAt (s : State ε ν) (p : ℕ) : BitVec 64 := (s.objects[p]?.map Server.count).getD 0

def Progress (m : Move) (c c' : CallRec ε ν) : Prop :=
  c'.rank < c.rank ∨
    (m.ofHandler = true ∧ c'.client = c.client ∧ c'.proc = c.proc ∧ ∀ t, c.proc ≠ .waiting t)

structure Effect [DecidableEq ε] [DecidableEq ν] (chance : Chance) (s s' : State ε ν) (i : ℕ)
    (m : Move) (c c' : CallRec ε ν) : Prop where
  calls : s'.calls = s.calls.set i c'
  req : c'.req = c.req
  ok : c'.Ok (chance.answer i) s'.objects.length
  started : ∃ new, s'.started = s.started++new ∧
    c'.handler.started i = c.handler.started i++new ∧ (∀ e ∈ new, e.2 < s.objects.length) ∧
    ∀ p, s'.countAt p = s.countAt p+BitVec.ofNat 64 (new.filter (fun e => e.2 = p)).length
  executed : ∃ new, s'.executed = s.executed++new ∧
    c'.handler.executed i (chance.answer i) = c.handler.executed i (chance.answer i)++new ∧
    ∀ e ∈ new, m = .serve ∧ c.handler = .serving e.2.1
  net : s'.net = { s.net with count := s'.net.count, bytes := s'.net.bytes }
  count : s'.net.count+BitVec.ofNat 32 c.taken = s.net.count+BitVec.ofNat 32 c'.taken
  bytes : s'.net.bytes+BitVec.ofNat 64 c.bytes = s.net.bytes+BitVec.ofNat 64 c'.bytes
  objects : s'.objects.length = s.objects.length
  listening : s'.listening = s.listening
  fatal : s'.fatal = s.fatal
  progress : Progress m c c'
  target : ∀ t, c'.target = some t → c.target = some t ∨
    (c.handler = .none ∧ s.net.readEndnameInfo c.req.endname = some t)
  passed : c'.passed = true → c.passed = true ∨ ∃ t, c.target = some t ∧
    c.handler = .finished t.server ∧
    s.net.isServerDead c.req.endname t.servername t.server = false

section Moves

variable {chance : Chance} {s s' : State ε ν} {i : ℕ} {c : CallRec ε ν}

theorem Left.change {answer : GoString} {n : ℕ} {h h' : HandlerPc} {draining : Bool}
    (hleft : Left answer n h draining) (hlive : ∃ p, Live answer n p h)
    (hnext : ∀ p, Live answer n p h → Live answer n p h') : Left answer n h' draining := by
  obtain ⟨p,hp⟩ := hlive
  cases hleft with
  | none => cases hp
  | finished server => cases hp
  | live hl => exact Left.live (hnext _ hl)

theorem Stage.change {answer : GoString} {n : ℕ} {client : ClientPc} {proc : ProcPc ν}
    {h h' : HandlerPc} {draining : Bool} (hstage : Stage answer n client proc h draining)
    (hlive : ∃ p, Live answer n p h) (hnext : ∀ p, Live answer n p h → Live answer n p h') :
    Stage answer n client proc h' draining := by
  obtain ⟨p,hp⟩ := hlive
  cases hstage with
  | waiting t live => exact Stage.waiting t (hnext _ live)
  | abandoned t left => exact Stage.abandoned t (left.change ⟨p,hp⟩ hnext)
  | failing left => exact Stage.failing (left.change ⟨p,hp⟩ hnext)
  | failed left => exact Stage.failed (left.change ⟨p,hp⟩ hnext)
  | _ => cases hp

theorem Stage.live_of_dispatching {answer : GoString} {n p : ℕ} {client : ClientPc}
    {proc : ProcPc ν} {draining : Bool}
    (h : Stage answer n client proc (.dispatching p) draining) :
    Live answer n p (.dispatching p) := by
  have hleft : Left answer n (.dispatching p) draining → Live answer n p (.dispatching p) := by
    intro hleft
    cases hleft with
    | live hl =>
      cases hl with
      | dispatching bound => exact Live.dispatching bound
  cases h with
  | waiting t live =>
    cases live with
    | dispatching bound => exact Live.dispatching bound
  | abandoned t left => exact hleft left
  | failing left => exact hleft left
  | failed left => exact hleft left

theorem Stage.drain {answer : GoString} {n p : ℕ} {client : ClientPc} {proc : ProcPc ν}
    {reply : ReplyMsg} (h : Stage answer n client proc (.sending p reply) true) :
    Stage answer n client proc (.finished p) false := by
  cases h with
  | abandoned t left => exact Stage.abandoned t (Left.finished p)
  | failing left => exact Stage.failing (Left.finished p)
  | failed left => exact Stage.failed (Left.finished p)

theorem add_ofNat_comm {w m n : ℕ} (x : BitVec w) :
    x+BitVec.ofNat w m+BitVec.ofNat w n = x+BitVec.ofNat w (n+m) := by
  rw [Nat.add_comm n m, BitVec.ofNat_add, BitVec.add_assoc]

theorem progress_handler {m : Move} (hm : m.ofHandler = true) {req : ReqMsg ε} {client : ClientPc}
    {proc : ProcPc ν} {h h' : HandlerPc} {draining draining' : Bool}
    (hwait : ∀ t, proc = .waiting t →
      (⟨req,client,.waiting t,h',draining'⟩ : CallRec ε ν).rank <
        (⟨req,client,.waiting t,h,draining⟩ : CallRec ε ν).rank) :
    Progress m ⟨req,client,proc,h,draining⟩ ⟨req,client,proc,h',draining'⟩ := by
  by_cases hp : ∃ t, proc = .waiting t
  · obtain ⟨t,rfl⟩ := hp
    exact Or.inl (hwait t rfl)
  · exact Or.inr ⟨hm,rfl,rfl,fun t ht => hp ⟨t,ht⟩⟩

variable [DecidableEq ε] [DecidableEq ν]

theorem effect_setCall {m : Move} {c' : CallRec ε ν} (t : State ε ν)
    (ht : t = { s with net := { s.net with count := t.net.count, bytes := t.net.bytes } })
    (hreq : c'.req = c.req) (hok : c'.Ok (chance.answer i) s.objects.length)
    (hst : c'.handler.started i = c.handler.started i)
    (hex : c'.handler.executed i (chance.answer i) = c.handler.executed i (chance.answer i))
    (hcount : t.net.count+BitVec.ofNat 32 c.taken = s.net.count+BitVec.ofNat 32 c'.taken)
    (hbytes : t.net.bytes+BitVec.ofNat 64 c.bytes = s.net.bytes+BitVec.ofNat 64 c'.bytes)
    (hprogress : Progress m c c')
    (htarget : ∀ t, c'.target = some t → c.target = some t ∨
      (c.handler = .none ∧ s.net.readEndnameInfo c.req.endname = some t))
    (hpassed : c'.passed = true → c.passed = true ∨ ∃ t, c.target = some t ∧
      c.handler = .finished t.server ∧
      s.net.isServerDead c.req.endname t.servername t.server = false) :
    Effect chance s (t.setCall i c') i m c c' := by
  generalize t.net.count = count at ht hcount
  generalize t.net.bytes = bytes at ht hbytes
  subst ht
  exact ⟨rfl,hreq,hok,
    ⟨[],(List.append_nil _).symm,by simp [hst],List.forall_mem_nil _,fun _ => (BitVec.add_zero _).symm⟩,
    ⟨[],(List.append_nil _).symm,by simp [hex],List.forall_mem_nil _⟩,rfl,hcount,hbytes,rfl,rfl,rfl,
    hprogress,htarget,hpassed⟩

theorem readEndnameInfo_eq_some {net : Network ε ν} {endname : ε} {t : Target ν}
    (h : net.readEndnameInfo endname = some t) :
    net.isEnabled endname = true ∧ (net.connections.lookup endname).join = some t.servername ∧
      net.serverOf t.servername = some t.server := by
  rw [Network.readEndnameInfo] at h
  split at h
  · rename_i henabled
    obtain ⟨servername,hname,h⟩ := Option.bind_eq_some_iff.mp h
    obtain ⟨server,hserver,h⟩ := Option.bind_eq_some_iff.mp h
    cases Option.some.inj h
    exact ⟨henabled,hname,hserver⟩
  · cases h

structure Ends (s s' : State ε ν) : Prop where
  fatal : s'.fatal.isSome = true
  calls : s'.calls = s.calls
  started : s'.started = s.started
  executed : s'.executed = s.executed
  net : s'.net = s.net
  objects : s'.objects.length = s.objects.length
  listening : s'.listening = s.listening

theorem dispatch_effect (hc : c.Ok (chance.answer i) s.objects.length)
    (h : s.move chance i c .dispatch = some s') :
    (∃ c', Effect chance s s' i .dispatch c c') ∨ Ends s s' := by
  obtain ⟨req,client,proc,handler,draining⟩ := c
  simp only [State.move] at h
  split at h
  · rename_i server
    have hlive := Stage.live_of_dispatching hc
    simp only [State.dispatch] at h
    split at h
    · cases h
    · rename_i rs hrs
      split at h
      · cases Option.some.inj h
        exact Or.inr ⟨rfl,rfl,rfl,rfl,rfl,List.length_set,rfl⟩
      · cases Option.some.inj h
        refine Or.inl ⟨⟨req,client,proc,.serving server,draining⟩,rfl,rfl,?_,
          ⟨[(i,server)],rfl,rfl,by simpa using (List.getElem?_eq_some_iff.mp hrs).1,?_⟩,
          ⟨[],(List.append_nil _).symm,rfl,List.forall_mem_nil _⟩,
          rfl,rfl,rfl,by simp [State.setCall],rfl,rfl,?_,fun _ => Or.inl,Or.inl⟩
        · simp only [State.setCall, List.length_set]
          apply Stage.change hc ⟨server,hlive⟩
          intro p hp
          cases hp
          exact Live.serving
        · intro p
          simp only [State.countAt, State.setCall, List.getElem?_set]
          split
          · rename_i hp
            subst hp
            rw [if_pos (List.getElem?_eq_some_iff.mp hrs).1, hrs]
            simp
          · rename_i hp
            simp [hp]
        · exact progress_handler rfl (fun _ _ => by simp [CallRec.rank])
  · cases h

theorem serve_effect (hc : c.Ok (chance.answer i) s.objects.length)
    (h : s.move chance i c .serve = some s') :
    ∃ c', Effect chance s s' i .serve c c' := by
  obtain ⟨req,client,proc,handler,draining⟩ := c
  simp only [State.move] at h
  split at h
  · rename_i server
    cases Option.some.inj h
    refine ⟨⟨req,client,proc,.sending server ⟨true,chance.answer i⟩,draining⟩,rfl,rfl,?_,
      ⟨[],(List.append_nil _).symm,rfl,List.forall_mem_nil _,fun _ => (BitVec.add_zero _).symm⟩,
      ⟨[(i,server,chance.answer i)],rfl,rfl,by simp⟩,rfl,rfl,rfl,rfl,rfl,rfl,?_,
      fun _ => Or.inl,Or.inl⟩
    · apply Stage.change hc ⟨server,Live.serving⟩
      intro p hp
      cases hp
      exact Live.sending
    · exact progress_handler rfl (fun _ _ => by simp [CallRec.rank])
  · cases h

theorem drain_effect (hc : c.Ok (chance.answer i) s.objects.length)
    (h : s.move chance i c .drain = some s') :
    ∃ c', Effect chance s s' i .drain c c' := by
  obtain ⟨req,client,proc,handler,draining⟩ := c
  simp only [State.move] at h
  split at h
  · rename_i server reply
    cases Option.some.inj h
    refine ⟨_,effect_setCall _ rfl rfl (Stage.drain hc) rfl rfl (by simp [CallRec.taken])
      (by simp [CallRec.bytes]) ?_ (fun _ => Or.inl) Or.inl⟩
    apply progress_handler rfl
    rintro t rfl
    cases hc
  · cases h

theorem send_effect (hc : c.Ok (chance.answer i) s.objects.length)
    (h : s.move chance i c .send = some s') : ∃ c', Effect chance s s' i .send c c' := by
  obtain ⟨req,client,proc,handler,draining⟩ := c
  cases hc <;> simp only [State.move, reduceCtorEq] at h
  split at h
  · cases Option.some.inj h
    refine ⟨_,effect_setCall _ rfl rfl Stage.reading rfl rfl ?_ ?_ ?_ ?_ ?_⟩ <;>
      simp [CallRec.taken, CallRec.bytes, State.accept, Progress, CallRec.rank, CallRec.target,
        CallRec.passed]
  · cases h

theorem abort_effect (hc : c.Ok (chance.answer i) s.objects.length)
    (h : s.move chance i c .abort = some s') : ∃ c', Effect chance s s' i .abort c c' := by
  obtain ⟨req,client,proc,handler,draining⟩ := c
  cases hc <;> simp only [State.move, reduceCtorEq] at h
  split at h
  · cases Option.some.inj h
    refine ⟨_,effect_setCall _ rfl rfl Stage.aborted rfl rfl ?_ ?_ ?_ ?_ ?_⟩ <;>
      simp [CallRec.taken, CallRec.bytes, Progress, CallRec.rank, CallRec.target, CallRec.passed]
  · cases h

theorem failing_effect {m : Move} {req : ReqMsg ε} {proc : ProcPc ν} {handler : HandlerPc}
    {draining : Bool} (hleft : Left (chance.answer i) s.objects.length handler draining)
    (htaken : (⟨req,.waiting,proc,handler,draining⟩ : CallRec ε ν).taken = 1)
    (hbytes : (⟨req,.waiting,proc,handler,draining⟩ : CallRec ε ν).bytes = req.args.length)
    (hrank : 1 < (⟨req,.waiting,proc,handler,draining⟩ : CallRec ε ν).rank) :
    Effect chance s (s.setCall i ⟨req,.waiting,.replying failure,handler,draining⟩) i m
      ⟨req,.waiting,proc,handler,draining⟩ ⟨req,.waiting,.replying failure,handler,draining⟩ := by
  refine effect_setCall _ rfl rfl (Stage.failing hleft) rfl rfl ?_ ?_ (Or.inl hrank) ?_ ?_
  · rw [htaken]
    rfl
  · rw [hbytes]
    rfl
  · intro t ht
    cases ht
  · intro hpassed
    cases hpassed

theorem read_effect (hbound : ∀ name p, s.net.serverOf name = some p → p < s.objects.length)
    (hc : c.Ok (chance.answer i) s.objects.length) (h : s.move chance i c .read = some s') :
    ∃ c', Effect chance s s' i .read c c' := by
  obtain ⟨req,client,proc,handler,draining⟩ := c
  cases hc <;> simp only [State.move, reduceCtorEq] at h
  split at h
  · rename_i t ht
    cases Option.some.inj h
    have hlt := hbound _ _ (readEndnameInfo_eq_some ht).2.2
    refine ⟨_,effect_setCall _ rfl rfl (Stage.dropping t hlt) rfl rfl ?_ ?_ ?_ ?_ ?_⟩ <;>
      simp [CallRec.taken, CallRec.bytes, Progress, CallRec.rank, CallRec.target,
        CallRec.passed, ht]
  · cases Option.some.inj h
    exact ⟨_,failing_effect Left.none rfl rfl (by simp [CallRec.rank])⟩

theorem drop_effect (hc : c.Ok (chance.answer i) s.objects.length)
    (h : s.move chance i c .drop = some s') : ∃ c', Effect chance s s' i .drop c c' := by
  obtain ⟨req,client,proc,handler,draining⟩ := c
  cases hc <;> simp only [State.move, reduceCtorEq] at h
  rename_i t ht
  split at h
  · cases Option.some.inj h
    exact ⟨_,failing_effect Left.none rfl rfl (by simp [CallRec.rank])⟩
  · cases Option.some.inj h
    refine ⟨_,effect_setCall _ rfl rfl (Stage.waiting t (Live.dispatching ht)) rfl rfl
      ?_ ?_ ?_ ?_ ?_⟩ <;>
      simp [CallRec.taken, CallRec.bytes, Progress, CallRec.rank, CallRec.target, CallRec.passed]

theorem receive_effect (hc : c.Ok (chance.answer i) s.objects.length)
    (h : s.move chance i c .receive = some s') : ∃ c', Effect chance s s' i .receive c c' := by
  obtain ⟨req,client,proc,handler,draining⟩ := c
  cases hc <;> simp only [State.move, reduceCtorEq] at h
  rename_i t hlive
  cases hlive <;> simp only [reduceCtorEq] at h
  cases Option.some.inj h
  refine ⟨_,effect_setCall _ rfl rfl (Stage.checked t) rfl rfl ?_ ?_ ?_ ?_ ?_⟩ <;>
    simp [CallRec.taken, CallRec.bytes, Progress, CallRec.rank, CallRec.target, CallRec.passed]

theorem tick_effect (hc : c.Ok (chance.answer i) s.objects.length)
    (h : s.move chance i c .tick = some s') : ∃ c', Effect chance s s' i .tick c c' := by
  obtain ⟨req,client,proc,handler,draining⟩ := c
  cases hc <;> simp only [State.move, reduceCtorEq] at h
  rename_i t hlive
  split at h
  · cases Option.some.inj h
    refine ⟨_,effect_setCall _ rfl rfl (Stage.abandoned t (Left.live hlive)) rfl rfl
      ?_ ?_ (Or.inl ?_) ?_ ?_⟩
    · simp [CallRec.taken]
    · simp [CallRec.bytes]
    · cases hlive <;> simp [CallRec.rank]
    · simp [CallRec.target]
    · simp [CallRec.passed]
  · cases h

theorem check_effect (hc : c.Ok (chance.answer i) s.objects.length)
    (h : s.move chance i c .check = some s') : ∃ c', Effect chance s s' i .check c c' := by
  obtain ⟨req,client,proc,handler,draining⟩ := c
  cases hc <;> simp only [State.move, reduceCtorEq] at h
  · rename_i t
    split at h
    · cases Option.some.inj h
      exact ⟨_,failing_effect (Left.finished _) rfl rfl (by simp [CallRec.rank])⟩
    · rename_i hdead
      cases Option.some.inj h
      refine ⟨_,effect_setCall _ rfl rfl (Stage.deciding t) rfl rfl ?_ ?_ ?_ ?_
        (fun _ => Or.inr ⟨t,rfl,rfl,Bool.eq_false_iff.mpr hdead⟩)⟩ <;>
        simp [CallRec.taken, CallRec.bytes, Progress, CallRec.rank, CallRec.target]
  · rename_i t left
    cases Option.some.inj h
    exact ⟨_,failing_effect left rfl rfl (by simp [CallRec.rank])⟩

theorem decide_effect (hc : c.Ok (chance.answer i) s.objects.length)
    (h : s.move chance i c .decide = some s') : ∃ c', Effect chance s s' i .decide c c' := by
  obtain ⟨req,client,proc,handler,draining⟩ := c
  cases hc <;> simp only [State.move, reduceCtorEq] at h
  rename_i t
  split at h
  · cases Option.some.inj h
    exact ⟨_,failing_effect (Left.finished _) rfl rfl (by simp [CallRec.rank])⟩
  · split at h
    · cases Option.some.inj h
      refine ⟨_,effect_setCall _ rfl rfl (Stage.delayed _) rfl rfl ?_ ?_ ?_ ?_ ?_⟩ <;>
        simp [CallRec.taken, CallRec.bytes, Progress, CallRec.rank, CallRec.target, CallRec.passed]
    · cases Option.some.inj h
      refine ⟨_,effect_setCall _ rfl rfl (Stage.answering _) rfl rfl ?_ ?_ ?_ ?_ ?_⟩ <;>
        simp [CallRec.taken, CallRec.bytes, State.addBytes, add_ofNat_comm, Progress,
          CallRec.rank, CallRec.target, CallRec.passed]

theorem fire_effect (hc : c.Ok (chance.answer i) s.objects.length)
    (h : s.move chance i c .fire = some s') : ∃ c', Effect chance s s' i .fire c c' := by
  obtain ⟨req,client,proc,handler,draining⟩ := c
  cases hc <;> simp only [State.move, reduceCtorEq] at h
  cases Option.some.inj h
  refine ⟨_,effect_setCall _ rfl rfl (Stage.answering _) rfl rfl ?_ ?_ ?_ ?_ ?_⟩ <;>
    simp [CallRec.taken, CallRec.bytes, State.addBytes, add_ofNat_comm, Progress, CallRec.rank,
      CallRec.target, CallRec.passed]

theorem reply_effect (hc : c.Ok (chance.answer i) s.objects.length)
    (h : s.move chance i c .reply = some s') :
    (∃ c', Effect chance s s' i .reply c c') ∨ Ends s s' := by
  obtain ⟨req,client,proc,handler,draining⟩ := c
  cases hc <;> simp only [State.move, reduceCtorEq] at h
  · split at h
    · cases Option.some.inj h
      exact Or.inr ⟨rfl,rfl,rfl,rfl,rfl,rfl,rfl⟩
    · cases Option.some.inj h
      refine Or.inl ⟨_,effect_setCall _ rfl rfl (Stage.answered _) rfl rfl ?_ ?_ ?_ ?_ ?_⟩ <;>
        simp [CallRec.taken, CallRec.bytes, Progress, CallRec.rank, CallRec.target, CallRec.passed]
  · rename_i left
    rw [if_neg (by simp [failure])] at h
    cases Option.some.inj h
    refine Or.inl ⟨_,effect_setCall _ rfl rfl (Stage.failed left) rfl rfl ?_ ?_ ?_ ?_ ?_⟩ <;>
      simp [CallRec.taken, CallRec.bytes, Progress, CallRec.rank, CallRec.target,
        CallRec.passed, failure]

/-- A step of a call takes it to a later stage, or the process ends. -/
theorem move_effect (hbound : ∀ name p, s.net.serverOf name = some p → p < s.objects.length)
    (hc : c.Ok (chance.answer i) s.objects.length) {m : Move}
    (h : s.move chance i c m = some s') :
    (∃ c', Effect chance s s' i m c c') ∨ Ends s s' := by
  cases m with
  | send => exact Or.inl (send_effect hc h)
  | abort => exact Or.inl (abort_effect hc h)
  | read => exact Or.inl (read_effect hbound hc h)
  | drop => exact Or.inl (drop_effect hc h)
  | receive => exact Or.inl (receive_effect hc h)
  | tick => exact Or.inl (tick_effect hc h)
  | check => exact Or.inl (check_effect hc h)
  | decide => exact Or.inl (decide_effect hc h)
  | fire => exact Or.inl (fire_effect hc h)
  | reply => exact reply_effect hc h
  | dispatch => exact dispatch_effect hc h
  | serve => exact Or.inl (serve_effect hc h)
  | drain => exact Or.inl (drain_effect hc h)

end Moves

/-! ## Every reachable state -/

structure Inv [DecidableEq ν] (chance : Chance) (s : State ε ν) : Prop where
  stages : ∀ (i : ℕ) (c : CallRec ε ν), s.calls[i]? = some c →
    c.Ok (chance.answer i) s.objects.length
  started : ∀ i, s.started.filter (fun e => e.1 = i) =
    (s.calls[i]?.map (fun c => c.handler.started i)).getD []
  executed : ∀ i, s.executed.filter (fun e => e.1 = i) =
    (s.calls[i]?.map (fun c => c.handler.executed i (chance.answer i))).getD []
  bound : ∀ p, (∃ name, s.net.servers.lookup name = some (some p)) → p < s.objects.length
  listening : s.listening = false → s.net.done = true
  count : s.net.count = BitVec.ofNat 32 (s.calls.map CallRec.taken).sum
  bytes : s.net.bytes = BitVec.ofNat 64 (s.calls.map CallRec.bytes).sum
  total : s.started.length = (s.calls.map (fun c => (c.handler.started 0).length)).sum
  counts : s.fatal = none →
    ∀ p, s.countAt p = BitVec.ofNat 64 (s.started.filter (fun e => e.2 = p)).length
  placed : ∀ e ∈ s.started, e.2 < s.objects.length

section Reachable

variable [DecidableEq ν] {chance : Chance} {s s' : State ε ν}

theorem Inv.serverOf (h : Inv chance s) (name : ν) (p : ℕ)
    (hp : s.net.serverOf name = some p) : p < s.objects.length := by
  apply h.bound
  rw [Network.serverOf, Option.join_eq_some_iff] at hp
  exact ⟨name,hp⟩

theorem sum_map_set {α : Type*} {f : α → ℕ} {l : List α} {i : ℕ} {a : α} (h : l[i]? = some a)
    (b : α) : ((l.set i b).map f).sum+f a = (l.map f).sum+f b := by
  induction l generalizing i with
  | nil => simp at h
  | cons c l ih =>
    cases i with
    | zero =>
      cases Option.some.inj h
      simp only [List.set_cons_zero, List.map_cons, List.sum_cons]
      omega
    | succ i =>
      have := ih (i := i) (by simpa using h)
      simp only [List.set_cons_succ, List.map_cons, List.sum_cons]
      omega

theorem ofNat_sum_set {α : Type*} {w : ℕ} {f : α → ℕ} {l : List α} {i : ℕ} {a b : α}
    {x y : BitVec w} (h : l[i]? = some a) (hx : x = BitVec.ofNat w (l.map f).sum)
    (hy : y+BitVec.ofNat w (f a) = x+BitVec.ofNat w (f b)) :
    y = BitVec.ofNat w ((l.set i b).map f).sum := by
  rw [hx, ← BitVec.ofNat_add, ← sum_map_set h b, BitVec.ofNat_add] at hy
  exact (BitVec.add_left_inj _).mp hy

theorem filter_own {α : Type*} {i j : ℕ} {new : List α} {f : α → ℕ} (hnew : ∀ e ∈ new, f e = i) :
    new.filter (fun e => f e = j) = if i = j then new else [] := by
  split
  · rename_i h
    exact List.filter_eq_self.mpr (fun e he => by simpa [hnew e he] using h)
  · rename_i h
    exact List.filter_eq_nil_iff.mpr (fun e he => by simpa [hnew e he] using h)

theorem HandlerPc.mem_started {i : ℕ} {h : HandlerPc} {e : ℕ × ℕ} (he : e ∈ h.started i) :
    e.1 = i := by
  cases h <;> simp [HandlerPc.started] at he <;> rw [he]

theorem HandlerPc.length_started (i j : ℕ) (h : HandlerPc) :
    (h.started i).length = (h.started j).length := by
  cases h <;> rfl

theorem HandlerPc.mem_executed {i : ℕ} {answer : GoString} {h : HandlerPc}
    {e : ℕ × ℕ × GoString} (he : e ∈ h.executed i answer) : e.1 = i ∧ e.2.2 = answer := by
  cases h <;> simp [HandlerPc.executed] at he <;> rw [he] <;> exact ⟨rfl,rfl⟩

theorem getElem?_set_of_some {α : Type*} {l : List α} {i : ℕ} {c : α} (hc : l[i]? = some c) (c' : α)
    (j : ℕ) : (l.set i c')[j]? = if i = j then some c' else l[j]? := by
  have hlt := (List.getElem?_eq_some_iff.mp hc).1
  rw [List.getElem?_set]
  by_cases hij : i = j
  · subst hij
    rw [if_pos rfl, if_pos hlt, if_pos rfl]
  · rw [if_neg hij, if_neg hij]

theorem filter_record {α β : Type*} (own : ℕ → α → List (ℕ × β)) {l : List α} {i : ℕ} {c c' : α}
    {log new : List (ℕ × β)} (hc : l[i]? = some c) (hown : own i c' = own i c++new)
    (hnew : ∀ e ∈ own i c', e.1 = i)
    (h : ∀ j, log.filter (fun e => e.1 = j) = (l[j]?.map (own j)).getD []) (j : ℕ) :
    (log++new).filter (fun e => e.1 = j) = ((l.set i c')[j]?.map (own j)).getD [] := by
  have hmem : ∀ e ∈ new, e.1 = i := fun e hm => hnew e (hown ▸ List.mem_append_right _ hm)
  rw [List.filter_append, h j, filter_own hmem, getElem?_set_of_some hc]
  split
  · rename_i hij
    subst hij
    simp [hc, hown]
  · rw [List.append_nil]

theorem Inv.effect [DecidableEq ε] (h : Inv chance s) {i : ℕ} {m : Move} {c c' : CallRec ε ν}
    (hc : s.calls[i]? = some c) (he : Effect chance s s' i m c c') : Inv chance s' := by
  obtain ⟨new,hnew,hown,hplaced,hcounts⟩ := he.started
  obtain ⟨done,hdone,hdown,-⟩ := he.executed
  refine ⟨?_,?_,?_,?_,?_,?_,?_,?_,?_,?_⟩
  · intro j d hd
    rw [he.calls, getElem?_set_of_some hc] at hd
    split at hd
    · rename_i hij
      subst hij
      cases Option.some.inj hd
      exact he.ok
    · rw [he.objects]
      exact h.stages j d hd
  · rw [hnew, he.calls]
    exact filter_record (fun i c => c.handler.started i) hc hown
      (fun _ => HandlerPc.mem_started) h.started
  · rw [hdone, he.calls]
    exact filter_record (fun i c => c.handler.executed i (chance.answer i)) hc hdown
      (fun _ hm => (HandlerPc.mem_executed hm).1) h.executed
  · rw [he.net, he.objects]
    exact h.bound
  · rw [he.net, he.listening]
    exact h.listening
  · rw [he.calls]
    exact ofNat_sum_set hc h.count he.count
  · rw [he.calls]
    exact ofNat_sum_set hc h.bytes he.bytes
  · have hsum := sum_map_set (f := fun c => (c.handler.started 0).length) hc c'
    rw [HandlerPc.length_started 0 i, HandlerPc.length_started 0 i, hown, List.length_append]
      at hsum
    rw [he.calls, hnew, List.length_append, h.total]
    omega
  · intro hf p
    rw [hcounts, h.counts (he.fatal ▸ hf), hnew, List.filter_append, List.length_append,
      BitVec.ofNat_add]
  · intro e hm
    rw [hnew] at hm
    rw [he.objects]
    rcases List.mem_append.mp hm with hm | hm
    · exact h.placed e hm
    · exact hplaced e hm

theorem Live.mono {answer : GoString} {n n' server : ℕ} {h : HandlerPc} (hn : n ≤ n')
    (hl : Live answer n server h) : Live answer n' server h := by
  cases hl with
  | dispatching bound => exact Live.dispatching (bound.trans_le hn)
  | serving => exact Live.serving
  | sending => exact Live.sending

theorem Left.mono {answer : GoString} {n n' : ℕ} {h : HandlerPc} {draining : Bool} (hn : n ≤ n')
    (hl : Left answer n h draining) : Left answer n' h draining := by
  cases hl with
  | none => exact Left.none
  | finished server => exact Left.finished server
  | live live => exact Left.live (live.mono hn)

omit [DecidableEq ν] in
theorem CallRec.Ok.mono {answer : GoString} {n n' : ℕ} {c : CallRec ε ν} (hn : n ≤ n')
    (h : c.Ok answer n) : c.Ok answer n' := by
  obtain ⟨req,client,proc,handler,draining⟩ := c
  cases h with
  | selecting => exact Stage.selecting
  | aborted => exact Stage.aborted
  | reading => exact Stage.reading
  | dropping t bound => exact Stage.dropping t (bound.trans_le hn)
  | waiting t live => exact Stage.waiting t (live.mono hn)
  | checked t => exact Stage.checked t
  | abandoned t left => exact Stage.abandoned t (left.mono hn)
  | deciding t => exact Stage.deciding t
  | delayed server => exact Stage.delayed server
  | answering server => exact Stage.answering server
  | failing left => exact Stage.failing (left.mono hn)
  | answered server => exact Stage.answered server
  | failed left => exact Stage.failed (left.mono hn)

theorem Inv.reconfigure (h : Inv chance s) {net : Network ε ν} {listening : Bool}
    {fatal : Option Fatal} (hcount : net.count = s.net.count) (hbytes : net.bytes = s.net.bytes)
    (hbound : ∀ p, (∃ name, net.servers.lookup name = some (some p)) → p < s.objects.length)
    (hlistening : listening = false → net.done = true) (hfatal : fatal = none → s.fatal = none) :
    Inv chance { s with net := net, listening := listening, fatal := fatal } where
  stages := h.stages
  started := h.started
  executed := h.executed
  bound := hbound
  listening := hlistening
  count := hcount.trans h.count
  bytes := hbytes.trans h.bytes
  total := h.total
  counts := fun hf => h.counts (hfatal hf)
  placed := h.placed

theorem Inv.not_started (h : Inv chance s) {i : ℕ} {c : CallRec ε ν} (hc : s.calls[i]? = some c)
    (hnone : c.handler = .none) : ∀ e ∈ s.started, e.1 ≠ i := by
  have hstarted := h.started i
  rw [hc, Option.map_some, Option.getD_some, hnone] at hstarted
  simpa using List.filter_eq_nil_iff.mp hstarted

theorem Inv.mem_executed (h : Inv chance s) {i p : ℕ} {c : CallRec ε ν}
    (hc : s.calls[i]? = some c) (hfin : c.handler = .finished p) :
    (i,p,chance.answer i) ∈ s.executed := by
  have hexecuted := h.executed i
  rw [hc, Option.map_some, Option.getD_some, hfin] at hexecuted
  have hmem : (i,p,chance.answer i) ∈ s.executed.filter (fun e => e.1 = i) := by
    rw [hexecuted]
    exact List.mem_singleton_self _
  exact (List.mem_filter.mp hmem).1

variable [DecidableEq ε]

omit [DecidableEq ε] in
theorem Inv.newCall (h : Inv chance s) (req : ReqMsg ε) :
    Inv chance { s with calls := s.calls++[⟨req,.selecting,.none,.none,false⟩] } := by
  have hget : ∀ j, (s.calls++[(⟨req,.selecting,.none,.none,false⟩ : CallRec ε ν)])[j]? =
      if j = s.calls.length then some ⟨req,.selecting,.none,.none,false⟩ else s.calls[j]? := by
    intro j
    rcases lt_trichotomy j s.calls.length with hj | hj | hj
    · rw [List.getElem?_append_left hj, if_neg hj.ne]
    · simp [hj]
    · rw [if_neg hj.ne', List.getElem?_eq_none (by simp; omega), List.getElem?_eq_none hj.le]
  refine ⟨?_,?_,?_,h.bound,h.listening,?_,?_,?_,h.counts,h.placed⟩
  · intro j c hc
    rw [hget] at hc
    split at hc
    · cases Option.some.inj hc
      exact Stage.selecting
    · exact h.stages j c hc
  · intro j
    rw [hget, h.started j]
    split
    · rename_i hj
      simp [hj, HandlerPc.started]
    · rfl
  · intro j
    rw [hget, h.executed j]
    split
    · rename_i hj
      simp [hj, HandlerPc.executed]
    · rfl
  · rw [h.count, List.map_append, List.sum_append]
    rfl
  · rw [h.bytes, List.map_append, List.sum_append]
    rfl
  · rw [h.total, List.map_append, List.sum_append]
    rfl

omit [DecidableEq ε] in
theorem Inv.makeServer (h : Inv chance s) (hf : s.fatal = none) :
    Inv chance { s with objects := s.objects++[⟨∅,0⟩] } := by
  refine ⟨?_,h.started,h.executed,?_,h.listening,h.count,h.bytes,h.total,?_,?_⟩
  · intro i c hc
    exact (h.stages i c hc).mono (by simp)
  · intro p hp
    have := h.bound p hp
    simp only [List.length_append, List.length_singleton]
    omega
  · intro _ p
    refine Eq.trans ?_ (h.counts hf p)
    simp only [State.countAt, List.getElem?_append, List.getElem?_cons]
    split
    · rfl
    · rename_i hp
      rw [List.getElem?_eq_none (not_lt.mp hp)]
      split <;> rfl
  · intro e he
    have := h.placed e he
    simp only [List.length_append, List.length_singleton]
    omega

omit [DecidableEq ε] in
theorem Inv.setServices (h : Inv chance s) (hf : s.fatal = none) {server : ℕ} {rs rs' : Server}
    (hrs : s.objects[server]? = some rs) (hcount : rs'.count = rs.count) :
    Inv chance { s with objects := s.objects.set server rs' } := by
  refine ⟨?_,h.started,h.executed,?_,h.listening,h.count,h.bytes,h.total,?_,?_⟩
  · simp only [List.length_set]
    exact h.stages
  · simp only [List.length_set]
    exact h.bound
  · intro _ p
    refine Eq.trans ?_ (h.counts hf p)
    simp only [State.countAt, List.getElem?_set]
    split
    · rename_i hp
      subst hp
      rw [if_pos (List.getElem?_eq_some_iff.mp hrs).1, hrs]
      simp [hcount]
    · rfl
  · simp only [List.length_set]
    exact h.placed

omit [DecidableEq ε] in
theorem Inv.insertServer (h : Inv chance s) (servername : ν) (server : Option ℕ)
    (hserver : ∀ p, server = some p → p < s.objects.length) :
    Inv chance { s with net := { s.net with
      servers := s.net.servers.insert servername server } } := by
  refine h.reconfigure rfl rfl ?_ h.listening id
  rintro p ⟨name,hname⟩
  rw [lookup_insert] at hname
  split at hname
  · exact hserver p (Option.some.inj hname)
  · exact h.bound p ⟨name,hname⟩

theorem Inv.configure (h : Inv chance s) (hf : s.fatal = none) (a : Action ε ν) :
    Inv chance (configure s a) := by
  cases a with
  | call i m => exact h
  | listenerExit =>
    simp only [Labrpc.configure]
    split
    · rename_i hdone
      exact h.reconfigure rfl rfl h.bound (fun _ => hdone) id
    · exact h
  | newCall req =>
    simp only [Labrpc.configure]
    split
    · exact h.newCall req
    · exact h
  | makeEnd endname =>
    simp only [Labrpc.configure]
    split
    · exact h.reconfigure rfl rfl h.bound h.listening (fun hnone => by cases hnone)
    · exact h.reconfigure rfl rfl h.bound h.listening id
  | makeServer => exact h.makeServer hf
  | addService server name methods =>
    simp only [Labrpc.configure]
    split
    · rename_i rs hrs
      exact h.setServices hf hrs rfl
    · exact h
  | addServer servername server =>
    simp only [Labrpc.configure]
    split
    · rename_i hlt
      exact h.insertServer servername (some server) (fun p hp => Option.some.inj hp ▸ hlt)
    · exact h
  | deleteServer servername => exact h.insertServer servername none (fun p hp => by cases hp)
  | connect endname servername => exact h.reconfigure rfl rfl h.bound h.listening id
  | enable endname enabled => exact h.reconfigure rfl rfl h.bound h.listening id
  | reliable yes => exact h.reconfigure rfl rfl h.bound h.listening id
  | longReordering yes => exact h.reconfigure rfl rfl h.bound h.listening id
  | cleanup =>
    simp only [Labrpc.configure]
    split
    · exact h.reconfigure rfl rfl h.bound h.listening (fun hnone => by cases hnone)
    · exact h.reconfigure rfl rfl h.bound (fun _ => rfl) id

omit [DecidableEq ε] in
theorem Inv.ends (h : Inv chance s) (he : Ends s s') : Inv chance s' := by
  refine ⟨?_,?_,?_,?_,?_,?_,?_,?_,?_,?_⟩
  · rw [he.calls, he.objects]
    exact h.stages
  · rw [he.started, he.calls]
    exact h.started
  · rw [he.executed, he.calls]
    exact h.executed
  · rw [he.net, he.objects]
    exact h.bound
  · rw [he.net, he.listening]
    exact h.listening
  · rw [he.net, he.calls]
    exact h.count
  · rw [he.net, he.calls]
    exact h.bytes
  · rw [he.started, he.calls]
    exact h.total
  · intro hf
    have hsome := he.fatal
    rw [hf] at hsome
    cases hsome
  · rw [he.started, he.objects]
    exact h.placed

inductive Happens (chance : Chance) (s : State ε ν) : Action ε ν → State ε ν → Prop
  | idle (a : Action ε ν) : Happens chance s a s
  | moved {i : ℕ} {m : Move} {c c' : CallRec ε ν} {s' : State ε ν} (hc : s.calls[i]? = some c)
      (he : Effect chance s s' i m c c') : Happens chance s (.call i m) s'
  | ended {i : ℕ} {m : Move} {s' : State ε ν} (he : Ends s s') : Happens chance s (.call i m) s'
  | configured (a : Action ε ν) (hf : s.fatal = none) : Happens chance s a (configure s a)

theorem Inv.happens (h : Inv chance s) (a : Action ε ν) : Happens chance s a (step chance a s) := by
  unfold step
  split
  · exact Happens.idle a
  · rename_i hf
    have hnone : s.fatal = none := by simpa using hf
    cases a with
    | call i m =>
      simp only [callStep]
      split
      · rename_i c hc
        cases hm : s.move chance i c m with
        | none => exact Happens.idle _
        | some s' =>
          rcases move_effect h.serverOf (h.stages i c hc) hm with ⟨c',he⟩ | he
          · exact Happens.moved hc he
          · exact Happens.ended he
      · exact Happens.idle _
    | _ => exact Happens.configured _ hnone

theorem step_inv (a : Action ε ν) (s : State ε ν) (h : Inv chance s) :
    Inv chance (step chance a s) := by
  have hh := h.happens a
  generalize step chance a s = s' at hh ⊢
  cases hh with
  | idle => exact h
  | moved hc he => exact h.effect hc he
  | ended he => exact h.ends he
  | configured _ hf => exact h.configure hf a

omit [DecidableEq ε] in
theorem start_inv : Inv chance (start : State ε ν) where
  stages := fun i c hc => by cases hc
  started := fun _ => rfl
  executed := fun _ => rfl
  bound := fun p ⟨name,hname⟩ => by cases hname
  listening := fun h => by cases h
  count := rfl
  bytes := rfl
  total := rfl
  counts := fun _ _ => rfl
  placed := fun e he => by cases he

theorem run_inv (chance : Chance) (as : List (Action ε ν)) :
    Inv chance (run (step chance) as start) :=
  run_keeps _ _ step_inv as _ start_inv

theorem configure_calls (s : State ε ν) (a : Action ε ν) :
    (configure s a).calls = s.calls ∨
      ∃ req, a = .newCall req ∧
        (configure s a).calls = s.calls++[⟨req,.selecting,.none,.none,false⟩] := by
  cases a with
  | newCall req =>
    simp only [Labrpc.configure]
    split
    · exact Or.inr ⟨req,rfl,rfl⟩
    · exact Or.inl rfl
  | call | makeServer | deleteServer | connect | enable | reliable | longReordering =>
    exact Or.inl rfl
  | addService =>
    simp only [Labrpc.configure]
    split <;> exact Or.inl rfl
  | listenerExit | makeEnd | addServer | cleanup =>
    simp only [Labrpc.configure]
    split <;> exact Or.inl rfl

theorem Inv.call_step (h : Inv chance s) (a : Action ε ν) {i : ℕ} {c : CallRec ε ν}
    (hc : s.calls[i]? = some c) :
    ∃ c', (step chance a s).calls[i]? = some c' ∧
      (c' = c ∨ ∃ m, a = .call i m ∧ Effect chance s (step chance a s) i m c c') := by
  have hlt := (List.getElem?_eq_some_iff.mp hc).1
  have hh := h.happens a
  generalize step chance a s = s' at hh ⊢
  cases hh with
  | idle => exact ⟨c,hc,Or.inl rfl⟩
  | @moved j m d d' _ hd he =>
    by_cases hji : j = i
    · subst hji
      cases Option.some.inj (hd.symm.trans hc)
      exact ⟨d',by rw [he.calls, List.getElem?_set_self hlt],Or.inr ⟨m,rfl,he⟩⟩
    · exact ⟨c,by rw [he.calls, List.getElem?_set_ne hji, hc],Or.inl rfl⟩
  | ended he => exact ⟨c,by rw [he.calls, hc],Or.inl rfl⟩
  | configured _ _ =>
    rcases configure_calls s a with heq | ⟨req,-,heq⟩
    · exact ⟨c,by rw [heq, hc],Or.inl rfl⟩
    · exact ⟨c,by rw [heq, List.getElem?_append_left hlt, hc],Or.inl rfl⟩

theorem Inv.call_new (h : Inv chance s) (a : Action ε ν) {i : ℕ} {c : CallRec ε ν}
    (hc : s.calls[i]? = none) (hc' : (step chance a s).calls[i]? = some c) : c.proc = .none := by
  have hh := h.happens a
  generalize step chance a s = s' at hh hc'
  cases hh with
  | idle => cases hc.symm.trans hc'
  | moved hd he =>
    rw [he.calls, List.getElem?_set] at hc'
    split at hc'
    · rename_i hji
      subst hji
      cases hc.symm.trans hd
    · cases hc.symm.trans hc'
  | ended he =>
    rw [he.calls] at hc'
    cases hc.symm.trans hc'
  | configured _ _ =>
    rcases configure_calls s a with heq | ⟨req,-,heq⟩
    · rw [heq] at hc'
      cases hc.symm.trans hc'
    · rw [heq, List.getElem?_append_right (List.getElem?_eq_none_iff.mp hc),
        List.getElem?_singleton] at hc'
      split at hc'
      · cases Option.some.inj hc'
        rfl
      · cases hc'

theorem configure_executed (s : State ε ν) (a : Action ε ν) :
    (configure s a).executed = s.executed := by
  cases a with
  | addService =>
    simp only [Labrpc.configure]
    split <;> rfl
  | listenerExit | newCall | makeEnd | addServer | cleanup =>
    simp only [Labrpc.configure]
    split <;> rfl
  | _ => rfl

/-- What was executed stays so, and what is new was being served. -/
theorem Inv.executed_step (h : Inv chance s) (a : Action ε ν) :
    ∃ new, (step chance a s).executed = s.executed++new ∧
      ∀ e ∈ new, ∃ c, a = .call e.1 .serve ∧ s.calls[e.1]? = some c ∧
        c.handler = .serving e.2.1 := by
  have hh := h.happens a
  generalize step chance a s = s' at hh ⊢
  cases hh with
  | idle => exact ⟨[],(List.append_nil _).symm,List.forall_mem_nil _⟩
  | @moved i m c c' _ hc he =>
    obtain ⟨new,hnew,hown,hserve⟩ := he.executed
    refine ⟨new,hnew,fun e hm => ?_⟩
    have hi : e.1 = i :=
      (HandlerPc.mem_executed (h := c'.handler) (hown ▸ List.mem_append_right _ hm)).1
    rw [hi]
    obtain ⟨hm,hhandler⟩ := hserve e hm
    exact ⟨c,by rw [hm],hc,hhandler⟩
  | ended he => exact ⟨[],by rw [he.executed, List.append_nil],List.forall_mem_nil _⟩
  | configured _ _ =>
    exact ⟨[],by rw [configure_executed, List.append_nil],List.forall_mem_nil _⟩

/-! ## The story of a call -/

/-- At some time the end led to the target, and the call had not been started. -/
def ReadBefore (chance : Chance) (as : List (Action ε ν)) (i : ℕ) (endname : ε) (t : Target ν) :
    Prop :=
  ∃ bs cs, as = bs++cs ∧
    (run (step chance) bs start).net.readEndnameInfo endname = some t ∧
    ∀ e ∈ (run (step chance) bs start).started, e.1 ≠ i

/-- At some later time the target had executed the call and was not replaced. -/
def PassedBefore (chance : Chance) (as : List (Action ε ν)) (i : ℕ) (endname : ε) : Prop :=
  ∃ bs cs t, as = bs++cs ∧ ReadBefore chance bs i endname t ∧
    (i,t.server,chance.answer i) ∈ (run (step chance) bs start).executed ∧
    (run (step chance) bs start).net.isServerDead endname t.servername t.server = false

theorem ReadBefore.snoc {as : List (Action ε ν)} {i : ℕ} {endname : ε} {t : Target ν}
    (h : ReadBefore chance as i endname t) (a : Action ε ν) :
    ReadBefore chance (as++[a]) i endname t := by
  obtain ⟨bs,cs,rfl,h⟩ := h
  exact ⟨bs,cs++[a],List.append_assoc _ _ _,h⟩

theorem PassedBefore.snoc {as : List (Action ε ν)} {i : ℕ} {endname : ε}
    (h : PassedBefore chance as i endname) (a : Action ε ν) :
    PassedBefore chance (as++[a]) i endname := by
  obtain ⟨bs,cs,t,rfl,h⟩ := h
  exact ⟨bs,cs++[a],t,List.append_assoc _ _ _,h⟩

structure Story (chance : Chance) (as : List (Action ε ν)) (i : ℕ) (c : CallRec ε ν) : Prop where
  target : ∀ t, c.target = some t → ReadBefore chance as i c.req.endname t
  passed : c.passed = true → PassedBefore chance as i c.req.endname

theorem run_story (as : List (Action ε ν)) (i : ℕ) : ∀ c : CallRec ε ν,
    (run (step chance) as start).calls[i]? = some c → Story chance as i c := by
  induction as using List.reverseRecOn with
  | nil =>
    intro c hc
    cases hc
  | append_singleton as a ih =>
    intro c' hc'
    have hinv := run_inv chance as
    rw [run_append, run_cons, run_nil] at hc'
    cases hc : (run (step chance) as start).calls[i]? with
    | none =>
      have hproc := hinv.call_new a hc hc'
      refine ⟨fun t ht => ?_,fun h => ?_⟩
      · rw [CallRec.target, hproc] at ht
        cases ht
      · rw [CallRec.passed, hproc] at h
        cases h
    | some c =>
      have hstory := ih c hc
      obtain ⟨d,hd,hstep⟩ := hinv.call_step a hc
      cases Option.some.inj (hd.symm.trans hc')
      rcases hstep with rfl | ⟨m,rfl,he⟩
      · exact ⟨fun t ht => (hstory.target t ht).snoc a,fun h => (hstory.passed h).snoc a⟩
      · refine ⟨fun t ht => ?_,fun h => ?_⟩
        · rw [he.req]
          rcases he.target t ht with hold | ⟨hnone,hread⟩
          · exact (hstory.target t hold).snoc _
          · exact ⟨as,[_],rfl,hread,hinv.not_started hc hnone⟩
        · rw [he.req]
          rcases he.passed h with hold | ⟨t,ht,hfin,halive⟩
          · exact (hstory.passed hold).snoc _
          · exact ⟨as,[_],t,rfl,hstory.target t ht,hinv.mem_executed hc hfin,halive⟩

/-- A call that returns true was executed by the server its end led to after the call was
made, and that server was still in its place when the reply was let through. -/
theorem call_true (chance : Chance) (as : List (Action ε ν)) (i : ℕ) (c : CallRec ε ν)
    (reply : GoString) (hc : (run (step chance) as start).calls[i]? = some c)
    (hr : c.client = .returned true reply) :
    ∃ bs₁ bs₂ bs₃ t, as = bs₁++bs₂++bs₃ ∧
      (run (step chance) bs₁ start).net.readEndnameInfo c.req.endname = some t ∧
      (∀ e ∈ (run (step chance) bs₁ start).started, e.1 ≠ i) ∧
      (i,t.server,reply) ∈ (run (step chance) (bs₁++bs₂) start).executed ∧
      (run (step chance) (bs₁++bs₂) start).net.isServerDead c.req.endname t.servername
        t.server = false := by
  have hok := (run_inv chance as).stages i c hc
  have hstory := run_story as i c hc
  obtain ⟨req,client,proc,handler,draining⟩ := c
  cases hr
  cases hok with
  | answered server =>
    obtain ⟨-,bs₃,t,rfl,⟨bs₁,bs₂,rfl,hread,hnew⟩,hexecuted,halive⟩ := hstory.passed rfl
    exact ⟨bs₁,bs₂,bs₃,t,rfl,hread,hnew,hexecuted,halive⟩

def oneServer : List (Action ℕ ℕ) :=
  [.makeEnd 0,.makeServer,.addService 0 (ascii "K") [ascii "Get"],.addServer 5 0,.connect 0 5,
    .enable 0 true,.newCall ⟨0,ascii "K.Get",ascii "xy"⟩]

def oneCall : List (Action ℕ ℕ) :=
  oneServer++[.call 0 .send,.call 0 .read,.call 0 .drop,.call 0 .dispatch,.call 0 .serve,
    .call 0 .receive,.call 0 .check,.call 0 .decide,.call 0 .reply]

def certain : Chance :=
  ⟨fun _ => ascii "v",fun _ => true,fun _ => false,fun _ => false,fun _ => false⟩

theorem call_true_oneCall :
    ∃ bs₁ bs₂ bs₃ t, oneCall = bs₁++bs₂++bs₃ ∧
      (run (step certain) bs₁ start).net.readEndnameInfo 0 = some t ∧
      (∀ e ∈ (run (step certain) bs₁ start).started, e.1 ≠ 0) ∧
      (0,t.server,ascii "v") ∈ (run (step certain) (bs₁++bs₂) start).executed ∧
      (run (step certain) (bs₁++bs₂) start).net.isServerDead 0 t.servername t.server = false :=
  call_true certain oneCall 0 ⟨⟨0,ascii "K.Get",ascii "xy"⟩,.returned true (ascii "v"),.finished,
    .finished 0,false⟩ (ascii "v") rfl rfl

/-! ## Every call returns -/

def CallRec.next (listening : Bool) (c : CallRec ε ν) : Move :=
  match c.proc with
  | .none => if listening then .send else .abort
  | .reading => .read
  | .dropping _ => .drop
  | .waiting _ => match c.handler with
    | .dispatching _ => .dispatch
    | .serving _ => .serve
    | _ => .receive
  | .checking _ _ => .check
  | .deciding _ _ => .decide
  | .delayed _ => .fire
  | .replying _ => .reply
  | .finished => .reply

def Returned (i : ℕ) (s : State ε ν) : Prop :=
  ∃ (c : CallRec ε ν) (ok : Bool) (reply : GoString),
    s.calls[i]? = some c ∧ c.client = .returned ok reply

omit [DecidableEq ε] [DecidableEq ν] in
theorem dispatch_of_lt {i p : ℕ} {c : CallRec ε ν} (hp : p < s.objects.length) :
    ∃ s', s.dispatch i c p = some s' := by
  simp only [State.dispatch, List.getElem?_eq_getElem hp]
  split
  · exact ⟨_,rfl⟩
  · exact ⟨_,rfl⟩

theorem Inv.next_moves (h : Inv chance s) {i : ℕ} {c : CallRec ε ν} (hc : s.calls[i]? = some c)
    (hret : ¬Returned i s) : ∃ s', s.move chance i c (c.next s.listening) = some s' := by
  have hok := h.stages i c hc
  have hreturned : ∀ ok reply, c.client ≠ .returned ok reply :=
    fun ok reply hcl => hret ⟨c,ok,reply,hc,hcl⟩
  obtain ⟨req,client,proc,handler,draining⟩ := c
  cases hok with
  | selecting =>
    cases hl : s.listening with
    | true => exact ⟨_,by simp only [CallRec.next, State.move, hl, if_true]; rfl⟩
    | false =>
      have hdone := h.listening hl
      exact ⟨_,by simp only [CallRec.next, State.move, hdone, if_true]; rfl⟩
  | reading =>
    simp only [CallRec.next, State.move]
    split <;> exact ⟨_,rfl⟩
  | dropping t bound =>
    simp only [CallRec.next, State.move]
    split <;> exact ⟨_,rfl⟩
  | waiting t live =>
    cases live with
    | dispatching bound => exact dispatch_of_lt bound
    | serving => exact ⟨_,rfl⟩
    | sending => exact ⟨_,rfl⟩
  | checked t =>
    simp only [CallRec.next, State.move]
    split <;> exact ⟨_,rfl⟩
  | abandoned t left => exact ⟨_,rfl⟩
  | deciding t =>
    simp only [CallRec.next, State.move]
    split
    · exact ⟨_,rfl⟩
    · split <;> exact ⟨_,rfl⟩
  | delayed server => exact ⟨_,rfl⟩
  | answering server =>
    simp only [CallRec.next, State.move]
    split <;> exact ⟨_,rfl⟩
  | failing left =>
    simp only [CallRec.next, State.move]
    split <;> exact ⟨_,rfl⟩
  | aborted => exact absurd rfl (hreturned _ _)
  | answered server => exact absurd rfl (hreturned _ _)
  | failed left => exact absurd rfl (hreturned _ _)

omit [DecidableEq ε] [DecidableEq ν] in
theorem next_waits {listening : Bool} {c : CallRec ε ν}
    (h : (c.next listening).ofHandler = true) : ∃ t, c.proc = .waiting t := by
  obtain ⟨req,client,proc,handler,draining⟩ := c
  cases proc with
  | waiting t => exact ⟨t,rfl⟩
  | none => cases listening <;> cases h
  | _ => cases h

def remaining (i : ℕ) (s : State ε ν) : ℕ :=
  2*((s.calls[i]?.map CallRec.rank).getD 0)+s.listening.toNat

theorem Inv.listening_step (h : Inv chance s) (a : Action ε ν) :
    (step chance a s).listening = s.listening ∨
      s.listening = true ∧ (step chance a s).listening = false := by
  have hh := h.happens a
  generalize step chance a s = s' at hh ⊢
  cases hh with
  | idle => exact Or.inl rfl
  | moved hd he => exact Or.inl he.listening
  | ended he => exact Or.inl he.listening
  | configured _ _ =>
    cases a with
    | listenerExit =>
      simp only [Labrpc.configure]
      split
      · cases hl : s.listening with
        | true => exact Or.inr ⟨rfl,rfl⟩
        | false => exact Or.inl rfl
      · exact Or.inl rfl
    | addService =>
      simp only [Labrpc.configure]
      split <;> exact Or.inl rfl
    | newCall | makeEnd | addServer | cleanup =>
      simp only [Labrpc.configure]
      split <;> exact Or.inl rfl
    | _ => exact Or.inl rfl

/-- No step leaves more to do, and the step a call waits for stays the same meanwhile. -/
theorem Inv.remaining_step (h : Inv chance s) (a : Action ε ν) {i : ℕ} {c : CallRec ε ν}
    (hc : s.calls[i]? = some c) :
    remaining i (step chance a s) < remaining i s ∨
      (remaining i (step chance a s) = remaining i s ∧ ∃ c',
        (step chance a s).calls[i]? = some c' ∧
        c'.next (step chance a s).listening = c.next s.listening) := by
  obtain ⟨c',hc',hstep⟩ := h.call_step a hc
  simp only [remaining, hc, hc', Option.map_some, Option.getD_some]
  rcases hstep with rfl | ⟨m,rfl,he⟩
  · rcases h.listening_step a with heq | ⟨htrue,hfalse⟩
    · exact Or.inr ⟨by rw [heq],c',rfl,by rw [heq]⟩
    · left
      rw [htrue, hfalse]
      simp
  · rw [he.listening]
    rcases he.progress with hlt | ⟨-,hclient,hproc,hwait⟩
    · left
      omega
    · right
      obtain ⟨req,client,proc,handler,draining⟩ := c
      obtain ⟨req',client',proc',handler',draining'⟩ := c'
      cases hclient
      cases hproc
      cases proc with
      | waiting t => exact absurd rfl (hwait t)
      | _ => exact ⟨rfl,_,rfl,rfl⟩

theorem Inv.next_progress (h : Inv chance s) {i : ℕ} {c : CallRec ε ν}
    (hc : s.calls[i]? = some c) (hf : s.fatal = none) (hret : ¬Returned i s) :
    (step chance (.call i (c.next s.listening)) s).fatal.isSome = true ∨
      remaining i (step chance (.call i (c.next s.listening)) s) < remaining i s := by
  obtain ⟨s',hs'⟩ := h.next_moves hc hret
  have hstep : step chance (.call i (c.next s.listening)) s = s' := by
    simp only [step, hf, Option.isSome_none, Bool.false_eq_true, if_false, callStep, hc, hs',
      Option.getD_some]
  rw [hstep]
  rcases move_effect h.serverOf (h.stages i c hc) hs' with ⟨c',he⟩ | he
  · right
    have hc' : s'.calls[i]? = some c' := by
      rw [he.calls, List.getElem?_set_self (List.getElem?_eq_some_iff.mp hc).1]
    simp only [remaining, hc, hc', Option.map_some, Option.getD_some, he.listening]
    rcases he.progress with hlt | ⟨hhandler,-,-,hwait⟩
    · omega
    · obtain ⟨t,ht⟩ := next_waits hhandler
      exact absurd ht (hwait t)
  · exact Or.inl he.fatal

/-- From any state the network can be in: if the steps of a call keep coming up, whatever else
happens, the call returns or the process ends. -/
theorem call_returns (chance : Chance) (as : List (Action ε ν)) (i : ℕ)
    (hi : i < (run (step chance) as start).calls.length) (schedule : ℕ → Action ε ν)
    (hfair : Fair (fun a => ∃ m, a = .call i m) schedule) :
    ∃ n, (after (step chance) schedule (run (step chance) as start) n).fatal.isSome = true ∨
      Returned i (after (step chance) schedule (run (step chance) as start) n) := by
  refine helpful_reaches (step chance) _ (fun s => Inv chance s ∧ i < s.calls.length)
    (fun s => s.fatal.isSome = true ∨ Returned i s) (remaining i)
    (fun a s => ∃ c : CallRec ε ν, s.calls[i]? = some c ∧ a = .call i (c.next s.listening))
    ?_ ?_ ?_ ?_ _ _ ⟨run_inv chance as,hi⟩ rfl schedule hfair
  · rintro a s ⟨h,hlt⟩
    obtain ⟨c',hc',-⟩ := h.call_step a (List.getElem?_eq_getElem hlt)
    exact ⟨step_inv a s h,(List.getElem?_eq_some_iff.mp hc').1⟩
  · rintro a s ⟨h,hlt⟩ -
    rcases h.remaining_step a (List.getElem?_eq_getElem hlt) with hless | ⟨heq,c',hc',hnext⟩
    · exact Or.inr (Or.inl hless)
    · refine Or.inr (Or.inr ⟨heq,?_⟩)
      rintro b ⟨c,hc,rfl⟩
      cases Option.some.inj ((List.getElem?_eq_getElem hlt).symm.trans hc)
      exact ⟨c',hc',by rw [hnext]⟩
  · rintro a s ⟨h,-⟩ hdone ⟨c,hc,rfl⟩
    rw [not_or] at hdone
    rcases h.next_progress hc (by simpa using hdone.1) hdone.2 with hfatal | hless
    · exact Or.inl (Or.inl hfatal)
    · exact Or.inr hless
  · rintro s ⟨h,hlt⟩ -
    exact ⟨_,⟨_,rfl⟩,_,List.getElem?_eq_getElem hlt,rfl⟩

def moves : List Move :=
  [.send,.abort,.read,.drop,.receive,.tick,.check,.decide,.fire,.reply,.dispatch,.serve,.drain]

theorem mem_moves (m : Move) : m ∈ moves := by
  cases m <;> decide

theorem call_returns_oneServer : ∃ n,
    (after (step certain) (rounds .cleanup (moves.map (Action.call 0)))
        (run (step certain) oneServer start) n).fatal.isSome = true ∨
      Returned 0 (after (step certain) (rounds .cleanup (moves.map (Action.call 0)))
        (run (step certain) oneServer start) n) :=
  call_returns certain oneServer 0 (by decide) _ (rounds_fair Action.cleanup (by
    rintro _ ⟨m,rfl⟩
    exact List.mem_map_of_mem (mem_moves m)))

/-! ## Counting -/

omit [DecidableEq ε] [DecidableEq ν] in
theorem nodup_map_of_filter {α : Type*} {l : List α} {f : α → ℕ}
    (h : ∀ i, (l.filter (fun e => f e = i)).length ≤ 1) : (l.map f).Nodup := by
  rw [List.nodup_iff_count_le_one]
  intro i
  rw [List.count, List.countP_map, List.countP_eq_length_filter]
  refine le_trans (le_of_eq ?_) (h i)
  congr 1

theorem HandlerPc.length_started_le (i : ℕ) (h : HandlerPc) : (h.started i).length ≤ 1 := by
  cases h <;> simp [HandlerPc.started]

theorem HandlerPc.length_executed_le (i : ℕ) (answer : GoString) (h : HandlerPc) :
    (h.executed i answer).length ≤ 1 := by
  cases h <;> simp [HandlerPc.executed]

theorem HandlerPc.started_of_executed {i : ℕ} {answer : GoString} {h : HandlerPc}
    {e : ℕ × ℕ × GoString} (he : e ∈ h.executed i answer) : (e.1,e.2.1) ∈ h.started i := by
  cases h <;> simp [HandlerPc.executed] at he <;> simp [HandlerPc.started, he]

omit [DecidableEq ε] in
theorem Inv.started_nodup (h : Inv chance s) : (s.started.map Prod.fst).Nodup := by
  apply nodup_map_of_filter
  intro i
  rw [h.started i]
  cases s.calls[i]? with
  | none => exact Nat.zero_le 1
  | some c => exact c.handler.length_started_le i

omit [DecidableEq ε] in
theorem Inv.executed_nodup (h : Inv chance s) : (s.executed.map Prod.fst).Nodup := by
  apply nodup_map_of_filter
  intro i
  rw [h.executed i]
  cases s.calls[i]? with
  | none => exact Nat.zero_le 1
  | some c => exact c.handler.length_executed_le i (chance.answer i)

omit [DecidableEq ε] in
theorem Inv.of_mem_executed (h : Inv chance s) {e : ℕ × ℕ × GoString} (he : e ∈ s.executed) :
    (e.1,e.2.1) ∈ s.started ∧ e.2.2 = chance.answer e.1 := by
  have hmem : e ∈ s.executed.filter (fun d => d.1 = e.1) := List.mem_filter.mpr ⟨he,by simp⟩
  rw [h.executed] at hmem
  have hstarted := h.started e.1
  cases hc : s.calls[e.1]? with
  | none =>
    rw [hc] at hmem
    cases hmem
  | some c =>
    rw [hc, Option.map_some, Option.getD_some] at hmem hstarted
    have hin : (e.1,e.2.1) ∈ s.started.filter (fun d => d.1 = e.1) := by
      rw [hstarted]
      exact HandlerPc.started_of_executed hmem
    exact ⟨(List.mem_filter.mp hin).1,(HandlerPc.mem_executed hmem).2⟩

omit [DecidableEq ε] in
theorem Inv.executed_lt (h : Inv chance s) {e : ℕ × ℕ × GoString} (he : e ∈ s.executed) :
    e.2.1 < s.objects.length :=
  h.placed _ (h.of_mem_executed he).1

/-- No call is started twice or executed twice, and whatever is executed was started by the
same server. -/
theorem executed_once (chance : Chance) (as : List (Action ε ν)) :
    ((run (step chance) as start).started.map Prod.fst).Nodup ∧
      ((run (step chance) as start).executed.map Prod.fst).Nodup ∧
      ∀ e ∈ (run (step chance) as start).executed,
        (e.1,e.2.1) ∈ (run (step chance) as start).started ∧ e.2.2 = chance.answer e.1 :=
  ⟨(run_inv chance as).started_nodup,(run_inv chance as).executed_nodup,
    fun _ => (run_inv chance as).of_mem_executed⟩

omit [DecidableEq ε] [DecidableEq ν] in
theorem toInt_ofNat_eq (w n : ℕ) : (BitVec.ofNat w n).toInt = (n : ℤ).bmod (2^w) := by
  rw [BitVec.toInt_eq_toNat_bmod, BitVec.toNat_ofNat, Int.natCast_emod, Int.emod_bmod]

omit [DecidableEq ε] in
theorem Inv.getCount (h : Inv chance s) (hf : s.fatal = none) {servername : ν} {p : ℕ}
    (hp : s.net.serverOf servername = some p) :
    Labrpc.getCount s servername =
      some (((s.started.filter (fun e => e.2 = p)).length : ℤ).bmod (2^64)) := by
  have hlt := h.serverOf servername p hp
  have hcount := h.counts hf p
  rw [State.countAt, List.getElem?_eq_getElem hlt] at hcount
  simp only [Labrpc.getCount, hp, Option.bind_eq_bind, Option.bind_some,
    List.getElem?_eq_getElem hlt, Option.some.injEq]
  rw [← toInt_ofNat_eq, ← hcount]
  rfl

omit [DecidableEq ε] [DecidableEq ν] in
theorem Stage.started_le_taken {answer : GoString} {n : ℕ} {c : CallRec ε ν}
    (h : c.Ok answer n) : (c.handler.started 0).length ≤ c.taken := by
  obtain ⟨req,client,proc,handler,draining⟩ := c
  have hle := handler.length_started_le 0
  cases h with
  | selecting => exact Nat.zero_le _
  | aborted => exact Nat.zero_le _
  | _ => exact hle

omit [DecidableEq ε] in
theorem Inv.started_le (h : Inv chance s) :
    s.started.length ≤ (s.calls.map CallRec.taken).sum := by
  rw [h.total]
  apply List.sum_le_sum
  intro c hc
  obtain ⟨i,hi⟩ := List.getElem?_of_mem hc
  exact Stage.started_le_taken (h.stages i c hi)

/-- The statistics: the calls taken, the bytes of their arguments and replies, and for each server
in its place the calls it has started, all in machine words. -/
theorem counts_exact (chance : Chance) (as : List (Action ε ν)) :
    getTotalCount (run (step chance) as start) =
        ((((run (step chance) as start).calls.map CallRec.taken).sum : ℕ) : ℤ).bmod (2^32) ∧
      getTotalBytes (run (step chance) as start) =
        ((((run (step chance) as start).calls.map CallRec.bytes).sum : ℕ) : ℤ).bmod (2^64) ∧
      (run (step chance) as start).started.length ≤
        ((run (step chance) as start).calls.map CallRec.taken).sum ∧
      ((run (step chance) as start).fatal = none → ∀ servername p,
        (run (step chance) as start).net.serverOf servername = some p →
        getCount (run (step chance) as start) servername =
          some ((((run (step chance) as start).started.filter
            (fun e => e.2 = p)).length : ℤ).bmod (2^64))) := by
  have h := run_inv chance as
  refine ⟨?_,?_,h.started_le,fun hf servername p hp => h.getCount hf hp⟩
  · rw [getTotalCount, h.count, toInt_ofNat_eq]
  · rw [getTotalBytes, h.bytes, toInt_ofNat_eq]

theorem counts_exact_oneCall :
    getTotalCount (run (step certain) oneCall start) = 1 ∧
      getTotalBytes (run (step certain) oneCall start) = 3 ∧
      getCount (run (step certain) oneCall start) 5 = some 1 := by
  obtain ⟨hcount,hbytes,-,hserver⟩ := counts_exact certain oneCall
  exact ⟨hcount.trans (by decide +kernel),hbytes.trans (by decide +kernel),
    (hserver rfl 5 0 rfl).trans (by decide +kernel)⟩

end Reachable

end Gopher.Labrpc
