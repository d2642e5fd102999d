import Gopher.StepRuns
import Gopher.Epoll

/-!
# The epoll echo server

One thread waits for events and handles them one after the other. Clients
ask for connections, send bytes and hang up at any time. The structure
filled in for a client is not the one that is registered for it: every
registration carries the listener's descriptor and is edge-triggered.
-/

set_option autoImplicit false

namespace Gopher.EpollServer
open Gopher.StepRuns Gopher.Epoll

inductive Fd where
  | server
  | client (c : ℕ)
  deriving DecidableEq, Repr

def bufSize : ℕ := 3

def epollSize : ℕ := 50

def epollEvent (fd : Fd) : Registration Fd := { fd := fd, data := .server, edge := true }

structure Client where
  sent : List UInt8 := []
  unread : List UInt8 := []
  taken : List UInt8 := []
  echoed : List UInt8 := []
  hungUp : Bool := false
  closed : Bool := false
  deriving DecidableEq, Repr

/-- The batch is what is left of the reported events; with an empty batch the
server is in `epoll_wait`. -/
structure State where
  batch : List Fd
  exited : Bool
  epoll : Instance Fd
  requested : ℕ
  pending : List ℕ
  accepted : List ℕ
  clients : ℕ → Client

inductive Action where
  | request
  | send (c : ℕ) (bytes : List UInt8)
  | hangUp (c : ℕ)
  | wait (fails : Bool)
  | handle (fails : Bool)
  deriving DecidableEq, Repr

def start : State where
  batch := []
  exited := false
  epoll := (Instance.create Fd).add (epollEvent .server) false
  requested := 0
  pending := []
  accepted := []
  clients := fun _ => {}

def State.setClient (s : State) (c : ℕ) (x : Client) : State :=
  { s with clients := Function.update s.clients c x }

def State.readable (s : State) : Fd → Bool
  | .server => !s.pending.isEmpty
  | .client c => !(s.clients c).unread.isEmpty || (s.clients c).hungUp

def requestStep (s : State) : State :=
  { s with
    requested := s.requested+1
    pending := s.pending++[s.requested]
    epoll := s.epoll.arrive .server }

def State.CanSend (s : State) (c : ℕ) (bytes : List UInt8) : Prop :=
  c < s.requested ∧ (s.clients c).hungUp = false ∧ (s.clients c).closed = false ∧ bytes ≠ []

instance (s : State) (c : ℕ) (bytes : List UInt8) : Decidable (s.CanSend c bytes) :=
  inferInstanceAs (Decidable (_ ∧ _))

def sendStep (c : ℕ) (bytes : List UInt8) (s : State) : State :=
  if s.CanSend c bytes then
    let x := s.clients c
    { s.setClient c { x with sent := x.sent++bytes, unread := x.unread++bytes } with
      epoll := s.epoll.arrive (.client c) }
  else s

def hangUpStep (c : ℕ) (s : State) : State :=
  if c < s.requested then
    { s.setClient c { s.clients c with hungUp := true } with
      epoll := s.epoll.arrive (.client c) }
  else s

def waitStep (fails : Bool) (s : State) : State :=
  if fails then { s with exited := true }
  else
    let (events,epoll) := s.epoll.wait epollSize s.readable
    { s with batch := events.map Registration.data, epoll := epoll }

def acceptStep (fails : Bool) (rest : List Fd) (s : State) : State :=
  if fails then { s with exited := true }
  else
    match s.pending with
    | [] => s
    | c::cs =>
      { s with
        batch := rest
        pending := cs
        accepted := s.accepted++[c]
        epoll := s.epoll.add (epollEvent (.client c)) (s.readable (.client c)) }

def closeStep (c : ℕ) (rest : List Fd) (s : State) : State :=
  { s.setClient c { s.clients c with closed := true } with
    batch := rest
    epoll := s.epoll.del (.client c) }

def readStep (fails : Bool) (c : ℕ) (rest : List Fd) (s : State) : State :=
  let x := s.clients c
  if fails then closeStep c rest s
  else if x.unread ≠ [] then
    let buf := x.unread.take bufSize
    { s.setClient c { x with
        unread := x.unread.drop bufSize
        taken := x.taken++buf
        echoed := x.echoed++buf } with
      batch := rest }
  else if x.hungUp then closeStep c rest s
  else s

def handleStep (fails : Bool) (s : State) : State :=
  match s.batch with
  | [] => s
  | .server::rest => acceptStep fails rest s
  | .client c::rest => readStep fails c rest s

def step (a : Action) (s : State) : State :=
  if s.exited then s
  else
    match a with
    | .request => requestStep s
    | .send c bytes => sendStep c bytes s
    | .hangUp c => hangUpStep c s
    | .wait fails => if s.batch = [] then waitStep fails s else s
    | .handle fails => handleStep fails s

def Blocked (s : State) : Prop :=
  s.exited = false ∧ s.batch = [] ∧ (s.epoll.wait epollSize s.readable).1 = []

def Served (s : State) : Prop :=
  (∀ c < s.requested, c ∈ s.accepted) ∧
    ∀ c ∈ s.accepted, (s.clients c).hungUp = false → (s.clients c).closed = false →
      (s.clients c).taken = (s.clients c).sent ∧ (s.clients c).echoed = (s.clients c).sent

/-- A request comes only when every earlier one has been reported, and nobody
sends a byte. -/
def Guard (a : Action) (s : State) : Prop :=
  match a with
  | .request => ¬∃ r ∈ s.epoll.ready, r.fd = .server
  | .send c bytes => ¬s.CanSend c bytes
  | _ => True

def Action.isHangUp : Action → Bool
  | .hangUp _ => true
  | _ => false

def State.Stirred (s : State) (c : ℕ) : Prop :=
  (s.clients c).unread ≠ [] ∨ (s.clients c).hungUp = true

structure Wired (ep : Instance Fd) : Prop where
  registered : ∀ r ∈ ep.interest, r.data = .server ∧ r.edge = true
  listening : epollEvent .server ∈ ep.interest
  known : ∀ r ∈ ep.ready, r ∈ ep.interest

structure Inv (s : State) : Prop where
  queue : s.accepted++s.pending = List.range s.requested
  untouched : ∀ c, (s.clients c).unread = (s.clients c).sent ∧ (s.clients c).taken = [] ∧
    (s.clients c).echoed = [] ∧ (s.clients c).closed = false
  wired : Wired s.epoll
  stirred : ∀ r ∈ s.epoll.ready, r.fd = .server ∨ ∃ c, r.fd = .client c ∧ s.Stirred c
  batched : ∀ fd ∈ s.batch, fd = .server

theorem wired_arrive {ep : Instance Fd} (h : Wired ep) (fd : Fd) : Wired (ep.arrive fd) where
  registered := by
    rw [Instance.arrive_interest]
    exact h.registered
  listening := by
    rw [Instance.arrive_interest]
    exact h.listening
  known := by
    rw [Instance.arrive_interest]
    rcases ep.arrive_ready fd with he | ⟨q,hq,-,he⟩ <;> rw [he]
    · exact h.known
    · intro r hr
      rcases List.mem_append.mp hr with hr | hr
      · exact h.known r hr
      · rwa [List.mem_singleton.mp hr]

theorem wired_wait {ep : Instance Fd} (h : Wired ep) (n : ℕ) (readable : Fd → Bool) :
    Wired (ep.wait n readable).2 ∧ ∀ r ∈ (ep.wait n readable).2.ready, r ∈ ep.ready := by
  obtain ⟨hseen,hleft⟩ := Instance.collect_mem readable n ep.ready
  have hmem : ∀ r ∈ (ep.wait n readable).2.ready, r ∈ ep.ready := by
    intro r hr
    rcases List.mem_append.mp hr with hr | hr
    · exact hleft r hr
    · exact hseen r (List.mem_of_mem_filter hr)
  exact ⟨⟨h.registered,h.listening,fun r hr => h.known r (hmem r hr)⟩,hmem⟩

theorem wired_add {ep : Instance Fd} (h : Wired ep) (fd : Fd) (readable : Bool) :
    Wired (ep.add (epollEvent fd) readable) where
  registered := by
    intro r hr
    rcases List.mem_append.mp hr with hr | hr
    · exact h.registered r hr
    · rw [List.mem_singleton.mp hr]
      exact ⟨rfl,rfl⟩
  listening := List.mem_append_left _ h.listening
  known := by
    intro r hr
    simp only [Instance.add] at hr ⊢
    split_ifs at hr
    · rcases List.mem_append.mp hr with hr | hr
      · exact List.mem_append_left _ (h.known r hr)
      · exact List.mem_append_right _ hr
    · exact List.mem_append_left _ (h.known r hr)

theorem inv_start : Inv start where
  queue := rfl
  untouched _ := ⟨rfl,rfl,rfl,rfl⟩
  wired := ⟨fun r hr => by rw [List.mem_singleton.mp hr]; exact ⟨rfl,rfl⟩,
    List.mem_singleton.mpr rfl,nofun⟩
  stirred := nofun
  batched := nofun

theorem inv_request {s : State} (h : Inv s) : Inv (requestStep s) where
  queue := by
    change s.accepted++(s.pending++[s.requested]) = List.range (s.requested+1)
    rw [← List.append_assoc, h.queue, List.range_succ]
  untouched := h.untouched
  wired := wired_arrive h.wired _
  stirred := by
    change ∀ r ∈ (s.epoll.arrive .server).ready, _
    rcases s.epoll.arrive_ready .server with he | ⟨q,-,hfd,he⟩ <;> rw [he]
    · exact h.stirred
    · intro r hr
      rcases List.mem_append.mp hr with hr | hr
      · exact h.stirred r hr
      · rw [List.mem_singleton.mp hr]
        exact .inl hfd
  batched := h.batched

theorem inv_stir {s : State} (h : Inv s) (c : ℕ) (x : Client) (hu : x.unread = x.sent)
    (hold : x.taken = [] ∧ x.echoed = [] ∧ x.closed = false)
    (hx : x.unread ≠ [] ∨ x.hungUp = true) :
    Inv { s.setClient c x with epoll := s.epoll.arrive (.client c) } where
  queue := h.queue
  untouched := by
    apply (Function.forall_update_iff s.clients (fun _ y => y.unread = y.sent ∧ y.taken = [] ∧
      y.echoed = [] ∧ y.closed = false)).mpr
    exact ⟨⟨hu,hold⟩,fun j _ => h.untouched j⟩
  wired := wired_arrive h.wired _
  stirred := by
    have hall : ∀ j, s.Stirred j ∨ j = c →
        (Function.update s.clients c x j).unread ≠ [] ∨
          (Function.update s.clients c x j).hungUp = true := by
      apply (Function.forall_update_iff s.clients (fun j y => s.Stirred j ∨ j = c →
        y.unread ≠ [] ∨ y.hungUp = true)).mpr
      exact ⟨fun _ => hx,fun j hj hs => hs.resolve_right hj⟩
    have hold : ∀ r ∈ s.epoll.ready, r.fd = .server ∨ ∃ j, r.fd = .client j ∧
        (State.Stirred { s.setClient c x with epoll := s.epoll.arrive (.client c) } j) := by
      intro r hr
      rcases h.stirred r hr with hr | ⟨j,hj,hs⟩
      · exact .inl hr
      · exact .inr ⟨j,hj,hall j (.inl hs)⟩
    change ∀ r ∈ (s.epoll.arrive (.client c)).ready, _
    rcases s.epoll.arrive_ready (.client c) with he | ⟨q,-,hfd,he⟩ <;> rw [he]
    · exact hold
    · intro r hr
      rcases List.mem_append.mp hr with hr | hr
      · exact hold r hr
      · rw [List.mem_singleton.mp hr]
        exact .inr ⟨c,hfd,hall c (.inr rfl)⟩
  batched := h.batched

theorem inv_wait {s : State} (h : Inv s) (fails : Bool) : Inv (waitStep fails s) := by
  cases fails with
  | true => exact ⟨h.queue,h.untouched,h.wired,h.stirred,h.batched⟩
  | false =>
    obtain ⟨hwired,hmem⟩ := wired_wait h.wired epollSize s.readable
    refine ⟨h.queue,h.untouched,hwired,fun r hr => h.stirred r (hmem r hr),?_⟩
    intro fd hfd
    obtain ⟨r,hr,rfl⟩ := List.mem_map.mp hfd
    have hready := (Instance.collect_mem s.readable epollSize s.epoll.ready).1 r hr
    exact (h.wired.registered r (h.wired.known r hready)).1

theorem inv_accept {s : State} (h : Inv s) (fails : Bool) (rest : List Fd)
    (hb : s.batch = .server::rest) : Inv (acceptStep fails rest s) := by
  cases fails with
  | true => exact ⟨h.queue,h.untouched,h.wired,h.stirred,h.batched⟩
  | false =>
    cases hp : s.pending with
    | nil =>
      have hidle : acceptStep false rest s = s := by simp [acceptStep, hp]
      rwa [hidle]
    | cons c cs =>
      have hstep : acceptStep false rest s = { s with
          batch := rest
          pending := cs
          accepted := s.accepted++[c]
          epoll := s.epoll.add (epollEvent (.client c)) (s.readable (.client c)) } := by
        simp [acceptStep, hp]
      rw [hstep]
      refine ⟨?_,h.untouched,wired_add h.wired _ _,?_,?_⟩
      · rw [← h.queue, hp]
        simp
      · intro r hr
        simp only [Instance.add] at hr
        split_ifs at hr with hread
        · rcases List.mem_append.mp hr with hr | hr
          · exact h.stirred r hr
          · rw [List.mem_singleton.mp hr]
            refine .inr ⟨c,rfl,?_⟩
            simpa [State.readable, State.Stirred] using hread
        · exact h.stirred r hr
      · intro fd hfd
        exact h.batched fd (by rw [hb]; exact List.mem_cons_of_mem _ hfd)

/-- Only the first branch of the loop body is ever taken. -/
theorem handle_eq {s : State} (h : Inv s) (fails : Bool) :
    s.batch = [] ∧ handleStep fails s = s ∨
      ∃ rest, s.batch = .server::rest ∧ handleStep fails s = acceptStep fails rest s := by
  unfold handleStep
  split
  · next hb => exact .inl ⟨hb,rfl⟩
  · next rest hb => exact .inr ⟨rest,hb,rfl⟩
  · next c rest hb =>
    have := h.batched (.client c) (by rw [hb]; exact List.mem_cons_self)
    cases this

theorem inv_step (a : Action) (s : State) (h : Inv s) : Inv (step a s) := by
  unfold step
  by_cases hx : s.exited = true
  · rwa [if_pos hx]
  rw [if_neg hx]
  cases a with
  | request => exact inv_request h
  | send c bytes =>
    dsimp only [sendStep]
    split_ifs with hc
    · obtain ⟨hu,hold⟩ := h.untouched c
      refine inv_stir h c _ (by simp [hu]) hold (.inl ?_)
      simp [hc.2.2.2]
    · exact h
  | hangUp c =>
    dsimp only [hangUpStep]
    split_ifs
    · obtain ⟨hu,hold⟩ := h.untouched c
      exact inv_stir h c _ hu hold (.inr rfl)
    · exact h
  | wait fails =>
    dsimp only
    split_ifs
    · exact inv_wait h fails
    · exact h
  | handle fails =>
    dsimp only
    rcases handle_eq h fails with ⟨-,he⟩ | ⟨rest,hb,he⟩ <;> rw [he]
    · exact h
    · exact inv_accept h fails rest hb

def State.tokens (s : State) : ℕ := s.epoll.ready.length+s.batch.length

/-- Whatever is ready is readable, except that the listener may be drained. -/
theorem ready_readable {s : State} (h : Inv s) (hp : s.pending ≠ []) :
    ∀ r ∈ s.epoll.ready, s.readable r.fd = true := by
  intro r hr
  rcases h.stirred r hr with hfd | ⟨c,hfd,hs⟩ <;> rw [hfd]
  · simpa [State.readable] using hp
  · simpa [State.readable, State.Stirred] using hs

theorem arrive_tokens (ep : Instance Fd) (fd : Fd) :
    ep.ready.length ≤ (ep.arrive fd).ready.length := by
  rcases ep.arrive_ready fd with he | ⟨r,-,-,he⟩ <;> rw [he]
  simp

theorem wait_tokens {s : State} (h : Inv s) (hb : s.batch = []) :
    (waitStep false s).tokens ≤ s.tokens ∧
      (s.pending ≠ [] → (waitStep false s).tokens = s.tokens) := by
  have hedge : ((Instance.collect s.readable epollSize s.epoll.ready).1.filter
      (fun r => !r.edge)) = [] := by
    rw [List.filter_eq_nil_iff]
    intro r hr
    have hready := (Instance.collect_mem s.readable epollSize s.epoll.ready).1 r hr
    simp [(h.wired.registered r (h.wired.known r hready)).2]
  have htok : (waitStep false s).tokens =
      (Instance.collect s.readable epollSize s.epoll.ready).2.length+
        (Instance.collect s.readable epollSize s.epoll.ready).1.length := by
    simp [waitStep, State.tokens, Instance.wait, hedge]
  have hold : s.tokens = s.epoll.ready.length := by simp [State.tokens, hb]
  rw [htok, hold]
  constructor
  · have := Instance.collect_length s.readable epollSize s.epoll.ready
    omega
  · intro hp
    have hall := congrArg List.length
      (Instance.collect_all s.readable epollSize s.epoll.ready (ready_readable h hp))
    rw [List.length_append] at hall
    omega

theorem accept_tokens {s : State} {rest : List Fd} {c : ℕ} {cs : List ℕ}
    (hb : s.batch = .server::rest) (hp : s.pending = c::cs) :
    s.tokens ≤ (acceptStep false rest s).tokens+1 ∧
      (¬s.Stirred c → (acceptStep false rest s).tokens+1 = s.tokens) := by
  by_cases hread : s.readable (.client c) = true
  · have hs : s.Stirred c := by simpa [State.readable, State.Stirred] using hread
    refine ⟨?_,fun hn => absurd hs hn⟩
    simp [acceptStep, hp, State.tokens, Instance.add, hread, hb]
    omega
  · simp [acceptStep, hp, State.tokens, Instance.add, hread, hb]
    omega

def Covered (s : State) : Prop := s.pending.length ≤ s.tokens

theorem covered_handle {s : State} (hi : Inv s) (h : Covered s) (fails : Bool) :
    Covered (handleStep fails s) := by
  rcases handle_eq hi fails with ⟨-,he⟩ | ⟨rest,hb,he⟩ <;> rw [he]
  · exact h
  · cases fails with
    | true => exact h
    | false =>
      cases hp : s.pending with
      | nil =>
        have hidle : acceptStep false rest s = s := by simp [acceptStep, hp]
        rwa [hidle]
      | cons c cs =>
        have htok := (accept_tokens hb hp).1
        have hlen : (acceptStep false rest s).pending = cs := by simp [acceptStep, hp]
        unfold Covered at h ⊢
        rw [hlen]
        rw [hp, List.length_cons] at h
        omega

theorem covered_step (a : Action) (s : State) (h : Inv s ∧ Covered s) (hg : Guard a s) :
    Inv (step a s) ∧ Covered (step a s) := by
  obtain ⟨hi,hc⟩ := h
  refine ⟨inv_step a s hi,?_⟩
  unfold step
  by_cases hx : s.exited = true
  · rwa [if_pos hx]
  rw [if_neg hx]
  cases a with
  | request =>
    have hlisten : ∃ r ∈ s.epoll.interest, r.fd = .server := ⟨_,hi.wired.listening,rfl⟩
    have hnew := s.epoll.arrive_new hlisten hg
    change (s.pending++[s.requested]).length ≤
      (s.epoll.arrive .server).ready.length+s.batch.length
    change s.pending.length ≤ s.epoll.ready.length+s.batch.length at hc
    rw [List.length_append, List.length_singleton, hnew]
    omega
  | send c bytes => simpa [sendStep, show ¬s.CanSend c bytes from hg] using hc
  | hangUp c =>
    dsimp only [hangUpStep]
    split_ifs
    · exact hc.trans (Nat.add_le_add_right (arrive_tokens _ _) _)
    · exact hc
  | wait fails =>
    dsimp only
    split_ifs with hb
    · cases fails with
      | true => exact hc
      | false =>
        by_cases hp : s.pending = []
        · change s.pending.length ≤ _
          rw [hp]
          exact Nat.zero_le _
        · change s.pending.length ≤ _
          rwa [(wait_tokens hi hb).2 hp]
    · exact hc
  | handle fails => exact covered_handle hi hc fails

/-- A blocked server has no call of `accept` to come unless nobody waits. -/
theorem blocked_drained {s : State} (hi : Inv s) (hc : Covered s) (hb : Blocked s) :
    s.pending = [] := by
  by_contra hp
  have hpos : 0 < s.pending.length := List.length_pos_iff.mpr hp
  have hready : 0 < s.epoll.ready.length := by
    have := hpos.trans_le hc
    simpa [State.tokens, hb.2.1] using this
  obtain ⟨r,rs,hr⟩ := List.exists_cons_of_length_pos hready
  have hread := ready_readable hi hp r (by rw [hr]; exact List.mem_cons_self)
  have hnone := hb.2.2
  simp only [Instance.wait, hr] at hnone
  exact Instance.collect_some s.readable (show 0 < epollSize by decide) r rs hread hnone

theorem step_clients (a : Action) {s : State} (h : Inv s) :
    (step a s).clients = s.clients ∨
      (∃ c bytes, a = .send c bytes ∧ s.CanSend c bytes ∧
        (step a s).clients = Function.update s.clients c { s.clients c with
          sent := (s.clients c).sent++bytes
          unread := (s.clients c).unread++bytes }) ∨
      ∃ c, a = .hangUp c ∧
        (step a s).clients = Function.update s.clients c { s.clients c with hungUp := true } := by
  by_cases hx : s.exited = true
  · left
    simp [step, hx]
  have hrun : s.exited = false := by simpa using hx
  cases a with
  | request =>
    left
    simp [step, hrun, requestStep]
  | send c bytes =>
    by_cases hc : s.CanSend c bytes
    · right; left
      exact ⟨c,bytes,rfl,hc,by simp [step, hrun, sendStep, hc, State.setClient]⟩
    · left
      simp [step, hrun, sendStep, hc]
  | hangUp c =>
    by_cases hc : c < s.requested
    · right; right
      exact ⟨c,rfl,by simp [step, hrun, hangUpStep, hc, State.setClient]⟩
    · left
      simp [step, hrun, hangUpStep, hc]
  | wait fails =>
    left
    by_cases hb : s.batch = [] <;> cases fails <;> simp [step, hrun, waitStep, hb]
  | handle fails =>
    left
    simp only [step, hrun, Bool.false_eq_true, if_false]
    rcases handle_eq h fails with ⟨-,he⟩ | ⟨rest,-,he⟩ <;> rw [he]
    cases fails with
    | true => rfl
    | false => cases hp : s.pending <;> simp [acceptStep, hp]

theorem step_requested (a : Action) {s : State} (h : Inv s) :
    s.requested ≤ (step a s).requested := by
  unfold step
  by_cases hx : s.exited = true
  · rw [if_pos hx]
  rw [if_neg hx]
  cases a with
  | request => exact Nat.le_succ _
  | send c bytes =>
    dsimp only [sendStep]
    split_ifs <;> exact le_refl _
  | hangUp c =>
    dsimp only [hangUpStep]
    split_ifs <;> exact le_refl _
  | wait fails =>
    dsimp only [waitStep]
    split_ifs <;> exact le_refl _
  | handle fails =>
    dsimp only
    rcases handle_eq h fails with ⟨-,he⟩ | ⟨rest,-,he⟩ <;> rw [he]
    cases fails with
    | true => exact le_refl _
    | false => cases hp : s.pending <;> simp [acceptStep, hp]

def Mute (s : State) : Prop := ∀ c, (s.clients c).sent = []

theorem mute_step (a : Action) {s : State} (hi : Inv s) (h : Mute s)
    (hg : ∀ c bytes, a = .send c bytes → ¬s.CanSend c bytes) : Mute (step a s) := by
  unfold Mute
  rcases step_clients a hi with he | ⟨c,bytes,ha,hc,-⟩ | ⟨c,-,he⟩
  · rwa [he]
  · exact absurd hc (hg c bytes ha)
  · rw [he]
    apply (Function.forall_update_iff s.clients (fun _ x => x.sent = [])).mpr
    exact ⟨h c,fun j _ => h j⟩

def Present (s : State) : Prop := ∀ c, (s.clients c).hungUp = false

theorem present_step (a : Action) {s : State} (hi : Inv s) (h : Present s)
    (ha : a.isHangUp = false) : Present (step a s) := by
  unfold Present
  rcases step_clients a hi with he | ⟨c,bytes,-,-,he⟩ | ⟨c,hc,-⟩
  · rwa [he]
  · rw [he]
    apply (Function.forall_update_iff s.clients (fun _ x => x.hungUp = false)).mpr
    exact ⟨h c,fun j _ => h j⟩
  · rw [hc] at ha
    cases ha

def Spoke (s : State) : Prop := ∃ c < s.requested, (s.clients c).sent ≠ []

theorem spoke_step (a : Action) {s : State} (hi : Inv s) (h : Spoke s) : Spoke (step a s) := by
  obtain ⟨c,hc,hsent⟩ := h
  refine ⟨c,hc.trans_le (step_requested a hi),?_⟩
  rcases step_clients a hi with he | ⟨d,bytes,-,-,he⟩ | ⟨d,-,he⟩ <;> rw [he]
  · exact hsent
  · by_cases hd : c = d
    · subst hd
      simp [hsent]
    · rwa [Function.update_of_ne hd]
  · by_cases hd : c = d
    · subst hd
      simpa using hsent
    · rwa [Function.update_of_ne hd]

theorem send_spoke {s : State} {c : ℕ} {bytes : List UInt8} (hx : s.exited = false)
    (hc : s.CanSend c bytes) : Spoke (step (.send c bytes) s) := by
  refine ⟨c,?_,?_⟩
  · simpa [step, hx, sendStep, hc, State.setClient] using hc.1
  · simp [step, hx, sendStep, hc, State.setClient, hc.2.2.2]

def Behind (k : ℕ) (s : State) : Prop := s.tokens+k ≤ s.pending.length

theorem behind_handle {k : ℕ} {s : State} (hi : Inv s) (hs : ∀ c, ¬s.Stirred c)
    (h : Behind k s) (fails : Bool) : Behind k (handleStep fails s) := by
  rcases handle_eq hi fails with ⟨-,he⟩ | ⟨rest,hb,he⟩ <;> rw [he]
  · exact h
  · cases fails with
    | true => exact h
    | false =>
      cases hp : s.pending with
      | nil =>
        have hidle : acceptStep false rest s = s := by simp [acceptStep, hp]
        rwa [hidle]
      | cons c cs =>
        have htok := (accept_tokens hb hp).2 (hs c)
        have hlen : (acceptStep false rest s).pending = cs := by simp [acceptStep, hp]
        unfold Behind at h ⊢
        rw [hlen]
        rw [hp, List.length_cons] at h
        omega

theorem request_tokens (s : State) : (requestStep s).tokens ≤ s.tokens+1 ∧
    ((∃ r ∈ s.epoll.ready, r.fd = .server) → (requestStep s).tokens = s.tokens) := by
  constructor
  · change (s.epoll.arrive .server).ready.length+s.batch.length ≤ _
    rcases s.epoll.arrive_ready .server with he | ⟨r,-,-,he⟩ <;> rw [he]
    · exact Nat.le_succ _
    · simp [State.tokens]
      omega
  · intro h
    change (s.epoll.arrive .server).ready.length+s.batch.length = _
    rw [s.epoll.arrive_again _ h]
    rfl

theorem request_length (s : State) :
    (requestStep s).pending.length = s.pending.length+1 := by
  simp [requestStep]

theorem behind_step (a : Action) {k : ℕ} {s : State} (hi : Inv s) (hm : Mute s)
    (hp : Present s) (h : Behind k s) (ha : a.isHangUp = false)
    (hg : ∀ c bytes, a = .send c bytes → ¬s.CanSend c bytes) : Behind k (step a s) := by
  have hs : ∀ c, ¬s.Stirred c := by
    rintro c (hu | hh)
    · exact hu ((hi.untouched c).1.trans (hm c))
    · rw [hp c] at hh
      cases hh
  unfold step
  by_cases hx : s.exited = true
  · rwa [if_pos hx]
  rw [if_neg hx]
  cases a with
  | request =>
    have htok := (request_tokens s).1
    have hlen := request_length s
    change (requestStep s).tokens+k ≤ (requestStep s).pending.length
    unfold Behind at h
    omega
  | send c bytes => simpa [sendStep, hg c bytes rfl] using h
  | hangUp c => cases ha
  | wait fails =>
    dsimp only
    split_ifs with hb
    · cases fails with
      | true => exact h
      | false => exact (Nat.add_le_add_right (wait_tokens hi hb).1 k).trans h
    · exact h
  | handle fails => exact behind_handle hi hs h fails

/-- Input that no wait to come will bring to the server. -/
def Lost (s : State) : Prop := s.exited = true ∨ Spoke s ∨ Mute s ∧ Behind 1 s

theorem lost_step (a : Action) {s : State} (hi : Inv s) (hp : Present s) (h : Lost s)
    (ha : a.isHangUp = false) : Lost (step a s) := by
  by_cases hx : s.exited = true
  · exact .inl (by simp [step, hx])
  rcases h.resolve_left hx with hspoke | ⟨hm,hb⟩
  · exact .inr (.inl (spoke_step a hi hspoke))
  · by_cases hg : ∀ c bytes, a = .send c bytes → ¬s.CanSend c bytes
    · exact .inr (.inr ⟨mute_step a hi hm hg,behind_step a hi hm hp hb ha hg⟩)
    · push Not at hg
      obtain ⟨c,bytes,rfl,hc⟩ := hg
      exact .inr (.inl (send_spoke (by simpa using hx) hc))

/-- A step against the guard loses something for good. -/
theorem unguarded_lost (a : Action) {s : State} (hm : Mute s) (hb : Behind 0 s)
    (hg : ¬Guard a s) : Lost (step a s) := by
  by_cases hx : s.exited = true
  · exact .inl (by simp [step, hx])
  have hrun : s.exited = false := by simpa using hx
  cases a with
  | request =>
    have htok := (request_tokens s).2 (not_not.mp hg)
    have hlen := request_length s
    have hstep : step .request s = requestStep s := by simp [step, hrun]
    rw [hstep]
    refine .inr (.inr ⟨hm,?_⟩)
    unfold Behind at hb ⊢
    omega
  | send c bytes => exact .inr (.inl (send_spoke hrun (not_not.mp hg)))
  | hangUp c => exact absurd trivial hg
  | wait fails => exact absurd trivial hg
  | handle fails => exact absurd trivial hg

/-- Without hang-ups a schedule either meets the guard or loses something. -/
theorem along_or_lost (as : List Action) (s : State) (hi : Inv s) (hp : Present s)
    (has : ∀ a ∈ as, a.isHangUp = false) (h : Lost s ∨ Mute s ∧ Behind 0 s) :
    Lost (run step as s) ∨ ¬Lost s ∧ Along step Guard as s := by
  induction as generalizing s with
  | nil =>
    by_cases hl : Lost s
    · exact .inl hl
    · exact .inr ⟨hl,trivial⟩
  | cons a as ih =>
    have ha := has a List.mem_cons_self
    have hrest : ∀ b ∈ as, b.isHangUp = false := fun b hb => has b (List.mem_cons_of_mem _ hb)
    have hi' := inv_step a s hi
    have hp' := present_step a hi hp ha
    by_cases hl : Lost s
    · have hl' := lost_step a hi hp hl ha
      rcases ih _ hi' hp' hrest (.inl hl') with hlast | ⟨hn,-⟩
      · exact .inl hlast
      · exact absurd hl' hn
    obtain ⟨hm,hb⟩ := h.resolve_left hl
    by_cases hg : Guard a s
    · have hsend : ∀ c bytes, a = .send c bytes → ¬s.CanSend c bytes := by
        rintro c bytes rfl
        exact hg
      rcases ih _ hi' hp' hrest (.inr ⟨mute_step a hi hm hsend,
        behind_step a hi hm hp hb ha hsend⟩) with hlast | ⟨-,hal⟩
      · exact .inl hlast
      · exact .inr ⟨hl,hg,hal⟩
    · have hl' := unguarded_lost a hm hb hg
      rcases ih _ hi' hp' hrest (.inl hl') with hlast | ⟨hn,-⟩
      · exact .inl hlast
      · exact absurd hl' hn

theorem served_of_drained {s : State} (hi : Inv s) (hm : Mute s) (hp : s.pending = []) :
    Served s := by
  constructor
  · intro c hc
    have hq := hi.queue
    rw [hp, List.append_nil] at hq
    rw [hq]
    exact List.mem_range.mpr hc
  · intro c _ _ _
    obtain ⟨-,ht,he,-⟩ := hi.untouched c
    exact ⟨ht.trans (hm c).symm,he.trans (hm c).symm⟩

theorem served_not_lost {s : State} (hi : Inv s) (hp : Present s) (hb : Blocked s)
    (hs : Served s) : ¬Lost s := by
  rintro (hx | ⟨c,hc,hsent⟩ | ⟨-,hbehind⟩)
  · rw [hb.1] at hx
    cases hx
  · obtain ⟨-,ht,-,hclosed⟩ := hi.untouched c
    have := (hs.2 c (hs.1 c hc) (hp c) hclosed).1
    exact hsent (this.symm.trans ht)
  · have hpos : 0 < s.pending.length := by
      unfold Behind at hbehind
      omega
    obtain ⟨c,cs,hpend⟩ := List.exists_cons_of_length_pos hpos
    have hq := hi.queue
    have hnd : (s.accepted++s.pending).Nodup := hq ▸ List.nodup_range
    have hc : c < s.requested := by
      rw [← List.mem_range, ← hq, hpend]
      simp
    exact (List.nodup_append'.mp hnd).2.2 (hs.1 c hc) (by rw [hpend]; exact List.mem_cons_self)

/-- A schedule that meets the guard serves all its input whenever the server
blocks. Without hang-ups the guard is exact: a schedule that ends with a
blocked server that served everything has met it. -/
theorem input_served_exact (as : List Action) :
    (Along step Guard as start → Blocked (run step as start) → Served (run step as start)) ∧
      ((∀ a ∈ as, a.isHangUp = false) → Blocked (run step as start) →
        Served (run step as start) → Along step Guard as start) := by
  constructor
  · intro hg hb
    have hkept := run_keeps_along step Guard (fun s => (Inv s ∧ Covered s) ∧ Mute s)
      (fun a s h hg => ⟨covered_step a s h.1 hg,
        mute_step a h.1.1 h.2 (by rintro c bytes rfl; exact hg)⟩)
      as start ⟨⟨inv_start,Nat.zero_le _⟩,fun _ => rfl⟩ hg
    exact served_of_drained hkept.1.1 hkept.2 (blocked_drained hkept.1.1 hkept.1.2 hb)
  · intro has hb hs
    have hinv := run_keeps step Inv inv_step as start inv_start
    have hpres := run_keeps_along step (fun a _ => a.isHangUp = false)
      (fun s => Inv s ∧ Present s)
      (fun a s h ha => ⟨inv_step a s h.1,present_step a h.1 h.2 ha⟩)
      as start ⟨inv_start,fun _ => rfl⟩ (along_of_forall _ _ _ _ (fun a ha _ => has a ha))
    rcases along_or_lost as start inv_start (fun _ => rfl) has
      (.inr ⟨fun _ => rfl,le_refl _⟩) with hl | ⟨-,hal⟩
    · exact absurd hl (served_not_lost hinv hpres.2 hb hs)
    · exact hal

/-- Two requests come before the first wait: one is accepted, the other is
not. -/
theorem second_request_waits :
    ¬∀ as : List Action, Blocked (run step as start) → Served (run step as start) := by
  intro h
  have hs := h [.request,.request,.wait false,.handle false] ⟨rfl,rfl,rfl⟩
  have := hs.1 1 (by decide)
  revert this
  decide

end Gopher.EpollServer
