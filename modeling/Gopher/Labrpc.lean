import Gopher.MapOrders
import Gopher.MapReduce
import Gopher.StepRuns

/-!
# The simulated network

Calls, the goroutine that takes them, the goroutines that process them, the
handlers and the one that drains a handler nobody waits for run side by side, and
the network may be reconfigured between any two steps. What a handler answers and
what the random choices come to is arbitrary but fixed for each call, which makes
each of them once. Delays are the time between two steps. Two lists record which
server started and which completed which call.

Names that no server knows, a reply that the client cannot decode, a second end of
one name and a second cleanup end the process.
-/

set_option autoImplicit false

namespace Gopher.Labrpc
open Gopher.MapOrders Gopher.MapReduce Gopher.StepRuns

variable {ε ν : Type} [DecidableEq ε] [DecidableEq ν]

structure ReqMsg (ε : Type) where
  endname : ε
  svcMeth : GoString
  args : GoString
  deriving DecidableEq

structure ReplyMsg where
  ok : Bool
  reply : GoString
  deriving DecidableEq

structure Server where
  services : Map GoString (List GoString)
  count : BitVec 64

/-- A server is known by its address; nil is no address. -/
structure Network (ε ν : Type) where
  reliable : Bool
  longReordering : Bool
  ends : List ε
  enabled : Map ε Bool
  servers : Map ν (Option ℕ)
  connections : Map ε (Option ν)
  done : Bool
  count : BitVec 32
  bytes : BitVec 64

structure Target (ν : Type) where
  servername : ν
  server : ℕ
  reliable : Bool
  longreordering : Bool
  deriving DecidableEq

inductive ClientPc where
  | selecting
  | waiting
  | returned (ok : Bool) (reply : GoString)
  deriving DecidableEq

inductive ProcPc (ν : Type) where
  | none
  | reading
  | dropping (t : Target ν)
  | waiting (t : Target ν)
  | checking (t : Target ν) (reply : Option ReplyMsg)
  | deciding (t : Target ν) (reply : ReplyMsg)
  | delayed (reply : ReplyMsg)
  | replying (reply : ReplyMsg)
  | finished
  deriving DecidableEq

inductive HandlerPc where
  | none
  | dispatching (server : ℕ)
  | serving (server : ℕ)
  | sending (server : ℕ) (reply : ReplyMsg)
  | finished (server : ℕ)
  deriving DecidableEq

structure CallRec (ε ν : Type) where
  req : ReqMsg ε
  client : ClientPc
  proc : ProcPc ν
  handler : HandlerPc
  draining : Bool
  deriving DecidableEq

inductive Fatal where
  | sliceBounds
  | unknownService (service method : GoString)
  | unknownMethod (method svcMeth : GoString)
  | endExists
  | closeOfClosed
  | decodeReply
  deriving DecidableEq

structure State (ε ν : Type) where
  net : Network ε ν
  listening : Bool
  objects : List Server
  calls : List (CallRec ε ν)
  fatal : Option Fatal
  started : List (ℕ × ℕ)
  executed : List (ℕ × ℕ × GoString)

/-- By call: the answers of the handlers, whether the client can decode them, and the outcomes of
the random choices. -/
structure Chance where
  answer : ℕ → GoString
  decodes : ℕ → Bool
  dropRequest : ℕ → Bool
  dropReply : ℕ → Bool
  delayReply : ℕ → Bool

namespace Network

variable (net : Network ε ν)

def isEnabled (endname : ε) : Bool := (net.enabled.lookup endname).getD false

def serverOf (servername : ν) : Option ℕ := (net.servers.lookup servername).join

def readEndnameInfo (endname : ε) : Option (Target ν) :=
  if net.isEnabled endname then do
    let servername ← (net.connections.lookup endname).join
    let server ← net.serverOf servername
    some ⟨servername,server,net.reliable,net.longReordering⟩
  else none

def isServerDead (endname : ε) (servername : ν) (server : ℕ) : Bool :=
  !net.isEnabled endname || net.serverOf servername != some server

end Network

def lastDot (s : GoString) : Option ℕ :=
  (s.reverse.idxOf? ⟨46,by decide⟩).map (fun k => s.length-1-k)

def Server.resolve (rs : Server) (svcMeth : GoString) : Except Fatal Unit :=
  match lastDot svcMeth with
  | none => .error .sliceBounds
  | some dot =>
    match rs.services.lookup (svcMeth.take dot) with
    | none => .error (.unknownService (svcMeth.take dot) (svcMeth.drop (dot+1)))
    | some methods =>
      if methods.contains (svcMeth.drop (dot+1)) then .ok ()
      else .error (.unknownMethod (svcMeth.drop (dot+1)) svcMeth)

def failure : ReplyMsg := ⟨false,[]⟩

inductive Move where
  | send
  | abort
  | read
  | drop
  | receive
  | tick
  | check
  | decide
  | fire
  | reply
  | dispatch
  | serve
  | drain
  deriving DecidableEq, Repr

inductive Action (ε ν : Type) where
  | call (i : ℕ) (m : Move)
  | listenerExit
  | newCall (req : ReqMsg ε)
  | makeEnd (endname : ε)
  | makeServer
  | addService (server : ℕ) (name : GoString) (methods : List GoString)
  | addServer (servername : ν) (server : ℕ)
  | deleteServer (servername : ν)
  | connect (endname : ε) (servername : ν)
  | enable (endname : ε) (enabled : Bool)
  | reliable (yes : Bool)
  | longReordering (yes : Bool)
  | cleanup

namespace State

variable (s : State ε ν)

def setCall (i : ℕ) (c : CallRec ε ν) : State ε ν := { s with calls := s.calls.set i c }

def addBytes (n : ℕ) : State ε ν :=
  { s with net := { s.net with bytes := s.net.bytes+BitVec.ofNat 64 n } }

def accept (args : GoString) : State ε ν :=
  { s with net := { s.net with
      count := s.net.count+1
      bytes := s.net.bytes+BitVec.ofNat 64 args.length } }

/-- `dispatch` of the server: the call is counted before its names are looked up. -/
def dispatch (i : ℕ) (c : CallRec ε ν) (server : ℕ) : Option (State ε ν) :=
  match s.objects[server]? with
  | none => none
  | some rs =>
    let s' := { s with objects := s.objects.set server { rs with count := rs.count+1 } }
    match rs.resolve c.req.svcMeth with
    | .error e => some { s' with fatal := some e }
    | .ok _ =>
      some { (s'.setCall i { c with handler := .serving server }) with
        started := s.started++[(i,server)] }

def move (chance : Chance) (i : ℕ) (c : CallRec ε ν) : Move → Option (State ε ν)
  | .send =>
    match c.client with
    | .selecting =>
      if s.listening then
        some ((s.accept c.req.args).setCall i { c with client := .waiting, proc := .reading })
      else none
    | _ => none
  | .abort =>
    match c.client with
    | .selecting => if s.net.done then some (s.setCall i { c with client := .returned false [] })
      else none
    | _ => none
  | .read =>
    match c.proc with
    | .reading =>
      match s.net.readEndnameInfo c.req.endname with
      | some t => some (s.setCall i { c with proc := .dropping t })
      | none => some (s.setCall i { c with proc := .replying failure })
    | _ => none
  | .drop =>
    match c.proc with
    | .dropping t =>
      if !t.reliable && chance.dropRequest i then
        some (s.setCall i { c with proc := .replying failure })
      else some (s.setCall i { c with proc := .waiting t, handler := .dispatching t.server })
    | _ => none
  | .receive =>
    match c.proc, c.handler with
    | .waiting t, .sending server reply =>
      some (s.setCall i { c with proc := .checking t (some reply), handler := .finished server })
    | _, _ => none
  | .tick =>
    match c.proc with
    | .waiting t =>
      if s.net.isServerDead c.req.endname t.servername t.server then
        some (s.setCall i { c with proc := .checking t none, draining := true })
      else none
    | _ => none
  | .check =>
    match c.proc with
    | .checking t (some reply) =>
      if s.net.isServerDead c.req.endname t.servername t.server then
        some (s.setCall i { c with proc := .replying failure })
      else some (s.setCall i { c with proc := .deciding t reply })
    | .checking _ none => some (s.setCall i { c with proc := .replying failure })
    | _ => none
  | .decide =>
    match c.proc with
    | .deciding t reply =>
      if !t.reliable && chance.dropReply i then
        some (s.setCall i { c with proc := .replying failure })
      else if t.longreordering && chance.delayReply i then
        some (s.setCall i { c with proc := .delayed reply })
      else some ((s.addBytes reply.reply.length).setCall i { c with proc := .replying reply })
    | _ => none
  | .fire =>
    match c.proc with
    | .delayed reply =>
      some ((s.addBytes reply.reply.length).setCall i { c with proc := .replying reply })
    | _ => none
  | .reply =>
    match c.proc, c.client with
    | .replying reply, .waiting =>
      if reply.ok && !chance.decodes i then some { s with fatal := some .decodeReply }
      else
        some (s.setCall i { c with client := .returned reply.ok reply.reply, proc := .finished })
    | _, _ => none
  | .dispatch =>
    match c.handler with
    | .dispatching server => s.dispatch i c server
    | _ => none
  | .serve =>
    match c.handler with
    | .serving server =>
      some { (s.setCall i { c with handler := .sending server ⟨true,chance.answer i⟩ }) with
        executed := s.executed++[(i,server,chance.answer i)] }
    | _ => none
  | .drain =>
    match c.draining, c.handler with
    | true, .sending server _ =>
      some (s.setCall i { c with handler := .finished server, draining := false })
    | _, _ => none

end State

def start : State ε ν where
  net :=
    { reliable := true
      longReordering := false
      ends := []
      enabled := ∅
      servers := ∅
      connections := ∅
      done := false
      count := 0
      bytes := 0 }
  listening := true
  objects := []
  calls := []
  fatal := none
  started := []
  executed := []

def configure (s : State ε ν) : Action ε ν → State ε ν
  | .call _ _ => s
  | .listenerExit => if s.net.done then { s with listening := false } else s
  | .newCall req =>
    if req.endname ∈ s.net.ends then
      { s with calls := s.calls++[⟨req,.selecting,.none,.none,false⟩] }
    else s
  | .makeEnd endname =>
    if endname ∈ s.net.ends then { s with fatal := some .endExists }
    else { s with net := { s.net with
      ends := s.net.ends++[endname]
      enabled := s.net.enabled.insert endname false
      connections := s.net.connections.insert endname none } }
  | .makeServer => { s with objects := s.objects++[⟨∅,0⟩] }
  | .addService server name methods =>
    match s.objects[server]? with
    | some rs =>
      { s with objects :=
        s.objects.set server { rs with services := rs.services.insert name methods } }
    | none => s
  | .addServer servername server =>
    if server < s.objects.length then
      { s with net := { s.net with servers := s.net.servers.insert servername (some server) } }
    else s
  | .deleteServer servername =>
    { s with net := { s.net with servers := s.net.servers.insert servername none } }
  | .connect endname servername =>
    { s with net := { s.net with
      connections := s.net.connections.insert endname (some servername) } }
  | .enable endname enabled =>
    { s with net := { s.net with enabled := s.net.enabled.insert endname enabled } }
  | .reliable yes => { s with net := { s.net with reliable := yes } }
  | .longReordering yes => { s with net := { s.net with longReordering := yes } }
  | .cleanup =>
    if s.net.done then { s with fatal := some .closeOfClosed }
    else { s with net := { s.net with done := true } }

def callStep (chance : Chance) (i : ℕ) (m : Move) (s : State ε ν) : State ε ν :=
  match s.calls[i]? with
  | some c => (s.move chance i c m).getD s
  | none => s

def step (chance : Chance) (a : Action ε ν) (s : State ε ν) : State ε ν :=
  if s.fatal.isSome then s
  else match a with
    | .call i m => callStep chance i m s
    | a => configure s a

def getCount (s : State ε ν) (servername : ν) : Option ℤ := do
  let server ← s.net.serverOf servername
  let rs ← s.objects[server]?
  some rs.count.toInt

def getTotalCount (s : State ε ν) : ℤ := s.net.count.toInt

def getTotalBytes (s : State ε ν) : ℤ := s.net.bytes.toInt

end Gopher.Labrpc
