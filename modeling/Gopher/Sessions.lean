import Mathlib
import Gopher.StepRuns
import Gopher.UserTable
import Gopher.ExpiringStore

/-!
# Logins and authorized requests

Any number of calls of `Login` and of requests under `Authorize` interleave
over one redis store, one redis command at a time, while keys expire at any
moment. What a call is given and what the database, the token library and
redis answer it are functions of the call. Nothing is assumed of the token
library: the id carried in a token is what `ParseToken` reads from it.
-/

set_option autoImplicit false

namespace Gopher.Sessions
open Gopher.StepRuns Gopher.UserTable Gopher.ExpiringStore

structure Payload where
  id : UInt64
  username : String
  deriving DecidableEq, Repr

structure LoginDto where
  username : String
  password : String
  deriving DecidableEq, Repr

structure Service where
  isEquivalent : String → String → Bool
  genToken : ℕ → UInt64 → String → Except String String
  parseToken : ℕ → String → Except String Payload
  marshal : UInt64 → String → String
  expire : ℕ

/-- One call of `Login`: its argument, the time, the user table it finds and
the errors of the database and of the two redis commands. -/
structure LoginCall where
  dto : LoginDto
  now : ℕ := 0
  users : Users
  ans : Answers := {}
  tokenFault : Option String := none
  infoFault : Option String := none

/-- One request under `Authorize`: its header, the time and the errors of the
three redis commands, the last of which nobody looks at. -/
structure Request where
  bearerToken : String
  now : ℕ := 0
  getFault : Option String := none
  ttlFault : Option String := none
  expireFault : Option String := none
  deriving DecidableEq, Repr

structure LoginResult where
  user : User
  token : String
  err : Option String
  deriving DecidableEq, Repr

inductive LoginPc where
  | called
  | generated (user : User) (token : String)
  | cached (user : User) (token : String)
  | returned (res : LoginResult)
  deriving DecidableEq, Repr

inductive RequestPc where
  | arrived
  | parsed (token : String) (id : UInt64)
  | matched (token : String) (id : UInt64)
  | alive (token : String) (id : UInt64)
  | passed (token : String) (id : UInt64)
  | rejected (msg : String)
  deriving DecidableEq, Repr

def itoa (id : UInt64) : String := toString id.toInt64.toInt

def tokenKey (id : UInt64) : String := "token" ++ itoa id

def userKey (id : UInt64) : String := "user" ++ itoa id

def userId (user : User) : UInt64 := UInt64.ofNat user.id

def beginLogin (srv : Service) (call : LoginCall) : LoginPc :=
  match selectUserByUsername call.ans call.dto.username call.users with
  | .error err => .returned { user := {}, token := "", err := some err }
  | .ok user =>
    if srv.isEquivalent user.password call.dto.password then
      match srv.genToken call.now (userId user) user.username with
      | .error err => .returned { user := user, token := "", err := some err }
      | .ok token => .generated user token
    else .returned { user := user, token := "", err := some "password error" }

def bearer : String := "Bearer "

def beginAuthorize (srv : Service) (req : Request) : RequestPc :=
  if req.bearerToken = "" then .rejected "Token is empty"
  else if bearer.toList.isPrefixOf req.bearerToken.toList then
    let token := String.ofList (req.bearerToken.toList.drop 7)
    match srv.parseToken req.now token with
    | .error err => .rejected err
    | .ok payload => .parsed token payload.id
  else .rejected "Token doesn't have prefix 'Bearer '"

def checkToken (req : Request) (token : String) (id : UInt64) (entry : Option (Entry String)) :
    RequestPc :=
  match req.getFault, entry with
  | some err, _ => .rejected err
  | none, none => .rejected "redis: nil"
  | none, some e => if token ≠ e.value then .rejected "Token doesn't match" else .matched token id

def checkTtl (req : Request) (token : String) (id : UInt64) (ttl : ℤ) : RequestPc :=
  match req.ttlFault with
  | some _ => .rejected "Token not found"
  | none => if ttl ≤ 0 then .rejected "Token is expired" else .alive token id

structure State (ι ρ : Type*) where
  redis : Store String String
  login : ι → LoginPc
  request : ρ → RequestPc
  written : List (UInt64 × String)

inductive Action (ι ρ : Type*) where
  | login (i : ι)
  | setToken (i : ι)
  | setInfo (i : ι)
  | authorize (r : ρ)
  | get (r : ρ)
  | ttl (r : ρ)
  | expire (r : ρ)
  | lapse (key : String) (left : Option ℕ)

def start (ι ρ : Type*) : State ι ρ where
  redis := fun _ => none
  login := fun _ => .called
  request := fun _ => .arrived
  written := []

def latest (written : List (UInt64 × String)) (id : UInt64) : Option String :=
  (written.find? (fun w => w.1 = id)).map Prod.snd

variable {ι ρ : Type*}

def State.setLogin [DecidableEq ι] (s : State ι ρ) (i : ι) (pc : LoginPc) : State ι ρ :=
  { s with login := Function.update s.login i pc }

def State.setRequest [DecidableEq ρ] (s : State ι ρ) (r : ρ) (pc : RequestPc) : State ι ρ :=
  { s with request := Function.update s.request r pc }

theorem setLogin_same [DecidableEq ι] (s : State ι ρ) (i : ι) (pc : LoginPc) :
    (s.setLogin i pc).login i = pc := Function.update_self ..

theorem setLogin_other [DecidableEq ι] (s : State ι ρ) (i j : ι) (pc : LoginPc) (h : j ≠ i) :
    (s.setLogin i pc).login j = s.login j := Function.update_of_ne h ..

theorem setRequest_same [DecidableEq ρ] (s : State ι ρ) (r : ρ) (pc : RequestPc) :
    (s.setRequest r pc).request r = pc := Function.update_self ..

theorem setRequest_other [DecidableEq ρ] (s : State ι ρ) (r q : ρ) (pc : RequestPc) (h : q ≠ r) :
    (s.setRequest r pc).request q = s.request q := Function.update_of_ne h ..

def State.setRedis (s : State ι ρ) (redis : Store String String) : State ι ρ :=
  { s with redis := redis }

def State.wrote (s : State ι ρ) (id : UInt64) (token : String) : State ι ρ :=
  { s with written := (id,token)::s.written }

variable [DecidableEq ι] [DecidableEq ρ]
variable (srv : Service) (calls : ι → LoginCall) (reqs : ρ → Request)

def setTokenStep (i : ι) (s : State ι ρ) : State ι ρ :=
  match s.login i with
  | .generated user token =>
    match (calls i).tokenFault with
    | some err => s.setLogin i (.returned { user := user, token := token, err := some err })
    | none =>
      let redis := s.redis.set (tokenKey (userId user)) token srv.expire
      ((s.setLogin i (.cached user token)).setRedis redis).wrote (userId user) token
  | _ => s

def setInfoStep (i : ι) (s : State ι ρ) : State ι ρ :=
  match s.login i with
  | .cached user token =>
    match (calls i).infoFault with
    | some err => s.setLogin i (.returned { user := user, token := token, err := some err })
    | none =>
      let loginInfo := srv.marshal (userId user) user.username
      let redis := s.redis.set (userKey (userId user)) loginInfo srv.expire
      (s.setLogin i (.returned { user := user, token := token, err := none })).setRedis redis
  | _ => s

def getStep (r : ρ) (s : State ι ρ) : State ι ρ :=
  match s.request r with
  | .parsed token id => s.setRequest r (checkToken (reqs r) token id (s.redis (tokenKey id)))
  | _ => s

def ttlStep (r : ρ) (s : State ι ρ) : State ι ρ :=
  match s.request r with
  | .matched token id => s.setRequest r (checkTtl (reqs r) token id (s.redis.ttl (tokenKey id)))
  | _ => s

def expireStep (r : ρ) (s : State ι ρ) : State ι ρ :=
  match s.request r with
  | .alive token id =>
    match (reqs r).expireFault with
    | some _ => s.setRequest r (.passed token id)
    | none =>
      (s.setRequest r (.passed token id)).setRedis (s.redis.expire (tokenKey id) srv.expire)
  | _ => s

def step (a : Action ι ρ) (s : State ι ρ) : State ι ρ :=
  match a with
  | .login i =>
    match s.login i with
    | .called => s.setLogin i (beginLogin srv (calls i))
    | _ => s
  | .setToken i => setTokenStep srv calls i s
  | .setInfo i => setInfoStep srv calls i s
  | .authorize r =>
    match s.request r with
    | .arrived => s.setRequest r (beginAuthorize srv (reqs r))
    | _ => s
  | .get r => getStep reqs r s
  | .ttl r => ttlStep reqs r s
  | .expire r => expireStep srv reqs r s
  | .lapse key left => s.setRedis (s.redis.lapse key left)

def RequestPc.about : RequestPc → Option (String × UInt64)
  | .parsed token id | .matched token id | .alive token id | .passed token id => some (token,id)
  | _ => none

def LoginPc.about : LoginPc → Option (User × String)
  | .generated user token | .cached user token => some (user,token)
  | _ => none

def carried (req : Request) : Option UInt64 := (beginAuthorize srv req).about.map Prod.snd

def loginUser (call : LoginCall) : Option UInt64 :=
  (beginLogin srv call).about.map (fun x => userId x.1)

theorem itoa_injective {i j : UInt64} (h : itoa i = itoa j) : i = j := by
  simp only [itoa, Int.toString_eq_repr] at h
  have hint := Int64.toInt_inj.mp (Int.repr_injective h)
  rw [← UInt64.toUInt64_toInt64 i, hint, UInt64.toUInt64_toInt64]

theorem tokenKey_injective {i j : UInt64} (h : tokenKey i = tokenKey j) : i = j :=
  itoa_injective ((String.append_right_inj _).mp h)

theorem tokenKey_ne_userKey (i j : UInt64) : tokenKey i ≠ userKey j := by
  intro h
  have := congrArg (fun s => s.toList.head?) h
  simp [tokenKey, userKey] at this

end Gopher.Sessions
