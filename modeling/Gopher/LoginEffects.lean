import Gopher.Sessions

/-!
# What a failed login leaves behind

One login, and one request, alone over a store: the commands of the call one
after the other, with nothing in between.
-/

set_option autoImplicit false

namespace Gopher.LoginEffects
open Gopher.StepRuns Gopher.ExpiringStore Gopher.Sessions
open Gopher.UserTable (User createRow selectUserByUsername)

def login (srv : Service) (call : LoginCall) (redis : Store String String) :
    LoginPc × Store String String :=
  let s := run (step srv (fun _ => call) Empty.elim) [.login (),.setToken (),.setInfo ()]
    ((start Unit Empty).setRedis redis)
  (s.login (),s.redis)

def authorize (srv : Service) (req : Request) (redis : Store String String) : RequestPc :=
  (run (step srv Empty.elim (fun _ => req)) [.authorize (),.get (),.ttl (),.expire ()]
    ((start Empty Unit).setRedis redis)).request ()

def Accepted (srv : Service) (req : Request) (redis : Store String String) : Prop :=
  ∃ token id, authorize srv req redis = .passed token id

def Failed (pc : LoginPc) : Prop := ∃ res, pc = .returned res ∧ res.err ≠ none

def AllOrNothing (srv : Service) (call : LoginCall) (redis : Store String String) : Prop :=
  Failed (login srv call redis).1 → (login srv call redis).2 = redis ∧
    ∀ req, Accepted srv req redis → Accepted srv req (login srv call redis).2

theorem beginLogin_cases (srv : Service) (call : LoginCall) :
    (∃ res, beginLogin srv call = .returned res ∧ res.err ≠ none) ∨
      ∃ user token, selectUserByUsername call.ans call.dto.username call.users = .ok user ∧
        srv.isEquivalent user.password call.dto.password ∧
        srv.genToken call.now (userId user) user.username = .ok token ∧
        beginLogin srv call = .generated user token := by
  unfold beginLogin
  cases selectUserByUsername call.ans call.dto.username call.users with
  | error err => exact Or.inl ⟨_,rfl,nofun⟩
  | ok user =>
    dsimp only
    split_ifs with hpwd
    · cases htoken : srv.genToken call.now (userId user) user.username with
      | error err => exact Or.inl ⟨_,rfl,nofun⟩
      | ok token => exact Or.inr ⟨user,token,rfl,hpwd,htoken,rfl⟩
    · exact Or.inl ⟨_,rfl,nofun⟩

theorem login_of_returned {srv : Service} {call : LoginCall} {res : LoginResult}
    (h : beginLogin srv call = .returned res) (redis : Store String String) :
    login srv call redis = (.returned res,redis) := by
  simp [login, run_cons, run_nil, step, start, State.setLogin, State.setRedis, setTokenStep,
    setInfoStep, h]

/-- The two writes and what each failure leaves of them. -/
theorem login_of_generated {srv : Service} {call : LoginCall} {user : User} {token : String}
    (h : beginLogin srv call = .generated user token) (redis : Store String String) :
    login srv call redis =
      match call.tokenFault,call.infoFault with
      | some err,_ => (.returned { user := user, token := token, err := some err },redis)
      | none,some err =>
        (.returned { user := user, token := token, err := some err },
          redis.set (tokenKey (userId user)) token srv.expire)
      | none,none =>
        (.returned { user := user, token := token, err := none },
          (redis.set (tokenKey (userId user)) token srv.expire).set (userKey (userId user))
            (srv.marshal (userId user) user.username) srv.expire) := by
  cases htoken : call.tokenFault <;> cases hinfo : call.infoFault <;>
    simp [login, run_cons, run_nil, step, start, State.setLogin, State.setRedis, State.wrote,
      setTokenStep, setInfoStep, h, htoken, hinfo]

theorem login_returns (srv : Service) (call : LoginCall) (redis : Store String String) :
    ∃ res, (login srv call redis).1 = .returned res := by
  rcases beginLogin_cases srv call with ⟨res,hbegin,-⟩ | ⟨user,token,-,-,-,hbegin⟩
  · rw [login_of_returned hbegin]
    exact ⟨res,rfl⟩
  · rw [login_of_generated hbegin]
    cases call.tokenFault <;> cases call.infoFault <;> exact ⟨_,rfl⟩

/-- A call that gets as far as the second write and fails there is harmless
only when the first wrote what was there. -/
def Harmless (srv : Service) (call : LoginCall) (redis : Store String String) : Prop :=
  ∀ user token, selectUserByUsername call.ans call.dto.username call.users = .ok user →
    srv.isEquivalent user.password call.dto.password →
    srv.genToken call.now (userId user) user.username = .ok token →
    call.tokenFault = none → call.infoFault ≠ none →
    redis (tokenKey (userId user)) = some { value := token, left := Store.within srv.expire }

theorem redis_kept {srv : Service} {call : LoginCall} {redis : Store String String}
    (h : Harmless srv call redis) (hfail : Failed (login srv call redis).1) :
    (login srv call redis).2 = redis := by
  rcases beginLogin_cases srv call with ⟨res,hbegin,-⟩ | ⟨user,token,huser,hpwd,hgen,hbegin⟩
  · rw [login_of_returned hbegin]
  · rw [login_of_generated hbegin] at hfail ⊢
    cases htoken : call.tokenFault with
    | some err => rfl
    | none =>
      cases hinfo : call.infoFault with
      | some err => exact Store.set_eq_self (h user token huser hpwd hgen htoken (by simp [hinfo]))
      | none =>
        rw [htoken, hinfo] at hfail
        obtain ⟨res,hres,herr⟩ := hfail
        cases hres
        exact absurd rfl herr

/-- A failed login leaves everything as it was exactly when it is harmless. -/
theorem login_all_or_nothing_exact (srv : Service) (call : LoginCall)
    (redis : Store String String) :
    (∃ res, (login srv call redis).1 = .returned res) ∧
      (AllOrNothing srv call redis ↔ Harmless srv call redis) := by
  refine ⟨login_returns srv call redis,?_,?_⟩
  · intro h user token huser hpwd hgen htoken hinfo
    obtain ⟨err,herr⟩ := Option.ne_none_iff_exists'.mp hinfo
    have hbegin : beginLogin srv call = .generated user token := by
      simp [beginLogin, huser, hpwd, hgen]
    have hlogin := login_of_generated hbegin redis
    rw [htoken, herr] at hlogin
    have hkept := (h (by rw [hlogin]; exact ⟨_,rfl,nofun⟩)).1
    rw [← hkept, hlogin]
    exact Store.set_same ..
  · intro h hfail
    have hkept := redis_kept h hfail
    exact ⟨hkept,fun req hreq => by rwa [hkept]⟩

def clockService : Service where
  isEquivalent := fun hashStr password => hashStr = password
  genToken := fun now _ _ => .ok (toString now)
  parseToken := fun _ token => .ok { id := 1, username := token }
  marshal := fun _ username => username
  expire := 60

def secondLogin : LoginCall where
  dto := { username := "a", password := "p" }
  now := 8
  users := createRow { username := "a", password := "p" } (.empty User.id)
  infoFault := some "i/o timeout"

def firstSession : Store String String :=
  Store.set (fun _ => none) (tokenKey 1) "7" 60

theorem failed_login_ends_session :
    (login clockService secondLogin firstSession).1 =
        .returned
          { user := { id := 1, username := "a", password := "p" }
            token := "8"
            err := some "i/o timeout" } ∧
      authorize clockService { bearerToken := "Bearer 7" } firstSession = .passed "7" 1 ∧
      authorize clockService { bearerToken := "Bearer 7" }
        (login clockService secondLogin firstSession).2 = .rejected "Token doesn't match" ∧
      ¬AllOrNothing clockService secondLogin firstSession := by
  have hfail : (login clockService secondLogin firstSession).1 =
      .returned
        { user := { id := 1, username := "a", password := "p" }
          token := "8"
          err := some "i/o timeout" } := by decide
  have hbefore : authorize clockService { bearerToken := "Bearer 7" } firstSession =
      .passed "7" 1 := by decide
  have hafter : authorize clockService { bearerToken := "Bearer 7" }
      (login clockService secondLogin firstSession).2 = .rejected "Token doesn't match" := by decide
  refine ⟨hfail,hbefore,hafter,fun h => ?_⟩
  obtain ⟨token,id,hacc⟩ := (h ⟨_,hfail,nofun⟩).2 _ ⟨"7",1,hbefore⟩
  rw [hafter] at hacc
  cases hacc

end Gopher.LoginEffects
