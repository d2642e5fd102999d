import Gopher.SessionSafety

/-!
# Sessions of different users

Two schedules are compared, one of which leaves out calls of `Login` by one
user. They may differ in the two keys of that user and in the requests that
carry the id of that user, and in nothing else.
-/

set_option autoImplicit false

namespace Gopher.SessionIsolation
open Gopher.StepRuns Gopher.ExpiringStore Gopher.Sessions Gopher.SessionSafety

variable {ι ρ : Type*}
variable (srv : Service) (calls : ι → LoginCall) (reqs : ρ → Request)

def Elsewhere (u : UInt64) (key : String) : Prop := key ≠ tokenKey u ∧ key ≠ userKey u

/-- Two states that differ at most in the keys of a user, in the requests that
carry the id of the user and in the calls that are hidden. -/
structure Similar (u : UInt64) (hide : ι → Bool) (s t : State ι ρ) : Prop where
  redis : Store.AgreeOn (Elsewhere u) s.redis t.redis
  login : ∀ i, hide i = false → s.login i = t.login i
  request : ∀ r, carried srv (reqs r) ≠ some u → s.request r = t.request r

section TwoRuns

variable {srv calls reqs} {u : UInt64} {hide : ι → Bool}

theorem tokenKey_elsewhere {id : UInt64} (h : id ≠ u) : Elsewhere u (tokenKey id) :=
  ⟨fun he => h (tokenKey_injective he),tokenKey_ne_userKey id u⟩

theorem Similar.symm {s t : State ι ρ} (h : Similar srv reqs u hide s t) :
    Similar srv reqs u hide t s :=
  ⟨h.redis.symm,fun i hi => (h.login i hi).symm,fun r hr => (h.request r hr).symm⟩

theorem Similar.setRedis {s t : State ι ρ} (h : Similar srv reqs u hide s t)
    {x y : Store String String} (hxy : Store.AgreeOn (Elsewhere u) x y) :
    Similar srv reqs u hide (s.setRedis x) (t.setRedis y) :=
  ⟨hxy,h.login,h.request⟩

theorem Similar.setRedis_left {s t : State ι ρ} (h : Similar srv reqs u hide s t)
    {x : Store String String} (hx : Store.AgreeOn (Elsewhere u) x t.redis) :
    Similar srv reqs u hide (s.setRedis x) t :=
  ⟨hx,h.login,h.request⟩

theorem Similar.wrote {s t : State ι ρ} (h : Similar srv reqs u hide s t) (id : UInt64)
    (token : String) : Similar srv reqs u hide (s.wrote id token) (t.wrote id token) :=
  ⟨h.redis,h.login,h.request⟩

theorem Similar.wrote_left {s t : State ι ρ} (h : Similar srv reqs u hide s t) (id : UInt64)
    (token : String) : Similar srv reqs u hide (s.wrote id token) t :=
  ⟨h.redis,h.login,h.request⟩

section Logins

variable [DecidableEq ι]

theorem Similar.setLogin {s t : State ι ρ} (h : Similar srv reqs u hide s t) (i : ι)
    (pc : LoginPc) : Similar srv reqs u hide (s.setLogin i pc) (t.setLogin i pc) where
  redis := h.redis
  login j hj := by
    by_cases he : j = i
    · subst he
      rw [setLogin_same, setLogin_same]
    · rw [setLogin_other s i j pc he, setLogin_other t i j pc he]
      exact h.login j hj
  request := h.request

theorem Similar.setLogin_left {s t : State ι ρ} (h : Similar srv reqs u hide s t) {i : ι}
    (hi : hide i = true) (pc : LoginPc) : Similar srv reqs u hide (s.setLogin i pc) t where
  redis := h.redis
  login j hj := by
    have he : j ≠ i := by
      rintro rfl
      rw [hi] at hj
      cases hj
    rw [setLogin_other s i j pc he]
    exact h.login j hj
  request := h.request

end Logins

section Requests

variable [DecidableEq ρ]

theorem Similar.setRequest {s t : State ι ρ} (h : Similar srv reqs u hide s t) (r : ρ)
    (pc : RequestPc) : Similar srv reqs u hide (s.setRequest r pc) (t.setRequest r pc) where
  redis := h.redis
  login := h.login
  request q hq := by
    by_cases he : q = r
    · subst he
      rw [setRequest_same, setRequest_same]
    · rw [setRequest_other s r q pc he, setRequest_other t r q pc he]
      exact h.request q hq

theorem Similar.setRequest_left {s t : State ι ρ} (h : Similar srv reqs u hide s t) {r : ρ}
    (hr : carried srv (reqs r) = some u) (pc : RequestPc) :
    Similar srv reqs u hide (s.setRequest r pc) t where
  redis := h.redis
  login := h.login
  request q hq := by
    have he : q ≠ r := by
      rintro rfl
      exact hq hr
    rw [setRequest_other s r q pc he]
    exact h.request q hq

end Requests

variable [DecidableEq ι] [DecidableEq ρ]

/-- A step of a hidden call changes nothing that is compared. -/
theorem hidden_login_step {s t : State ι ρ} (h : Similar srv reqs u hide s t)
    (hs : Own srv calls reqs s) {i : ι} (hi : hide i = true)
    (hu : ∀ id, loginUser srv (calls i) = some id → id = u) {a : Action ι ρ}
    (ha : a = .login i ∨ a = .setToken i ∨ a = .setInfo i) :
    Similar srv reqs u hide (step srv calls reqs a s) t := by
  rcases ha with rfl | rfl | rfl
  · simp only [step]
    split
    · exact h.setLogin_left hi _
    · exact h
  · simp only [step, setTokenStep]
    split
    · next user token hpc =>
      have hid : userId user = u := hu _ (hs.login_user (by rw [hpc]; rfl))
      split
      · exact h.setLogin_left hi _
      · have hkey : ¬Elsewhere u (tokenKey (userId user)) := fun hk => hk.1 (by rw [hid])
        exact ((h.setLogin_left hi _).setRedis_left (h.redis.alter_left hkey _)).wrote_left _ _
    · exact h
  · simp only [step, setInfoStep]
    split
    · next user token hpc =>
      have hid : userId user = u := hu _ (hs.login_user (by rw [hpc]; rfl))
      split
      · exact h.setLogin_left hi _
      · have hkey : ¬Elsewhere u (userKey (userId user)) := fun hk => hk.2 (by rw [hid])
        exact (h.setLogin_left hi _).setRedis_left (h.redis.alter_left hkey _)
    · exact h

/-- A step of a request that carries the id of the user changes nothing that
is compared. -/
theorem own_request_step {s t : State ι ρ} (h : Similar srv reqs u hide s t)
    (hs : Own srv calls reqs s) {r : ρ} (hr : carried srv (reqs r) = some u) {a : Action ι ρ}
    (ha : a = .authorize r ∨ a = .get r ∨ a = .ttl r ∨ a = .expire r) :
    Similar srv reqs u hide (step srv calls reqs a s) t := by
  rcases ha with rfl | rfl | rfl | rfl
  · simp only [step]
    split
    · exact h.setRequest_left hr _
    · exact h
  · simp only [step, getStep]
    split
    · exact h.setRequest_left hr _
    · exact h
  · simp only [step, ttlStep]
    split
    · exact h.setRequest_left hr _
    · exact h
  · simp only [step, expireStep]
    split
    · next token id hpc =>
      have hid : carried srv (reqs r) = some id := hs.request_carried (by rw [hpc]; rfl)
      have hkey : ¬Elsewhere u (tokenKey id) := fun hk => hk.1 (by cases hr.symm.trans hid; rfl)
      split
      · exact h.setRequest_left hr _
      · exact (h.setRequest_left hr _).setRedis_left (h.redis.alter_left hkey _)
    · exact h

theorem shown_login_step {s t : State ι ρ} (h : Similar srv reqs u hide s t) {i : ι}
    (hi : hide i = false) {a : Action ι ρ}
    (ha : a = .login i ∨ a = .setToken i ∨ a = .setInfo i) :
    Similar srv reqs u hide (step srv calls reqs a s) (step srv calls reqs a t) := by
  have hpc := h.login i hi
  rcases ha with rfl | rfl | rfl
  · simp only [step, hpc]
    split
    · exact h.setLogin i _
    · exact h
  · simp only [step, setTokenStep, hpc]
    split
    · split
      · exact h.setLogin i _
      · exact ((h.setLogin i _).setRedis (h.redis.alter _ _)).wrote _ _
    · exact h
  · simp only [step, setInfoStep, hpc]
    split
    · split
      · exact h.setLogin i _
      · exact (h.setLogin i _).setRedis (h.redis.alter _ _)
    · exact h

theorem other_request_step {s t : State ι ρ} (h : Similar srv reqs u hide s t)
    (ht : Own srv calls reqs t) {r : ρ} (hr : carried srv (reqs r) ≠ some u) {a : Action ι ρ}
    (ha : a = .authorize r ∨ a = .get r ∨ a = .ttl r ∨ a = .expire r) :
    Similar srv reqs u hide (step srv calls reqs a s) (step srv calls reqs a t) := by
  have hpc := h.request r hr
  have hentry : ∀ token id, (t.request r).about = some (token,id) →
      s.redis (tokenKey id) = t.redis (tokenKey id) := by
    intro token id habout
    exact h.redis _ (tokenKey_elsewhere (fun he => hr (he ▸ ht.request_carried habout)))
  rcases ha with rfl | rfl | rfl | rfl
  · simp only [step, hpc]
    split
    · exact h.setRequest r _
    · exact h
  · simp only [step, getStep, hpc]
    split
    · next token id hq =>
      rw [hentry token id (by rw [hq]; rfl)]
      exact h.setRequest r _
    · exact h
  · simp only [step, ttlStep, hpc]
    split
    · next token id hq =>
      have hsame : s.redis.ttl (tokenKey id) = t.redis.ttl (tokenKey id) := by
        rw [Store.ttl, Store.ttl, hentry token id (by rw [hq]; rfl)]
      rw [hsame]
      exact h.setRequest r _
    · exact h
  · simp only [step, expireStep, hpc]
    split
    · split
      · exact h.setRequest r _
      · exact (h.setRequest r _).setRedis (h.redis.alter _ _)
    · exact h

def omitted (hide : ι → Bool) : Action ι ρ → Bool
  | .login i | .setToken i | .setInfo i => hide i
  | _ => false

theorem omitted_step {s t : State ι ρ} (h : Similar srv reqs u hide s t)
    (hs : Own srv calls reqs s)
    (hu : ∀ i, hide i = true → ∀ id, loginUser srv (calls i) = some id → id = u)
    {a : Action ι ρ} (ha : omitted hide a = true) :
    Similar srv reqs u hide (step srv calls reqs a s) t := by
  cases a with
  | login i => exact hidden_login_step h hs ha (hu i ha) (.inl rfl)
  | setToken i => exact hidden_login_step h hs ha (hu i ha) (.inr (.inl rfl))
  | setInfo i => exact hidden_login_step h hs ha (hu i ha) (.inr (.inr rfl))
  | _ => cases ha

theorem request_step {s t : State ι ρ} (h : Similar srv reqs u hide s t)
    (hs : Own srv calls reqs s) (ht : Own srv calls reqs t) (r : ρ) {a : Action ι ρ}
    (ha : a = .authorize r ∨ a = .get r ∨ a = .ttl r ∨ a = .expire r) :
    Similar srv reqs u hide (step srv calls reqs a s) (step srv calls reqs a t) := by
  by_cases hr : carried srv (reqs r) = some u
  · have hleft := own_request_step h hs hr ha
    exact (own_request_step hleft.symm ht hr ha).symm
  · exact other_request_step h ht hr ha

theorem common_step {s t : State ι ρ} (h : Similar srv reqs u hide s t)
    (hs : Own srv calls reqs s) (ht : Own srv calls reqs t) {a : Action ι ρ}
    (ha : omitted hide a = false) :
    Similar srv reqs u hide (step srv calls reqs a s) (step srv calls reqs a t) := by
  cases a with
  | login i => exact shown_login_step h ha (.inl rfl)
  | setToken i => exact shown_login_step h ha (.inr (.inl rfl))
  | setInfo i => exact shown_login_step h ha (.inr (.inr rfl))
  | authorize r => exact request_step h hs ht r (.inl rfl)
  | get r => exact request_step h hs ht r (.inr (.inl rfl))
  | ttl r => exact request_step h hs ht r (.inr (.inr (.inl rfl)))
  | expire r => exact request_step h hs ht r (.inr (.inr (.inr rfl)))
  | lapse key left => exact h.setRedis (h.redis.alter _ _)

end TwoRuns

variable [DecidableEq ι] [DecidableEq ρ]

/-- Leaving out any calls of `Login` by one user leaves every request that
carries another id where it was. -/
theorem others_undisturbed (as : List (Action ι ρ)) (u : UInt64) (hide : ι → Bool)
    (hu : ∀ i, hide i = true → ∀ id, loginUser srv (calls i) = some id → id = u) (r : ρ)
    (hr : carried srv (reqs r) ≠ some u) :
    (run (step srv calls reqs) as (start ι ρ)).request r =
      (run (step srv calls reqs) (as.filter (fun a => !omitted hide a)) (start ι ρ)).request r := by
  have hown := start_own (ι := ι) (ρ := ρ) srv calls reqs
  obtain ⟨hsim,-,-⟩ := run_related (step srv calls reqs)
    (fun s t => Similar srv reqs u hide s t ∧ Own srv calls reqs s ∧ Own srv calls reqs t)
    (omitted hide)
    (fun a s t ha ⟨h,hs,ht⟩ => ⟨omitted_step h hs hu ha,own_step srv calls reqs a s hs,ht⟩)
    (fun a s t ha ⟨h,hs,ht⟩ => ⟨common_step h hs ht ha,own_step srv calls reqs a s hs,
      own_step srv calls reqs a t ht⟩)
    as (start ι ρ) (start ι ρ) ⟨⟨fun _ _ => rfl,fun _ _ => rfl,fun _ _ => rfl⟩,hown,hown⟩
  exact hsim.request r hr

/-- In every schedule a request that is let through had the newest token of
the user it carries when it read redis, and the logins of a user decide
nothing about the requests that carry another id. -/
theorem only_latest_session (as : List (Action ι ρ)) :
    (∀ r token id, (run (step srv calls reqs) as (start ι ρ)).request r = .passed token id →
      ∃ bs cs, as = bs++.get r::cs ∧ beginAuthorize srv (reqs r) = .parsed token id ∧
        latest (run (step srv calls reqs) bs (start ι ρ)).written id = some token) ∧
    (∀ u (hide : ι → Bool),
      (∀ i, hide i = true → ∀ id, loginUser srv (calls i) = some id → id = u) →
        ∀ r, carried srv (reqs r) ≠ some u →
          (run (step srv calls reqs) as (start ι ρ)).request r =
            (run (step srv calls reqs) (as.filter (fun a => !omitted hide a))
              (start ι ρ)).request r) :=
  ⟨fun r token id h => passed_was_latest srv calls reqs as r token id h,
    fun u hide hu r hr => others_undisturbed srv calls reqs as u hide hu r hr⟩

def plainService : Service where
  isEquivalent := fun hashStr password => hashStr = password
  genToken := fun _ _ username => .ok username
  parseToken := fun _ token => .ok { id := if token = "a" then 1 else 2, username := token }
  marshal := fun _ username => username
  expire := 60

def twoUsers : UserTable.Users :=
  UserTable.createRow { username := "b", password := "q" }
    (UserTable.createRow { username := "a", password := "p" } (.empty UserTable.User.id))

def twoCalls (first : Bool) : LoginCall where
  dto := if first then { username := "a", password := "p" } else { username := "b", password := "q" }
  users := twoUsers

def bothLogins : List (Sessions.Action Bool Unit) :=
  [.login true,.login false,.setToken true,.authorize (),.setToken false,.get (),.setInfo true,
    .ttl (),.expire ()]

theorem first_user_passes :
    (∃ bs cs, bothLogins = bs++.get ()::cs ∧
      latest (run (step plainService twoCalls (fun _ => { bearerToken := "Bearer a" })) bs
        (start Bool Unit)).written 1 = some "a") ∧
    (run (step plainService twoCalls (fun _ => { bearerToken := "Bearer a" }))
      (bothLogins.filter (fun a => !omitted (fun first => !first) a)) (start Bool Unit)).request () =
        .passed "a" 1 := by
  have hpass : (run (step plainService twoCalls (fun _ => { bearerToken := "Bearer a" }))
      bothLogins (start Bool Unit)).request () = .passed "a" 1 := by decide
  have h := only_latest_session plainService twoCalls
    (fun _ : Unit => { bearerToken := "Bearer a" }) bothLogins
  obtain ⟨bs,cs,has,-,hlatest⟩ := h.1 () "a" 1 hpass
  refine ⟨⟨bs,cs,has,hlatest⟩,?_⟩
  rw [← h.2 2 (fun first => !first) ?_ () (by decide)]
  · exact hpass
  · intro first hf id hid
    cases first with
    | true => cases hf
    | false =>
      have huser : loginUser plainService (twoCalls false) = some 2 := by decide
      exact Option.some.inj (hid.symm.trans huser)

end Gopher.SessionIsolation
