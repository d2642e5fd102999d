import Gopher.Sessions

/-!
# Requests pass only under the newest session

Every token key in redis holds the token of the login that wrote it last, so
a request that finds its token there finds the newest one. A later login may
come between that comparison and the end of the request.
-/

set_option autoImplicit false

namespace Gopher.SessionSafety
open Gopher.StepRuns Gopher.ExpiringStore Gopher.Sessions
open Gopher.UserTable (User)

variable {ι ρ : Type*} [DecidableEq ι] [DecidableEq ρ]
variable (srv : Service) (calls : ι → LoginCall) (reqs : ρ → Request)

def Recorded (s : State ι ρ) : Prop :=
  ∀ id e, s.redis (tokenKey id) = some e → latest s.written id = some e.value

theorem latest_cons (written : List (UInt64 × String)) (id j : UInt64) (token : String) :
    latest ((j,token)::written) id = if j = id then some token else latest written id := by
  by_cases h : j = id <;> simp [latest, h]

omit [DecidableEq ι] [DecidableEq ρ] in
theorem Recorded.of_values {s t : State ι ρ} (h : Recorded s) (hw : t.written = s.written)
    (hv : ∀ {key e}, t.redis key = some e → ∃ d, s.redis key = some d ∧ d.value = e.value) :
    Recorded t := by
  intro id e he
  obtain ⟨d,hd,hval⟩ := hv he
  rw [hw, h id d hd, hval]

omit [DecidableEq ρ] in
theorem setToken_recorded (i : ι) (s : State ι ρ) (h : Recorded s) :
    Recorded (setTokenStep srv calls i s) := by
  unfold setTokenStep
  split
  · next user token _ =>
    split
    · exact h
    · intro id e he
      change s.redis.set (tokenKey (userId user)) token srv.expire (tokenKey id) = some e at he
      refine (latest_cons s.written id (userId user) token).trans ?_
      split_ifs with hid
      · subst hid
        rw [Store.set_same] at he
        cases he
        rfl
      · rw [Store.set, Store.alter_other _ _ (fun hk => hid (tokenKey_injective hk).symm)] at he
        exact h id e he
  · exact h

omit [DecidableEq ρ] in
theorem setInfo_recorded (i : ι) (s : State ι ρ) (h : Recorded s) :
    Recorded (setInfoStep srv calls i s) := by
  unfold setInfoStep
  split
  · split
    · exact h
    · next user _ _ _ _ =>
      intro id e he
      change s.redis.set (userKey (userId user)) (srv.marshal (userId user) user.username)
        srv.expire (tokenKey id) = some e at he
      rw [Store.set, Store.alter_other _ _ (tokenKey_ne_userKey _ _)] at he
      exact h id e he
  · exact h

theorem recorded_step (a : Action ι ρ) (s : State ι ρ) (h : Recorded s) :
    Recorded (step srv calls reqs a s) := by
  cases a with
  | login i =>
    simp only [step]
    split <;> exact h
  | setToken i => exact setToken_recorded srv calls i s h
  | setInfo i => exact setInfo_recorded srv calls i s h
  | authorize r =>
    simp only [step]
    split <;> exact h
  | get r =>
    simp only [step, getStep]
    split <;> exact h
  | ttl r =>
    simp only [step, ttlStep]
    split <;> exact h
  | expire r =>
    simp only [step, expireStep]
    split
    · split
      · exact h
      · exact h.of_values rfl (fun he => Store.expire_value _ _ _ he)
    · exact h
  | lapse key left => exact h.of_values rfl (fun he => Store.lapse_value _ _ _ he)

structure Own (s : State ι ρ) : Prop where
  login : ∀ i x, (s.login i).about = some x → (beginLogin srv (calls i)).about = some x
  request : ∀ r x, (s.request r).about = some x → (beginAuthorize srv (reqs r)).about = some x

section Updates

variable {srv calls reqs}

omit [DecidableEq ρ] in
theorem Own.setLogin {s : State ι ρ} (h : Own srv calls reqs s) (i : ι) (pc : LoginPc)
    (hpc : ∀ x, pc.about = some x → (beginLogin srv (calls i)).about = some x) :
    Own srv calls reqs (s.setLogin i pc) where
  login := by
    apply (Function.forall_update_iff s.login
      (fun j pc => ∀ x, pc.about = some x → (beginLogin srv (calls j)).about = some x)).mpr
    exact ⟨hpc,fun j _ => h.login j⟩
  request := h.request

omit [DecidableEq ι] in
theorem Own.setRequest {s : State ι ρ} (h : Own srv calls reqs s) (r : ρ) (pc : RequestPc)
    (hpc : ∀ x, pc.about = some x → (beginAuthorize srv (reqs r)).about = some x) :
    Own srv calls reqs (s.setRequest r pc) where
  login := h.login
  request := by
    apply (Function.forall_update_iff s.request
      (fun q pc => ∀ x, pc.about = some x → (beginAuthorize srv (reqs q)).about = some x)).mpr
    exact ⟨hpc,fun q _ => h.request q⟩

omit [DecidableEq ι] [DecidableEq ρ] in
theorem Own.login_user {s : State ι ρ} (h : Own srv calls reqs s) {i : ι} {user : User}
    {token : String} (hi : (s.login i).about = some (user,token)) :
    loginUser srv (calls i) = some (userId user) := by
  rw [loginUser, h.login i _ hi]
  rfl

omit [DecidableEq ι] [DecidableEq ρ] in
theorem Own.request_carried {s : State ι ρ} (h : Own srv calls reqs s) {r : ρ} {token : String}
    {id : UInt64} (hr : (s.request r).about = some (token,id)) :
    carried srv (reqs r) = some id := by
  rw [carried, h.request r _ hr]
  rfl

end Updates

theorem checkToken_about (req : Request) (token : String) (id : UInt64)
    (entry : Option (Entry String)) (x : String × UInt64)
    (h : (checkToken req token id entry).about = some x) : x = (token,id) := by
  unfold checkToken at h
  split at h
  · cases h
  · cases h
  · split_ifs at h
    · cases h
    · cases h
      rfl

theorem checkTtl_about (req : Request) (token : String) (id : UInt64) (ttl : ℤ)
    (x : String × UInt64) (h : (checkTtl req token id ttl).about = some x) : x = (token,id) := by
  unfold checkTtl at h
  split at h
  · cases h
  · split_ifs at h
    · cases h
    · cases h
      rfl

omit [DecidableEq ρ] in
theorem own_setToken (i : ι) (s : State ι ρ) (h : Own srv calls reqs s) :
    Own srv calls reqs (setTokenStep srv calls i s) := by
  rw [setTokenStep]
  split
  · next user token hpc =>
    have hown : ∀ x, (LoginPc.cached user token).about = some x →
        (beginLogin srv (calls i)).about = some x :=
      fun x hx => h.login i x (by rw [hpc]; exact hx)
    split
    · exact h.setLogin i _ (fun _ hx => by cases hx)
    · exact ⟨(h.setLogin i _ hown).login,h.request⟩
  · exact h

omit [DecidableEq ρ] in
theorem own_setInfo (i : ι) (s : State ι ρ) (h : Own srv calls reqs s) :
    Own srv calls reqs (setInfoStep srv calls i s) := by
  rw [setInfoStep]
  split
  · split
    · exact h.setLogin i _ (fun _ hx => by cases hx)
    · exact ⟨(h.setLogin i _ (fun _ hx => by cases hx)).login,h.request⟩
  · exact h

omit [DecidableEq ι] in
theorem own_get (r : ρ) (s : State ι ρ) (h : Own srv calls reqs s) :
    Own srv calls reqs (getStep reqs r s) := by
  rw [getStep]
  split
  · next token id hpc =>
    refine h.setRequest r _ (fun x hx => h.request r x ?_)
    rw [hpc, checkToken_about _ _ _ _ x hx]
    rfl
  · exact h

omit [DecidableEq ι] in
theorem own_ttl (r : ρ) (s : State ι ρ) (h : Own srv calls reqs s) :
    Own srv calls reqs (ttlStep reqs r s) := by
  rw [ttlStep]
  split
  · next token id hpc =>
    refine h.setRequest r _ (fun x hx => h.request r x ?_)
    rw [hpc, checkTtl_about _ _ _ _ x hx]
    rfl
  · exact h

omit [DecidableEq ι] in
theorem own_expire (r : ρ) (s : State ι ρ) (h : Own srv calls reqs s) :
    Own srv calls reqs (expireStep srv reqs r s) := by
  rw [expireStep]
  split
  · next token id hpc =>
    have hown : ∀ x, (RequestPc.passed token id).about = some x →
        (beginAuthorize srv (reqs r)).about = some x :=
      fun x hx => h.request r x (by rw [hpc]; exact hx)
    split
    · exact h.setRequest r _ hown
    · exact ⟨h.login,(h.setRequest r _ hown).request⟩
  · exact h

theorem own_step (a : Action ι ρ) (s : State ι ρ) (h : Own srv calls reqs s) :
    Own srv calls reqs (step srv calls reqs a s) := by
  cases a with
  | login i =>
    simp only [step]
    split
    · exact h.setLogin i _ (fun _ hx => hx)
    · exact h
  | setToken i => exact own_setToken srv calls reqs i s h
  | setInfo i => exact own_setInfo srv calls reqs i s h
  | authorize r =>
    simp only [step]
    split
    · exact h.setRequest r _ (fun _ hx => hx)
    · exact h
  | get r => exact own_get srv calls reqs r s h
  | ttl r => exact own_ttl srv calls reqs r s h
  | expire r => exact own_expire srv calls reqs r s h
  | lapse key left => exact ⟨h.login,h.request⟩

omit [DecidableEq ι] [DecidableEq ρ] in
theorem start_own : Own srv calls reqs (start ι ρ) :=
  ⟨fun _ _ hx => (nomatch hx),fun _ _ hx => (nomatch hx)⟩

def Honoured (token : String) (id : UInt64) (pc : RequestPc) : Prop :=
  pc = .matched token id ∨ pc = .alive token id ∨ pc = .passed token id

theorem checkToken_honoured {req : Request} {token t : String} {id j : UInt64}
    {entry : Option (Entry String)} (h : Honoured token id (checkToken req t j entry)) :
    t = token ∧ j = id ∧ ∃ e, entry = some e ∧ e.value = token := by
  unfold checkToken at h
  split at h
  · simp [Honoured] at h
  · simp [Honoured] at h
  · next e _ =>
    split_ifs at h with hne
    · simp [Honoured] at h
    · simp only [Honoured, RequestPc.matched.injEq, reduceCtorEq, or_false] at h
      obtain ⟨rfl,rfl⟩ := h
      exact ⟨rfl,rfl,e,rfl,(not_not.mp hne).symm⟩

theorem checkTtl_honoured {req : Request} {token t : String} {id j : UInt64} {ttl : ℤ}
    (h : Honoured token id (checkTtl req t j ttl)) : t = token ∧ j = id := by
  have habout : (checkTtl req t j ttl).about = some (token,id) := by
    rcases h with h | h | h <;> rw [h] <;> rfl
  cases checkTtl_about req t j ttl _ habout
  exact ⟨rfl,rfl⟩

theorem beginAuthorize_about (req : Request) {token : String} {id : UInt64}
    (h : (beginAuthorize srv req).about = some (token,id)) :
    beginAuthorize srv req = .parsed token id := by
  unfold beginAuthorize at h ⊢
  split_ifs at h ⊢
  · cases h
  · dsimp only at h ⊢
    split at h
    · cases h
    · cases h
      rfl
  · cases h

theorem beginAuthorize_not_honoured (req : Request) (token : String) (id : UInt64) :
    ¬Honoured token id (beginAuthorize srv req) := by
  intro h
  have habout : (beginAuthorize srv req).about = some (token,id) := by
    rcases h with h | h | h <;> rw [h] <;> rfl
  rw [beginAuthorize_about srv req habout] at h
  simp [Honoured] at h

omit [DecidableEq ι] in
theorem setRequest_changes {s : State ι ρ} {r q : ρ} {pc : RequestPc}
    (h : (s.setRequest q pc).request r ≠ s.request r) :
    q = r ∧ (s.setRequest q pc).request r = pc := by
  by_cases he : r = q
  · subst he
    exact ⟨rfl,setRequest_same s r pc⟩
  · exact absurd (setRequest_other s q r pc he) h

omit [DecidableEq ρ] in
theorem setTokenStep_request (i : ι) (s : State ι ρ) :
    (setTokenStep srv calls i s).request = s.request := by
  rw [setTokenStep]
  split
  · split <;> rfl
  · rfl

omit [DecidableEq ρ] in
theorem setInfoStep_request (i : ι) (s : State ι ρ) :
    (setInfoStep srv calls i s).request = s.request := by
  rw [setInfoStep]
  split
  · split <;> rfl
  · rfl

omit [DecidableEq ι] in
theorem expireStep_request {s : State ι ρ} {q : ρ} {token : String} {id : UInt64}
    (hq : s.request q = .alive token id) :
    (expireStep srv reqs q s).request = (s.setRequest q (.passed token id)).request := by
  simp only [expireStep, hq]
  split <;> rfl

theorem step_request (a : Action ι ρ) (s : State ι ρ) (r : ρ)
    (h : (step srv calls reqs a s).request r ≠ s.request r) :
    (a = .authorize r ∧ (step srv calls reqs a s).request r = beginAuthorize srv (reqs r)) ∨
    (a = .get r ∧ ∃ token id, s.request r = .parsed token id ∧
      (step srv calls reqs a s).request r =
        checkToken (reqs r) token id (s.redis (tokenKey id))) ∨
    (a = .ttl r ∧ ∃ token id, s.request r = .matched token id ∧
      (step srv calls reqs a s).request r =
        checkTtl (reqs r) token id (s.redis.ttl (tokenKey id))) ∨
    (a = .expire r ∧ ∃ token id, s.request r = .alive token id ∧
      (step srv calls reqs a s).request r = .passed token id) := by
  cases a with
  | login i =>
    refine absurd ?_ h
    simp only [step]
    split <;> rfl
  | setToken i => exact absurd (congrFun (setTokenStep_request srv calls i s) r) h
  | setInfo i => exact absurd (congrFun (setInfoStep_request srv calls i s) r) h
  | authorize q =>
    simp only [step] at h ⊢
    split at h
    · obtain ⟨rfl,hpc⟩ := setRequest_changes h
      exact .inl ⟨rfl,hpc⟩
    · exact absurd rfl h
  | get q =>
    simp only [step, getStep] at h ⊢
    split at h
    · next token id hq =>
      obtain ⟨rfl,hpc⟩ := setRequest_changes h
      exact .inr (.inl ⟨rfl,token,id,hq,hpc⟩)
    · exact absurd rfl h
  | ttl q =>
    simp only [step, ttlStep] at h ⊢
    split at h
    · next token id hq =>
      obtain ⟨rfl,hpc⟩ := setRequest_changes h
      exact .inr (.inr (.inl ⟨rfl,token,id,hq,hpc⟩))
    · exact absurd rfl h
  | expire q =>
    simp only [step] at h ⊢
    cases hq : s.request q with
    | alive token id =>
      rw [expireStep_request srv reqs hq] at h ⊢
      obtain ⟨rfl,hpc⟩ := setRequest_changes h
      exact .inr (.inr (.inr ⟨rfl,token,id,hq,hpc⟩))
    | _ => exact absurd (by simp only [expireStep, hq]) h
  | lapse key left => exact absurd rfl h

/-- Only the comparison with redis makes a request honoured. -/
theorem honoured_by_get (a : Action ι ρ) (s : State ι ρ) (r : ρ) (token : String) (id : UInt64)
    (h : Honoured token id ((step srv calls reqs a s).request r))
    (hs : ¬Honoured token id (s.request r)) :
    a = .get r ∧ s.request r = .parsed token id ∧
      ∃ e, s.redis (tokenKey id) = some e ∧ e.value = token := by
  have hne : (step srv calls reqs a s).request r ≠ s.request r := fun he => hs (he ▸ h)
  rcases step_request srv calls reqs a s r hne with
    ⟨-,hpc⟩ | ⟨ha,t,j,hold,hpc⟩ | ⟨-,t,j,hold,hpc⟩ | ⟨-,t,j,hold,hpc⟩
  · rw [hpc] at h
    exact absurd h (beginAuthorize_not_honoured srv (reqs r) token id)
  · rw [hpc] at h
    obtain ⟨rfl,rfl,hentry⟩ := checkToken_honoured h
    exact ⟨ha,hold,hentry⟩
  · rw [hpc] at h
    obtain ⟨rfl,rfl⟩ := checkTtl_honoured h
    exact absurd (.inl hold) hs
  · rw [hpc] at h
    simp only [Honoured, reduceCtorEq, false_or, RequestPc.passed.injEq] at h
    obtain ⟨rfl,rfl⟩ := h
    exact absurd (.inr (.inl hold)) hs

/-- A request that was let through compared its token with redis, and at that
moment it was the token written last for the user it carries. -/
theorem passed_was_latest (as : List (Action ι ρ)) (r : ρ) (token : String) (id : UInt64)
    (h : (run (step srv calls reqs) as (start ι ρ)).request r = .passed token id) :
    ∃ bs cs, as = bs++.get r::cs ∧ beginAuthorize srv (reqs r) = .parsed token id ∧
      latest (run (step srv calls reqs) bs (start ι ρ)).written id = some token := by
  obtain ⟨bs,a,cs,has,rfl,hpc,e,he,hval⟩ := run_brings (step srv calls reqs)
    (fun s => Honoured token id (s.request r)) _
    (fun a s hq hs => honoured_by_get srv calls reqs a s r token id hq hs) as (start ι ρ)
    (by simp [Honoured, start]) (by simp [Honoured, h])
  have hrec : Recorded (run (step srv calls reqs) bs (start ι ρ)) :=
    run_keeps _ _ (recorded_step srv calls reqs) bs _ (fun _ _ he => by cases he)
  have hown := run_keeps _ _ (own_step srv calls reqs) bs _ (start_own srv calls reqs)
  refine ⟨bs,cs,has,?_,hval ▸ hrec id e he⟩
  exact beginAuthorize_about srv (reqs r) (hown.request r (token,id) (by rw [hpc]; rfl))

end Gopher.SessionSafety
