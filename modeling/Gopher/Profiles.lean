import Gopher.StepRuns
import Gopher.SqlStatements

/-!
# Profile requests

A request passes the token interceptor, whose claims it then carries, and is
answered by one of three handlers. Each runs its statements on the user table
and turns every exception into an error result. The token library, the digest
and the check of an email address are arguments, as are the errors and the
clock of the database. Times are as the columns keep them.
-/

set_option autoImplicit false

namespace Gopher.Profiles
open Gopher.StepRuns Gopher.KeyedTable Gopher.SqlStatements

/-- The body of an update. Its password is ignored when it is read. -/
structure User where
  id : Option ℤ := none
  username : Option String := none
  name : Option String := none
  email : Option String := none
  updateTime : Option ℕ := none
  deriving DecidableEq, Repr

structure Row where
  id : ℕ
  username : String
  password : Option String := none
  name : Option String := some ""
  email : Option String := some ""
  avatar : Option String := some ""
  createTime : ℕ := 0
  updateTime : ℕ := 0
  deriving DecidableEq, Repr

abbrev Rows : Type := Table Row.id

structure Claims where
  id : Option ℤ
  username : Option String := none
  deriving DecidableEq, Repr

structure Server where
  parseJwtString : String → Except String Claims
  md5DigestAsHex : String → String
  isEmail : String → Bool

structure Result where
  code : ℕ
  message : String
  data : String
  deriving DecidableEq, Repr

def Result.ok (message data : String) : Result := { code := 1, message := message, data := data }

def Result.err (message : String) : Result := { code := 0, message := message, data := "" }

def errorHandler (message : Option String) : Result :=
  match message with
  | some text => Result.err (if text = "" then "Fatal Error" else text)
  | none => Result.err "Fatal Error"

def rowCount (n : ℕ) : String := "rowCount=" ++ toString n

def isSpace (c : Char) : Bool := c ∈ [' ','\t','\n','\x0b','\x0c','\r']

def isWord (s : String) : Bool :=
  4 ≤ s.toList.length ∧ s.toList.length ≤ 16 ∧ s.toList.all (fun c => !isSpace c)

def orNull (p : String → Bool) (v : Option String) : Bool :=
  match v with
  | some s => p s
  | none => true

def notEmpty (v : Option String) : Bool :=
  match v with
  | some s => s ≠ ""
  | none => false

def valid (srv : Server) (user : User) : Bool :=
  user.id.isSome && orNull isWord user.username && notEmpty user.name && notEmpty user.email &&
    orNull srv.isEmail user.email

namespace Mapper

def setProfile (user : User) (updated : ℕ) (row : Row) : Row :=
  { row with name := user.name, email := user.email, updateTime := updated }

def setAvatar (avatar : String) (now : ℕ) (row : Row) : Row :=
  { row with avatar := some avatar, updateTime := now }

def setPwd (newPwd : String) (row : Row) : Row := { row with password := some newPwd }

def selectUserById (fault : Option String) (id : Option ℤ) (t : Rows) :
    Except String (Option Row) := selectById fault id t

def updateUser (fault : Option String) (user : User) (t : Rows) : Except String (ℕ × Rows) := do
  let updated ← required "update_time" user.updateTime
  updateById fault user.id (setProfile user updated) (fun _ => rfl) t

def updateAvatar (fault : Option String) (now : ℕ) (avatar : String) (id : ℤ) (t : Rows) :
    Except String (ℕ × Rows) :=
  updateById fault (some id) (setAvatar avatar now) (fun _ => rfl) t

def updatePwd (fault : Option String) (id : ℤ) (newPwd : String) (t : Rows) :
    Except String (ℕ × Rows) :=
  updateById fault (some id) (setPwd newPwd) (fun _ => rfl) t

end Mapper

structure Answers where
  selectFault : Option String := none
  updateFault : Option String := none
  nullText : Option String := none
  invalidText : Option String := none
  now : ℕ := 0
  deriving DecidableEq, Repr

def database {β : Type} (res : Except String β) : Except (Option String) β :=
  res.mapError some

def updateUser (srv : Server) (ans : Answers) (user : User) (t : Rows) :
    Except (Option String) (Result × Rows) := do
  if !valid srv user then throw ans.invalidText
  let (n,t) ← database (Mapper.updateUser ans.updateFault
    { user with updateTime := some ans.now } t)
  return (Result.ok "Update User Profile OK" (rowCount n),t)

def unboxed {β : Type} (ans : Answers) (v : Option β) : Except (Option String) β :=
  match v with
  | some x => .ok x
  | none => .error ans.nullText

def updateAvatar (ans : Answers) (claims : Claims) (avatar : String) (t : Rows) :
    Except (Option String) (Result × Rows) := do
  let id ← unboxed ans claims.id
  let (n,t) ← database (Mapper.updateAvatar ans.updateFault ans.now avatar id t)
  return (Result.ok "Update User Avatar OK" (rowCount n),t)

def updatePwd (srv : Server) (ans : Answers) (claims : Claims) (params : String → Option String)
    (t : Rows) : Except (Option String) (Result × Rows) := do
  let newPwd ← unboxed ans (params "newPwd")
  if !isWord newPwd || some newPwd = params "pwd" || some newPwd ≠ params "confirmPwd" then
    return (Result.err "Invalid Update",t)
  let existingUser ← database (Mapper.selectUserById ans.selectFault claims.id t)
  let pwd ← unboxed ans (params "pwd")
  let row ← unboxed ans existingUser
  if some (srv.md5DigestAsHex pwd) ≠ row.password then
    return (Result.err "Update Password Error",t)
  let (n,t) ← database (Mapper.updatePwd ans.updateFault row.id (srv.md5DigestAsHex newPwd) t)
  return (Result.ok "Update Password OK" (rowCount n),t)

inductive Body where
  | update (user : User)
  | avatar (avatar : String)
  | pwd (params : String → Option String)

structure Request where
  token : Option String
  body : Body
  ans : Answers := {}

def preHandle (srv : Server) (token : Option String) : Option Claims :=
  match token with
  | none => none
  | some token =>
    if token = "" then none
    else
      match srv.parseJwtString token with
      | .ok claims => some claims
      | .error _ => none

def dispatch (srv : Server) (claims : Claims) (req : Request) (t : Rows) :
    Except (Option String) (Result × Rows) :=
  match req.body with
  | .update user => updateUser srv req.ans user t
  | .avatar avatar => updateAvatar req.ans claims avatar t
  | .pwd params => updatePwd srv req.ans claims params t

/-- An exception leaves the table as it was: every handler writes last. -/
def handle (srv : Server) (req : Request) (t : Rows) : Result × Rows :=
  match preHandle srv req.token with
  | none => (Result.err "Unauthorized Error",t)
  | some claims =>
    match dispatch srv claims req t with
    | .ok res => res
    | .error message => (errorHandler message,t)

structure UserRequest (srv : Server) (u : ℤ) extends Request where
  claims : Claims
  passes : preHandle srv token = some claims
  own : claims.id = some u

def step (srv : Server) (u : ℤ) (req : UserRequest srv u) (t : Rows) : Rows :=
  (handle srv req.toRequest t).2

def others (u : ℤ) (t : Rows) : List Row := t.rows.filter (fun row => (row.id : ℤ) ≠ u)

/-- An update that goes through and names another user must not change the
row that user has. -/
def Guard (srv : Server) (u : ℤ) (req : UserRequest srv u) (t : Rows) : Prop :=
  match req.body with
  | .update user =>
    valid srv user = true → req.ans.updateFault = none →
      ∀ row ∈ t.rows, user.id = some (row.id : ℤ) → (row.id : ℤ) ≠ u →
        Mapper.setProfile user req.ans.now row = row
  | _ => True

theorem others_map (u : ℤ) (t v : Rows) (g : Row → Row) (hg : ∀ row, (g row).id = row.id)
    (h : v.rows = t.rows.map g) :
    others u v = others u t ↔ ∀ row ∈ t.rows, (row.id : ℤ) ≠ u → g row = row := by
  have hfilter : others u v = (others u t).map g := by
    simp only [others, h, List.filter_map, Function.comp_def, hg]
  rw [hfilter]
  conv_lhs => rhs; rw [← List.map_id (others u t)]
  rw [List.map_inj_left]
  simp [others]

theorem others_own (u : ℤ) (t v : Rows) (f : Row → Row) (hf : ∀ row, (f row).id = row.id)
    (h : v.rows = t.rows.map (fun row => if some u = some (row.id : ℤ) then f row else row)) :
    others u v = others u t := by
  refine (others_map u t v _ ?_ h).mpr ?_
  · intro row
    split_ifs
    · exact hf row
    · rfl
  · intro row _ hne
    rw [if_neg (fun he => hne (Option.some.inj he).symm)]

theorem database_ok {β : Type} {res : Except String β} {b : β} (h : database res = .ok b) :
    res = .ok b := by
  cases res with
  | error e => cases h
  | ok c => exact congrArg _ (Except.ok.inj h)

theorem unboxed_ok {β : Type} {ans : Answers} {v : Option β} {b : β}
    (h : unboxed ans v = .ok b) : v = some b := by
  cases v with
  | none => cases h
  | some c => exact congrArg _ (Except.ok.inj h)

theorem updateAvatar_others {ans : Answers} {claims : Claims} {avatar : String} {t v : Rows}
    {res : Result} {u : ℤ} (hu : claims.id = some u)
    (h : updateAvatar ans claims avatar t = .ok (res,v)) : others u v = others u t := by
  obtain ⟨id,hid,h⟩ := bind_ok h
  obtain ⟨⟨n,w⟩,hw,h⟩ := bind_ok h
  cases h
  obtain rfl : u = id := Option.some.inj (hu.symm.trans (unboxed_ok hid))
  exact others_own u t v (Mapper.setAvatar avatar ans.now) (fun _ => rfl)
    (updateById_ok (database_ok hw)).2

theorem updatePwd_others {srv : Server} {ans : Answers} {claims : Claims}
    {params : String → Option String} {t v : Rows} {res : Result} {u : ℤ}
    (hu : claims.id = some u) (h : updatePwd srv ans claims params t = .ok (res,v)) :
    others u v = others u t := by
  obtain ⟨newPwd,-,h⟩ := bind_ok h
  split_ifs at h
  · cases h
    rfl
  obtain ⟨existingUser,hsel,h⟩ := bind_ok h
  obtain ⟨pwd,-,h⟩ := bind_ok h
  obtain ⟨row,hrow,h⟩ := bind_ok h
  split_ifs at h
  · cases h
    rfl
  obtain ⟨⟨n,w⟩,hw,h⟩ := bind_ok h
  cases h
  have hsome := database_ok hsel
  rw [unboxed_ok hrow] at hsome
  obtain rfl : u = (row.id : ℤ) := Option.some.inj (hu.symm.trans (selectById_ok hsome))
  exact others_own _ t v (Mapper.setPwd (srv.md5DigestAsHex newPwd)) (fun _ => rfl)
    (updateById_ok (database_ok hw)).2

theorem updateUser_rows {srv : Server} {ans : Answers} {user : User} {t v : Rows} {res : Result}
    (h : updateUser srv ans user t = .ok (res,v)) :
    valid srv user = true ∧ ans.updateFault = none ∧
      v.rows = t.rows.map (fun row =>
        if user.id = some (row.id : ℤ) then Mapper.setProfile user ans.now row else row) := by
  unfold updateUser at h
  split_ifs at h with hv
  · cases h
  obtain ⟨⟨n,w⟩,hw,h⟩ := bind_ok h
  cases h
  have hup : updateById ans.updateFault user.id (Mapper.setProfile user ans.now) (fun _ => rfl) t =
      .ok (n,v) := database_ok hw
  obtain ⟨hfault,hrows⟩ := updateById_ok hup
  exact ⟨by simpa using hv,hfault,hrows⟩

theorem updateUser_total (srv : Server) (ans : Answers) (user : User) (t : Rows)
    (hv : valid srv user = true) (hfault : ans.updateFault = none) :
    ∃ res v, updateUser srv ans user t = .ok (res,v) := by
  obtain ⟨⟨n,v⟩,hup⟩ := updateById_total user.id (Mapper.setProfile user ans.now) (fun _ => rfl) t
  refine ⟨Result.ok "Update User Profile OK" (rowCount n),v,?_⟩
  have hmap : Mapper.updateUser ans.updateFault { user with updateTime := some ans.now } t =
      .ok (n,v) := by
    rw [hfault]
    exact hup
  simp [updateUser, hv, hmap, database, Except.mapError, bind, Except.bind, pure, Except.pure]

section
variable {srv : Server} {u : ℤ} {req : UserRequest srv u} {t v : Rows} {res : Result}
  {message : Option String}

theorem step_ok (h : dispatch srv req.claims req.toRequest t = .ok (res,v)) :
    step srv u req t = v := by
  simp only [step, handle, req.passes, h]

theorem step_error (h : dispatch srv req.claims req.toRequest t = .error message) :
    step srv u req t = t := by
  simp only [step, handle, req.passes, h]

end

theorem step_keeps (srv : Server) (u : ℤ) (req : UserRequest srv u) (t : Rows)
    (h : ∀ res, dispatch srv req.claims req.toRequest t = .ok res → others u res.2 = others u t) :
    others u (step srv u req t) = others u t := by
  cases hd : dispatch srv req.claims req.toRequest t with
  | ok res =>
    rw [step_ok hd]
    exact h res hd
  | error message => rw [step_error hd]

theorem update_others (srv : Server) (u : ℤ) (req : UserRequest srv u) (t : Rows) {user : User}
    (hb : req.body = .update user) :
    others u (step srv u req t) = others u t ↔ Guard srv u req t := by
  have hd : dispatch srv req.claims req.toRequest t = updateUser srv req.ans user t := by
    simp [dispatch, hb]
  rw [Guard, hb]
  cases hup : updateUser srv req.ans user t with
  | ok res =>
    obtain ⟨hv,hfault,hrows⟩ := updateUser_rows hup
    rw [step_ok (hd.trans hup), others_map u t res.2 _ _ hrows]
    · constructor
      · intro h _ _ row hr hid hne
        have := h row hr hne
        rwa [if_pos hid] at this
      · intro h row hr hne
        split_ifs with hid
        · exact h hv hfault row hr hid hne
        · rfl
    · intro row
      split_ifs <;> rfl
  | error message =>
    rw [step_error (hd.trans hup)]
    refine iff_of_true rfl ?_
    intro hv hfault
    obtain ⟨res,v,hok⟩ := updateUser_total srv req.ans user t hv hfault
    rw [hok] at hup
    cases hup

/-- A request leaves the rows of others alone exactly under the guard. -/
theorem step_others (srv : Server) (u : ℤ) (req : UserRequest srv u) (t : Rows) :
    others u (step srv u req t) = others u t ↔ Guard srv u req t := by
  cases hb : req.body with
  | update user => exact update_others srv u req t hb
  | avatar avatar =>
    refine iff_of_true (step_keeps srv u req t ?_) (by simp only [Guard, hb])
    intro res hres
    simp only [dispatch, hb] at hres
    exact updateAvatar_others req.own hres
  | pwd params =>
    refine iff_of_true (step_keeps srv u req t ?_) (by simp only [Guard, hb])
    intro res hres
    simp only [dispatch, hb] at hres
    exact updatePwd_others req.own hres

/-- The requests of a user leave the rows of all others as they were exactly
when no update that goes through names another user whose row it changes. -/
theorem requests_touch_own_row (srv : Server) (u : ℤ) (t : Rows)
    (reqs : List (UserRequest srv u)) :
    Throughout (step srv u) (fun v => others u v = others u t) reqs t ↔
      Along (step srv u) (Guard srv u) reqs t := by
  apply throughout_iff_along (step srv u) (Guard srv u) (fun _ => True)
    (fun v => others u v = others u t) (fun _ _ _ _ => trivial) _ reqs t trivial rfl
  intro req v _ hv
  rw [← hv]
  exact step_others srv u req v

def trusting : Server where
  parseJwtString _ := .ok { id := some 1 }
  md5DigestAsHex := id
  isEmail _ := true

def twoUsers : Rows :=
  ((Table.empty Row.id).create (fun id => { id := id, username := "user1" }) (fun _ => rfl)).create
    (fun id => { id := id, username := "user2" }) (fun _ => rfl)

def foreignUpdate : UserRequest trusting 1 where
  token := some "token"
  body := .update { id := some 2, name := some "name", email := some "e@x" }
  claims := { id := some 1 }
  passes := rfl
  own := rfl

theorem foreign_row_changes :
    others 1 (run (step trusting 1) [foreignUpdate] twoUsers) ≠ others 1 twoUsers := by
  decide

end Gopher.Profiles
