import Gopher.StepRuns
import Gopher.KeyedTable

/-!
# The user table

A deleted user stays in the table and is skipped by every query. The services
run one call at a time. What a call is answered from outside, an error of the
database or the hash of a password, is an argument of the call, and an error
is its text. The table declares no unique index.
-/

set_option autoImplicit false

namespace Gopher.UserTable
open Gopher.StepRuns Gopher.KeyedTable

structure User where
  id : ℕ := 0
  deleted : Bool := false
  username : String := ""
  password : String := ""
  name : String := ""
  phone : String := ""
  email : String := ""
  avatar : String := ""
  deriving DecidableEq, Repr

structure UserInsertDto where
  id : ℕ := 0
  username : String
  password : String
  name : String := ""
  phone : String := ""
  email : String := ""
  avatar : String := ""
  deriving DecidableEq, Repr

structure UserUpdateDto where
  id : ℕ
  username : String := ""
  name : String := ""
  phone : String := ""
  email : String := ""
  deriving DecidableEq, Repr

def UserInsertDto.assignToUser (dto : UserInsertDto) (user : User) : User :=
  { user with
    username := dto.username
    password := dto.password
    name := dto.name
    phone := dto.phone
    email := dto.email
    avatar := dto.avatar }

def UserUpdateDto.assignToUser (dto : UserUpdateDto) (user : User) : User :=
  { user with
    id := dto.id
    username := dto.username
    name := dto.name
    phone := dto.phone
    email := dto.email }

abbrev Users : Type := Table User.id

structure Answers where
  lookup : Option String := none
  hash : Except String String := .ok ""
  save : Option String := none

def answered (fault : Option String) : Except String Unit :=
  match fault with
  | some err => .error err
  | none => .ok ()

def notFoundText : String := "record not found"

def first (p : User → Bool) (t : Users) : Except String User :=
  match t.rows.find? (fun user => !user.deleted && p user) with
  | some user => .ok user
  | none => .error notFoundText

def selectUserByUsername (ans : Answers) (username : String) (t : Users) :
    Except String User := do
  answered ans.lookup
  let user ← first (fun user => user.username = username) t
  if user.id = 0 then .error "username doesn't exist" else .ok user

def selectUserById (ans : Answers) (id : ℕ) (t : Users) : Except String User := do
  answered ans.lookup
  first (fun user => user.id = id) t

def beforeCreate (ans : Answers) (user : User) : Except String User := do
  let hashStr ← ans.hash
  return { user with password := hashStr }

def createRow (user : User) (t : Users) : Users :=
  t.create (fun id => { user with id := id }) (fun _ => rfl)

def updateRow (user : User) (t : Users) : Users :=
  t.modify user.id (fun row => if row.deleted then row else user)
    (fun row h => by by_cases hd : row.deleted = true <;> simp [hd, h])

def deleteRow (id : ℕ) (t : Users) : Users :=
  t.modify id (fun row => { row with deleted := true }) (fun _ h => h)

def save (ans : Answers) (user : User) (t : Users) : Except String (User × Users) :=
  if user.id = 0 then do
    let user ← beforeCreate ans user
    answered ans.save
    return ({ user with id := t.next },createRow user t)
  else do
    answered ans.save
    return (user,updateRow user t)

def daoInsertUser (ans : Answers) (dto : UserInsertDto) (t : Users) :
    Except String (UserInsertDto × Users) := do
  let (user,t) ← save ans (dto.assignToUser {}) t
  return ({ dto with id := user.id, password := "" },t)

def daoUpdateUser (ans : Answers) (dto : UserUpdateDto) (t : Users) : Except String Users := do
  let user ← selectUserById ans dto.id t
  let (_,t) ← save ans (dto.assignToUser user) t
  return t

def insertUser (ans : Answers) (dto : UserInsertDto) (t : Users) :
    Except String (UserInsertDto × Users) :=
  match selectUserByUsername ans dto.username t with
  | .ok _ => .error "username exists"
  | .error _ => daoInsertUser ans dto t

def updateUser (ans : Answers) (dto : UserUpdateDto) (t : Users) : Except String Users :=
  if dto.id = 0 then .error "id invalid" else daoUpdateUser ans dto t

def deleteUserById (ans : Answers) (id : ℕ) (t : Users) : Except String (User × Users) := do
  answered ans.save
  return ({},deleteRow id t)

inductive Action where
  | insertUser (ans : Answers) (dto : UserInsertDto)
  | updateUser (ans : Answers) (dto : UserUpdateDto)
  | deleteUserById (ans : Answers) (id : ℕ)

/-- A call that returns an error leaves the table as it was. -/
def step (a : Action) (t : Users) : Users :=
  match a with
  | .insertUser ans dto =>
    match insertUser ans dto t with
    | .ok (_,t) => t
    | .error _ => t
  | .updateUser ans dto =>
    match updateUser ans dto t with
    | .ok t => t
    | .error _ => t
  | .deleteUserById ans id =>
    match deleteUserById ans id t with
    | .ok (_,t) => t
    | .error _ => t

def UniqueNames (t : Users) : Prop :=
  ∀ u ∈ t.rows, ∀ v ∈ t.rows, u.deleted = false → v.deleted = false →
    u.username = v.username → u = v

def Taken (username : String) (t : Users) : Prop :=
  ∃ user ∈ t.rows, user.deleted = false ∧ user.username = username

/-- An update of a user that exists must not take the name of another one.
An insert needs care only when its lookup fails for a reason other than the
absence of the name, because the service takes every error for absence. -/
def Guard (a : Action) (t : Users) : Prop :=
  match a with
  | .insertUser ans dto =>
    ans.lookup ≠ none → ans.save = none → (∃ hashStr, ans.hash = .ok hashStr) →
      ¬Taken dto.username t
  | .updateUser ans dto =>
    ans.lookup = none → ans.save = none →
      (∃ user ∈ t.rows, user.deleted = false ∧ user.id = dto.id) →
        ∀ user ∈ t.rows, user.deleted = false → user.id ≠ dto.id → user.username ≠ dto.username
  | .deleteUserById _ _ => True

def liveName (user : User) : Option String := if user.deleted then none else some user.username

theorem liveName_ne_none (user : User) : liveName user ≠ none ↔ user.deleted = false := by
  cases h : user.deleted <;> simp [liveName, h]

theorem liveName_eq (user : User) (username : String) :
    liveName user = some username ↔ user.deleted = false ∧ user.username = username := by
  cases h : user.deleted <;> simp [liveName, h]

theorem uniqueNames_iff (t : Users) : UniqueNames t ↔ t.UniqueBy liveName := by
  constructor
  · intro h u hu v hv hn he
    have hd := (liveName_ne_none u).mp hn
    have hu' : liveName u = some u.username := (liveName_eq _ _).mpr ⟨hd,rfl⟩
    obtain ⟨hdv,hname⟩ := (liveName_eq _ _).mp (he ▸ hu')
    exact h u hu v hv hd hdv hname.symm
  · intro h u hu v hv hdu hdv hname
    exact h u hu v hv ((liveName_ne_none u).mpr hdu)
      (((liveName_eq _ _).mpr ⟨hdu,hname⟩).trans ((liveName_eq _ _).mpr ⟨hdv,rfl⟩).symm)

theorem createRow_unique (user : User) (t : Users) (h : UniqueNames t)
    (hd : user.deleted = false) : UniqueNames (createRow user t) ↔ ¬Taken user.username t := by
  rw [uniqueNames_iff, createRow, Table.unique_create _ _ _ _ ((uniqueNames_iff t).mp h)]
  have hnew : liveName { user with id := t.next } = some user.username :=
    (liveName_eq _ _).mpr ⟨hd,rfl⟩
  rw [hnew]
  constructor
  · rintro hg ⟨u,hu,hdu,hname⟩
    exact hg u hu ((liveName_ne_none u).mpr hdu) ((liveName_eq _ _).mpr ⟨hdu,hname⟩)
  · intro hg u hu _ he
    exact hg ⟨u,hu,(liveName_eq _ _).mp he⟩

theorem updateRow_unique (user : User) (t : Users) (h : UniqueNames t)
    (hd : user.deleted = false) (row : User) (hrow : row ∈ t.rows) (hdrow : row.deleted = false)
    (hid : row.id = user.id) :
    UniqueNames (updateRow user t) ↔
      ∀ u ∈ t.rows, u.deleted = false → u.id ≠ user.id → u.username ≠ user.username := by
  have hnew : liveName user = some user.username := (liveName_eq _ _).mpr ⟨hd,rfl⟩
  rw [uniqueNames_iff, updateRow, Table.unique_modify _ _ _ _ _ ((uniqueNames_iff t).mp h)]
  constructor
  · intro hg u hu hdu hne hname
    have hput := hg row hrow hid
    simp only [hdrow, Bool.false_eq_true, if_false, hnew] at hput
    exact hput (by simp) u hu hne ((liveName_eq _ _).mpr ⟨hdu,hname⟩)
  · intro hg b hb hk _ u hu hne he
    rw [t.key_inj hb hrow (hk.trans hid.symm)] at he
    simp only [hdrow, Bool.false_eq_true, if_false, hnew] at he
    obtain ⟨hdu,hname⟩ := (liveName_eq _ _).mp he
    exact hg u hu hdu hne hname

theorem deleteRow_unique (id : ℕ) (t : Users) (h : UniqueNames t) :
    UniqueNames (deleteRow id t) := by
  rw [uniqueNames_iff, deleteRow, Table.unique_modify _ _ _ _ _ ((uniqueNames_iff t).mp h)]
  intro b _ _ hn
  simp [liveName] at hn

theorem first_ok {p : User → Bool} {t : Users} {user : User} (h : first p t = .ok user) :
    user ∈ t.rows ∧ user.deleted = false ∧ p user = true := by
  unfold first at h
  split at h
  · next u hu =>
    cases h
    have hp := List.find?_some hu
    exact ⟨List.mem_of_find?_eq_some hu,by simpa using hp⟩
  · cases h

theorem first_error {p : User → Bool} {t : Users} {err : String} (h : first p t = .error err) :
    ∀ user ∈ t.rows, user.deleted = false → p user = false := by
  unfold first at h
  split at h
  · cases h
  · next hnone =>
    intro user hu hd
    simpa [hd] using List.find?_eq_none.mp hnone user hu

theorem selectUserByUsername_ok {ans : Answers} {username : String} {t : Users} {user : User}
    (h : selectUserByUsername ans username t = .ok user) : ans.lookup = none := by
  cases hl : ans.lookup with
  | none => rfl
  | some err => simp [selectUserByUsername, answered, hl, bind, Except.bind] at h

/-- When the database answers, an error of the lookup means absence: no row
has the key zero. -/
theorem selectUserByUsername_absent {ans : Answers} {username : String} {t : Users} {err : String}
    (hl : ans.lookup = none) (h : selectUserByUsername ans username t = .error err) :
    ¬Taken username t := by
  rintro ⟨u,hu,hd,hname⟩
  cases hf : first (fun user => user.username = username) t with
  | error e =>
    have := first_error hf u hu hd
    simp [hname] at this
  | ok user =>
    have hpos := (t.used user (first_ok hf).1).1
    simp [selectUserByUsername, answered, hl, hf, bind, Except.bind, hpos.ne'] at h

theorem selectUserById_ok {ans : Answers} {id : ℕ} {t : Users} {user : User}
    (h : selectUserById ans id t = .ok user) :
    ans.lookup = none ∧ user ∈ t.rows ∧ user.deleted = false ∧ user.id = id := by
  cases hl : ans.lookup with
  | some err => simp [selectUserById, answered, hl, bind, Except.bind] at h
  | none =>
    have hf : first (fun user => user.id = id) t = .ok user := by
      simpa [selectUserById, answered, hl, bind, Except.bind] using h
    have := first_ok hf
    simpa using this

theorem selectUserById_absent {ans : Answers} {id : ℕ} {t : Users} {err : String}
    (hl : ans.lookup = none) (h : selectUserById ans id t = .error err) :
    ¬∃ user ∈ t.rows, user.deleted = false ∧ user.id = id := by
  rintro ⟨u,hu,hd,hid⟩
  have hf : first (fun user => user.id = id) t = .error err := by
    simpa [selectUserById, answered, hl, bind, Except.bind] using h
  have := first_error hf u hu hd
  simp [hid] at this

theorem save_fault {ans : Answers} {err : String} (user : User) (t : Users)
    (h : ans.save = some err) : ∃ e, save ans user t = .error e := by
  unfold save
  split_ifs
  · cases hh : ans.hash with
    | error e => exact ⟨e,by simp [beforeCreate, hh, bind, Except.bind]⟩
    | ok hashStr =>
      exact ⟨err,by simp [beforeCreate, answered, hh, h, bind, Except.bind, pure, Except.pure]⟩
  · exact ⟨err,by simp [answered, h, bind, Except.bind]⟩

theorem insertUser_unique (ans : Answers) (dto : UserInsertDto) (t : Users) (h : UniqueNames t) :
    UniqueNames (step (.insertUser ans dto) t) ↔ Guard (.insertUser ans dto) t := by
  cases hsel : selectUserByUsername ans dto.username t with
  | ok user =>
    have hl := selectUserByUsername_ok hsel
    simp [step, insertUser, hsel, Guard, hl, h]
  | error err =>
    cases hs : ans.save with
    | some e =>
      obtain ⟨e',he'⟩ := save_fault (dto.assignToUser {}) t hs
      simp [step, insertUser, hsel, daoInsertUser, he', Guard, hs, h, bind, Except.bind]
    | none =>
      cases hh : ans.hash with
      | error e =>
        simp [step, insertUser, hsel, daoInsertUser, save, beforeCreate, hh, Guard, h, bind,
          Except.bind, UserInsertDto.assignToUser]
      | ok hashStr =>
        have hstep : step (.insertUser ans dto) t =
            createRow { dto.assignToUser {} with password := hashStr } t := by
          simp [step, insertUser, hsel, daoInsertUser, save, beforeCreate, answered, hh, hs, bind,
            Except.bind, pure, Except.pure, UserInsertDto.assignToUser]
        rw [hstep, createRow_unique _ t h rfl]
        simp only [Guard, hs, hh, UserInsertDto.assignToUser]
        cases hl : ans.lookup with
        | none => simpa using selectUserByUsername_absent hl hsel
        | some e => simp

theorem updateUser_unique (ans : Answers) (dto : UserUpdateDto) (t : Users) (h : UniqueNames t) :
    UniqueNames (step (.updateUser ans dto) t) ↔ Guard (.updateUser ans dto) t := by
  by_cases hz : dto.id = 0
  · have hnone : ¬∃ user ∈ t.rows, user.deleted = false ∧ user.id = dto.id := by
      rintro ⟨u,hu,-,hid⟩
      have := (t.used u hu).1
      omega
    have hidle : step (.updateUser ans dto) t = t := by simp [step, updateUser, hz]
    rw [hidle]
    exact iff_of_true h (fun _ _ hex => absurd hex hnone)
  · cases hsel : selectUserById ans dto.id t with
    | error err =>
      have hidle : step (.updateUser ans dto) t = t := by
        simp [step, updateUser, hz, daoUpdateUser, hsel, bind, Except.bind]
      rw [hidle]
      exact iff_of_true h (fun hl _ hex => absurd hex (selectUserById_absent hl hsel))
    | ok row =>
      obtain ⟨hl,hrow,hd,hid⟩ := selectUserById_ok hsel
      cases hs : ans.save with
      | some e =>
        obtain ⟨e',he'⟩ := save_fault (dto.assignToUser row) t hs
        have hidle : step (.updateUser ans dto) t = t := by
          simp [step, updateUser, hz, daoUpdateUser, hsel, he', bind, Except.bind]
        rw [hidle]
        exact iff_of_true h (fun _ hsave => by simp [hs] at hsave)
      | none =>
        have hstep : step (.updateUser ans dto) t = updateRow (dto.assignToUser row) t := by
          simp [step, updateUser, hz, daoUpdateUser, hsel, save, answered, hs, bind, Except.bind,
            pure, Except.pure, UserUpdateDto.assignToUser]
        rw [hstep, updateRow_unique (dto.assignToUser row) t h hd row hrow hd hid]
        simp only [Guard, hl, hs, UserUpdateDto.assignToUser, true_imp_iff]
        exact ⟨fun hg _ => hg,fun hg => hg ⟨row,hrow,hd,hid⟩⟩

/-- One call keeps the usernames unique exactly under the guard. -/
theorem step_unique (a : Action) (t : Users) (h : UniqueNames t) :
    UniqueNames (step a t) ↔ Guard a t := by
  cases a with
  | insertUser ans dto => exact insertUser_unique ans dto t h
  | updateUser ans dto => exact updateUser_unique ans dto t h
  | deleteUserById ans id =>
    refine iff_of_true ?_ trivial
    cases hs : ans.save with
    | none => simpa [step, deleteUserById, answered, hs, bind, Except.bind, pure, Except.pure]
        using deleteRow_unique id t h
    | some err => simpa [step, deleteUserById, answered, hs, bind, Except.bind] using h

/-- From an empty table the usernames stay unique exactly when no update
renames a user to the name of another one and no insert gets past a lookup
that failed although the name is taken. -/
theorem usernames_unique_exact (as : List Action) :
    Throughout step UniqueNames as (Table.empty User.id) ↔
      Along step Guard as (Table.empty User.id) :=
  throughout_iff_along step Guard (fun _ => True) UniqueNames (fun _ _ _ _ => trivial)
    (fun a t _ h => step_unique a t h) as _ trivial (by intro u hu; cases hu)

theorem rename_repeats_name :
    ¬UniqueNames (run step
      [.insertUser {} { username := "a", password := "p" },
        .insertUser {} { username := "b", password := "q" },
        .updateUser {} { id := 2, username := "a" }] (Table.empty User.id)) := by
  intro h
  have := h { id := 1, username := "a" } (by decide) { id := 2, username := "a" } (by decide)
    rfl rfl rfl
  cases this

end Gopher.UserTable
