import Mathlib.Tactic

/-!
# The lifetime of a token

A duration is a 64-bit number of nanoseconds and wraps around. The configured
number of seconds is multiplied by the length of a second twice before it is
added to the time of issue. A date in a token is a number of whole seconds,
rounded down. The library reads back what it signed and rejects a token from
the moment it expires on. Times are nanoseconds.
-/

set_option autoImplicit false

namespace Gopher.JwtLifetime

abbrev Duration := Int64

def second : Duration := 1000000000

def Duration.after (now : ℤ) (d : Duration) : ℤ := now+d.toInt

def newNumericDate (time : ℤ) : ℤ := time/10^9

structure RegisteredClaims where
  issuedAt : ℤ
  subject : String
  expiresAt : ℤ
  deriving DecidableEq, Repr

structure Payload where
  id : UInt64
  username : String
  registeredClaims : RegisteredClaims
  deriving DecidableEq, Repr

structure Jwt (Key Token : Type*) where
  signedString : Key → Payload → Except String Token
  decode : Key → Token → Except String Payload
  decode_signed : ∀ key p tok, signedString key p = .ok tok → decode key tok = .ok p

variable {Key Token : Type*}

def Jwt.parseWithClaims (jwt : Jwt Key Token) (key : Key) (now : ℤ) (tok : Token) :
    Except String (Payload × Bool) :=
  match jwt.decode key tok with
  | .error err => .error err
  | .ok p =>
    if now < p.registeredClaims.expiresAt*10^9 then .ok (p,true)
    else .error "token has invalid claims: token is expired"

/-- The two readings of the clock are those for the two dates. -/
def genToken (jwt : Jwt Key Token) (signingKey : Key) (jwtExpire : Int64) (nowIssued now : ℤ)
    (id : UInt64) (username : String) : Except String Token :=
  let expire : Duration := jwtExpire*second
  let registeredClaims : RegisteredClaims :=
    { issuedAt := newNumericDate nowIssued
      subject := "Token"
      expiresAt := newNumericDate (Duration.after now (expire*second)) }
  jwt.signedString signingKey { id, username, registeredClaims }

def parseToken (jwt : Jwt Key Token) (signingKey : Key) (now : ℤ) (tokStr : Token) :
    Except String Payload :=
  match jwt.parseWithClaims signingKey now tokStr with
  | .error err => .error err
  | .ok (payload,valid) => if valid then .ok payload else .error "token invalid"

/-! ## What was configured -/

/-- The token carries the second `e` seconds behind the second of its issue, is accepted
before that moment and rejected after it. -/
structure LivesFor (jwt : Jwt Key Token) (key : Key) (e t : ℤ) (tok : Token) : Prop where
  carries : ∃ p, jwt.decode key tok = .ok p ∧ p.registeredClaims.expiresAt = t/10^9+e
  accepts : ∀ now < (t/10^9+e)*10^9, ∃ p, parseToken jwt key now tok = .ok p
  rejects : ∀ now > (t/10^9+e)*10^9, ∃ err, parseToken jwt key now tok = .error err

theorem parseToken_of_decode {jwt : Jwt Key Token} {key : Key} {tok : Token} {p : Payload}
    (h : jwt.decode key tok = .ok p) (now : ℤ) :
    parseToken jwt key now tok =
      if now < p.registeredClaims.expiresAt*10^9 then .ok p
      else .error "token has invalid claims: token is expired" := by
  rw [parseToken, Jwt.parseWithClaims, h]
  dsimp only
  by_cases hnow : now < p.registeredClaims.expiresAt*10^9
  · rw [if_pos hnow, if_pos hnow]
    rfl
  · rw [if_neg hnow, if_neg hnow]

theorem livesFor_iff {jwt : Jwt Key Token} {key : Key} {tok : Token} {p : Payload}
    (h : jwt.decode key tok = .ok p) (e t : ℤ) :
    LivesFor jwt key e t tok ↔ p.registeredClaims.expiresAt = t/10^9+e := by
  constructor
  · intro hl
    obtain ⟨p',hp',hexp⟩ := hl.carries
    cases h.symm.trans hp'
    exact hexp
  · intro hexp
    refine ⟨⟨p,h,hexp⟩,?_,?_⟩
    · intro now hnow
      exact ⟨p,by rw [parseToken_of_decode h, hexp, if_pos hnow]⟩
    · intro now hnow
      exact ⟨_,by rw [parseToken_of_decode h, hexp, if_neg (by omega)]⟩

/-! ## What is computed -/

theorem toInt_mul_wraps (a b : Int64) : ∃ q : ℤ, (a*b).toInt = a.toInt*b.toInt-q*2^64 := by
  obtain ⟨q,hq⟩ := Int.dvd_bmod_sub_self (x := a.toInt*b.toInt) (m := 2^64)
  refine ⟨-q,?_⟩
  rw [Int64.toInt_mul]
  push_cast at hq ⊢
  linarith

/-- The duration added to the time of issue, up to a multiple of `2^64`. -/
theorem toInt_lifetime (e : Int64) :
    ∃ q : ℤ, (e*second*second).toInt = e.toInt*10^18-q*2^64 := by
  have hsecond : second.toInt = 10^9 := by decide
  obtain ⟨a,ha⟩ := toInt_mul_wraps e second
  obtain ⟨b,hb⟩ := toInt_mul_wraps (e*second) second
  refine ⟨a*10^9+b,?_⟩
  rw [hb, ha, hsecond]
  ring

/-- No number of seconds below `2^63` nanoseconds, multiplied by a second less a nanosecond,
comes within a second of a multiple of `2^64`. The two pairs of coefficients are the closest
approximations from either side; together they generate all of them. -/
theorem no_near_multiple {e q : ℤ} (hpos : 1 ≤ e) (hle : e ≤ 9223372036)
    (hlow : -10^9 < e*(10^18-10^9)-q*2^64) (hhigh : e*(10^18-10^9)-q*2^64 < 10^9) : False := by
  obtain ⟨x,y,rfl,rfl⟩ : ∃ x y : ℤ, e = 4598847661*x+6311530156*y ∧
      q = 249304031*x+342148735*y :=
    ⟨6311530156*q-342148735*e,249304031*e-4598847661*q,by ring,by ring⟩
  by_cases hx : 1 ≤ x
  · have hy : y ≤ 0 := by omega
    omega
  · have hy : 1 ≤ y := by omega
    omega

theorem newNumericDate_eq_iff {e : Int64} (h0 : 0 ≤ e) (hmax : e.toInt*10^9 < 2^63) (t : ℤ) :
    newNumericDate (Duration.after t (e*second*second)) = t/10^9+e.toInt ↔ e = 0 := by
  rw [Int64.le_iff_toInt_le] at h0
  have hzero : (0 : Int64).toInt = 0 := rfl
  obtain ⟨q,hq⟩ := toInt_lifetime e
  rw [newNumericDate, Duration.after]
  constructor
  · intro h
    rw [← Int64.toInt_inj, hzero]
    by_contra hne
    rw [hq] at h
    exact no_near_multiple (e := e.toInt) (q := q) (by omega) (by omega) (by omega) (by omega)
  · rintro rfl
    have : ((0 : Int64)*second*second).toInt = 0 := by decide
    rw [this]
    simp

/-- Of all settings whose seconds fit a duration only zero gives the configured lifetime. -/
theorem genToken_livesFor_iff (jwt : Jwt Key Token) (signingKey : Key) (jwtExpire : Int64)
    (h0 : 0 ≤ jwtExpire) (hmax : jwtExpire.toInt*10^9 < 2^63) (nowIssued t : ℤ) (id : UInt64)
    (username : String) (tok : Token)
    (htok : genToken jwt signingKey jwtExpire nowIssued t id username = .ok tok) :
    LivesFor jwt signingKey jwtExpire.toInt t tok ↔ jwtExpire = 0 := by
  rw [livesFor_iff (jwt.decode_signed signingKey _ tok htok)]
  exact newNumericDate_eq_iff h0 hmax t

def plain : Jwt Unit Payload where
  signedString _ p := .ok p
  decode _ p := .ok p
  decode_signed _ p tok h := by
    cases h
    rfl

theorem genToken_livesFor_zero :
    LivesFor plain () 0 1725148800000000000
      ⟨1,"root",⟨1725148800,"Token",1725148800⟩⟩ :=
  (genToken_livesFor_iff plain () 0 (by decide) (by decide) 1725148800000000000
    1725148800000000000 1 "root" _ rfl).mpr rfl

/-- With the sixty seconds of the settings the token lives for 4659767778 seconds: a century
after its issue it is still accepted. -/
theorem genToken_sixty_lives_too_long :
    genToken plain () 60 1725148800000000000 1725148800000000000 1 "root" =
      .ok ⟨1,"root",⟨1725148800,"Token",1725148800+4659767778⟩⟩ ∧
    parseToken plain () ((1725148800+3155760000)*10^9)
      ⟨1,"root",⟨1725148800,"Token",1725148800+4659767778⟩⟩ =
      .ok ⟨1,"root",⟨1725148800,"Token",1725148800+4659767778⟩⟩ ∧
    ¬LivesFor plain () 60 1725148800000000000
      ⟨1,"root",⟨1725148800,"Token",1725148800+4659767778⟩⟩ := by
  refine ⟨rfl,rfl,?_⟩
  rw [livesFor_iff rfl]
  decide

end Gopher.JwtLifetime
