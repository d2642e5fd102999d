import Mathlib.Data.List.Basic
import Mathlib.Tactic

/-!
# Readiness notification

A descriptor is registered with a piece of data that every report of it
carries. New input makes a registration ready once; a wait reports ready
registrations whose descriptor is readable at that time, a bounded number of
them. An edge-triggered one is then ready again only after new input, a
level-triggered one stays ready.
-/

set_option autoImplicit false

namespace Gopher.Epoll

variable {Fd : Type*}

structure Registration (Fd : Type*) where
  fd : Fd
  data : Fd
  edge : Bool
  deriving DecidableEq, Repr

structure Instance (Fd : Type*) where
  interest : List (Registration Fd)
  ready : List (Registration Fd)
  deriving DecidableEq, Repr

namespace Instance

def create (Fd : Type*) : Instance Fd where
  interest := []
  ready := []

def add (ep : Instance Fd) (r : Registration Fd) (readable : Bool) : Instance Fd where
  interest := ep.interest++[r]
  ready := if readable then ep.ready++[r] else ep.ready

/-- Registrations are visited in the order in which they became ready, until
the given number is reported. One that is not readable any more is dropped. -/
def collect (readable : Fd → Bool) :
    ℕ → List (Registration Fd) → List (Registration Fd) × List (Registration Fd)
  | _, [] => ([],[])
  | 0, rs => ([],rs)
  | n+1, r::rs =>
    if readable r.fd then
      let (seen,left) := collect readable n rs
      (r::seen,left)
    else collect readable (n+1) rs

def wait (ep : Instance Fd) (maxevents : ℕ) (readable : Fd → Bool) :
    List (Registration Fd) × Instance Fd :=
  let (seen,left) := collect readable maxevents ep.ready
  (seen,{ ep with ready := left++seen.filter (fun r => !r.edge) })

variable [DecidableEq Fd]

def arrive (ep : Instance Fd) (fd : Fd) : Instance Fd :=
  if ∃ r ∈ ep.ready, r.fd = fd then ep
  else
    match ep.interest.find? (fun r => r.fd = fd) with
    | some r => { ep with ready := ep.ready++[r] }
    | none => ep

def del (ep : Instance Fd) (fd : Fd) : Instance Fd where
  interest := ep.interest.filter (fun r => r.fd ≠ fd)
  ready := ep.ready.filter (fun r => r.fd ≠ fd)

theorem arrive_interest (ep : Instance Fd) (fd : Fd) : (ep.arrive fd).interest = ep.interest := by
  unfold arrive
  split_ifs
  · rfl
  · split <;> rfl

theorem arrive_again (ep : Instance Fd) (fd : Fd) (h : ∃ r ∈ ep.ready, r.fd = fd) :
    ep.arrive fd = ep := if_pos h

theorem arrive_ready (ep : Instance Fd) (fd : Fd) :
    (ep.arrive fd).ready = ep.ready ∨
      ∃ r ∈ ep.interest, r.fd = fd ∧ (ep.arrive fd).ready = ep.ready++[r] := by
  unfold arrive
  split_ifs
  · exact .inl rfl
  · split
    · next r hr =>
      exact .inr ⟨r,List.mem_of_find?_eq_some hr,by simpa using List.find?_some hr,rfl⟩
    · exact .inl rfl

theorem arrive_new (ep : Instance Fd) {fd : Fd} (hi : ∃ r ∈ ep.interest, r.fd = fd)
    (hr : ¬∃ r ∈ ep.ready, r.fd = fd) : (ep.arrive fd).ready.length = ep.ready.length+1 := by
  obtain ⟨r,hm,hfd⟩ := hi
  cases hf : ep.interest.find? (fun r => r.fd = fd) with
  | none =>
    have := List.find?_eq_none.mp hf r hm
    simp [hfd] at this
  | some q => simp [arrive, hr, hf]

omit [DecidableEq Fd] in
theorem collect_mem (readable : Fd → Bool) (n : ℕ) (rs : List (Registration Fd)) :
    (∀ r ∈ (collect readable n rs).1, r ∈ rs) ∧ ∀ r ∈ (collect readable n rs).2, r ∈ rs := by
  induction rs generalizing n with
  | nil => cases n <;> exact ⟨nofun,nofun⟩
  | cons q rs ih =>
    cases n with
    | zero => exact ⟨nofun,fun _ h => h⟩
    | succ n =>
      rw [collect]
      split_ifs
      · obtain ⟨hseen,hleft⟩ := ih n
        refine ⟨?_,fun r hr => List.mem_cons_of_mem _ (hleft r hr)⟩
        intro r hr
        rcases List.mem_cons.mp hr with rfl | hr
        · exact List.mem_cons_self
        · exact List.mem_cons_of_mem _ (hseen r hr)
      · obtain ⟨hseen,hleft⟩ := ih (n+1)
        exact ⟨fun r hr => List.mem_cons_of_mem _ (hseen r hr),
          fun r hr => List.mem_cons_of_mem _ (hleft r hr)⟩

omit [DecidableEq Fd] in
theorem collect_length (readable : Fd → Bool) (n : ℕ) (rs : List (Registration Fd)) :
    (collect readable n rs).1.length+(collect readable n rs).2.length ≤ rs.length := by
  induction rs generalizing n with
  | nil => cases n <;> simp [collect]
  | cons q rs ih =>
    cases n with
    | zero => simp [collect]
    | succ n =>
      rw [collect]
      split_ifs
      · have := ih n
        simp only [List.length_cons]
        omega
      · have := ih (n+1)
        simp only [List.length_cons]
        omega

omit [DecidableEq Fd] in
/-- As long as everything ready is readable nothing is dropped. -/
theorem collect_all (readable : Fd → Bool) (n : ℕ) (rs : List (Registration Fd))
    (h : ∀ r ∈ rs, readable r.fd = true) :
    (collect readable n rs).1++(collect readable n rs).2 = rs := by
  induction rs generalizing n with
  | nil => cases n <;> rfl
  | cons q rs ih =>
    cases n with
    | zero => rfl
    | succ n =>
      have hrest := ih n (fun r hr => h r (List.mem_cons_of_mem _ hr))
      simp [collect, h q List.mem_cons_self, hrest]

omit [DecidableEq Fd] in
theorem collect_some (readable : Fd → Bool) {n : ℕ} (hn : 0 < n) (r : Registration Fd)
    (rs : List (Registration Fd)) (h : readable r.fd = true) :
    (collect readable n (r::rs)).1 ≠ [] := by
  obtain ⟨m,rfl⟩ := Nat.exists_eq_succ_of_ne_zero hn.ne'
  simp [collect, h]

end Instance

end Gopher.Epoll
