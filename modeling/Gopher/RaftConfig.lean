import Gopher.LabrpcCalls

/-!
# Crashing and restarting a server

`crash1` and `start1` of the Raft tester over the simulated network, statement by
statement, for every server independently. A peer is never really killed: whatever
was made may save into the Persister it was given at any time. Making, enabling and
disabling ends and making calls are steps of the network that may come at any time.
-/

set_option autoImplicit false

namespace Gopher.RaftConfig
open Gopher.MapReduce Gopher.MapOrders Gopher.StepRuns Gopher.Labrpc

variable {ε : Type}

structure Persister where
  raftstate : GoString
  snapshot : GoString
  deriving DecidableEq

structure Raft where
  me : ℕ
  persister : ℕ
  deriving DecidableEq

/-- The statement of `crash1` or `start1` that was executed last for a server. -/
inductive Phase where
  | idle
  | deleted (restart : Bool)
  | copied (restart : Bool)
  | killed (restart : Bool)
  | crashed
  | ready
  | made (rf : ℕ)
  | installed (rf : ℕ)
  | served (rf srv : ℕ)
  | registered (rf srv : ℕ)
  deriving DecidableEq

/-- Persisters are known by their address. All peers that were ever made are listed, and for
every server of the network the peer it belongs to. -/
structure Config (ε : Type) where
  net : State ε ℕ
  contents : ℕ → Persister
  allocated : ℕ
  saved : ℕ → Option ℕ
  made : List Raft
  rafts : ℕ → Option ℕ
  dead : ℕ → Bool
  hosts : List ℕ
  phase : ℕ → Phase

inductive Act (ε : Type) where
  | net (a : Action ε ℕ)
  | save (rf : ℕ) (content : Persister)
  | crash (i : ℕ) (restart : Bool)
  | copy (i : ℕ)
  | kill (i : ℕ)
  | resave (i : ℕ)
  | adopt (i : ℕ)
  | make (i : ℕ)
  | install (i : ℕ)
  | makeServer (i : ℕ)
  | addService (i : ℕ) (name : GoString) (methods : List GoString)
  | addServer (i : ℕ)

def free : Action ε ℕ → Bool
  | .makeServer => false
  | .addService _ _ _ => false
  | .addServer _ _ => false
  | .deleteServer _ => false
  | _ => true

namespace Config

variable (s : Config ε)

def allocate (i : ℕ) (content : Persister) : Config ε :=
  { s with
    contents := Function.update s.contents s.allocated content
    allocated := s.allocated+1
    saved := Function.update s.saved i (some s.allocated) }

def copySaved (i : ℕ) : Config ε :=
  match s.saved i with
  | some a => s.allocate i (s.contents a)
  | none => s

def setPhase (i : ℕ) (phase : Phase) : Config ε :=
  { s with phase := Function.update s.phase i phase }

def killRaft (i : ℕ) : Config ε :=
  match s.rafts i with
  | some rf =>
    { s with
      dead := Function.update s.dead rf true
      rafts := Function.update s.rafts i none }
  | none => s

end Config

section Steps

variable [DecidableEq ε]

def restart (chance : Chance) (s : Config ε) : Act ε → Option (Config ε)
  | .crash i restart =>
    match s.phase i with
    | .idle => some ({ s with net := Labrpc.step chance (.deleteServer i) s.net }.setPhase i
        (.deleted restart))
    | _ => none
  | .copy i =>
    match s.phase i with
    | .deleted restart => some ((s.copySaved i).setPhase i (.copied restart))
    | _ => none
  | .kill i =>
    match s.phase i with
    | .copied restart => some ((s.killRaft i).setPhase i (.killed restart))
    | _ => none
  | .resave i =>
    match s.phase i with
    | .killed restart => some ((s.copySaved i).setPhase i (if restart then .crashed else .idle))
    | _ => none
  | .adopt i =>
    match s.phase i, s.saved i with
    | .crashed, some _ => some ((s.copySaved i).setPhase i .ready)
    | .crashed, none => some ((s.allocate i ⟨[],[]⟩).setPhase i .ready)
    | _, _ => none
  | .make i =>
    match s.phase i, s.saved i with
    | .ready, some a => some ({ s with made := s.made++[(⟨i,a⟩ : Raft)] }.setPhase i
        (.made s.made.length))
    | _, _ => none
  | .install i =>
    match s.phase i with
    | .made rf => some ({ s with rafts := Function.update s.rafts i (some rf) }.setPhase i
        (.installed rf))
    | _ => none
  | .makeServer i =>
    match s.phase i with
    | .installed rf => some ({ s with
        net := Labrpc.step chance .makeServer s.net
        hosts := s.hosts++[rf] }.setPhase i (.served rf s.hosts.length))
    | _ => none
  | .addService i name methods =>
    match s.phase i with
    | .served rf srv => some ({ s with
        net := Labrpc.step chance (.addService srv name methods) s.net }.setPhase i
          (.registered rf srv))
    | _ => none
  | .addServer i =>
    match s.phase i with
    | .registered _ srv => some ({ s with
        net := Labrpc.step chance (.addServer i srv) s.net }.setPhase i .idle)
    | _ => none
  | _ => none

def step (chance : Chance) (a : Act ε) (s : Config ε) : Config ε :=
  if s.net.fatal.isSome then s
  else match a with
    | .net a => if free a then { s with net := Labrpc.step chance a s.net } else s
    | .save rf content =>
      match s.made[rf]? with
      | some r => { s with contents := Function.update s.contents r.persister content }
      | none => s
    | a => (restart chance s a).getD s

end Steps

def start : Config ε where
  net := Labrpc.start
  contents := fun _ => ⟨[],[]⟩
  allocated := 0
  saved := fun _ => none
  made := []
  rafts := fun _ => none
  dead := fun _ => false
  hosts := []
  phase := fun _ => .idle

/-! ## The wiring -/

def Config.Holds (s : Config ε) (i rf a : ℕ) : Prop :=
  s.made[rf]? = some ⟨i,a⟩ ∧ s.saved i = some a

def PhaseOk (s : Config ε) (i : ℕ) : Phase → Prop
  | .idle => True
  | .deleted _ => True
  | .copied _ => True
  | .killed _ => s.rafts i = none
  | .crashed => s.rafts i = none
  | .ready => s.rafts i = none
  | .made rf => (∃ a, s.Holds i rf a) ∧ s.rafts i = none ∧ s.dead rf = false
  | .installed rf => (∃ a, s.Holds i rf a) ∧ s.rafts i = some rf ∧ s.dead rf = false
  | .served rf srv => (∃ a, s.Holds i rf a) ∧ s.rafts i = some rf ∧ s.dead rf = false ∧
      s.hosts[srv]? = some rf
  | .registered rf srv => (∃ a, s.Holds i rf a) ∧ s.rafts i = some rf ∧ s.dead rf = false ∧
      s.hosts[srv]? = some rf

def Phase.shared : Phase → Bool
  | .copied _ => false
  | .killed _ => false
  | .crashed => false
  | .ready => false
  | _ => true

structure Wired (chance : Chance) (s : Config ε) : Prop where
  net : Inv chance s.net
  hosts : s.hosts.length = s.net.objects.length
  hosted : ∀ rf ∈ s.hosts, rf < s.made.length
  persister : ∀ r ∈ s.made, r.persister < s.allocated
  saved : ∀ i a, s.saved i = some a → a < s.allocated
  placed : ∀ i p, s.net.net.serverOf i = some p → s.phase i = .idle ∧
    ∃ rf a, s.hosts[p]? = some rf ∧ s.Holds i rf a ∧ s.rafts i = some rf ∧ s.dead rf = false
  phases : ∀ i, PhaseOk s i (s.phase i)
  own : ∀ i j a, s.saved i = some a → s.saved j = some a → i = j
  apart : ∀ (rf rf' : ℕ) (r r' : Raft), s.made[rf]? = some r → s.made[rf']? = some r' →
    r.persister = r'.persister → rf = rf'
  shared : ∀ (rf : ℕ) (r : Raft) (i : ℕ), s.made[rf]? = some r → s.saved i = some r.persister →
    i = r.me ∧ (s.phase i).shared = true ∧ s.dead rf = false
  alive : ∀ (rf : ℕ) (r : Raft), s.made[rf]? = some r → s.dead rf = false →
    s.rafts r.me = some rf ∨ s.phase r.me = .made rf
  unmade : ∀ rf, s.made.length ≤ rf → s.dead rf = false
  current : ∀ i rf, s.rafts i = some rf → ∃ a, s.made[rf]? = some ⟨i,a⟩

structure Local (i : ℕ) (s s' : Config ε) : Prop where
  servers : ∀ j, j ≠ i → s'.net.net.serverOf j = s.net.net.serverOf j
  saved : ∀ j, j ≠ i → s'.saved j = s.saved j
  rafts : ∀ j, j ≠ i → s'.rafts j = s.rafts j
  phase : ∀ j, j ≠ i → s'.phase j = s.phase j
  made : ∀ (rf : ℕ) (r : Raft), s.made[rf]? = some r → s'.made[rf]? = some r
  hosts : ∀ p rf : ℕ, s.hosts[p]? = some rf → s'.hosts[p]? = some rf
  dead : ∀ (rf : ℕ) (r : Raft), s.made[rf]? = some r → r.me ≠ i → s'.dead rf = s.dead rf

section Frames

variable {s s' : Config ε} {i j : ℕ} {chance : Chance}

theorem Local.holds (h : Local i s s') (hj : j ≠ i) {rf a : ℕ} (hh : s.Holds j rf a) :
    s'.Holds j rf a ∧ s'.dead rf = s.dead rf :=
  ⟨⟨h.made rf _ hh.1,(h.saved j hj).trans hh.2⟩,h.dead rf _ hh.1 hj⟩

theorem Local.phaseOk (h : Local i s s') (hj : j ≠ i) {φ : Phase} (hφ : PhaseOk s j φ) :
    PhaseOk s' j φ := by
  have hrafts := h.rafts j hj
  cases φ with
  | idle | deleted | copied => trivial
  | killed | crashed | ready => exact hrafts.trans hφ
  | made rf =>
    obtain ⟨⟨a,ha⟩,hnone,hdead⟩ := hφ
    have hholds := h.holds hj ha
    exact ⟨⟨a,hholds.1⟩,hrafts.trans hnone,hholds.2.trans hdead⟩
  | installed rf =>
    obtain ⟨⟨a,ha⟩,hsome,hdead⟩ := hφ
    have hholds := h.holds hj ha
    exact ⟨⟨a,hholds.1⟩,hrafts.trans hsome,hholds.2.trans hdead⟩
  | served rf srv | registered rf srv =>
    obtain ⟨⟨a,ha⟩,hsome,hdead,hhost⟩ := hφ
    have hholds := h.holds hj ha
    exact ⟨⟨a,hholds.1⟩,hrafts.trans hsome,hholds.2.trans hdead,h.hosts _ _ hhost⟩

theorem Local.placed (h : Local i s s') (hw : Wired chance s)
    (hi : ∀ p, s'.net.net.serverOf i = some p → s'.phase i = .idle ∧
      ∃ rf a, s'.hosts[p]? = some rf ∧ s'.Holds i rf a ∧ s'.rafts i = some rf ∧
        s'.dead rf = false) :
    ∀ j p, s'.net.net.serverOf j = some p → s'.phase j = .idle ∧
      ∃ rf a, s'.hosts[p]? = some rf ∧ s'.Holds j rf a ∧ s'.rafts j = some rf ∧
        s'.dead rf = false := by
  intro j p hp
  by_cases hj : j = i
  · subst hj
    exact hi p hp
  · rw [h.servers j hj] at hp
    obtain ⟨hidle,rf,a,hhost,hholds,hraft,hdead⟩ := hw.placed j p hp
    have hnew := h.holds hj hholds
    exact ⟨(h.phase j hj).trans hidle,rf,a,h.hosts p rf hhost,hnew.1,(h.rafts j hj).trans hraft,
      hnew.2.trans hdead⟩

theorem Local.phases (h : Local i s s') (hw : Wired chance s) (hi : PhaseOk s' i (s'.phase i)) :
    ∀ j, PhaseOk s' j (s'.phase j) := by
  intro j
  by_cases hj : j = i
  · subst hj
    exact hi
  · rw [h.phase j hj]
    exact h.phaseOk hj (hw.phases j)

theorem Wired.moved (hw : Wired chance s) (h : Local i s s') (hnet : Inv chance s'.net)
    (hhosts : s'.hosts.length = s'.net.objects.length)
    (hhosted : ∀ rf ∈ s'.hosts, rf < s.made.length) (hmade : s'.made = s.made)
    (hsaved : s'.saved = s.saved) (hallocated : s'.allocated = s.allocated)
    (hplaced : ∀ p, s'.net.net.serverOf i = some p → s'.phase i = .idle ∧
      ∃ rf a, s'.hosts[p]? = some rf ∧ s'.Holds i rf a ∧ s'.rafts i = some rf ∧
        s'.dead rf = false)
    (hphase : PhaseOk s' i (s'.phase i))
    (hshared : s.saved i ≠ none → (s.phase i).shared = true →
      (s'.phase i).shared = true ∧ s'.dead = s.dead)
    (halive : ∀ (rf : ℕ) (r : Raft), s.made[rf]? = some r → r.me = i → s'.dead rf = false →
      s'.rafts i = some rf ∨ s'.phase i = .made rf)
    (hunmade : ∀ rf, s.made.length ≤ rf → s'.dead rf = false)
    (hcurrent : ∀ rf, s'.rafts i = some rf → ∃ a, s.made[rf]? = some ⟨i,a⟩) :
    Wired chance s' where
  net := hnet
  hosts := hhosts
  hosted := by rw [hmade]; exact hhosted
  persister := by rw [hmade, hallocated]; exact hw.persister
  saved := by rw [hsaved, hallocated]; exact hw.saved
  placed := h.placed hw hplaced
  phases := h.phases hw hphase
  own := by rw [hsaved]; exact hw.own
  apart := by rw [hmade]; exact hw.apart
  shared := by
    rw [hmade, hsaved]
    intro rf r j hr hj
    obtain ⟨hme,hold,hdead⟩ := hw.shared rf r j hr hj
    by_cases hji : j = i
    · subst hji
      have hnew := hshared (fun hnone => by cases hnone.symm.trans hj) hold
      exact ⟨hme,hnew.1,by rw [hnew.2]; exact hdead⟩
    · rw [h.phase j hji, h.dead rf r hr (hme ▸ hji)]
      exact ⟨hme,hold,hdead⟩
  alive := by
    rw [hmade]
    intro rf r hr hdead
    by_cases hme : r.me = i
    · rw [hme]
      exact halive rf r hr hme hdead
    · rw [h.dead rf r hr hme] at hdead
      rw [h.rafts _ hme, h.phase _ hme]
      exact hw.alive rf r hr hdead
  unmade := by rw [hmade]; exact hunmade
  current := by
    rw [hmade]
    intro j rf hj
    by_cases hji : j = i
    · subst hji
      exact hcurrent rf hj
    · rw [h.rafts j hji] at hj
      exact hw.current j rf hj

theorem local_net {n : State ε ℕ}
    (h : ∀ j, j ≠ i → n.net.serverOf j = s.net.net.serverOf j) (φ : Phase) :
    Local i s ({ s with net := n }.setPhase i φ) :=
  ⟨h,fun _ _ => rfl,fun _ _ => rfl,fun _ hj => Function.update_of_ne hj _ _,fun _ _ => id,
    fun _ _ => id,fun _ _ _ _ => rfl⟩

theorem Wired.unplaced (hw : Wired chance s) (hphase : s.phase i ≠ .idle) (p : ℕ) :
    s.net.net.serverOf i ≠ some p :=
  fun hp => hphase (hw.placed i p hp).1

theorem Wired.only (hw : Wired chance s)
    (hmade : ∀ rf, s.phase i ≠ .made rf) {rf' : ℕ} {r : Raft} (hr : s.made[rf']? = some r)
    (hme : r.me = i) (hdead : s.dead rf' = false) : s.rafts i = some rf' := by
  subst hme
  rcases hw.alive rf' r hr hdead with hraft | hp
  · exact hraft
  · exact absurd hp (hmade rf')

section Allocate

variable {content : Persister} {φ : Phase}

theorem local_allocate (s : Config ε) (i : ℕ) (content : Persister) (φ : Phase) :
    Local i s ((s.allocate i content).setPhase i φ) :=
  ⟨fun _ _ => rfl,fun _ hj => Function.update_of_ne hj _ _,fun _ _ => rfl,
    fun _ hj => Function.update_of_ne hj _ _,fun _ _ => id,fun _ _ => id,fun _ _ _ _ => rfl⟩

theorem saved_allocate (s : Config ε) (i : ℕ) (content : Persister) (φ : Phase) :
    ((s.allocate i content).setPhase i φ).saved i = some s.allocated :=
  Function.update_self i _ _

theorem Wired.own_allocate (hw : Wired chance s) (j k a : ℕ)
    (hj : ((s.allocate i content).setPhase i φ).saved j = some a)
    (hk : ((s.allocate i content).setPhase i φ).saved k = some a) : j = k := by
  have hlocal := local_allocate s i content φ
  have hfresh : ∀ j, j ≠ i →
      ((s.allocate i content).setPhase i φ).saved j ≠ some s.allocated := by
    intro j hj ha
    rw [hlocal.saved j hj] at ha
    exact lt_irrefl _ (hw.saved j _ ha)
  by_cases hji : j = i <;> by_cases hki : k = i
  · rw [hji, hki]
  · rw [hji, saved_allocate] at hj
    rw [← hj] at hk
    exact absurd hk (hfresh k hki)
  · rw [hki, saved_allocate] at hk
    rw [← hk] at hj
    exact absurd hj (hfresh j hji)
  · rw [hlocal.saved j hji] at hj
    rw [hlocal.saved k hki] at hk
    exact hw.own j k a hj hk

theorem Wired.shared_allocate (hw : Wired chance s) (rf : ℕ) (r : Raft) (j : ℕ)
    (hr : s.made[rf]? = some r)
    (hj : ((s.allocate i content).setPhase i φ).saved j = some r.persister) :
    j = r.me ∧ (((s.allocate i content).setPhase i φ).phase j).shared = true ∧
      s.dead rf = false := by
  have hlocal := local_allocate s i content φ
  by_cases hji : j = i
  · rw [hji, saved_allocate] at hj
    have hlt := hw.persister r (List.mem_of_getElem? hr)
    rw [← Option.some.inj hj] at hlt
    exact absurd hlt (lt_irrefl _)
  · rw [hlocal.saved j hji] at hj
    rw [hlocal.phase j hji]
    exact hw.shared rf r j hr hj

theorem Wired.allocate (hw : Wired chance s) (hidle : s.phase i ≠ .idle)
    (hmade : ∀ rf, s.phase i ≠ .made rf)
    (hφ : PhaseOk ((s.allocate i content).setPhase i φ) i φ) :
    Wired chance ((s.allocate i content).setPhase i φ) := by
  have hlocal := local_allocate s i content φ
  have hphase : ((s.allocate i content).setPhase i φ).phase i = φ := Function.update_self i _ _
  refine ⟨hw.net,hw.hosts,hw.hosted,?_,?_,hlocal.placed hw ?_,hlocal.phases hw ?_,hw.own_allocate,
    hw.apart,hw.shared_allocate,?_,hw.unmade,hw.current⟩
  · intro r hr
    exact (hw.persister r hr).trans (Nat.lt_succ_self _)
  · intro j a ha
    by_cases hj : j = i
    · rw [hj, saved_allocate] at ha
      cases ha
      exact Nat.lt_succ_self _
    · rw [hlocal.saved j hj] at ha
      exact (hw.saved j a ha).trans (Nat.lt_succ_self _)
  · intro p hp
    exact absurd hp (hw.unplaced hidle p)
  · rw [hphase]
    exact hφ
  · intro rf r hr hdead
    by_cases hme : r.me = i
    · rw [hme]
      exact Or.inl (hw.only hmade hr hme hdead)
    · rw [hlocal.phase _ hme]
      exact hw.alive rf r hr hdead

end Allocate

theorem Wired.copySaved (hw : Wired chance s) {φ : Phase} (hidle : s.phase i ≠ .idle)
    (hmade : ∀ rf, s.phase i ≠ .made rf)
    (hφ : ∀ t : Config ε, t.rafts = s.rafts → PhaseOk t i φ) :
    Wired chance ((s.copySaved i).setPhase i φ) := by
  rw [Config.copySaved]
  split
  · exact hw.allocate hidle hmade (hφ _ rfl)
  · rename_i hnone
    have hphase : (s.setPhase i φ).phase i = φ := Function.update_self i _ _
    refine hw.moved (local_net (fun _ _ => rfl) φ) hw.net hw.hosts hw.hosted rfl rfl rfl
      (fun p hp => absurd hp (hw.unplaced hidle p)) ?_ (fun hsome => absurd hnone hsome) ?_ hw.unmade
      (hw.current i)
    · rw [hphase]
      exact hφ _ rfl
    · intro rf r hr hme hdead
      exact Or.inl (hw.only hmade hr hme hdead)

theorem getElem?_concat_of_some {α : Type} {l : List α} {x y : α} {k : ℕ}
    (h : l[k]? = some y) : (l++[x])[k]? = some y :=
  (List.getElem?_append_left (List.getElem?_eq_some_iff.mp h).1).trans h

theorem getElem?_concat_cases {α : Type} {l : List α} {x y : α} {k : ℕ}
    (h : (l++[x])[k]? = some y) : l[k]? = some y ∨ k = l.length ∧ y = x := by
  rcases lt_or_ge k l.length with hlt | hge
  · rw [List.getElem?_append_left hlt] at h
    exact Or.inl h
  · rw [List.getElem?_append_right hge, List.getElem?_singleton] at h
    split at h
    · exact Or.inr ⟨by omega,(Option.some.inj h).symm⟩
    · cases h

section Make

variable {a : ℕ}

abbrev Config.withRaft (s : Config ε) (i a : ℕ) : Config ε :=
  { s with made := s.made++[(⟨i,a⟩ : Raft)] }.setPhase i (.made s.made.length)

theorem local_withRaft (s : Config ε) (i a : ℕ) : Local i s (s.withRaft i a) :=
  ⟨fun _ _ => rfl,fun _ _ => rfl,fun _ _ => rfl,fun _ hj => Function.update_of_ne hj _ _,
    fun _ _ => getElem?_concat_of_some,fun _ _ => id,fun _ _ _ _ => rfl⟩

theorem phase_withRaft (s : Config ε) (i a : ℕ) :
    (s.withRaft i a).phase i = .made s.made.length :=
  Function.update_self i _ _

theorem Wired.unshared (hw : Wired chance s) (hready : s.phase i = .ready) {rf : ℕ} {r : Raft}
    (hr : s.made[rf]? = some r) : s.saved i ≠ some r.persister := by
  intro hi
  have hsh := (hw.shared rf r i hr hi).2.1
  rw [hready] at hsh
  cases hsh

theorem Wired.apart_withRaft (hw : Wired chance s) (hready : s.phase i = .ready)
    (ha : s.saved i = some a) (rf rf' : ℕ) (r r' : Raft)
    (hr : (s.withRaft i a).made[rf]? = some r) (hr' : (s.withRaft i a).made[rf']? = some r')
    (heq : r.persister = r'.persister) : rf = rf' := by
  rcases getElem?_concat_cases hr with hr | ⟨rfl,rfl⟩ <;>
    rcases getElem?_concat_cases hr' with hr' | ⟨rfl,rfl⟩
  · exact hw.apart rf rf' r r' hr hr' heq
  · exact absurd (by rw [ha, heq]) (hw.unshared hready hr)
  · exact absurd (by rw [ha, ← heq]) (hw.unshared hready hr')
  · rfl

theorem Wired.shared_withRaft (hw : Wired chance s) (hready : s.phase i = .ready)
    (ha : s.saved i = some a) (rf : ℕ) (r : Raft) (j : ℕ)
    (hr : (s.withRaft i a).made[rf]? = some r) (hj : s.saved j = some r.persister) :
    j = r.me ∧ ((s.withRaft i a).phase j).shared = true ∧ s.dead rf = false := by
  rcases getElem?_concat_cases hr with hr | ⟨rfl,rfl⟩
  · have hji : j ≠ i := fun hji => hw.unshared hready hr (hji ▸ hj)
    rw [(local_withRaft s i a).phase j hji]
    exact hw.shared rf r j hr hj
  · obtain rfl : j = i := hw.own j i a hj ha
    exact ⟨rfl,by rw [phase_withRaft]; rfl,hw.unmade _ le_rfl⟩

theorem Wired.alive_withRaft (hw : Wired chance s) (hready : s.phase i = .ready)
    (hrafts : s.rafts i = none) (rf : ℕ) (r : Raft) (hr : (s.withRaft i a).made[rf]? = some r)
    (hdead : s.dead rf = false) :
    s.rafts r.me = some rf ∨ (s.withRaft i a).phase r.me = .made rf := by
  rcases getElem?_concat_cases hr with hr | ⟨rfl,rfl⟩
  · by_cases hme : r.me = i
    · have hraft := hw.only (by simp [hready]) hr hme hdead
      rw [hrafts] at hraft
      cases hraft
    · rw [(local_withRaft s i a).phase _ hme]
      exact hw.alive rf r hr hdead
  · exact Or.inr (phase_withRaft s i a)

theorem Wired.make (hw : Wired chance s) (hready : s.phase i = .ready) (ha : s.saved i = some a) :
    Wired chance ({ s with made := s.made++[(⟨i,a⟩ : Raft)] }.setPhase i
      (.made s.made.length)) := by
  have hlocal := local_withRaft s i a
  have hrafts : s.rafts i = none := by
    have := hw.phases i
    rw [hready] at this
    exact this
  refine ⟨hw.net,hw.hosts,?_,?_,hw.saved,hlocal.placed hw ?_,hlocal.phases hw ?_,hw.own,
    hw.apart_withRaft hready ha,hw.shared_withRaft hready ha,hw.alive_withRaft hready hrafts,
    ?_,?_⟩
  · intro rf hrf
    have hlt := hw.hosted rf hrf
    simp only [Config.setPhase, List.length_append, List.length_singleton]
    omega
  · intro r hr
    rcases List.mem_append.mp hr with hr | hr
    · exact hw.persister r hr
    · cases List.mem_singleton.mp hr
      exact hw.saved i a ha
  · intro p hp
    exact absurd hp (hw.unplaced (by simp [hready]) p)
  · rw [phase_withRaft]
    exact ⟨⟨a,by simp [Config.Holds, Config.setPhase, ha]⟩,hrafts,hw.unmade _ le_rfl⟩
  · intro rf hrf
    simp only [Config.setPhase, List.length_append, List.length_singleton] at hrf
    exact hw.unmade rf (by omega)
  · intro j rf hj
    obtain ⟨b,hb⟩ := hw.current j rf hj
    exact ⟨b,getElem?_concat_of_some hb⟩

end Make

theorem Wired.killed (hw : Wired chance s) {r : Bool} {rf : ℕ} (hcopied : s.phase i = .copied r)
    (hrf : s.rafts i = some rf) :
    Wired chance ({ s with
      dead := Function.update s.dead rf true
      rafts := Function.update s.rafts i none }.setPhase i (.killed r)) := by
  obtain ⟨a,ha⟩ := hw.current i rf hrf
  refine hw.moved (i := i) ⟨fun _ _ => rfl,fun _ _ => rfl,
    fun j hj => Function.update_of_ne hj _ _,fun j hj => Function.update_of_ne hj _ _,
    fun _ _ => id,fun _ _ => id,?_⟩ hw.net hw.hosts hw.hosted rfl rfl rfl
    (fun p hp => absurd hp (hw.unplaced (by simp [hcopied]) p)) ?_ ?_ ?_ ?_ ?_
  · intro rf' r' hr' hme
    apply Function.update_of_ne
    rintro rfl
    cases Option.some.inj (hr'.symm.trans ha)
    exact hme rfl
  · simp [Config.setPhase, PhaseOk]
  · simp [hcopied, Phase.shared]
  · intro rf' r' hr' hme hdead
    by_cases heq : rf' = rf
    · subst heq
      simp [Config.setPhase] at hdead
    · simp only [Config.setPhase, Function.update_of_ne heq] at hdead
      have hraft := hw.only (by simp [hcopied]) hr' hme hdead
      exact absurd (Option.some.inj (hraft.symm.trans hrf)) heq
  · intro rf' hrf'
    have hlt := (List.getElem?_eq_some_iff.mp ha).1
    simp only [Config.setPhase, Function.update_of_ne (show rf' ≠ rf by omega)]
    exact hw.unmade rf' hrf'
  · intro rf' hrf'
    simp [Config.setPhase] at hrf'

theorem Wired.kill (hw : Wired chance s) {r : Bool} (hcopied : s.phase i = .copied r) :
    Wired chance ((s.killRaft i).setPhase i (.killed r)) := by
  rw [Config.killRaft]
  split
  · rename_i rf hrf
    exact hw.killed hcopied hrf
  · rename_i hnone
    refine hw.moved (local_net (fun _ _ => rfl) _) hw.net hw.hosts hw.hosted rfl rfl rfl
      (fun p hp => absurd hp (hw.unplaced (by simp [hcopied]) p)) ?_ ?_ ?_ hw.unmade (hw.current i)
    · simpa [Config.setPhase, PhaseOk] using hnone
    · simp [hcopied, Phase.shared]
    · intro rf r hr hme hdead
      exact Or.inl (hw.only (by simp [hcopied]) hr hme hdead)

theorem Wired.install (hw : Wired chance s) {rf : ℕ} (hmade : s.phase i = .made rf) :
    Wired chance ({ s with rafts := Function.update s.rafts i (some rf) }.setPhase i
      (.installed rf)) := by
  have hphase := hw.phases i
  rw [hmade] at hphase
  obtain ⟨⟨a,ha⟩,hnone,hdead⟩ := hphase
  refine hw.moved (i := i) ⟨fun _ _ => rfl,fun _ _ => rfl,
    fun j hj => Function.update_of_ne hj _ _,fun j hj => Function.update_of_ne hj _ _,
    fun _ _ => id,fun _ _ => id,fun _ _ _ _ => rfl⟩
    hw.net hw.hosts hw.hosted rfl rfl rfl ?_ ?_ (fun _ _ => ?_) ?_ hw.unmade ?_
  · intro p hp
    exact absurd hp (hw.unplaced (by simp [hmade]) p)
  · simp only [Config.setPhase, Function.update_self]
    exact ⟨⟨a,ha⟩,Function.update_self i _ _,hdead⟩
  · exact ⟨by simp [Config.setPhase, Phase.shared],rfl⟩
  · rintro rf' r hr rfl hdead'
    rcases hw.alive rf' r hr hdead' with hraft | hp
    · cases hnone.symm.trans hraft
    · rw [hmade] at hp
      cases hp
      exact Or.inl (Function.update_self _ _ _)
  · intro rf' hrf'
    simp only [Config.setPhase, Function.update_self, Option.some.injEq] at hrf'
    exact ⟨a,hrf' ▸ ha.1⟩

theorem Wired.resave (hw : Wired chance s) {r : Bool} (hphase : s.phase i = .killed r) :
    Wired chance ((s.copySaved i).setPhase i (if r then .crashed else .idle)) := by
  have hok := hw.phases i
  rw [hphase] at hok
  refine hw.copySaved (by simp [hphase]) (by simp [hphase]) (fun t ht => ?_)
  split
  · exact (congrFun ht i).trans hok
  · trivial

theorem Wired.unset (hw : Wired chance s) (hphase : s.phase i = .crashed) : s.rafts i = none := by
  have hok := hw.phases i
  rw [hphase] at hok
  exact hok

variable [DecidableEq ε]

theorem step_free {n : State ε ℕ} (h : Inv chance n) {a : Action ε ℕ} (hfree : free a = true) :
    (Labrpc.step chance a n).net.servers = n.net.servers ∧
      (Labrpc.step chance a n).objects.length = n.objects.length := by
  have hh := h.happens a
  generalize Labrpc.step chance a n = n' at hh ⊢
  cases hh with
  | idle => exact ⟨rfl,rfl⟩
  | moved hc he => exact ⟨by rw [he.net],he.objects⟩
  | ended he => exact ⟨by rw [he.net],he.objects⟩
  | configured _ _ =>
    cases a with
    | makeServer | addService | addServer | deleteServer => cases hfree
    | listenerExit | newCall | makeEnd | cleanup =>
      simp only [configure]
      split <;> exact ⟨rfl,rfl⟩
    | _ => exact ⟨rfl,rfl⟩

theorem Wired.free (hw : Wired chance s) {a : Action ε ℕ} (hfree : free a = true) :
    Wired chance { s with net := Labrpc.step chance a s.net } := by
  obtain ⟨hservers,hobjects⟩ := step_free hw.net hfree
  refine ⟨step_inv a _ hw.net,hw.hosts.trans hobjects.symm,hw.hosted,hw.persister,hw.saved,?_,
    hw.phases,hw.own,hw.apart,hw.shared,hw.alive,hw.unmade,hw.current⟩
  intro i p hp
  rw [Network.serverOf, hservers] at hp
  exact hw.placed i p hp

theorem step_of_running {n : State ε ℕ} (hf : n.fatal = none) {a : Action ε ℕ}
    (ha : ∀ i m, a ≠ .call i m) : Labrpc.step chance a n = configure n a := by
  unfold Labrpc.step
  rw [hf]
  cases a with
  | call i m => exact absurd rfl (ha i m)
  | _ => rfl

theorem serverOf_delete (n : State ε ℕ) (i j : ℕ) :
    (configure n (.deleteServer i)).net.serverOf j = if j = i then none else n.net.serverOf j := by
  rw [configure, Network.serverOf, lookup_insert]
  split
  · rfl
  · rfl

theorem Wired.crash (hw : Wired chance s) (hf : s.net.fatal = none) {r : Bool}
    (hidle : s.phase i = .idle) :
    Wired chance ({ s with net := Labrpc.step chance (.deleteServer i) s.net }.setPhase i
      (.deleted r)) := by
  have hinv := step_inv (.deleteServer i) s.net hw.net
  rw [step_of_running hf (by simp)] at hinv ⊢
  refine hw.moved (local_net (fun j hj => (serverOf_delete s.net i j).trans (if_neg hj)) _)
    hinv hw.hosts hw.hosted rfl rfl rfl ?_ ?_ (fun _ _ => ?_) ?_ hw.unmade (hw.current i)
  · intro p hp
    cases ((serverOf_delete s.net i i).trans (if_pos rfl)).symm.trans hp
  · simp [Config.setPhase, PhaseOk]
  · exact ⟨by simp [Config.setPhase, Phase.shared],rfl⟩
  · intro rf r hr hme hdead
    exact Or.inl (hw.only (by simp [hidle]) hr hme hdead)

theorem Wired.makeServer (hw : Wired chance s) (hf : s.net.fatal = none) {rf : ℕ}
    (hphase : s.phase i = .installed rf) :
    Wired chance ({ s with
      net := Labrpc.step chance .makeServer s.net
      hosts := s.hosts++[rf] }.setPhase i (.served rf s.hosts.length)) := by
  have hok := hw.phases i
  rw [hphase] at hok
  obtain ⟨⟨a,ha⟩,hrafts,hdead⟩ := hok
  have hinv := step_inv .makeServer s.net hw.net
  rw [step_of_running hf (by simp)] at hinv ⊢
  refine hw.moved (i := i) ⟨fun _ _ => rfl,fun _ _ => rfl,fun _ _ => rfl,
    fun j hj => Function.update_of_ne hj _ _,fun _ _ => id,?_,fun _ _ _ _ => rfl⟩
    hinv ?_ ?_ rfl rfl rfl ?_ ?_ (fun _ _ => ?_) ?_ hw.unmade (hw.current i)
  · intro p rf' hp
    exact getElem?_concat_of_some hp
  · simp [Config.setPhase, configure, hw.hosts]
  · intro rf' hrf'
    rcases List.mem_append.mp hrf' with hrf' | hrf'
    · exact hw.hosted rf' hrf'
    · cases List.mem_singleton.mp hrf'
      exact (List.getElem?_eq_some_iff.mp ha.1).1
  · intro p hp
    exact absurd hp (hw.unplaced (by simp [hphase]) p)
  · simp only [Config.setPhase, Function.update_self]
    exact ⟨⟨a,ha⟩,hrafts,hdead,by simp⟩
  · exact ⟨by simp [Config.setPhase, Phase.shared],rfl⟩
  · intro rf' r hr hme hdead'
    exact Or.inl (hw.only (by simp [hphase]) hr hme hdead')

theorem Wired.addService (hw : Wired chance s) (hf : s.net.fatal = none) {rf srv : ℕ}
    {name : GoString} {methods : List GoString} (hphase : s.phase i = .served rf srv) :
    Wired chance ({ s with
      net := Labrpc.step chance (.addService srv name methods) s.net }.setPhase i
        (.registered rf srv)) := by
  have hok := hw.phases i
  rw [hphase] at hok
  obtain ⟨ha,hrafts,hdead,hhost⟩ := hok
  have hinv := step_inv (.addService srv name methods) s.net hw.net
  rw [step_of_running hf (by simp)] at hinv ⊢
  have hkeep : (configure s.net (.addService srv name methods)).net = s.net.net ∧
      (configure s.net (.addService srv name methods)).objects.length =
        s.net.objects.length := by
    simp only [configure]
    split
    · exact ⟨rfl,List.length_set⟩
    · exact ⟨rfl,rfl⟩
  have hserver : ∀ j, (configure s.net (.addService srv name methods)).net.serverOf j =
      s.net.net.serverOf j := fun j => congrArg (fun net => net.serverOf j) hkeep.1
  refine hw.moved (local_net (fun j _ => hserver j) _) hinv (hw.hosts.trans hkeep.2.symm) hw.hosted
    rfl rfl rfl ?_ ?_ (fun _ _ => ?_) ?_ hw.unmade (hw.current i)
  · intro p hp
    exact absurd ((hserver i).symm.trans hp) (hw.unplaced (by simp [hphase]) p)
  · simp only [Config.setPhase, Function.update_self]
    exact ⟨ha,hrafts,hdead,hhost⟩
  · exact ⟨by simp [Config.setPhase, Phase.shared],rfl⟩
  · intro rf' r hr hme hdead'
    exact Or.inl (hw.only (by simp [hphase]) hr hme hdead')

theorem Wired.addServer (hw : Wired chance s) (hf : s.net.fatal = none) {rf srv : ℕ}
    (hphase : s.phase i = .registered rf srv) :
    Wired chance ({ s with
      net := Labrpc.step chance (.addServer i srv) s.net }.setPhase i .idle) := by
  have hok := hw.phases i
  rw [hphase] at hok
  obtain ⟨⟨a,ha⟩,hrafts,hdead,hhost⟩ := hok
  have hinv := step_inv (.addServer i srv) s.net hw.net
  rw [step_of_running hf (by simp)] at hinv ⊢
  have hlt : srv < s.net.objects.length := by
    rw [← hw.hosts]
    exact (List.getElem?_eq_some_iff.mp hhost).1
  have hserver : ∀ j, (configure s.net (.addServer i srv)).net.serverOf j =
      if j = i then some srv else s.net.net.serverOf j := by
    intro j
    rw [configure, if_pos hlt, Network.serverOf, lookup_insert]
    split
    · rfl
    · rfl
  refine hw.moved (local_net (fun j hj => (hserver j).trans (if_neg hj)) _) hinv ?_ hw.hosted
    rfl rfl rfl ?_ ?_ (fun _ _ => ?_) ?_ hw.unmade (hw.current i)
  · simp only [Config.setPhase, configure, if_pos hlt]
    exact hw.hosts
  · intro p hp
    cases ((hserver i).trans (if_pos rfl)).symm.trans hp
    exact ⟨Function.update_self i _ _,rf,a,hhost,ha,hrafts,hdead⟩
  · simp [Config.setPhase, PhaseOk]
  · exact ⟨by simp [Config.setPhase, Phase.shared],rfl⟩
  · intro rf' r hr hme hdead'
    exact Or.inl (hw.only (by simp [hphase]) hr hme hdead')

inductive Next (chance : Chance) (s : Config ε) : Act ε → Config ε → Prop where
  | crash {i : ℕ} {r : Bool} (hphase : s.phase i = .idle) : Next chance s (.crash i r)
      ({ s with net := Labrpc.step chance (.deleteServer i) s.net }.setPhase i (.deleted r))
  | copy {i : ℕ} {r : Bool} (hphase : s.phase i = .deleted r) :
      Next chance s (.copy i) ((s.copySaved i).setPhase i (.copied r))
  | kill {i : ℕ} {r : Bool} (hphase : s.phase i = .copied r) :
      Next chance s (.kill i) ((s.killRaft i).setPhase i (.killed r))
  | resave {i : ℕ} {r : Bool} (hphase : s.phase i = .killed r) :
      Next chance s (.resave i) ((s.copySaved i).setPhase i (if r then .crashed else .idle))
  | adopt {i a : ℕ} (hphase : s.phase i = .crashed) (hsaved : s.saved i = some a) :
      Next chance s (.adopt i) ((s.copySaved i).setPhase i .ready)
  | adoptNew {i : ℕ} (hphase : s.phase i = .crashed) (hsaved : s.saved i = none) :
      Next chance s (.adopt i) ((s.allocate i ⟨[],[]⟩).setPhase i .ready)
  | make {i a : ℕ} (hphase : s.phase i = .ready) (hsaved : s.saved i = some a) :
      Next chance s (.make i)
        ({ s with made := s.made++[(⟨i,a⟩ : Raft)] }.setPhase i (.made s.made.length))
  | install {i rf : ℕ} (hphase : s.phase i = .made rf) : Next chance s (.install i)
      ({ s with rafts := Function.update s.rafts i (some rf) }.setPhase i (.installed rf))
  | makeServer {i rf : ℕ} (hphase : s.phase i = .installed rf) : Next chance s (.makeServer i)
      ({ s with
        net := Labrpc.step chance .makeServer s.net
        hosts := s.hosts++[rf] }.setPhase i (.served rf s.hosts.length))
  | addService {i rf srv : ℕ} {name : GoString} {methods : List GoString}
      (hphase : s.phase i = .served rf srv) : Next chance s (.addService i name methods)
      ({ s with
        net := Labrpc.step chance (.addService srv name methods) s.net }.setPhase i
          (.registered rf srv))
  | addServer {i rf srv : ℕ} (hphase : s.phase i = .registered rf srv) :
      Next chance s (.addServer i)
        ({ s with net := Labrpc.step chance (.addServer i srv) s.net }.setPhase i .idle)

theorem restart_next {a : Act ε} (h : restart chance s a = some s') : Next chance s a s' := by
  cases a with
  | net | save => cases h
  | _ =>
    simp only [restart] at h
    split at h
    all_goals first
      | contradiction
      | (cases h; constructor <;> assumption)

theorem Wired.next (hw : Wired chance s) (hf : s.net.fatal = none) {a : Act ε}
    (h : Next chance s a s') : Wired chance s' := by
  cases h with
  | crash hphase => exact hw.crash hf hphase
  | copy hphase =>
    exact hw.copySaved (by simp [hphase]) (by simp [hphase]) (fun _ _ => trivial)
  | kill hphase => exact hw.kill hphase
  | resave hphase => exact hw.resave hphase
  | adopt hphase =>
    exact hw.copySaved (by simp [hphase]) (by simp [hphase])
      (fun t ht => (congrFun ht _).trans (hw.unset hphase))
  | adoptNew hphase =>
    exact hw.allocate (by simp [hphase]) (by simp [hphase]) (hw.unset hphase)
  | make hphase hsaved => exact hw.make hphase hsaved
  | install hphase => exact hw.install hphase
  | makeServer hphase => exact hw.makeServer hf hphase
  | addService hphase => exact hw.addService hf hphase
  | addServer hphase => exact hw.addServer hf hphase

theorem step_cases (a : Act ε) (s : Config ε) :
    step chance a s = s ∨
      (∃ b, a = .net b ∧ RaftConfig.free b = true ∧
        step chance a s = { s with net := Labrpc.step chance b s.net }) ∨
      (∃ rf content r, a = .save rf content ∧ s.made[rf]? = some r ∧
        step chance a s = { s with contents := Function.update s.contents r.persister content }) ∨
      s.net.fatal = none ∧ restart chance s a = some (step chance a s) := by
  unfold step
  split
  · exact Or.inl rfl
  · rename_i hf
    have hnone : s.net.fatal = none := by simpa using hf
    have hrestart : (restart chance s a).getD s = s ∨
        restart chance s a = some ((restart chance s a).getD s) := by
      cases restart chance s a with
      | none => exact Or.inl rfl
      | some s' => exact Or.inr rfl
    cases a with
    | net b =>
      simp only
      split
      · rename_i hfree
        exact Or.inr (Or.inl ⟨b,rfl,hfree,rfl⟩)
      · exact Or.inl rfl
    | save rf content =>
      simp only
      split
      · rename_i r hr
        exact Or.inr (Or.inr (Or.inl ⟨rf,content,r,rfl,hr,rfl⟩))
      · exact Or.inl rfl
    | _ => exact hrestart.imp id (fun h => Or.inr (Or.inr ⟨hnone,h⟩))

theorem step_wired (a : Act ε) (s : Config ε) (hw : Wired chance s) :
    Wired chance (step chance a s) := by
  rcases step_cases a s with h | ⟨b,rfl,hfree,h⟩ | ⟨rf,content,r,rfl,hr,h⟩ | ⟨hf,h⟩
  · rw [h]
    exact hw
  · rw [h]
    exact hw.free hfree
  · rw [h]
    exact ⟨hw.net,hw.hosts,hw.hosted,hw.persister,hw.saved,hw.placed,hw.phases,hw.own,hw.apart,
      hw.shared,hw.alive,hw.unmade,hw.current⟩
  · exact hw.next hf (restart_next h)

omit [DecidableEq ε] in
theorem start_wired : Wired chance (start : Config ε) := by
  refine ⟨start_inv,rfl,?_,?_,?_,?_,?_,?_,?_,?_,?_,?_,?_⟩
  · intro rf hrf
    cases hrf
  · intro r hr
    cases hr
  · intro i a ha
    cases ha
  · intro i p hp
    cases hp
  · intro i
    trivial
  · intro i j a ha
    cases ha
  · intro rf rf' r r' hr
    cases hr
  · intro rf r i hr
    cases hr
  · intro rf r hr
    cases hr
  · intro rf _
    rfl
  · intro i rf hrf
    cases hrf

theorem run_wired (chance : Chance) (as : List (Act ε)) :
    Wired chance (run (step chance) as start) :=
  run_keeps _ _ step_wired as _ start_wired

/-- In every run: no two peers save in one place, whatever they go on doing; at most one peer of
a server is not killed; and the one that the network reaches under the server's name is that
one, and saves where the tester will look. -/
theorem peers_isolated (chance : Chance) (as : List (Act ε)) :
    (∀ (rf rf' : ℕ) (r r' : Raft), (run (step chance) as start).made[rf]? = some r →
      (run (step chance) as start).made[rf']? = some r' → r.persister = r'.persister → rf = rf') ∧
    (∀ (rf rf' : ℕ) (r r' : Raft), (run (step chance) as start).made[rf]? = some r →
      (run (step chance) as start).made[rf']? = some r' → r.me = r'.me →
      (run (step chance) as start).dead rf = false →
      (run (step chance) as start).dead rf' = false → rf = rf') ∧
    (∀ i p, (run (step chance) as start).net.net.serverOf i = some p → ∃ rf a,
      (run (step chance) as start).hosts[p]? = some rf ∧
      (run (step chance) as start).made[rf]? = some ⟨i,a⟩ ∧
      (run (step chance) as start).saved i = some a ∧
      (run (step chance) as start).dead rf = false) := by
  have hw := run_wired chance as
  refine ⟨hw.apart,?_,?_⟩
  · intro rf rf' r r' hr hr' hme hdead hdead'
    have hphase := hw.phases r.me
    rcases hw.alive rf r hr hdead with h | h <;> rcases hw.alive rf' r' hr' hdead' with h' | h'
    · rw [← hme, h] at h'
      exact Option.some.inj h'
    · rw [hme, h'] at hphase
      cases hphase.2.1.symm.trans (hme ▸ h)
    · rw [h] at hphase
      cases hphase.2.1.symm.trans (hme ▸ h')
    · rw [← hme, h] at h'
      cases h'
      rfl
  · intro i p hp
    obtain ⟨-,rf,a,hhost,hholds,-,hdead⟩ := hw.placed i p hp
    exact ⟨rf,a,hhost,hholds.1,hholds.2,hdead⟩

end Frames

end Gopher.RaftConfig
