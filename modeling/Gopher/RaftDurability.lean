import Gopher.RaftConfig

/-!
# What a client was told survives crashes

A service that saves an update before it answers, and never saves less than it had.
The network lets an answer through only while the server is in its place, and the
tester takes the server out of the network before it copies what was saved. So an
update that a client knows of is part of everything a later peer starts from.
-/

set_option autoImplicit false

namespace Gopher.RaftConfig
open Gopher.MapReduce Gopher.MapOrders Gopher.StepRuns Gopher.Labrpc

variable {ε : Type}

def Config.contentOf (s : Config ε) (p : ℕ) : Option Persister := do
  let rf ← s.hosts[p]?
  let r ← s.made[rf]?
  if s.dead rf then none else some (s.contents r.persister)

def Config.savedContent (s : Config ε) (i : ℕ) : Option Persister := (s.saved i).map s.contents

section Durability

variable (has : ℕ → Persister → Prop)

/-- What is asked of a peer that was not killed: the update of a call has been saved when its
handler returns, and no save loses an update. -/
def Careful (a : Act ε) (s : Config ε) : Prop :=
  match a with
  | .save rf content => ∀ (r : Raft) (k : ℕ), s.made[rf]? = some r →
      s.dead rf = false → has k (s.contents r.persister) → has k content
  | .net (.call k .serve) => ∀ (c : CallRec ε ℕ) (p : ℕ) (content : Persister),
      s.net.calls[k]? = some c → c.handler = .serving p → s.contentOf p = some content →
      has k content
  | _ => True

def Config.Kept (s : Config ε) (k i : ℕ) : Prop :=
  ∃ content, s.savedContent i = some content ∧ has k content

def Config.Acknowledged (chance : Chance) (s : Config ε) (k : ℕ) : Prop :=
  ∃ (p rf : ℕ) (r : Raft), (k,p,chance.answer k) ∈ s.net.executed ∧ s.hosts[p]? = some rf ∧
    s.made[rf]? = some r ∧ s.Kept has k r.me

structure Durable (chance : Chance) (s : Config ε) : Prop where
  executed : ∀ e ∈ s.net.executed, ∀ content, s.contentOf e.2.1 = some content →
    has e.1 content
  passed : ∀ (k : ℕ) (c : CallRec ε ℕ), s.net.calls[k]? = some c → c.passed = true →
    s.Acknowledged has chance k

variable {has} {chance : Chance} {s s' : Config ε}

theorem contentOf_eq {p rf : ℕ} {r : Raft} (hhost : s.hosts[p]? = some rf)
    (hmade : s.made[rf]? = some r) (hdead : s.dead rf = false) :
    s.contentOf p = some (s.contents r.persister) := by
  simp [Config.contentOf, hhost, hmade, hdead]

theorem contentOf_some {p : ℕ} {content : Persister} (h : s.contentOf p = some content) :
    ∃ rf r, s.hosts[p]? = some rf ∧ s.made[rf]? = some r ∧ s.dead rf = false ∧
      content = s.contents r.persister := by
  simp only [Config.contentOf, Option.bind_eq_bind, Option.bind_eq_some_iff] at h
  obtain ⟨rf,hhost,r,hmade,heq⟩ := h
  split at heq
  · cases heq
  · next hdead =>
    exact ⟨rf,r,hhost,hmade,by simpa using hdead,(Option.some.inj heq).symm⟩

structure Frame (s s' : Config ε) : Prop where
  hosts : ∀ p rf : ℕ, s.hosts[p]? = some rf → s'.hosts[p]? = some rf
  made : ∀ (rf : ℕ) (r : Raft), s.made[rf]? = some r → s'.made[rf]? = some r
  dead : ∀ rf, s'.dead rf = false → s.dead rf = false
  contents : ∀ b < s.allocated, s'.contents b = s.contents b
  saved : ∀ i a, s.saved i = some a → s'.saved i = some a ∨
    s'.saved i = some s.allocated ∧ s'.contents s.allocated = s.contents a
  calls : s'.net.calls = s.net.calls
  executed : s'.net.executed = s.net.executed

theorem Frame.of_eq (hosts : s'.hosts = s.hosts) (made : s'.made = s.made)
    (dead : ∀ rf, s'.dead rf = false → s.dead rf = false) (contents : s'.contents = s.contents)
    (saved : s'.saved = s.saved) (calls : s'.net.calls = s.net.calls)
    (executed : s'.net.executed = s.net.executed) : Frame s s' :=
  ⟨by rw [hosts]; exact fun _ _ => id,by rw [made]; exact fun _ _ => id,dead,
    by rw [contents]; exact fun _ _ => rfl,by rw [saved]; exact fun _ _ => Or.inl,calls,executed⟩

theorem frame_allocate (s : Config ε) (i : ℕ) (content : Persister) (φ : Phase)
    (hcontent : ∀ a, s.saved i = some a → content = s.contents a) :
    Frame s ((s.allocate i content).setPhase i φ) := by
  refine ⟨fun _ _ => id,fun _ _ => id,fun _ => id,?_,?_,rfl,rfl⟩
  · intro b hb
    exact Function.update_of_ne hb.ne _ _
  · intro j a ha
    by_cases hj : j = i
    · subst hj
      refine Or.inr ⟨Function.update_self _ _ _,?_⟩
      rw [← hcontent a ha]
      exact Function.update_self s.allocated content s.contents
    · exact Or.inl ((Function.update_of_ne hj _ _).trans ha)

theorem frame_copySaved (s : Config ε) (i : ℕ) (φ : Phase) :
    Frame s ((s.copySaved i).setPhase i φ) := by
  rw [Config.copySaved]
  split
  · rename_i a ha
    apply frame_allocate
    intro b hb
    cases Option.some.inj (ha.symm.trans hb)
    rfl
  · exact Frame.of_eq rfl rfl (fun _ => id) rfl rfl rfl rfl

theorem frame_killRaft (s : Config ε) (i : ℕ) (φ : Phase) :
    Frame s ((s.killRaft i).setPhase i φ) := by
  rw [Config.killRaft]
  split
  · next rf _ =>
    refine Frame.of_eq rfl rfl ?_ rfl rfl rfl rfl
    intro rf' hdead
    by_cases heq : rf' = rf
    · subst heq
      simp [Config.setPhase] at hdead
    · simpa [Config.setPhase, Function.update_of_ne heq] using hdead
  · exact Frame.of_eq rfl rfl (fun _ => id) rfl rfl rfl rfl

theorem Frame.kept (hf : Frame s s') (hw : Wired chance s) {k i : ℕ} (h : s.Kept has k i) :
    s'.Kept has k i := by
  obtain ⟨content,hcontent,hhas⟩ := h
  obtain ⟨a,ha,rfl⟩ := Option.map_eq_some_iff.mp hcontent
  rcases hf.saved i a ha with hold | ⟨hnew,heq⟩
  · refine ⟨s.contents a,?_,hhas⟩
    rw [Config.savedContent, hold, Option.map_some, hf.contents a (hw.saved i a ha)]
  · refine ⟨s.contents a,?_,hhas⟩
    rw [Config.savedContent, hnew, Option.map_some, heq]

/-- The peers behind the servers that have executed anything keep what they had. -/
theorem Frame.durable (hf : Frame s s') (hw : Wired chance s)
    (h : Durable has chance s) : Durable has chance s' := by
  refine ⟨?_,?_⟩
  · intro e he content hcontent
    rw [hf.executed] at he
    have hlt := hw.net.executed_lt he
    rw [← hw.hosts] at hlt
    have hhost := List.getElem?_eq_getElem hlt
    have hmade := List.getElem?_eq_getElem (hw.hosted _ (List.getElem_mem hlt))
    obtain ⟨rf,r,hhost',hmade',hdead,rfl⟩ := contentOf_some hcontent
    cases Option.some.inj ((hf.hosts _ _ hhost).symm.trans hhost')
    cases Option.some.inj ((hf.made _ _ hmade).symm.trans hmade')
    rw [hf.contents _ (hw.persister _ (List.mem_of_getElem? hmade))]
    exact h.executed e he _ (contentOf_eq hhost hmade (hf.dead _ hdead))
  · intro k c hc hpassed
    rw [hf.calls] at hc
    obtain ⟨p,rf,r,hexecuted,hhost,hmade,hkept⟩ := h.passed k c hc hpassed
    exact ⟨p,rf,r,by rw [hf.executed]; exact hexecuted,hf.hosts _ _ hhost,hf.made _ _ hmade,
      hf.kept hw hkept⟩

section Save

variable {rf : ℕ} {r : Raft} {content : Persister} (hw : Wired chance s)
  (hr : s.made[rf]? = some r)
  (hmore : s.dead rf = false → ∀ k, has k (s.contents r.persister) → has k content)
include hmore

theorem has_update (k b : ℕ) (hb : b = r.persister → s.dead rf = false) (h : has k (s.contents b)) :
    has k (Function.update s.contents r.persister content b) := by
  by_cases heq : b = r.persister
  · subst heq
    rw [Function.update_self]
    exact hmore (hb rfl) k h
  · rw [Function.update_of_ne heq]
    exact h

include hw hr

/-- The tester never looks where a peer saves that was killed. -/
theorem Kept.save (k i : ℕ) (h : s.Kept has k i) :
    { s with contents := Function.update s.contents r.persister content }.Kept has k i := by
  obtain ⟨old,hold,hhas⟩ := h
  obtain ⟨b,hb,rfl⟩ := Option.map_eq_some_iff.mp hold
  refine ⟨_,by rw [Config.savedContent, hb, Option.map_some],?_⟩
  exact has_update hmore k b (fun heq => (hw.shared rf r i hr (heq ▸ hb)).2.2) hhas

theorem Durable.save (h : Durable has chance s) :
    Durable has chance { s with contents := Function.update s.contents r.persister content } := by
  refine ⟨?_,?_⟩
  · intro e he content' hcontent
    obtain ⟨rf',r',hhost,hmade,hdead,rfl⟩ := contentOf_some hcontent
    refine has_update hmore _ _ (fun heq => ?_)
      (h.executed e he _ (contentOf_eq hhost hmade hdead))
    rw [← hw.apart rf' rf r' r hmade hr heq]
    exact hdead
  · intro k c hc hpassed
    obtain ⟨p,rf,r,hexecuted,hhost,hmade,hold⟩ := h.passed k c hc hpassed
    exact ⟨p,rf,r,hexecuted,hhost,hmade,Kept.save hw ‹_› hmore k _ hold⟩

end Save

variable [DecidableEq ε]

theorem net_keeps_calls (chance : Chance) (hrun : s.net.fatal = none) (b : Action ε ℕ)
    (hcall : ∀ i m, b ≠ .call i m) (hnew : ∀ req, b ≠ .newCall req) :
    (Labrpc.step chance b s.net).calls = s.net.calls ∧
      (Labrpc.step chance b s.net).executed = s.net.executed := by
  rw [step_of_running hrun hcall, configure_executed]
  refine ⟨?_,rfl⟩
  rcases configure_calls s.net b with heq | ⟨req,hreq,-⟩
  · exact heq
  · exact absurd hreq (hnew req)

theorem frame_net (hrun : s.net.fatal = none) (i : ℕ) (φ : Phase) (b : Action ε ℕ)
    (hcall : ∀ i m, b ≠ .call i m) (hnew : ∀ req, b ≠ .newCall req) :
    Frame s ({ s with net := Labrpc.step chance b s.net }.setPhase i φ) := by
  have hkeep := net_keeps_calls chance hrun b hcall hnew
  exact Frame.of_eq rfl rfl (fun _ => id) rfl rfl hkeep.1 hkeep.2

theorem next_frame (hrun : s.net.fatal = none) {a : Act ε} (h : Next chance s a s') :
    Frame s s' := by
  cases h with
  | crash => exact frame_net hrun _ _ _ (by simp) (by simp)
  | copy => exact frame_copySaved s _ _
  | kill => exact frame_killRaft s _ _
  | resave => exact frame_copySaved s _ _
  | adopt => exact frame_copySaved s _ _
  | adoptNew _ hsaved => exact frame_allocate s _ _ _ (fun a ha => by cases hsaved.symm.trans ha)
  | make =>
    exact ⟨fun _ _ => id,fun _ _ => getElem?_concat_of_some,fun _ => id,fun _ _ => rfl,
      fun _ _ => Or.inl,rfl,rfl⟩
  | install => exact Frame.of_eq rfl rfl (fun _ => id) rfl rfl rfl rfl
  | makeServer =>
    have hkeep := net_keeps_calls chance hrun .makeServer (by simp) (by simp)
    exact ⟨fun _ _ => getElem?_concat_of_some,fun _ _ => id,fun _ => id,fun _ _ => rfl,
      fun _ _ => Or.inl,hkeep.1,hkeep.2⟩
  | addService => exact frame_net hrun _ _ _ (by simp) (by simp)
  | addServer => exact frame_net hrun _ _ _ (by simp) (by simp)

/-- A reply is let through only while its server is in its place, so what it has saved is where
the tester looks. -/
theorem Durable.alive (h : Durable has chance s) (hw : Wired chance s) {k : ℕ}
    {c : CallRec ε ℕ} {t : Target ℕ} (hc : s.net.calls[k]? = some c)
    (hhandler : c.handler = .finished t.server)
    (halive : s.net.net.isServerDead c.req.endname t.servername t.server = false) :
    s.Acknowledged has chance k := by
  have hserver : s.net.net.serverOf t.servername = some t.server := by
    simp only [Network.isServerDead, Bool.or_eq_false_iff, bne_eq_false_iff_eq] at halive
    exact halive.2
  obtain ⟨-,rf,a,hhost,hholds,-,hdead⟩ := hw.placed _ _ hserver
  have hexecuted := hw.net.mem_executed hc hhandler
  have hhas := h.executed _ hexecuted _ (contentOf_eq hhost hholds.1 hdead)
  exact ⟨t.server,rf,_,hexecuted,hhost,hholds.1,s.contents a,
    by rw [Config.savedContent, hholds.2, Option.map_some],hhas⟩

theorem Durable.net (h : Durable has chance s) (hw : Wired chance s) {a : Action ε ℕ}
    (hcareful : Careful has (.net a) s) :
    Durable has chance { s with net := Labrpc.step chance a s.net } := by
  obtain ⟨new,hnew,hserving⟩ := hw.net.executed_step a
  have hack : ∀ k, s.Acknowledged has chance k →
      { s with net := Labrpc.step chance a s.net }.Acknowledged has chance k := by
    rintro k ⟨p,rf,r,hexecuted,hrest⟩
    exact ⟨p,rf,r,by rw [hnew]; exact List.mem_append_left _ hexecuted,hrest⟩
  refine ⟨?_,?_⟩
  · intro e he content hcontent
    rw [hnew] at he
    rcases List.mem_append.mp he with hold | hfresh
    · exact h.executed e hold content hcontent
    · obtain ⟨c,rfl,hc,hhandler⟩ := hserving e hfresh
      exact hcareful c e.2.1 content hc hhandler hcontent
  · intro k c' hc' hpassed
    apply hack
    cases hc : s.net.calls[k]? with
    | none =>
      have hproc := hw.net.call_new a hc hc'
      rw [CallRec.passed, hproc] at hpassed
      cases hpassed
    | some c =>
      obtain ⟨d,hd,hstep⟩ := hw.net.call_step a hc
      cases Option.some.inj (hd.symm.trans hc')
      rcases hstep with rfl | ⟨m,rfl,he⟩
      · exact h.passed k _ hc hpassed
      · rcases he.passed hpassed with hold | ⟨t,-,hhandler,halive⟩
        · exact h.passed k c hc hold
        · exact h.alive hw hc hhandler halive

theorem step_durable (a : Act ε) (s : Config ε) (hw : Wired chance s)
    (h : Durable has chance s) (hcareful : Careful has a s) :
    Durable has chance (step chance a s) ∧
      ∀ k i, s.Kept has k i → (step chance a s).Kept has k i := by
  rcases step_cases a s with heq | ⟨b,rfl,-,heq⟩ | ⟨rf,content,r,rfl,hr,heq⟩ | ⟨hrun,heq⟩
  · rw [heq]
    exact ⟨h,fun _ _ => id⟩
  · rw [heq]
    exact ⟨h.net hw hcareful,fun _ _ => id⟩
  · rw [heq]
    have hmore : s.dead rf = false → ∀ k, has k (s.contents r.persister) → has k content :=
      fun hdead k => hcareful r k hr hdead
    exact ⟨h.save hw hr hmore,Kept.save hw hr hmore⟩
  · have hframe := next_frame hrun (restart_next heq)
    exact ⟨hframe.durable hw h,fun _ _ => hframe.kept hw⟩

omit [DecidableEq ε] in
theorem start_durable : Durable has chance (start : Config ε) :=
  ⟨fun _ he => (by cases he),fun _ _ hc => (by cases hc)⟩

theorem run_durable (as : List (Act ε)) (halong : Along (step chance) (Careful has) as start) :
    Wired chance (run (step chance) as start) ∧ Durable has chance (run (step chance) as start) :=
  run_keeps_along (step chance) (Careful has) (fun s => Wired chance s ∧ Durable has chance s)
    (fun a s h hc => ⟨step_wired a s h.1,(step_durable a s h.1 h.2 hc).1⟩) as start
    ⟨start_wired,start_durable⟩ halong

variable (has)

/-- A call that returned true was executed by a peer of some server, and from then on its update
is part of what is saved for that server, however often the server crashes and whatever its
former peers still do. -/
theorem acknowledged_kept (chance : Chance) (as : List (Act ε))
    (halong : Along (step chance) (Careful has) as start) (k : ℕ) (c : CallRec ε ℕ)
    (reply : GoString) (hc : (run (step chance) as start).net.calls[k]? = some c)
    (hr : c.client = .returned true reply) :
    ∃ (p rf : ℕ) (r : Raft), (k,p,reply) ∈ (run (step chance) as start).net.executed ∧
      (run (step chance) as start).hosts[p]? = some rf ∧
      (run (step chance) as start).made[rf]? = some r ∧
      ∀ bs, Along (step chance) (Careful has) bs (run (step chance) as start) →
        ∃ content, (run (step chance) (as++bs) start).savedContent r.me = some content ∧
          has k content := by
  obtain ⟨hw,hd⟩ := run_durable as halong
  have hok := hw.net.stages k c hc
  have hpassed := hd.passed k c hc
  obtain ⟨req,client,proc,handler,draining⟩ := c
  cases hr
  cases hok with
  | answered server =>
    obtain ⟨p,rf,r,hexecuted,hhost,hmade,hkept⟩ := hpassed rfl
    refine ⟨p,rf,r,hexecuted,hhost,hmade,?_⟩
    intro bs hbs
    rw [run_append]
    exact (run_keeps_along (step chance) (Careful has)
      (fun s => (Wired chance s ∧ Durable has chance s) ∧ s.Kept has k r.me)
      (fun a s h hcareful => by
        have hstep := step_durable a s h.1.1 h.1.2 hcareful
        exact ⟨⟨step_wired a s h.1.1,hstep.1⟩,hstep.2 k r.me h.2⟩)
      bs _ ⟨⟨hw,hd⟩,hkept⟩ hbs).2

def startServer (i : ℕ) : List (Act ℕ) :=
  [.crash i true,.copy i,.kill i,.resave i,.adopt i,.make i,.install i,.makeServer i,
    .addService i (ascii "R") [ascii "Put"],.addServer i]

def putOnce : List (Act ℕ) :=
  startServer 0++[.net (.makeEnd 0),.net (.connect 0 0),.net (.enable 0 true),
    .net (.newCall ⟨0,ascii "R.Put",ascii "x"⟩),.net (.call 0 .send),.net (.call 0 .read),
    .net (.call 0 .drop),.net (.call 0 .dispatch),.save 0 ⟨ascii "x",[]⟩,.net (.call 0 .serve),
    .net (.call 0 .receive),.net (.call 0 .check),.net (.call 0 .decide),.net (.call 0 .reply)]

def SavedSome (_ : ℕ) (content : Persister) : Prop := content.raftstate ≠ []

theorem putOnce_careful : Along (step certain) (Careful SavedSome) putOnce start := by
  refine ⟨trivial,trivial,trivial,trivial,trivial,trivial,trivial,trivial,trivial,trivial,trivial,
    trivial,trivial,trivial,trivial,trivial,trivial,trivial,?_,?_,trivial,trivial,trivial,trivial,
    trivial⟩
  · intro r k _ _ _
    exact List.cons_ne_nil _ _
  · intro c p content hc hhandler hcontent
    cases hc
    cases hhandler
    cases hcontent
    exact List.cons_ne_nil _ _

theorem acknowledged_kept_putOnce :
    ∃ (p rf : ℕ) (r : Raft), (0,p,ascii "v") ∈ (run (step certain) putOnce start).net.executed ∧
      (run (step certain) putOnce start).hosts[p]? = some rf ∧
      (run (step certain) putOnce start).made[rf]? = some r ∧
      ∀ bs, Along (step certain) (Careful SavedSome) bs (run (step certain) putOnce start) →
        ∃ content, (run (step certain) (putOnce++bs) start).savedContent r.me = some content ∧
          SavedSome 0 content :=
  acknowledged_kept SavedSome certain putOnce putOnce_careful 0
    ⟨⟨0,ascii "R.Put",ascii "x"⟩,.returned true (ascii "v"),.finished,.finished 0,false⟩ (ascii "v")
    rfl rfl

end Durability

end Gopher.RaftConfig
