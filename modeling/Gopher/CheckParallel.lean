import Gopher.CheckSingle
import Gopher.FairRuns
import Gopher.GoChannel
import Gopher.StepRuns

/-!
# The check of all parts of a history

One goroutine checks each part. The main goroutine starts them, collects their
results through a channel with room for all, and raises a flag that stops them
when it needs no more results or its time is up. All steps may be interleaved in
any way; the timer may fire at any moment once it is set.

Every answer that comes before the time is up is right, with the sequences that
come with it, and under a fair scheduler an answer comes unless there is no part
at all.
-/

set_option autoImplicit false

namespace Gopher.Porcupine
open Gopher.LinearizationSearch Gopher.Linearizability Gopher.GoChannel Gopher.MapOrders
open Gopher.StepRuns Gopher.FairRuns

variable {σ ι ο : Type}

inductive CheckResult where
  | unknown
  | ok
  | illegal
  deriving DecidableEq, Repr

structure LinearizationInfo (ι ο : Type) where
  history : List (List (Entry ι ο))
  partialLinearizations : List (List (List ℤ))

structure Setup (σ ι ο : Type) where
  model : Object σ ι ο
  history : List (List (Entry ι ο))
  computeInfo : Bool
  timeout : ℤ
  order : Iteration ℕ (List ℤ)

inductive Thread (σ ι ο : Type) where
  | idle
  | launched
  | checking (st : CheckState σ ι ο)
  | returned (v : Verdict)
  | sending (ok : Bool)
  | done (ok : Bool)
  | panicked

inductive MainPc (ι ο : Type) where
  | launching (i : ℕ)
  | selecting
  | killing
  | leaving
  | draining
  | finished (result : CheckResult) (info : LinearizationInfo ι ο)

structure ParState (σ ι ο : Type) where
  main : MainPc ι ο
  threads : List (Thread σ ι ο)
  results : Chan Bool
  longest : List (List (Option Seq))
  kill : Bool
  count : ℕ
  ok : Bool
  timedOut : Bool

inductive Action where
  | main
  | result
  | timeout
  | thread (i : ℕ)
  deriving DecidableEq, Repr

def partialsOf (order : Iteration ℕ (List ℤ)) (longest : List (Option Seq)) : List (List ℤ) :=
  (order.order (longest.foldl
    (fun set v => v.elim set (fun seq => set.insert seq.address seq.ids)) ∅)).map Prod.snd

def resultOf (ok timedOut : Bool) : CheckResult :=
  if !ok then .illegal else if timedOut then .unknown else .ok

namespace Setup

variable (p : Setup σ ι ο)

def start : ParState σ ι ο where
  main := .launching 0
  threads := List.replicate p.history.length .idle
  results := Chan.make p.history.length
  longest := List.replicate p.history.length []
  kill := false
  count := 0
  ok := true
  timedOut := false

def begin (es : List (Entry ι ο)) : Thread σ ι ο :=
  match startCheck p.model es with
  | some st => .checking st
  | none => .panicked

def turnOf (kill : Bool) (st : CheckState σ ι ο) : Thread σ ι ο :=
  match checkTurn p.model p.computeInfo kill st with
  | .inl st' => .checking st'
  | .inr (some v) => .returned v
  | .inr none => .panicked

def threadStep (i : ℕ) (s : ParState σ ι ο) : ParState σ ι ο :=
  match s.threads[i]?, p.history[i]? with
  | some .launched, some es => { s with threads := s.threads.set i (p.begin es) }
  | some (.checking st), _ => { s with threads := s.threads.set i (p.turnOf s.kill st) }
  | some (.returned v), _ =>
    { s with threads := s.threads.set i (.sending v.1), longest := s.longest.set i v.2 }
  | some (.sending ok), _ =>
    match s.results.send ok with
    | .done results => { s with threads := s.threads.set i (.done ok), results := results }
    | .block => s
    | .panic => { s with threads := s.threads.set i .panicked }
  | _, _ => s

def infoOf (longest : List (List (Option Seq))) : LinearizationInfo ι ο :=
  if p.computeInfo then ⟨p.history,longest.map (partialsOf p.order)⟩ else ⟨[],[]⟩

def finish (s : ParState σ ι ο) : ParState σ ι ο :=
  { s with main := .finished (resultOf s.ok s.timedOut) (p.infoOf s.longest) }

def mainStep (s : ParState σ ι ο) : ParState σ ι ο :=
  match s.main with
  | .launching i =>
    if i < p.history.length then
      { s with main := .launching (i+1), threads := s.threads.set i .launched }
    else { s with main := .selecting }
  | .selecting => s
  | .killing => { s with main := .leaving, kill := true }
  | .leaving => if p.computeInfo then { s with main := .draining } else p.finish s
  | .draining =>
    if s.count < p.history.length then
      match s.results.recv with
      | .done (_,results) => { s with results := results, count := s.count+1 }
      | _ => s
    else p.finish s
  | .finished _ _ => s

def resultStep (s : ParState σ ι ο) : ParState σ ι ο :=
  match s.main, s.results.recv with
  | .selecting, .done (result,results) =>
    { s with
      main :=
        if !(s.ok && result.getD false) && !p.computeInfo then .killing
        else if p.history.length ≤ s.count+1 then .leaving
        else .selecting
      results := results
      count := s.count+1
      ok := s.ok && result.getD false }
  | _, _ => s

/-- The second case of the select: without a timeout the channel is nil. -/
def timeoutStep (s : ParState σ ι ο) : ParState σ ι ο :=
  match s.main with
  | .selecting => if 0 < p.timeout then { s with main := .killing, timedOut := true } else s
  | _ => s

def step : Action → ParState σ ι ο → ParState σ ι ο
  | .main => p.mainStep
  | .result => p.resultStep
  | .timeout => p.timeoutStep
  | .thread i => p.threadStep i

end Setup

/-! ## What holds in every state -/

structure Part (ι ο : Type) where
  entries : List (Entry ι ο)
  table : List (ι × ο)
  entriesOf : EntriesOf table entries

namespace Part

variable (part : Part ι ο)

def events : List Event := part.entries.map Entry.event

def Linearizable (obj : Object σ ι ο) : Prop :=
  Linearizability.Linearizable (callAt part.events) (retAt part.events) (attempt obj part.table)
    obj.init (List.range part.table.length)

def Partial (obj : Object σ ι ο) (l : List ℕ) : Prop :=
  Linearizability.Partial (callAt part.events) (retAt part.events) (attempt obj part.table)
    obj.init (List.range part.table.length) l

end Part

namespace Thread

def isIdle : Thread σ ι ο → Bool
  | .idle => true
  | _ => false

def result : Thread σ ι ο → Option Bool
  | .done ok => some ok
  | _ => none

def Ok (p : Setup σ ι ο) (part : Part ι ο) (kill : Bool) (longest : List (Option Seq)) (m : ℕ) :
    Thread σ ι ο → Prop
  | .idle => m = enough part.entries+5
  | .launched => m = enough part.entries+4
  | .checking st => ∃ k, Good p.model part.table part.events p.computeInfo k st ∧ m = k+3
  | .returned v => VerdictOk p.model part.table part.events p.computeInfo kill v ∧ m = 2
  | .sending ok =>
    VerdictOk p.model part.table part.events p.computeInfo kill (ok,longest) ∧ m = 1
  | .done ok => VerdictOk p.model part.table part.events p.computeInfo kill (ok,longest) ∧ m = 0
  | .panicked => False

end Thread

namespace Setup

variable (p : Setup σ ι ο) (parts : List (Part ι ο))

def Decided (s : ParState σ ι ο) : Prop :=
  (s.ok = false → ∃ part ∈ parts, ¬part.Linearizable p.model) ∧
    (s.ok = true → s.timedOut = true ∨ ∀ part ∈ parts, part.Linearizable p.model)

def Launched (s : ParState σ ι ο) : Prop := ∀ t ∈ s.threads, t.isIdle = false

def PhaseOk (s : ParState σ ι ο) : Prop :=
  match s.main with
  | .launching i => i ≤ parts.length ∧
      (∀ j t, s.threads[j]? = some t → (t.isIdle = true ↔ i ≤ j)) ∧ s.kill = false ∧
      s.timedOut = false ∧ s.count = 0
  | .selecting => Launched s ∧ s.kill = false ∧ s.timedOut = false ∧
      (parts ≠ [] → s.count < parts.length)
  | .killing => Launched s ∧ Decided p parts s ∧ s.kill = false ∧
      (p.computeInfo = true → s.timedOut = true)
  | .leaving => Launched s ∧ Decided p parts s ∧
      (p.computeInfo = true → s.kill = true → s.timedOut = true)
  | .draining => Launched s ∧ Decided p parts s ∧ p.computeInfo = true ∧
      (s.kill = true → s.timedOut = true)
  | .finished r info => Launched s ∧ Decided p parts s ∧
      (p.computeInfo = true → parts.length ≤ s.count ∧ (s.kill = true → s.timedOut = true)) ∧
      r = resultOf s.ok s.timedOut ∧ info = p.infoOf s.longest

def Collecting (s : ParState σ ι ο) : Prop :=
  match s.main with
  | .launching _ => True
  | .selecting => True
  | _ => False

def mainRank (s : ParState σ ι ο) : ℕ :=
  match s.main with
  | .launching i => (parts.length-i)+(parts.length-s.count)+5
  | .selecting => (parts.length-s.count)+4
  | .killing => (parts.length-s.count)+3
  | .leaving => (parts.length-s.count)+2
  | .draining => (parts.length-s.count)+1
  | .finished _ _ => 0

structure Inv (m : ℕ) (s : ParState σ ι ο) : Prop where
  cap : s.results.cap = parts.length
  isOpen : s.results.closed = false
  threads : s.threads.length = parts.length
  longest : s.longest.length = parts.length
  work : ∃ ms : ℕ → ℕ, (∀ i part, parts[i]? = some part →
      ∃ (t : Thread σ ι ο) (l : List (Option Seq)), s.threads[i]? = some t ∧
        s.longest[i]? = some l ∧ t.Ok p part s.kill l (ms i)) ∧
    m = ∑ i ∈ Finset.range parts.length, ms i + mainRank parts s
  sent : ∃ received : List Bool, received.length = s.count ∧
    (s.threads.filterMap Thread.result).Perm (received++s.results.buf) ∧
    (Collecting s → s.ok = received.all id)
  timer : s.timedOut = true → 0 < p.timeout
  phase : PhaseOk p parts s

end Setup

/-! ## The goroutines -/

section Threads

variable {p : Setup σ ι ο} {parts : List (Part ι ο)} {s : ParState σ ι ο} {m : ℕ}

theorem VerdictOk.kill {obj : Object σ ι ο} {table : List (ι × ο)} {history : List Event}
    {computePartial killed : Bool} {v : Verdict}
    (h : VerdictOk obj table history computePartial killed v) :
    VerdictOk obj table history computePartial true v := by
  refine ⟨?_,h.sound,h.addressed⟩
  rintro (hkill | hok)
  · cases hkill
  · exact h.exact (Or.inr hok)

theorem Thread.Ok.kill {part : Part ι ο} {kill : Bool} {longest : List (Option Seq)}
    {t : Thread σ ι ο} (h : t.Ok p part kill longest m) : t.Ok p part true longest m := by
  cases t with
  | idle => exact h
  | launched => exact h
  | checking st => exact h
  | returned v => exact ⟨h.1.kill,h.2⟩
  | sending ok => exact ⟨h.1.kill,h.2⟩
  | done ok => exact ⟨h.1.kill,h.2⟩
  | panicked => exact h

theorem VerdictOk.linearizable_iff {part : Part ι ο} {obj : Object σ ι ο} {computePartial : Bool}
    {v : Verdict} (h : VerdictOk obj part.table part.events computePartial false v) :
    v.1 = true ↔ part.Linearizable obj := by
  obtain ⟨o,ho,hv,-⟩ := h.exact (Or.inl rfl)
  rw [hv]
  exact ho.linearizable_iff part.entriesOf.wellFormed

theorem filterMap_set_perm {α β : Type*} {f : α → Option β} {l : List α} {i : ℕ} {a : α}
    (h : l[i]? = some a) (ha : f a = none) (b : α) :
    ((l.set i b).filterMap f).Perm (l.filterMap f++(f b).toList) := by
  induction l generalizing i with
  | nil => simp at h
  | cons c l ih =>
    cases i with
    | zero =>
      rw [List.getElem?_cons_zero] at h
      cases Option.some.inj h
      rw [List.set_cons_zero, List.filterMap_cons_none ha]
      cases hb : f b with
      | none => simp [List.filterMap_cons_none hb]
      | some y =>
        rw [List.filterMap_cons_some hb, Option.toList_some]
        exact (List.perm_append_singleton y _).symm
    | succ i =>
      rw [List.getElem?_cons_succ] at h
      rw [List.set_cons_succ]
      cases hc : f c with
      | none =>
        rw [List.filterMap_cons_none hc, List.filterMap_cons_none hc]
        exact ih h
      | some y =>
        rw [List.filterMap_cons_some hc, List.filterMap_cons_some hc]
        exact (ih h).cons y

structure ThreadMove (p : Setup σ ι ο) (part : Part ι ο) (s : ParState σ ι ο) (i m : ℕ)
    (t t' : Thread σ ι ο) (l' : List (Option Seq)) (results : Chan Bool) (k : ℕ) : Prop where
  step_eq : p.threadStep i s =
    { s with threads := s.threads.set i t', longest := s.longest.set i l', results := results }
  notDone : t.result = none
  notIdle : t'.isIdle = false
  cap : results.cap = s.results.cap
  isOpen : results.closed = false
  buf : results.buf = s.results.buf++t'.result.toList
  less : k < m
  ok : t'.Ok p part s.kill l' k

def Thread.Ready (results : Chan Bool) : Thread σ ι ο → Prop
  | .launched => True
  | .checking _ => True
  | .returned _ => True
  | .sending _ => results.buf.length < results.cap
  | _ => False

theorem set_self {α : Type*} {l : List α} {i : ℕ} {a : α} (h : l[i]? = some a) : l.set i a = l := by
  obtain ⟨hi,rfl⟩ := List.getElem?_eq_some_iff.mp h
  exact List.set_getElem_self hi

theorem getElem?_set_cases {α : Type*} {l : List α} {i j : ℕ} {a b : α}
    (h : (l.set i a)[j]? = some b) : j = i ∧ b = a ∨ j ≠ i ∧ l[j]? = some b := by
  rw [List.getElem?_set] at h
  split at h
  · rename_i hij
    split at h
    · exact Or.inl ⟨hij.symm,(Option.some.inj h).symm⟩
    · cases h
  · rename_i hij
    exact Or.inr ⟨fun hji => hij hji.symm,h⟩

theorem threadStep_move (hobj : p.model.Respects) {i : ℕ} {part : Part ι ο}
    (hhistory : p.history[i]? = some part.entries) (ho : s.results.closed = false)
    {t : Thread σ ι ο} (ht : s.threads[i]? = some t) {l : List (Option Seq)}
    (hl : s.longest[i]? = some l) (hok : t.Ok p part s.kill l m) (hready : t.Ready s.results) :
    ∃ t' l' results k, ThreadMove p part s i m t t' l' results k := by
  have hsame := set_self hl
  cases t with
  | idle => exact hready.elim
  | launched =>
    obtain ⟨c,hstart,hgood⟩ := startCheck_good p.model part.entriesOf p.computeInfo
    refine ⟨.checking c,l,s.results,enough part.entries+3,?_,rfl,rfl,rfl,ho,by simp [Thread.result],
      ?_,_,hgood,rfl⟩
    · simp only [Setup.threadStep, ht, hhistory, Setup.begin, hstart, hsame]
    · rw [hok]
      omega
  | checking st =>
    obtain ⟨k,hgood,rfl⟩ := hok
    have hturn := checkTurn_advances part.entriesOf.wellFormed hobj s.kill hgood
    cases hcheck : checkTurn p.model p.computeInfo s.kill st with
    | inl st' =>
      rw [hcheck] at hturn
      obtain ⟨k',hk',hgood'⟩ := hturn
      refine ⟨.checking st',l,s.results,k'+3,?_,rfl,rfl,rfl,ho,by simp [Thread.result],by omega,
        k',hgood',rfl⟩
      simp only [Setup.threadStep, ht, Setup.turnOf, hcheck, hsame]
    | inr r =>
      rw [hcheck] at hturn
      obtain ⟨v,rfl,hv⟩ := hturn
      refine ⟨.returned v,l,s.results,2,?_,rfl,rfl,rfl,ho,by simp [Thread.result],by omega,hv,rfl⟩
      simp only [Setup.threadStep, ht, Setup.turnOf, hcheck, hsame]
  | returned v =>
    obtain ⟨hv,rfl⟩ := hok
    refine ⟨.sending v.1,v.2,s.results,1,?_,rfl,rfl,rfl,ho,by simp [Thread.result],by omega,hv,rfl⟩
    simp only [Setup.threadStep, ht]
  | sending ok =>
    obtain ⟨hv,rfl⟩ := hok
    obtain ⟨results,hsend,hclosed,hcap,hbuf⟩ := s.results.send_of_room ok ho hready
    refine ⟨.done ok,l,results,0,?_,rfl,rfl,hcap,hclosed,hbuf,by omega,hv,rfl⟩
    simp only [Setup.threadStep, ht, hsend, hsame]
  | done ok => exact hready.elim
  | panicked => exact hready.elim

theorem threadStep_skip {i : ℕ} (ho : s.results.closed = false)
    (h : ∀ t, s.threads[i]? = some t → ¬t.Ready s.results) :
    p.threadStep i s = s := by
  rw [Setup.threadStep]
  cases ht : s.threads[i]? with
  | none => rfl
  | some t =>
    have hnot := h t ht
    cases t with
    | idle => rfl
    | launched => exact absurd trivial hnot
    | checking st => exact absurd trivial hnot
    | returned v => exact absurd trivial hnot
    | sending ok =>
      have hfull : ¬s.results.buf.length < s.results.cap := hnot
      have hsend : s.results.send ok = .block := by
        rw [Chan.send, ho, if_neg Bool.false_ne_true, dif_neg hfull]
      simp only [hsend]
    | done ok => rfl
    | panicked => rfl

theorem Thread.Ready.not_idle {results : Chan Bool} {t : Thread σ ι ο} (h : t.Ready results) :
    t.isIdle = false := by
  cases t with
  | idle => exact h.elim
  | _ => rfl

end Threads

/-! ## One step -/

namespace Setup

section Step

variable {p : Setup σ ι ο} {parts : List (Part ι ο)} {s : ParState σ ι ο} {m : ℕ}

theorem Inv.sent_length (h : Inv p parts m s) :
    (s.threads.filterMap Thread.result).length = s.count+s.results.buf.length := by
  obtain ⟨received,hlen,hperm,-⟩ := h.sent
  rw [hperm.length_eq, List.length_append, hlen]

/-- While a goroutine has not sent its result, not all have been received. -/
theorem Inv.count_lt (h : Inv p parts m s) {t : Thread σ ι ο} (ht : t ∈ s.threads)
    (hres : t.result = none) : s.count+s.results.buf.length < parts.length := by
  rw [← h.sent_length, ← h.threads]
  exact List.length_filterMap_lt_length_iff_exists.mpr ⟨t,ht,hres⟩

theorem launched_set {i : ℕ} {t' : Thread σ ι ο} (h : Launched s) (ht' : t'.isIdle = false) :
    ∀ t ∈ s.threads.set i t', t.isIdle = false := by
  intro t ht
  rcases List.mem_or_eq_of_mem_set ht with hmem | rfl
  · exact h t hmem
  · exact ht'

theorem PhaseOk.thread (hphase : PhaseOk p parts s)
    {i : ℕ} {t t' : Thread σ ι ο} (ht : s.threads[i]? = some t) (hidle : t.isIdle = false)
    (ht' : t'.isIdle = false) (hcount : s.count < parts.length) {l' : List (Option Seq)}
    {results : Chan Bool} :
    PhaseOk p parts { s with
      threads := s.threads.set i t', longest := s.longest.set i l', results := results } := by
  unfold PhaseOk at hphase ⊢
  split at hphase
  · rename_i k hmain
    simp only [hmain]
    obtain ⟨hk,hthreads,hrest⟩ := hphase
    refine ⟨hk,?_,hrest⟩
    intro j u hu
    rcases getElem?_set_cases hu with ⟨rfl,rfl⟩ | ⟨-,hu⟩
    · rw [← hthreads j t ht, hidle, ht']
    · exact hthreads j u hu
  · rename_i hmain
    simp only [hmain]
    exact ⟨launched_set hphase.1 ht',hphase.2⟩
  · rename_i hmain
    simp only [hmain]
    exact ⟨launched_set hphase.1 ht',hphase.2⟩
  · rename_i hmain
    simp only [hmain]
    exact ⟨launched_set hphase.1 ht',hphase.2⟩
  · rename_i hmain
    simp only [hmain]
    exact ⟨launched_set hphase.1 ht',hphase.2⟩
  · rename_i r info hmain
    simp only [hmain]
    obtain ⟨hlaunched,hdecided,hinfo,hr,hi⟩ := hphase
    refine ⟨launched_set hlaunched ht',hdecided,hinfo,hr,?_⟩
    cases hcompute : p.computeInfo with
    | true => exact absurd (hinfo hcompute).1 (by omega)
    | false =>
      rw [hi]
      simp [infoOf, hcompute]

theorem sum_update_lt {n i : ℕ} (hi : i < n) (ms : ℕ → ℕ) {k : ℕ} (hk : k < ms i) :
    ∑ j ∈ Finset.range n, Function.update ms i k j < ∑ j ∈ Finset.range n, ms j := by
  apply Finset.sum_lt_sum
  · intro j _
    rcases eq_or_ne j i with rfl | hne
    · rw [Function.update_self]
      exact hk.le
    · rw [Function.update_of_ne hne]
  · exact ⟨i,Finset.mem_range.mpr hi,by rw [Function.update_self]; exact hk⟩

theorem work_set {ms : ℕ → ℕ} (hwork : ∀ i part, parts[i]? = some part →
      ∃ (t : Thread σ ι ο) (l : List (Option Seq)), s.threads[i]? = some t ∧
        s.longest[i]? = some l ∧ t.Ok p part s.kill l (ms i))
    {i k : ℕ} {t t' : Thread σ ι ο} {l l' : List (Option Seq)} {part : Part ι ο}
    (hpart : parts[i]? = some part) (ht : s.threads[i]? = some t) (hl : s.longest[i]? = some l)
    (hok : t'.Ok p part s.kill l' k) (j : ℕ) (part' : Part ι ο) (hj : parts[j]? = some part') :
    ∃ (u : Thread σ ι ο) (q : List (Option Seq)), (s.threads.set i t')[j]? = some u ∧
      (s.longest.set i l')[j]? = some q ∧ u.Ok p part' s.kill q (Function.update ms i k j) := by
  rcases eq_or_ne j i with rfl | hne
  · cases Option.some.inj (hpart.symm.trans hj)
    refine ⟨t',l',?_,?_,?_⟩
    · exact List.getElem?_set_self (List.getElem?_eq_some_iff.mp ht).1
    · exact List.getElem?_set_self (List.getElem?_eq_some_iff.mp hl).1
    · rw [Function.update_self]
      exact hok
  · obtain ⟨u,q,hu,hq,huok⟩ := hwork j part' hj
    refine ⟨u,q,?_,?_,?_⟩
    · rw [List.getElem?_set_ne hne.symm, hu]
    · rw [List.getElem?_set_ne hne.symm, hq]
    · rw [Function.update_of_ne hne]
      exact huok

theorem inv_thread (hobj : p.model.Respects) (hparts : p.history = parts.map Part.entries)
    (h : Inv p parts m s) {i : ℕ} {t : Thread σ ι ο} (ht : s.threads[i]? = some t)
    (hready : t.Ready s.results) : ∃ k < m, Inv p parts k (p.threadStep i s) := by
  obtain ⟨ms,hwork,rfl⟩ := h.work
  have hi : i < parts.length := h.threads ▸ (List.getElem?_eq_some_iff.mp ht).1
  have hpart := List.getElem?_eq_getElem hi
  obtain ⟨t',l,ht',hl,hok⟩ := hwork i _ hpart
  cases Option.some.inj (ht.symm.trans ht')
  have hhistory : p.history[i]? = some (parts[i]).entries := by
    rw [hparts, List.getElem?_map, hpart]
    rfl
  obtain ⟨t',l',results,k,hmove⟩ := threadStep_move hobj hhistory h.isOpen ht hl hok hready
  obtain ⟨received,hlen,hperm,hall⟩ := h.sent
  have hcount := h.count_lt (List.mem_of_getElem? ht) hmove.notDone
  rw [hmove.step_eq]
  refine ⟨∑ j ∈ Finset.range parts.length, Function.update ms i k j + mainRank parts s,
    Nat.add_lt_add_right (sum_update_lt hi ms hmove.less) _,hmove.cap.trans h.cap,hmove.isOpen,
    ?_,?_,⟨Function.update ms i k,work_set hwork hpart ht hl hmove.ok,rfl⟩,
    ⟨received,hlen,?_,hall⟩,h.timer,
    h.phase.thread ht hready.not_idle hmove.notIdle (by omega)⟩
  · rw [List.length_set, h.threads]
  · rw [List.length_set, h.longest]
  · rw [hmove.buf, ← List.append_assoc]
    exact (filterMap_set_perm ht hmove.notDone t').trans (hperm.append_right _)

theorem Inv.move (h : Inv p parts m s) {s' : ParState σ ι ο} (hthreads : s'.threads = s.threads)
    (hlongest : s'.longest = s.longest) (hkill : s'.kill = s.kill ∨ s'.kill = true)
    (hcap : s'.results.cap = s.results.cap) (hopen : s'.results.closed = false)
    (hrank : mainRank parts s' < mainRank parts s)
    (hsent : ∃ received : List Bool, received.length = s'.count ∧
      (s'.threads.filterMap Thread.result).Perm (received++s'.results.buf) ∧
      (Collecting s' → s'.ok = received.all id))
    (htimer : s'.timedOut = true → 0 < p.timeout) (hphase : PhaseOk p parts s') :
    ∃ k < m, Inv p parts k s' := by
  obtain ⟨ms,hwork,rfl⟩ := h.work
  refine ⟨_,Nat.add_lt_add_left hrank _,hcap.trans h.cap,hopen,?_,?_,⟨ms,?_,rfl⟩,hsent,htimer,
    hphase⟩
  · rw [hthreads, h.threads]
  · rw [hlongest, h.longest]
  · intro i part hi
    obtain ⟨t,l,ht,hl,hok⟩ := hwork i part hi
    refine ⟨t,l,by rw [hthreads, ht],by rw [hlongest, hl],?_⟩
    rcases hkill with heq | heq
    · rw [heq]
      exact hok
    · rw [heq]
      exact hok.kill

theorem inv_launch (h : Inv p parts m s) {i : ℕ} (hmain : s.main = .launching i)
    (hi : i < parts.length) :
    ∃ k < m, Inv p parts k
      { s with main := .launching (i+1), threads := s.threads.set i .launched } := by
  have hphase := h.phase
  simp only [PhaseOk, hmain] at hphase
  obtain ⟨-,hidle,hkill,htimed,hcount⟩ := hphase
  obtain ⟨ms,hwork,rfl⟩ := h.work
  have hpart := List.getElem?_eq_getElem hi
  obtain ⟨t,l,ht,hl,hok⟩ := hwork i _ hpart
  obtain rfl : t = .idle := by
    have := (hidle i t ht).mpr le_rfl
    cases t with
    | idle => rfl
    | _ => cases this
  have hms : ms i = enough (parts[i]).entries+5 := hok
  have hnew : (Thread.launched : Thread σ ι ο).Ok p parts[i] s.kill l
      (enough (parts[i]).entries+4) := rfl
  have hset := work_set hwork hpart ht hl hnew
  rw [set_self hl] at hset
  obtain ⟨received,hlen,hperm,hall⟩ := h.sent
  have hrank : mainRank parts
      { s with main := .launching (i+1), threads := s.threads.set i .launched } <
        mainRank parts s := by
    simp only [mainRank, hmain]
    omega
  refine ⟨_,Nat.add_lt_add (sum_update_lt hi ms (k := enough (parts[i]).entries+4) (by omega))
    hrank,h.cap,h.isOpen,?_,h.longest,⟨_,hset,rfl⟩,⟨received,hlen,?_,fun _ => ?_⟩,h.timer,?_⟩
  · rw [List.length_set, h.threads]
  · refine (filterMap_set_perm ht rfl .launched).trans ?_
    rw [show (Thread.launched : Thread σ ι ο).result = none from rfl, Option.toList_none,
      List.append_nil]
    exact hperm
  · exact hall (by simp [Collecting, hmain])
  · refine ⟨hi,?_,hkill,htimed,hcount⟩
    intro j u hu
    rcases getElem?_set_cases hu with ⟨rfl,rfl⟩ | ⟨hij,hu⟩
    · exact iff_of_false Bool.false_ne_true (Nat.not_succ_le_self j)
    · rw [hidle j u hu]
      omega

theorem finish_inv (h : Inv p parts m s) (hlaunched : Launched s) (hdecided : Decided p parts s)
    (hinfo : p.computeInfo = true → parts.length ≤ s.count ∧ (s.kill = true → s.timedOut = true))
    (hrank : 0 < mainRank parts s) : ∃ k < m, Inv p parts k (p.finish s) := by
  obtain ⟨received,hlen,hperm,-⟩ := h.sent
  exact h.move rfl rfl (Or.inl rfl) rfl h.isOpen hrank
    ⟨received,hlen,hperm,fun hc => hc.elim⟩ h.timer ⟨hlaunched,hdecided,hinfo,rfl,rfl⟩

def MainReady (p : Setup σ ι ο) (s : ParState σ ι ο) : Prop :=
  match s.main with
  | .launching _ => True
  | .selecting => False
  | .killing => True
  | .leaving => True
  | .draining => s.count < p.history.length → s.results.buf ≠ []
  | .finished _ _ => False

theorem Inv.receive (h : Inv p parts m s) (hbuf : s.results.buf ≠ []) :
    ∃ (v : Bool) (results : Chan Bool) (received : List Bool),
      s.results.recv = .done (some v,results) ∧ results.closed = false ∧
      results.cap = s.results.cap ∧ (received++[v]).length = s.count+1 ∧
      (s.threads.filterMap Thread.result).Perm ((received++[v])++results.buf) ∧
      (Collecting s → s.ok = received.all id) := by
  obtain ⟨received,hlen,hperm,hall⟩ := h.sent
  obtain ⟨v,rest,hcons⟩ := List.exists_cons_of_ne_nil hbuf
  obtain ⟨results,hrecv,hclosed,hcap,hrest⟩ := s.results.recv_of_cons hcons
  refine ⟨v,results,received,hrecv,hclosed.trans h.isOpen,hcap,by simp [hlen],?_,hall⟩
  rw [hrest, List.append_assoc, List.singleton_append, ← hcons]
  exact hperm

theorem inv_select (h : Inv p parts m s) {i : ℕ} (hmain : s.main = .launching i)
    (hi : parts.length ≤ i) : ∃ k < m, Inv p parts k { s with main := .selecting } := by
  have hphase := h.phase
  simp only [PhaseOk, hmain] at hphase
  obtain ⟨-,hidle,hkill,htimed,hcount⟩ := hphase
  obtain ⟨received,hlen,hperm,hall⟩ := h.sent
  refine h.move rfl rfl (Or.inl rfl) rfl h.isOpen ?_
    ⟨received,hlen,hperm,fun _ => hall (by simp [Collecting, hmain])⟩ h.timer ⟨?_,hkill,htimed,?_⟩
  · simp only [mainRank, hmain]
    omega
  · intro t ht
    obtain ⟨j,hj,rfl⟩ := List.getElem_of_mem ht
    have := (hidle j _ (List.getElem?_eq_getElem hj)).not.mpr (by rw [h.threads] at hj; omega)
    simpa using this
  · intro hne
    have hpos := List.length_pos_of_ne_nil hne
    show s.count < parts.length
    omega

theorem inv_kill (h : Inv p parts m s) (hmain : s.main = .killing) :
    ∃ k < m, Inv p parts k { s with main := .leaving, kill := true } := by
  have hphase := h.phase
  simp only [PhaseOk, hmain] at hphase
  obtain ⟨hlaunched,hdecided,-,htimed⟩ := hphase
  obtain ⟨received,hlen,hperm,-⟩ := h.sent
  refine h.move rfl rfl (Or.inr rfl) rfl h.isOpen ?_ ⟨received,hlen,hperm,fun hc => hc.elim⟩
    h.timer ⟨hlaunched,hdecided,fun hc _ => htimed hc⟩
  simp only [mainRank, hmain]
  omega

theorem inv_leave (h : Inv p parts m s) (hmain : s.main = .leaving) :
    ∃ k < m, Inv p parts k (p.mainStep s) := by
  have hphase := h.phase
  simp only [PhaseOk, hmain] at hphase
  obtain ⟨hlaunched,hdecided,htimed⟩ := hphase
  obtain ⟨received,hlen,hperm,-⟩ := h.sent
  simp only [mainStep, hmain]
  split
  · rename_i hcompute
    refine h.move rfl rfl (Or.inl rfl) rfl h.isOpen ?_ ⟨received,hlen,hperm,fun hc => hc.elim⟩
      h.timer ⟨hlaunched,hdecided,hcompute,htimed hcompute⟩
    simp only [mainRank, hmain]
    omega
  · rename_i hcompute
    exact finish_inv h hlaunched hdecided (fun hc => absurd hc hcompute)
      (by simp only [mainRank, hmain]; omega)

theorem inv_drain (hn : p.history.length = parts.length) (h : Inv p parts m s)
    (hmain : s.main = .draining) (hready : s.count < p.history.length → s.results.buf ≠ []) :
    ∃ k < m, Inv p parts k (p.mainStep s) := by
  have hphase := h.phase
  simp only [PhaseOk, hmain] at hphase
  obtain ⟨hlaunched,hdecided,hcompute,htimed⟩ := hphase
  simp only [mainStep, hmain]
  split
  · rename_i hlt
    obtain ⟨v,results,received,hrecv,hopen,hcap,hlen,hperm,-⟩ := h.receive (hready hlt)
    simp only [hrecv]
    refine h.move rfl rfl (Or.inl rfl) hcap hopen ?_ ⟨_,hlen,hperm,fun hc => hc.elim⟩ h.timer
      ⟨hlaunched,hdecided,hcompute,htimed⟩
    simp only [mainRank, hmain]
    omega
  · rename_i hnot
    exact finish_inv h hlaunched hdecided (fun _ => ⟨by omega,htimed⟩)
      (by simp only [mainRank, hmain]; omega)

theorem inv_main (hparts : p.history = parts.map Part.entries) (h : Inv p parts m s)
    (hready : MainReady p s) : ∃ k < m, Inv p parts k (p.mainStep s) := by
  have hn : p.history.length = parts.length := by rw [hparts, List.length_map]
  cases hmain : s.main with
  | launching i =>
    simp only [mainStep, hmain]
    split
    · rename_i hlt
      exact inv_launch h hmain (hn ▸ hlt)
    · rename_i hnot
      exact inv_select h hmain (by omega)
  | selecting => simp [MainReady, hmain] at hready
  | killing =>
    simp only [mainStep, hmain]
    exact inv_kill h hmain
  | leaving => exact inv_leave h hmain
  | draining =>
    simp only [MainReady, hmain] at hready
    exact inv_drain hn h hmain hready
  | finished r info => simp [MainReady, hmain] at hready

theorem mem_of_all_eq_false {l : List Bool} (h : l.all id = false) : false ∈ l := by
  obtain ⟨r,hr,hfalse⟩ := List.all_eq_false.mp h
  rw [Bool.not_eq_true, id] at hfalse
  exact hfalse ▸ hr

theorem Thread.done_of_result {t : Thread σ ι ο} {ok : Bool} (h : t.result = some ok) :
    t = .done ok := by
  cases t with
  | done r => rw [Option.some.inj h]
  | _ => cases h

/-- A result that was sent before the flag was raised is right. -/
theorem Inv.failure (h : Inv p parts m s) (hkill : s.kill = false)
    (hfalse : false ∈ s.threads.filterMap Thread.result) :
    ∃ part ∈ parts, ¬part.Linearizable p.model := by
  obtain ⟨t,ht,hres⟩ := List.mem_filterMap.mp hfalse
  obtain ⟨i,hi,rfl⟩ := List.getElem_of_mem ht
  have hpart := List.getElem?_eq_getElem (h.threads ▸ hi : i < parts.length)
  obtain ⟨ms,hwork,-⟩ := h.work
  obtain ⟨u,l,hu,-,hok⟩ := hwork i _ hpart
  cases Option.some.inj ((List.getElem?_eq_getElem hi).symm.trans hu)
  rw [Thread.done_of_result hres, hkill] at hok
  exact ⟨_,List.mem_of_getElem? hpart,hok.1.linearizable_iff.not.mp Bool.false_ne_true⟩

theorem Inv.success (h : Inv p parts m s) (hkill : s.kill = false)
    (htrue : ∀ ok ∈ s.threads.filterMap Thread.result, ok = true)
    (hlen : parts.length ≤ (s.threads.filterMap Thread.result).length) :
    ∀ part ∈ parts, part.Linearizable p.model := by
  intro part hmem
  obtain ⟨i,hi,rfl⟩ := List.getElem_of_mem hmem
  obtain ⟨ms,hwork,-⟩ := h.work
  obtain ⟨t,l,ht,-,hok⟩ := hwork i _ (List.getElem?_eq_getElem hi)
  cases hres : t.result with
  | none =>
    have hlt : (s.threads.filterMap Thread.result).length < s.threads.length :=
      List.length_filterMap_lt_length_iff_exists.mpr ⟨t,List.mem_of_getElem? ht,hres⟩
    rw [h.threads] at hlt
    omega
  | some ok =>
    have hok' := htrue ok (List.mem_filterMap.mpr ⟨t,List.mem_of_getElem? ht,hres⟩)
    rw [Thread.done_of_result hres, hkill] at hok
    exact hok.1.linearizable_iff.mp hok'

theorem Inv.some_false (h : Inv p parts m s) (hkill : s.kill = false) {rs rest : List Bool}
    (hperm : (s.threads.filterMap Thread.result).Perm (rs++rest)) (hfalse : rs.all id = false) :
    ∃ part ∈ parts, ¬part.Linearizable p.model := by
  apply h.failure hkill
  rw [hperm.mem_iff]
  exact List.mem_append_left _ (mem_of_all_eq_false hfalse)

theorem Inv.all_true (h : Inv p parts m s) (hkill : s.kill = false) {rs rest : List Bool}
    (hperm : (s.threads.filterMap Thread.result).Perm (rs++rest)) (hlen : parts.length ≤ rs.length)
    (htrue : rs.all id = true) : ∀ part ∈ parts, part.Linearizable p.model := by
  have hsent := hperm.length_eq
  have hroom : (s.threads.filterMap Thread.result).length ≤ parts.length :=
    h.threads ▸ List.length_filterMap_le _ _
  rw [List.length_append] at hsent
  obtain rfl : rest = [] := List.length_eq_zero_iff.mp (by omega)
  apply h.success hkill
  · intro ok hmem
    rw [hperm.mem_iff, List.append_nil] at hmem
    exact List.all_eq_true.mp htrue ok hmem
  · omega

theorem inv_result (hparts : p.history = parts.map Part.entries) (h : Inv p parts m s)
    (hmain : s.main = .selecting) (hbuf : s.results.buf ≠ []) :
    ∃ k < m, Inv p parts k (p.resultStep s) := by
  have hn : p.history.length = parts.length := by rw [hparts, List.length_map]
  have hphase := h.phase
  simp only [PhaseOk, hmain] at hphase
  obtain ⟨hlaunched,hkill,htimed,-⟩ := hphase
  obtain ⟨v,results,received,hrecv,hopen,hcap,hlen,hperm,hall⟩ := h.receive hbuf
  have hok : (s.ok && v) = (received++[v]).all id := by
    simp [hall (by simp [Collecting, hmain])]
  have hfail : (s.ok && v) = false → ∃ part ∈ parts, ¬part.Linearizable p.model :=
    fun hfalse => h.some_false hkill hperm (hok.symm.trans hfalse)
  have hmove : ∀ next, mainRank parts { s with main := next, count := s.count+1 } <
      mainRank parts s → PhaseOk p parts { s with
        main := next, results := results, count := s.count+1, ok := s.ok && v } →
      ∃ k < m, Inv p parts k { s with
        main := next, results := results, count := s.count+1, ok := s.ok && v } :=
    fun next hrank hnext => h.move rfl rfl (Or.inl rfl) hcap hopen hrank
      ⟨_,hlen,hperm,fun _ => hok⟩ h.timer hnext
  have hroom := hperm.length_eq ▸ h.threads ▸ List.length_filterMap_le Thread.result s.threads
  rw [List.length_append, hlen] at hroom
  simp only [resultStep, hmain, hrecv, Option.getD_some]
  by_cases hstop : (!(s.ok && v) && !p.computeInfo) = true
  · rw [if_pos hstop]
    rw [Bool.and_eq_true, Bool.not_eq_true', Bool.not_eq_true'] at hstop
    refine hmove _ (by simp only [mainRank, hmain]; omega) ⟨hlaunched,⟨hfail,?_⟩,hkill,?_⟩
    · exact fun htrue => absurd (hstop.1.symm.trans htrue) Bool.false_ne_true
    · exact fun hc => absurd (hstop.2.symm.trans hc) Bool.false_ne_true
  · rw [if_neg hstop]
    split
    · rename_i hlast
      refine hmove _ (by simp only [mainRank, hmain]; omega) ⟨hlaunched,⟨hfail,?_⟩,?_⟩
      · exact fun htrue => Or.inr (h.all_true hkill hperm (by omega) (hok.symm.trans htrue))
      · exact fun _ hk => absurd (hkill.symm.trans hk) Bool.false_ne_true
    · rename_i hlast
      refine hmove _ (by simp only [mainRank, hmain]; omega) ⟨hlaunched,hkill,htimed,fun _ => ?_⟩
      show s.count+1 < parts.length
      omega

theorem inv_timeout (h : Inv p parts m s) (hmain : s.main = .selecting) (htimeout : 0 < p.timeout) :
    ∃ k < m, Inv p parts k (p.timeoutStep s) := by
  have hphase := h.phase
  simp only [PhaseOk, hmain] at hphase
  obtain ⟨hlaunched,hkill,-,-⟩ := hphase
  obtain ⟨received,hlen,hperm,hall⟩ := h.sent
  have hok := hall (by simp [Collecting, hmain])
  simp only [timeoutStep, hmain, if_pos htimeout]
  refine h.move rfl rfl (Or.inl rfl) rfl h.isOpen ?_ ⟨received,hlen,hperm,fun hc => hc.elim⟩
    (fun _ => htimeout) ⟨hlaunched,⟨?_,fun _ => Or.inl rfl⟩,hkill,fun _ => rfl⟩
  · simp only [mainRank, hmain]
    omega
  · intro hfalse
    apply h.failure hkill
    rw [hperm.mem_iff]
    exact List.mem_append_left _ (mem_of_all_eq_false (hok.symm.trans hfalse))

end Step

/-! ## All schedules -/

section Runs

variable {p : Setup σ ι ο} {parts : List (Part ι ο)} {s : ParState σ ι ο} {m : ℕ}

def Enabled (p : Setup σ ι ο) : Action → ParState σ ι ο → Prop
  | .main, s => MainReady p s
  | .result, s => s.main = .selecting ∧ s.results.buf ≠ []
  | .timeout, s => s.main = .selecting ∧ 0 < p.timeout
  | .thread i, s => ∃ t, s.threads[i]? = some t ∧ t.Ready s.results

theorem step_inv (hobj : p.model.Respects) (hparts : p.history = parts.map Part.entries)
    (h : Inv p parts m s) (a : Action) (ha : Enabled p a s) :
    ∃ k < m, Inv p parts k (p.step a s) := by
  cases a with
  | main => exact inv_main hparts h ha
  | result => exact inv_result hparts h ha.1 ha.2
  | timeout => exact inv_timeout h ha.1 ha.2
  | thread i =>
    obtain ⟨t,ht,hready⟩ := ha
    exact inv_thread hobj hparts h ht hready

theorem step_skip (h : Inv p parts m s) (a : Action) (ha : ¬Enabled p a s) : p.step a s = s := by
  cases a with
  | main =>
    simp only [Enabled, MainReady] at ha
    simp only [step, mainStep]
    cases hmain : s.main with
    | launching i => simp [hmain] at ha
    | selecting => rfl
    | killing => simp [hmain] at ha
    | leaving => simp [hmain] at ha
    | draining =>
      simp only [hmain, not_forall, not_not] at ha
      obtain ⟨hlt,hnil⟩ := ha
      simp only [if_pos hlt, s.results.recv_of_nil h.isOpen hnil]
    | finished r info => rfl
  | result =>
    simp only [step, resultStep]
    cases hmain : s.main with
    | selecting =>
      have hnil : s.results.buf = [] := by
        by_contra hne
        exact ha ⟨hmain,hne⟩
      rw [s.results.recv_of_nil h.isOpen hnil]
    | _ => rfl
  | timeout =>
    simp only [step, timeoutStep]
    cases hmain : s.main with
    | selecting => exact if_neg (fun ht => ha ⟨hmain,ht⟩)
    | _ => rfl
  | thread i => exact threadStep_skip h.isOpen (fun t ht hready => ha ⟨t,ht,hready⟩)

theorem start_inv (p : Setup σ ι ο) (hparts : p.history = parts.map Part.entries) :
    ∃ m, Inv p parts m p.start := by
  have hn : p.history.length = parts.length := by rw [hparts, List.length_map]
  refine ⟨_,⟨hn,rfl,?_,?_,⟨fun i => (parts[i]?.map (fun part => enough part.entries+5)).getD 0,?_,rfl⟩,
    ⟨[],rfl,?_,fun _ => rfl⟩,fun h => absurd h Bool.false_ne_true,?_⟩⟩
  · rw [start, List.length_replicate, hn]
  · rw [start, List.length_replicate, hn]
  · intro i part hi
    have hlt : i < p.history.length := hn ▸ (List.getElem?_eq_some_iff.mp hi).1
    refine ⟨.idle,[],?_,?_,?_⟩
    · rw [start, List.getElem?_replicate, if_pos hlt]
    · rw [start, List.getElem?_replicate, if_pos hlt]
    · simp [Thread.Ok, hi]
  · simp [start, Chan.make, Thread.result]
  · refine ⟨Nat.zero_le _,?_,rfl,rfl,rfl⟩
    intro j t ht
    rw [start, List.getElem?_replicate] at ht
    split at ht
    · cases Option.some.inj ht
      exact iff_of_true rfl (Nat.zero_le j)
    · cases ht

theorem run_inv (hobj : p.model.Respects) (hparts : p.history = parts.map Part.entries)
    (schedule : List Action) : ∃ m, Inv p parts m (run p.step schedule p.start) := by
  apply run_keeps p.step (fun s => ∃ m, Inv p parts m s) _ _ _ (start_inv p hparts)
  rintro a s ⟨m,h⟩
  by_cases ha : Enabled p a s
  · obtain ⟨k,-,hk⟩ := step_inv hobj hparts h a ha
    exact ⟨k,hk⟩
  · rw [step_skip h a ha]
    exact ⟨m,h⟩

def Finished (s : ParState σ ι ο) : Prop := ∃ r info, s.main = .finished r info

theorem Inv.exists_ready (h : Inv p parts m s) (hlaunched : Launched s)
    (hbuf : s.results.buf = []) (hcount : s.count < parts.length) :
    ∃ i, Enabled p (.thread i) s := by
  have hlt : (s.threads.filterMap Thread.result).length < s.threads.length := by
    rw [h.sent_length, hbuf, List.length_nil, h.threads]
    exact hcount
  obtain ⟨t,ht,hres⟩ := List.length_filterMap_lt_length_iff_exists.mp hlt
  obtain ⟨i,hi,rfl⟩ := List.getElem_of_mem ht
  obtain ⟨ms,hwork,-⟩ := h.work
  have hpart := List.getElem?_eq_getElem (h.threads ▸ hi : i < parts.length)
  obtain ⟨u,l,hu,-,hok⟩ := hwork i _ hpart
  have hti := List.getElem?_eq_getElem hi
  cases Option.some.inj (hti.symm.trans hu)
  refine ⟨i,_,hti,?_⟩
  have hidle := hlaunched _ ht
  generalize s.threads[i] = t at *
  cases t with
  | idle => cases hidle
  | launched => trivial
  | checking st => trivial
  | returned v => trivial
  | sending ok =>
    show s.results.buf.length < s.results.cap
    rw [hbuf, h.cap, List.length_nil]
    omega
  | done ok => cases hres
  | panicked => exact hok.elim

theorem Inv.live (h : Inv p parts m s) (hparts : p.history = parts.map Part.entries)
    (hne : parts ≠ []) (hnot : ¬Finished s) : ∃ a, a ≠ .timeout ∧ Enabled p a s := by
  have hphase := h.phase
  cases hmain : s.main with
  | launching i => exact ⟨.main,by simp,by simp [Enabled, MainReady, hmain]⟩
  | selecting =>
    simp only [PhaseOk, hmain] at hphase
    by_cases hbuf : s.results.buf = []
    · obtain ⟨i,hi⟩ := h.exists_ready hphase.1 hbuf (hphase.2.2.2 hne)
      exact ⟨.thread i,by simp,hi⟩
    · exact ⟨.result,by simp,hmain,hbuf⟩
  | killing => exact ⟨.main,by simp,by simp [Enabled, MainReady, hmain]⟩
  | leaving => exact ⟨.main,by simp,by simp [Enabled, MainReady, hmain]⟩
  | draining =>
    simp only [PhaseOk, hmain] at hphase
    by_cases hready : s.count < p.history.length → s.results.buf ≠ []
    · exact ⟨.main,by simp,by simpa only [Enabled, MainReady, hmain] using hready⟩
    · simp only [not_forall, not_not] at hready
      obtain ⟨hlt,hbuf⟩ := hready
      rw [hparts, List.length_map] at hlt
      obtain ⟨i,hi⟩ := h.exists_ready hphase.1 hbuf hlt
      exact ⟨.thread i,by simp,hi⟩
  | finished r info => exact absurd ⟨r,info,hmain⟩ hnot

/-- An answer comes if every goroutine gets its turn again and again; the timer need not fire. -/
theorem fair_finishes (hobj : p.model.Respects) (hparts : p.history = parts.map Part.entries)
    (hne : parts ≠ []) (schedule : ℕ → Action) (hfair : Fair (fun a => a ≠ .timeout) schedule) :
    ∃ n, Finished (after p.step schedule p.start n) := by
  obtain ⟨m,hstart⟩ := start_inv p hparts
  exact fair_reaches p.step (Enabled p) _ (Inv p parts) Finished
    (fun m s a h ha => step_inv hobj hparts h a ha) (fun m s a h ha => step_skip h a ha)
    (fun m s h hnot => h.live hparts hne hnot) m _ hstart schedule hfair

theorem answer (hobj : p.model.Respects) (hparts : p.history = parts.map Part.entries)
    (schedule : List Action) {r : CheckResult} {info : LinearizationInfo ι ο}
    (h : (run p.step schedule p.start).main = .finished r info) :
    (r = .ok → ∀ part ∈ parts, part.Linearizable p.model) ∧
      (r = .illegal → ∃ part ∈ parts, ¬part.Linearizable p.model) ∧
      (r = .unknown → 0 < p.timeout) := by
  obtain ⟨m,hinv⟩ := run_inv hobj hparts schedule
  have hphase := hinv.phase
  simp only [PhaseOk, h] at hphase
  obtain ⟨-,⟨hfail,hok⟩,-,rfl,-⟩ := hphase
  generalize run p.step schedule p.start = s at *
  rw [resultOf]
  cases hs : s.ok with
  | false => simp [hfail hs]
  | true =>
    cases ht : s.timedOut with
    | true => simp [hinv.timer ht]
    | false =>
      have hall := (hok hs).resolve_left (by simp [ht])
      simpa using hall

/-- Without parts and without a timeout no answer ever comes. -/
theorem never_finishes (p : Setup σ ι ο) (hnil : p.history = []) (htimeout : p.timeout ≤ 0)
    (schedule : List Action) : ¬Finished (run p.step schedule p.start) := by
  have hinv : ∀ s : ParState σ ι ο, s.threads = [] ∧ s.results = Chan.make 0 ∧
      (s.main = .launching 0 ∨ s.main = .selecting) → ¬Finished s := by
    rintro s ⟨-,-,hmain | hmain⟩ ⟨r,info,hf⟩
    · cases hmain.symm.trans hf
    · cases hmain.symm.trans hf
  apply hinv
  apply run_keeps p.step (fun s => s.threads = [] ∧ s.results = Chan.make 0 ∧
    (s.main = .launching 0 ∨ s.main = .selecting))
  · rintro a s ⟨hthreads,hresults,hmain⟩
    have hrecv : s.results.recv = .block := hresults ▸ rfl
    cases a with
    | main =>
      rcases hmain with hmain | hmain
      · simp [step, mainStep, hmain, hnil, hthreads, hresults]
      · simp [step, mainStep, hmain, hthreads, hresults]
    | result =>
      have hsame : p.resultStep s = s := by
        rcases hmain with hmain | hmain
        · simp only [resultStep, hmain]
        · simp only [resultStep, hmain, hrecv]
      rw [step, hsame]
      exact ⟨hthreads,hresults,hmain⟩
    | timeout =>
      rcases hmain with hmain | hmain
      · simp [step, timeoutStep, hmain, hthreads, hresults]
      · simp [step, timeoutStep, hmain, htimeout.not_gt, hthreads, hresults]
    | thread i => simp [step, threadStep, hthreads, hresults, hmain]
  · simp [start, hnil]

/-! ## The sequences that come with an answer -/

def slicesOf (longest : List (Option Seq)) : Map ℕ (List ℤ) :=
  longest.foldl (fun set v => v.elim set (fun seq => set.insert seq.address seq.ids)) ∅

theorem lookup_slicesOf {g : ℕ → List ℤ} (longest : List (Option Seq))
    (hg : ∀ seq, some seq ∈ longest → seq.ids = g seq.address) (a : ℕ) (q : List ℤ) :
    (slicesOf longest).lookup a = some q ↔
      ∃ seq, some seq ∈ longest ∧ seq.address = a ∧ seq.ids = q := by
  induction longest using List.reverseRecOn with
  | nil => simp [slicesOf]
  | append_singleton longest v ih =>
    have ih := ih (fun seq hseq => hg seq (List.mem_append_left _ hseq))
    rw [slicesOf, List.foldl_append, List.foldl_cons, List.foldl_nil, ← slicesOf]
    cases v with
    | none => simp [ih]
    | some new =>
      rw [Option.elim_some, lookup_insert]
      split
      · rename_i ha
        subst ha
        constructor
        · intro h
          exact ⟨new,by simp,rfl,Option.some.inj h⟩
        · rintro ⟨seq,hmem,haddr,rfl⟩
          rw [hg seq hmem, haddr, ← hg new (by simp)]
      · rename_i ha
        rw [ih]
        constructor
        · rintro ⟨seq,hmem,haddr,hids⟩
          exact ⟨seq,List.mem_append_left _ hmem,haddr,hids⟩
        · rintro ⟨seq,hmem,haddr,hids⟩
          rcases List.mem_append.mp hmem with hold | hnew
          · exact ⟨seq,hold,haddr,hids⟩
          · cases Option.some.inj (List.mem_singleton.mp hnew)
            exact absurd haddr.symm ha

/-- The copies are the sequences in the slots, whatever the order of the set. -/
theorem mem_partialsOf (order : Iteration ℕ (List ℤ)) {longest : List (Option Seq)} {slices : ℕ}
    (h : Addressed longest slices) (q : List ℤ) :
    q ∈ partialsOf order longest ↔ ∃ seq, some seq ∈ longest ∧ seq.ids = q := by
  obtain ⟨g,hg⟩ := h
  have hlookup := lookup_slicesOf longest (fun seq hseq => (hg seq hseq).2)
  rw [partialsOf, List.mem_map]
  constructor
  · rintro ⟨⟨a,q'⟩,hmem,rfl⟩
    obtain ⟨seq,hseq,-,hids⟩ := (hlookup a q').mp ((order.mem_order _).mp hmem)
    exact ⟨seq,hseq,hids⟩
  · rintro ⟨seq,hseq,hids⟩
    exact ⟨(seq.address,q),(order.mem_order _).mpr ((hlookup _ _).mpr ⟨seq,hseq,rfl,hids⟩),rfl⟩

/-- When the answer is given every goroutine has sent its result. -/
theorem Inv.all_done (h : Inv p parts m s) {r : CheckResult} {info : LinearizationInfo ι ο}
    (hmain : s.main = .finished r info) (hcompute : p.computeInfo = true)
    {i : ℕ} {part : Part ι ο} (hpart : parts[i]? = some part) :
    ∃ ok l, s.threads[i]? = some (.done ok) ∧ s.longest[i]? = some l ∧
      VerdictOk p.model part.table part.events true s.kill (ok,l) := by
  have hphase := h.phase
  simp only [PhaseOk, hmain] at hphase
  have hcount := (hphase.2.2.1 hcompute).1
  obtain ⟨ms,hwork,-⟩ := h.work
  obtain ⟨t,l,ht,hl,hok⟩ := hwork i part hpart
  cases hres : t.result with
  | none =>
    have hlt := h.count_lt (List.mem_of_getElem? ht) hres
    omega
  | some ok =>
    rw [Thread.done_of_result hres] at ht hok
    rw [Thread.Ok, hcompute] at hok
    exact ⟨ok,l,ht,hl,hok.1⟩

/-- The sequences of a part: each is a possible order, and unless the time was up a longest
one is there for every operation. -/
theorem answer_info (hobj : p.model.Respects) (hparts : p.history = parts.map Part.entries)
    (hcompute : p.computeInfo = true) (schedule : List Action) {r : CheckResult}
    {info : LinearizationInfo ι ο} (h : (run p.step schedule p.start).main = .finished r info)
    {i : ℕ} {part : Part ι ο} (hpart : parts[i]? = some part) :
    ∃ partials, info.partialLinearizations[i]? = some partials ∧
      (∀ q ∈ partials, ∃ l, q = l.map (Nat.cast : ℕ → ℤ) ∧ l ≠ [] ∧ part.Partial p.model l) ∧
      (p.timeout ≤ 0 → ∀ l, part.Partial p.model l → ∀ j ∈ l,
        ∃ q ∈ partials, (j : ℤ) ∈ q ∧ l.length ≤ q.length) := by
  obtain ⟨m,hinv⟩ := run_inv hobj hparts schedule
  generalize run p.step schedule p.start = s at *
  have hphase := hinv.phase
  simp only [PhaseOk, h] at hphase
  obtain ⟨-,-,htimed,-,rfl⟩ := hphase
  obtain ⟨ok,l,-,hl,hv⟩ := hinv.all_done h hcompute hpart
  obtain ⟨slices,haddr⟩ := hv.addressed
  obtain ⟨f,hagrees,hsound⟩ := hv.sound
  have hw := part.entriesOf.wellFormed
  refine ⟨partialsOf p.order l,?_,?_,?_⟩
  · simp [infoOf, hcompute, hl]
  · intro q hq
    obtain ⟨seq,hseq,rfl⟩ := (mem_partialsOf p.order haddr q).mp hq
    obtain ⟨j,hj,hslot⟩ := List.getElem_of_mem hseq
    have hget : l[j]? = some (some seq) := by rw [List.getElem?_eq_getElem hj, hslot]
    have heq := (longestAgrees_iff.mp hagrees).2 j (some seq) hget
    rw [Option.map_some, eq_comm, Option.map_eq_some_iff] at heq
    obtain ⟨q,hfq,hids⟩ := heq
    obtain ⟨hmem,hcont⟩ := hsound j (hagrees.length_eq ▸ hj) q hfq
    exact ⟨q,hids.symm,List.ne_nil_of_mem hmem,(continues_iff_isPartial hw _ q).mp hcont⟩
  · intro htimeout q hq j hj
    have hkill : s.kill = false := by
      cases hk : s.kill with
      | false => rfl
      | true => exact absurd (hinv.timer ((htimed hcompute).2 hk)) htimeout.not_gt
    rw [hkill] at hv
    obtain ⟨o,ho,-,hagrees'⟩ := hv.exact (Or.inl rfl)
    have hlt : j < part.table.length := List.mem_range.mp (hq.subset hj)
    obtain ⟨q',hq',hle⟩ := (ho.longest hw hlt).2 q hq hj
    have hmem := ((ho.longest hw hlt).1 q' hq').1
    obtain ⟨slot,hslot,heq⟩ := hagrees'.get hlt
    rw [hq', Option.map_some, Option.map_eq_some_iff] at heq
    obtain ⟨seq,rfl,hids⟩ := heq
    refine ⟨seq.ids,(mem_partialsOf p.order haddr _).mpr ⟨seq,List.mem_of_getElem? hslot,rfl⟩,?_,?_⟩
    · rw [hids]
      exact List.mem_map_of_mem hmem
    · rw [hids, List.length_map]
      exact hle

end Runs

end Setup

end Gopher.Porcupine
