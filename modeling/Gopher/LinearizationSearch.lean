import Gopher.Linearizability
import Gopher.Loops

/-!
# The search for a linearization

A history is a list of calls and returns. The search takes calls from the front
of what remains, up to the first return, and removes a call that the object
accepts together with its return. When it meets a return it undoes its last
choice and goes on behind it. A set of operations with the state they led to is
explored once; the cache is consulted for it before it is entered again. What is
being explored is in the cache as well, but it is never found there, because
every set in question is larger than those under way.

The search always ends. It succeeds exactly when the history is linearizable,
and when it fails it has recorded, for each operation, a longest partial order
that contains it.
-/

set_option autoImplicit false

namespace Gopher.LinearizationSearch
open Gopher.Linearizability Gopher.Loops

inductive Event where
  | call (id : ℕ)
  | ret (id : ℕ)
  deriving DecidableEq

namespace Event

def id : Event → ℕ
  | call i => i
  | ret i => i

def isCall : Event → Bool
  | call _ => true
  | ret _ => false

end Event

def callAt (history : List Event) (i : ℕ) : ℕ := history.idxOf (.call i)

def retAt (history : List Event) (i : ℕ) : ℕ := history.idxOf (.ret i)

structure WellFormed (history : List Event) (n : ℕ) : Prop where
  nodup : history.Nodup
  mem_iff : ∀ e, e ∈ history ↔ e.id < n
  ordered : ∀ i < n, callAt history i < retAt history i

def without (i : ℕ) (l : List Event) : List Event := l.filter (fun e => e.id ≠ i)

def remaining (history : List Event) (taken : Finset ℕ) : List Event :=
  history.filter (fun e => e.id ∉ taken)

def Candidate (rest : List Event) (i : ℕ) : Prop :=
  ∃ before after, rest = before++.call i::after ∧ ∀ e ∈ before, e.isCall

section Remaining

variable {history : List Event} {n : ℕ}

theorem mem_remaining {taken : Finset ℕ} {e : Event} :
    e ∈ remaining history taken ↔ e ∈ history ∧ e.id ∉ taken := by
  simp [remaining]

@[simp] theorem remaining_empty : remaining history ∅ = history := by
  simp [remaining]

theorem without_remaining (i : ℕ) (taken : Finset ℕ) :
    without i (remaining history taken) = remaining history (insert i taken) := by
  rw [without, remaining, remaining, List.filter_filter]
  apply List.filter_congr
  intro e _
  simp [not_or]

theorem WellFormed.length_eq {n : ℕ} (h : WellFormed history n) : history.length = 2*n := by
  have hcalls : ((List.range n).map Event.call).Nodup :=
    List.nodup_range.map (fun i j hij => Event.call.inj hij)
  have hrets : ((List.range n).map Event.ret).Nodup :=
    List.nodup_range.map (fun i j hij => Event.ret.inj hij)
  have hperm : history.Perm ((List.range n).map Event.call++(List.range n).map Event.ret) := by
    rw [List.perm_ext_iff_of_nodup h.nodup]
    · intro e
      rw [h.mem_iff]
      cases e with
      | call i => simp [Event.id]
      | ret i => simp [Event.id]
    · rw [List.nodup_append']
      refine ⟨hcalls,hrets,?_⟩
      intro e hcall hret
      obtain ⟨i,-,rfl⟩ := List.mem_map.mp hcall
      obtain ⟨j,-,hj⟩ := List.mem_map.mp hret
      cases hj
  rw [hperm.length_eq, List.length_append, List.length_map, List.length_map, List.length_range,
    two_mul]

theorem sorted_by_place {l : List Event} (h : l.Nodup) :
    l.Pairwise (fun d e => l.idxOf d < l.idxOf e) := by
  rw [List.pairwise_iff_getElem]
  intro i j hi hj hij
  rwa [h.idxOf_getElem, h.idxOf_getElem]

theorem remaining_sorted (h : history.Nodup) (taken : Finset ℕ) :
    (remaining history taken).Pairwise (fun d e => history.idxOf d < history.idxOf e) :=
  (sorted_by_place h).filter _

/-- The candidates are the operations not yet taken for which everything that had returned
before they were called is taken. -/
theorem candidate_iff (h : WellFormed history n) (taken : Finset ℕ) (i : ℕ) :
    Candidate (remaining history taken) i ↔
      i < n ∧ i ∉ taken ∧ ∀ j < n, retAt history j < callAt history i → j ∈ taken := by
  have hsorted := remaining_sorted h.nodup taken
  constructor
  · rintro ⟨before,after,hrest,hcalls⟩
    have hmem : Event.call i ∈ remaining history taken := by simp [hrest]
    obtain ⟨hi,htaken⟩ := mem_remaining.mp hmem
    refine ⟨(h.mem_iff _).mp hi,htaken,?_⟩
    intro j hj hlt
    by_contra hnot
    have hret : Event.ret j ∈ remaining history taken :=
      mem_remaining.mpr ⟨(h.mem_iff _).mpr hj,hnot⟩
    rw [hrest] at hret hsorted
    obtain ⟨-,hafter,-⟩ := List.pairwise_append.mp hsorted
    rcases List.mem_append.mp hret with hbefore | hcons
    · exact absurd (hcalls _ hbefore) (by simp [Event.isCall])
    · rcases List.mem_cons.mp hcons with heq | hlater
      · cases heq
      · exact absurd hlt ((List.pairwise_cons.mp hafter).1 _ hlater).not_gt
  · rintro ⟨hi,htaken,hreturned⟩
    have hmem : Event.call i ∈ remaining history taken :=
      mem_remaining.mpr ⟨(h.mem_iff _).mpr hi,htaken⟩
    obtain ⟨before,after,hrest⟩ := List.append_of_mem hmem
    refine ⟨before,after,hrest,?_⟩
    intro e he
    have hin : e ∈ remaining history taken := by simp [hrest, he]
    rw [hrest] at hsorted
    have hlt := (List.pairwise_append.mp hsorted).2.2 e he _ List.mem_cons_self
    cases e with
    | call j => rfl
    | ret j =>
      obtain ⟨hj,hnot⟩ := mem_remaining.mp hin
      exact absurd (hreturned j ((h.mem_iff _).mp hj) hlt) hnot

/-- Where a return comes next, the candidates stand in front of it. -/
theorem Candidate.mem_front {front after : List Event} {i j : ℕ}
    (h : Candidate (front++.ret j::after) i) : Event.call i ∈ front := by
  obtain ⟨before,behind,hsplit,hcalls⟩ := h
  rcases List.append_eq_append_iff.mp hsplit with ⟨c,hbefore,hret⟩ | ⟨c,hfront,hcall⟩
  · cases c with
    | nil => cases hret
    | cons e c =>
      obtain ⟨he,-⟩ := List.cons_eq_cons.mp hret
      have hin : Event.ret j ∈ before := by simp [hbefore, he]
      exact absurd (hcalls _ hin) (by simp [Event.isCall])
  · cases c with
    | nil => cases hcall
    | cons e c =>
      obtain ⟨he,-⟩ := List.cons_eq_cons.mp hcall
      simp [hfront, he]

theorem exists_ret_mem (h : WellFormed history n) {taken : Finset ℕ}
    (hne : remaining history taken ≠ []) : ∃ j, Event.ret j ∈ remaining history taken := by
  obtain ⟨e,he⟩ := List.exists_mem_of_ne_nil _ hne
  obtain ⟨hin,hnot⟩ := mem_remaining.mp he
  exact ⟨e.id,mem_remaining.mpr ⟨(h.mem_iff (.ret e.id)).mpr ((h.mem_iff e).mp hin),hnot⟩⟩

end Remaining

section Continuations

variable {σ : Type*} (attempt : σ → ℕ → Option σ)

def Continues : List Event → σ → List ℕ → Prop
  | _, _, [] => True
  | rest, s, i::l => Candidate rest i ∧
      ∃ s', attempt s i = some s' ∧ Continues (without i rest) s' l

variable {attempt}

theorem fresh_cons_iff {n i : ℕ} {l : List ℕ} {taken : Finset ℕ} :
    ((i::l).Nodup ∧ ∀ k ∈ i::l, k < n ∧ k ∉ taken) ↔
      (i < n ∧ i ∉ taken) ∧ l.Nodup ∧ ∀ k ∈ l, k < n ∧ k ∉ insert i taken := by
  rw [List.nodup_cons, List.forall_mem_cons]
  constructor
  · rintro ⟨⟨hil,hnodup⟩,hi,hfresh⟩
    refine ⟨hi,hnodup,fun k hk => ⟨(hfresh k hk).1,?_⟩⟩
    rw [Finset.mem_insert, not_or]
    exact ⟨fun hki => hil (hki ▸ hk),(hfresh k hk).2⟩
  · rintro ⟨hi,hnodup,hfresh⟩
    exact ⟨⟨fun hil => (hfresh i hil).2 (Finset.mem_insert_self _ _),hnodup⟩,hi,
      fun k hk => ⟨(hfresh k hk).1,fun hin => (hfresh k hk).2 (Finset.mem_insert_of_mem hin)⟩⟩

theorem returned_cons_iff {history : List Event} {n i : ℕ} {l : List ℕ} {taken : Finset ℕ} :
    (∀ p k q, i::l = p++k::q → ∀ j < n, retAt history j < callAt history k →
      j ∈ taken ∨ j ∈ p) ↔
      (∀ j < n, retAt history j < callAt history i → j ∈ taken) ∧
        ∀ p k q, l = p++k::q → ∀ j < n, retAt history j < callAt history k →
          j ∈ insert i taken ∨ j ∈ p := by
  constructor
  · intro h
    refine ⟨fun j hj hlt => (h [] i l rfl j hj hlt).resolve_right List.not_mem_nil,?_⟩
    rintro p k q rfl j hj hlt
    rw [Finset.mem_insert, or_comm (a := j = i), or_assoc, ← List.mem_cons]
    exact h (i::p) k q rfl j hj hlt
  · rintro ⟨hfirst,hrest⟩ p k q hsplit j hj hlt
    cases p with
    | nil =>
      obtain ⟨rfl,rfl⟩ := List.cons_eq_cons.mp hsplit
      exact Or.inl (hfirst j hj hlt)
    | cons x p =>
      obtain ⟨rfl,rfl⟩ := List.cons_eq_cons.mp hsplit
      rw [List.mem_cons, ← or_assoc, or_comm (a := j ∈ taken), ← Finset.mem_insert]
      exact hrest p k q rfl j hj hlt

theorem continues_remaining_iff {history : List Event} {n : ℕ} (h : WellFormed history n)
    (l : List ℕ) (taken : Finset ℕ) (s : σ) :
    Continues attempt (remaining history taken) s l ↔
      l.Nodup ∧ (∀ i ∈ l, i < n ∧ i ∉ taken) ∧
      (∀ p i q, l = p++i::q → ∀ j < n, retAt history j < callAt history i → j ∈ taken ∨ j ∈ p) ∧
      (l.foldlM attempt s).isSome := by
  induction l generalizing taken s with
  | nil => simp [Continues]
  | cons i l ih =>
    rw [Continues, candidate_iff h, without_remaining, ← and_assoc (a := (i::l).Nodup),
      fresh_cons_iff, returned_cons_iff, List.foldlM_cons]
    simp only [ih]
    cases hstep : attempt s i with
    | none => simp
    | some s' =>
      simp only [Option.some.injEq, exists_eq_left', Option.bind_eq_bind, Option.bind_some]
      tauto

/-- What can be taken from the start is what the times allow and the object accepts. -/
theorem continues_iff_isPartial {history : List Event} {n : ℕ} (h : WellFormed history n) (s : σ)
    (l : List ℕ) : Continues attempt history s l ↔
      Partial (callAt history) (retAt history) attempt s (List.range n) l := by
  have hiff : Continues attempt (remaining history ∅) s l ↔ _ := continues_remaining_iff h l ∅ s
  rw [remaining_empty] at hiff
  rw [hiff]
  constructor
  · rintro ⟨hnodup,hfresh,hclosed,hlegal⟩
    refine ⟨hnodup,fun i hi => List.mem_range.mpr (hfresh i hi).1,?_,hlegal⟩
    intro p i q hsplit j hj hlt
    exact (hclosed p i q hsplit j (List.mem_range.mp hj) hlt).resolve_left (Finset.notMem_empty j)
  · rintro ⟨hnodup,hsub,hclosed,hlegal⟩
    refine ⟨hnodup,fun i hi => ⟨List.mem_range.mp (hsub hi),Finset.notMem_empty i⟩,?_,hlegal⟩
    intro p i q hsplit j hj hlt
    exact Or.inr (hclosed p i q hsplit j (List.mem_range.mpr hj) hlt)

theorem Continues.imitate {same : σ → σ → Bool}
    (hsame : ∀ s t i s', same s t = true → attempt s i = some s' →
      ∃ t', attempt t i = some t' ∧ same s' t' = true)
    {l : List ℕ} {rest : List Event} {s t : σ} (hst : same s t = true)
    (h : Continues attempt rest s l) : Continues attempt rest t l := by
  induction l generalizing rest s t with
  | nil => trivial
  | cons i l ih =>
    obtain ⟨hcand,s',hstep,hrest⟩ := h
    obtain ⟨t',hstep',hst'⟩ := hsame s t i s' hst hstep
    exact ⟨hcand,t',hstep',ih hst' hrest⟩

end Continuations

/-! ## The machine -/

section Machine

variable {σ : Type*}

structure Frame (σ : Type*) where
  before : List Event
  id : ℕ
  after : List Event
  state : σ

/-- The frames are listed with the last choice first. -/
structure Search (σ : Type*) where
  frames : List (Frame σ)
  before : List Event
  after : List Event
  state : σ
  cache : List (Finset ℕ × σ)
  longest : ℕ → Option (List ℕ)

def taken (frames : List (Frame σ)) : List ℕ := (frames.map Frame.id).reverse

def record (longest : ℕ → Option (List ℕ)) (seq : List ℕ) (i : ℕ) : Option (List ℕ) :=
  if i ∈ seq ∧ ∀ q ∈ longest i, q.length < seq.length then some seq else longest i

namespace Search

def advance (st : Search σ) (e : Event) (after : List Event) : Search σ :=
  { st with before := st.before++[e], after := after }

def push (st : Search σ) (i : ℕ) (after : List Event) (s : σ) : Search σ where
  frames := ⟨st.before,i,after,st.state⟩::st.frames
  before := []
  after := without i (st.before++after)
  state := s
  cache := st.cache++[(insert i (taken st.frames).toFinset,s)]
  longest := st.longest

def pop (st : Search σ) (computePartial : Bool) (top : Frame σ) (frames : List (Frame σ)) :
    Search σ where
  frames := frames
  before := top.before++[.call top.id]
  after := top.after
  state := top.state
  cache := st.cache
  longest := if computePartial then record st.longest (taken st.frames) else st.longest

def start (history : List Event) (init : σ) : Search σ where
  frames := []
  before := []
  after := history
  state := init
  cache := []
  longest := fun _ => none

end Search

abbrev Outcome : Type := Bool × (ℕ → Option (List ℕ))

variable (attempt : σ → ℕ → Option σ) (same : σ → σ → Bool) (computePartial : Bool)

def found (cache : List (Finset ℕ × σ)) (set : Finset ℕ) (s : σ) : Bool :=
  cache.any (fun c => set = c.1 && same s c.2)

/-- One turn. Running off the end of the list is no result. -/
def turn (st : Search σ) : Search σ ⊕ Option Outcome :=
  if st.before++st.after = [] then .inr (some (true,fun _ => some (taken st.frames)))
  else match st.after with
    | [] => .inr none
    | .call i::after =>
      match attempt st.state i with
      | some s =>
        if found same st.cache (insert i (taken st.frames).toFinset) s then
          .inl (st.advance (.call i) after)
        else .inl (st.push i after s)
      | none => .inl (st.advance (.call i) after)
    | .ret _::_ =>
      match st.frames with
      | [] => .inr (some (false,st.longest))
      | top::frames => .inl (st.pop computePartial top frames)

end Machine

/-! ## What holds in every turn -/

section Invariant

variable {σ : Type*} (attempt : σ → ℕ → Option σ) (computePartial : Bool)
  (history : List Event) (init : σ)

inductive Path : List (Frame σ) → List Event → σ → Prop
  | start : Path [] history init
  | push {frames : List (Frame σ)} {before after : List Event} {i : ℕ} {s s' : σ}
      (below : Path frames (before++.call i::after) s) (front : ∀ e ∈ before, e.isCall)
      (step : attempt s i = some s') :
      Path (⟨before,i,after,s⟩::frames) (without i (before++after)) s'

def Settled (longest : ℕ → Option (List ℕ)) (set : Finset ℕ) (s : σ) : Prop :=
  ∀ l, Continues attempt (remaining history set) s l →
    remaining history (set ∪ l.toFinset) ≠ [] ∧
    (computePartial = true → ∀ i ∈ set ∪ l.toFinset,
      ∃ q, longest i = some q ∧ set.card+l.length ≤ q.length)

def Tried (longest : ℕ → Option (List ℕ)) (set : Finset ℕ) (before : List Event) (s : σ) : Prop :=
  ∀ i s', Event.call i ∈ before → attempt s i = some s' →
    Settled attempt computePartial history longest (insert i set) s'

def TriedBelow (longest : ℕ → Option (List ℕ)) : List (Frame σ) → Prop
  | [] => True
  | f::fs => Tried attempt computePartial history longest (taken fs).toFinset f.before f.state ∧
      TriedBelow longest fs

def underWay : List (Frame σ) → σ → List (Finset ℕ × σ)
  | [], _ => []
  | f::fs, s => ((taken (f::fs)).toFinset,s)::underWay fs f.state

structure Inv (st : Search σ) : Prop where
  path : Path attempt history init st.frames (st.before++st.after) st.state
  front : ∀ e ∈ st.before, e.isCall
  cached : ∀ c ∈ st.cache, Settled attempt computePartial history st.longest c.1 c.2 ∨
    c ∈ underWay st.frames st.state
  tried : Tried attempt computePartial history st.longest (taken st.frames).toFinset st.before
    st.state
  below : TriedBelow attempt computePartial history st.longest st.frames
  sound : ∀ i q, st.longest i = some q → i ∈ q ∧ Continues attempt history init q

variable {attempt computePartial history init}

@[simp] theorem taken_cons (f : Frame σ) (fs : List (Frame σ)) :
    taken (f::fs) = taken fs++[f.id] := by
  simp [taken]

theorem taken_length (frames : List (Frame σ)) : (taken frames).length = frames.length := by
  simp [taken]

theorem toFinset_taken_cons (f : Frame σ) (fs : List (Frame σ)) :
    (taken (f::fs)).toFinset = insert f.id (taken fs).toFinset := by
  rw [taken_cons, List.toFinset_append, Finset.union_comm]
  rfl

theorem without_middle (i : ℕ) (before after : List Event) :
    without i (before++.call i::after) = without i (before++after) := by
  simp [without, Event.id]

/-- What remains is what was not taken, nothing was taken twice, and what can be taken now
could be taken from the start after the choices made. -/
theorem Path.facts {frames : List (Frame σ)} {rest : List Event} {s : σ}
    (h : Path attempt history init frames rest s) :
    rest = remaining history (taken frames).toFinset ∧ (taken frames).Nodup ∧
      ∀ l, Continues attempt rest s l → Continues attempt history init (taken frames++l) := by
  induction h with
  | start => exact ⟨remaining_empty.symm,List.nodup_nil,fun l hl => hl⟩
  | @push frames before after i s s' below front step ih =>
    obtain ⟨hrest,hnodup,hcomp⟩ := ih
    have hmem : Event.call i ∈ remaining history (taken frames).toFinset := by simp [← hrest]
    refine ⟨?_,?_,?_⟩
    · rw [← without_middle, hrest, without_remaining, toFinset_taken_cons]
    · rw [taken_cons, List.nodup_append']
      refine ⟨hnodup,List.nodup_singleton i,?_⟩
      rw [List.disjoint_singleton]
      intro hin
      exact (mem_remaining.mp hmem).2 (List.mem_toFinset.mpr hin)
    · intro l hl
      rw [taken_cons, List.append_assoc]
      apply hcomp
      exact ⟨⟨before,after,rfl,front⟩,s',step,by rw [without_middle]; exact hl⟩

theorem Path.taken_lt {n : ℕ} (hw : WellFormed history n) {frames : List (Frame σ)}
    {rest : List Event} {s : σ} (h : Path attempt history init frames rest s) :
    ∀ i ∈ taken frames, i < n := by
  induction h with
  | start => simp [taken]
  | @push frames before after i s s' below front step ih =>
    intro j hj
    rw [taken_cons, List.mem_append, List.mem_singleton] at hj
    rcases hj with hj | rfl
    · exact ih j hj
    · have hmem : Event.call j ∈ remaining history (taken frames).toFinset := by
        simp [← below.facts.1]
      exact (hw.mem_iff _).mp (mem_remaining.mp hmem).1

theorem Path.last {top : Frame σ} {frames : List (Frame σ)} {rest : List Event} {s : σ}
    (h : Path attempt history init (top::frames) rest s) :
    Path attempt history init frames (top.before++.call top.id::top.after) top.state ∧
      (∀ e ∈ top.before, e.isCall) ∧ attempt top.state top.id = some s := by
  cases h with
  | push below front step => exact ⟨below,front,step⟩

theorem Path.state_eq {rest : List Event} {s : σ} (h : Path attempt history init [] rest s) :
    s = init := by
  cases h
  rfl

theorem card_underWay {frames : List (Frame σ)} {s : σ} {c : Finset ℕ × σ}
    (h : c ∈ underWay frames s) : c.1.card ≤ frames.length := by
  induction frames generalizing s with
  | nil => cases h
  | cons f fs ih =>
    rcases List.mem_cons.mp h with rfl | h
    · have := List.toFinset_card_le (taken (f::fs))
      rwa [taken_length] at this
    · exact (ih h).trans (Nat.le_succ _)

def Grows (longest longest' : ℕ → Option (List ℕ)) : Prop :=
  ∀ i q, longest i = some q → ∃ q', longest' i = some q' ∧ q.length ≤ q'.length

theorem Settled.grow {longest longest' : ℕ → Option (List ℕ)} (hgrow : Grows longest longest')
    {set : Finset ℕ} {s : σ} (h : Settled attempt computePartial history longest set s) :
    Settled attempt computePartial history longest' set s := by
  intro l hl
  obtain ⟨hrest,hrec⟩ := h l hl
  refine ⟨hrest,fun hp i hi => ?_⟩
  obtain ⟨q,hq,hlen⟩ := hrec hp i hi
  obtain ⟨q',hq',hlen'⟩ := hgrow i q hq
  exact ⟨q',hq',hlen.trans hlen'⟩

theorem TriedBelow.grow {longest longest' : ℕ → Option (List ℕ)} (hgrow : Grows longest longest')
    {frames : List (Frame σ)} (h : TriedBelow attempt computePartial history longest frames) :
    TriedBelow attempt computePartial history longest' frames := by
  induction frames with
  | nil => trivial
  | cons f fs ih => exact ⟨fun i s' hi hs => (h.1 i s' hi hs).grow hgrow,ih h.2⟩

theorem grows_record (longest : ℕ → Option (List ℕ)) (seq : List ℕ) :
    Grows longest (record longest seq) := by
  intro i q hq
  rw [record]
  split
  · rename_i h
    exact ⟨seq,rfl,(h.2 q hq).le⟩
  · exact ⟨q,hq,le_rfl⟩

theorem record_covers (longest : ℕ → Option (List ℕ)) {seq : List ℕ} {i : ℕ} (hi : i ∈ seq) :
    ∃ q, record longest seq i = some q ∧ seq.length ≤ q.length := by
  rw [record]
  split
  · exact ⟨seq,rfl,le_rfl⟩
  · rename_i h
    rw [not_and] at h
    have hlong := h hi
    simp only [not_forall, not_lt] at hlong
    obtain ⟨q,hq,hlen⟩ := hlong
    exact ⟨q,hq,hlen⟩

theorem Settled.imitate {same : σ → σ → Bool}
    (hsame : ∀ s t i s', same s t = true → attempt s i = some s' →
      ∃ t', attempt t i = some t' ∧ same s' t' = true)
    {longest : ℕ → Option (List ℕ)} {set : Finset ℕ} {s t : σ} (hst : same s t = true)
    (h : Settled attempt computePartial history longest set t) :
    Settled attempt computePartial history longest set s :=
  fun l hl => h l (hl.imitate hsame hst)

/-- Once all candidates were tried and the set itself is recorded, it is settled. -/
theorem settled_of_tried {longest : ℕ → Option (List ℕ)} {set : Finset ℕ} {s : σ}
    {before after : List Event} {j : ℕ} (hrest : remaining history set = before++.ret j::after)
    (htried : Tried attempt computePartial history longest set before s)
    (hself : computePartial = true → ∀ i ∈ set, ∃ q, longest i = some q ∧ set.card ≤ q.length) :
    Settled attempt computePartial history longest set s := by
  intro l hl
  cases l with
  | nil =>
    rw [List.toFinset_nil, Finset.union_empty, hrest]
    exact ⟨by simp,hself⟩
  | cons i l =>
    obtain ⟨hcand,s',hstep,hl⟩ := hl
    have hfront : Event.call i ∈ before := by
      rw [hrest] at hcand
      exact hcand.mem_front
    have hfresh : i ∉ set := by
      have hin : Event.call i ∈ remaining history set := by simp [hrest, hfront]
      exact (mem_remaining.mp hin).2
    rw [without_remaining] at hl
    obtain ⟨hmore,hrec⟩ := htried i s' hfront hstep l hl
    have hunion : set ∪ (i::l).toFinset = insert i set ∪ l.toFinset := by
      rw [List.toFinset_cons, Finset.insert_union, Finset.union_insert]
    have hcard : (insert i set).card+l.length = set.card+(i::l).length := by
      rw [Finset.card_insert_of_notMem hfresh, List.length_cons]
      omega
    rw [hunion, ← hcard]
    exact ⟨hmore,hrec⟩

end Invariant

/-! ## The search ends -/

section Measure

variable {σ : Type*}

def weight : ℕ → ℕ
  | 0 => 1
  | m+1 => m*weight m+1

theorem weight_pos (m : ℕ) : 0 < weight m := by
  cases m with
  | zero => exact Nat.one_pos
  | succ m => exact Nat.succ_pos _

theorem weight_le_succ (m : ℕ) : weight m ≤ weight (m+1) := by
  rw [weight]
  cases m with
  | zero => simp [weight]
  | succ m => nlinarith [weight_pos (m+1)]

theorem mul_weight_lt {k m : ℕ} (h : k < m) : k*weight k < weight m := by
  obtain ⟨m,rfl⟩ : ∃ m', m = m'+1 := ⟨m-1,by omega⟩
  have hmono := monotone_nat_of_le_succ weight_le_succ (Nat.lt_succ_iff.mp h)
  rw [weight]
  exact Nat.lt_succ_of_le (Nat.mul_le_mul (Nat.lt_succ_iff.mp h) hmono)

def cost (before after : List Event) : ℕ := after.length*weight (before.length+after.length)

def Frame.cost (f : Frame σ) : ℕ := f.after.length*weight (f.before.length+1+f.after.length)

def measure (st : Search σ) : ℕ :=
  LinearizationSearch.cost st.before st.after+(st.frames.map Frame.cost).sum

theorem measure_advance {st : Search σ} {e : Event} {after : List Event}
    (h : st.after = e::after) : measure (st.advance e after) < measure st := by
  have hpos := weight_pos (st.before.length+1+after.length)
  simp only [measure, Search.advance, cost, h, List.length_append, List.length_cons,
    List.length_nil]
  rw [show st.before.length+(after.length+1) = st.before.length+1+after.length by omega]
  nlinarith

theorem measure_push {st : Search σ} {i : ℕ} {after : List Event} (s : σ)
    (h : st.after = .call i::after) : measure (st.push i after s) < measure st := by
  have hlen : (without i (st.before++after)).length < st.before.length+1+after.length := by
    have := List.length_filter_le (fun e : Event => decide (e.id ≠ i)) (st.before++after)
    rw [List.length_append] at this
    exact Nat.lt_of_le_of_lt this (by omega)
  have hlt := mul_weight_lt hlen
  simp only [measure, Search.push, cost, h, List.length_cons, List.length_nil, List.map_cons,
    List.sum_cons, Frame.cost, Nat.zero_add]
  rw [show st.before.length+(after.length+1) = st.before.length+1+after.length by omega]
  nlinarith

theorem measure_pop {st : Search σ} {computePartial : Bool} {top : Frame σ}
    {frames : List (Frame σ)} (hframes : st.frames = top::frames) (hafter : st.after ≠ []) :
    measure (st.pop computePartial top frames) < measure st := by
  have hpos : 0 < cost st.before st.after :=
    Nat.mul_pos (List.length_pos_of_ne_nil hafter) (weight_pos _)
  simp only [measure, Search.pop, hframes, List.map_cons, List.sum_cons, Frame.cost]
  simp only [cost, List.length_append, List.length_cons, List.length_nil, Nat.zero_add] at hpos ⊢
  omega

end Measure

/-! ## One turn -/

section Turn

variable {σ : Type*} {attempt : σ → ℕ → Option σ} {same : σ → σ → Bool} {computePartial : Bool}
  {history : List Event} {init : σ}

def Exact (attempt : σ → ℕ → Option σ) (computePartial : Bool) (history : List Event) (init : σ) :
    Outcome → Prop
  | (true,longest) => ∃ l, Continues attempt history init l ∧ remaining history l.toFinset = [] ∧
      longest = fun _ => some l
  | (false,longest) => Settled attempt computePartial history longest ∅ init ∧
      ∀ i q, longest i = some q → i ∈ q ∧ Continues attempt history init q

theorem start_inv (history : List Event) (init : σ) :
    Inv attempt computePartial history init (Search.start history init) where
  path := Path.start
  front := by simp [Search.start]
  cached := by simp [Search.start]
  tried := by simp [Search.start, Tried]
  below := trivial
  sound := by simp [Search.start]

theorem advance_inv {st : Search σ} (h : Inv attempt computePartial history init st) {i : ℕ}
    {after : List Event} (hafter : st.after = .call i::after)
    (htried : ∀ s, attempt st.state i = some s →
      Settled attempt computePartial history st.longest (insert i (taken st.frames).toFinset) s) :
    Inv attempt computePartial history init (st.advance (.call i) after) where
  path := by
    have hpath := h.path
    rw [hafter] at hpath
    simpa [Search.advance] using hpath
  front := by
    intro e he
    rcases List.mem_append.mp he with he | he
    · exact h.front e he
    · rw [List.mem_singleton.mp he]
      rfl
  cached := h.cached
  tried := by
    intro k s hk hs
    rcases List.mem_append.mp hk with hk | hk
    · exact h.tried k s hk hs
    · cases List.mem_singleton.mp hk
      exact htried s hs
  below := h.below
  sound := h.sound

theorem push_inv {st : Search σ} (h : Inv attempt computePartial history init st) {i : ℕ}
    {after : List Event} (hafter : st.after = .call i::after) {s : σ}
    (hs : attempt st.state i = some s) :
    Inv attempt computePartial history init (st.push i after s) where
  path := by
    have hpath := h.path
    rw [hafter] at hpath
    exact Path.push hpath h.front hs
  front := by simp [Search.push]
  cached := by
    intro c hc
    rcases List.mem_append.mp hc with hc | hc
    · rcases h.cached c hc with hsettled | hway
      · exact Or.inl hsettled
      · exact Or.inr (List.mem_cons_of_mem _ hway)
    · right
      rw [List.mem_singleton.mp hc]
      simp only [Search.push, underWay, toFinset_taken_cons]
      exact List.mem_cons_self
  tried := by simp [Search.push, Tried]
  below := ⟨h.tried,h.below⟩
  sound := h.sound

/-- A set in the cache that is larger than those under way is settled. -/
theorem found_settled {st : Search σ} (h : Inv attempt computePartial history init st)
    (hsame : ∀ s t i s', same s t = true → attempt s i = some s' →
      ∃ t', attempt t i = some t' ∧ same s' t' = true) {i : ℕ} {s : σ}
    (hi : i ∉ taken st.frames)
    (hfound : found same st.cache (insert i (taken st.frames).toFinset) s = true) :
    Settled attempt computePartial history st.longest (insert i (taken st.frames).toFinset) s := by
  obtain ⟨⟨set,t⟩,hc,hhit⟩ := List.any_eq_true.mp hfound
  simp only [Bool.and_eq_true, decide_eq_true_eq] at hhit
  obtain ⟨rfl,hst⟩ := hhit
  rcases h.cached _ hc with hsettled | hway
  · exact hsettled.imitate hsame hst
  · have hcard := card_underWay hway
    rw [Finset.card_insert_of_notMem (by simpa using hi),
      List.toFinset_card_of_nodup h.path.facts.2.1, taken_length] at hcard
    omega

/-- Where a return is met, the set taken so far is settled once it is recorded. -/
theorem pop_settled {st : Search σ} (h : Inv attempt computePartial history init st) {j : ℕ}
    {after : List Event} (hafter : st.after = .ret j::after) {longest : ℕ → Option (List ℕ)}
    (hgrow : Grows st.longest longest)
    (hself : computePartial = true → ∀ i ∈ taken st.frames,
      ∃ q, longest i = some q ∧ (taken st.frames).length ≤ q.length) :
    Settled attempt computePartial history longest (taken st.frames).toFinset st.state := by
  obtain ⟨hrest,hnodup,-⟩ := h.path.facts
  apply settled_of_tried (by rw [← hrest, hafter])
  · intro i s hi hs
    exact (h.tried i s hi hs).grow hgrow
  · intro hp i hi
    rw [List.toFinset_card_of_nodup hnodup]
    exact hself hp i (List.mem_toFinset.mp hi)

theorem pop_grows (computePartial : Bool) (st : Search σ) (top : Frame σ)
    (frames : List (Frame σ)) :
    Grows st.longest (st.pop computePartial top frames).longest := by
  simp only [Search.pop]
  split
  · exact grows_record _ _
  · exact fun i q hq => ⟨q,hq,le_rfl⟩

theorem pop_sound {st : Search σ} (h : Inv attempt computePartial history init st) (top : Frame σ)
    (frames : List (Frame σ)) (k : ℕ) (q : List ℕ)
    (hq : (st.pop computePartial top frames).longest k = some q) :
    k ∈ q ∧ Continues attempt history init q := by
  simp only [Search.pop] at hq
  split at hq
  · rw [record] at hq
    split at hq
    · rename_i hin
      cases hq
      refine ⟨hin.1,?_⟩
      simpa using h.path.facts.2.2 [] trivial
    · exact h.sound k q hq
  · exact h.sound k q hq

theorem pop_inv {st : Search σ} (h : Inv attempt computePartial history init st) {j : ℕ}
    {after : List Event} (hafter : st.after = .ret j::after) {top : Frame σ}
    {frames : List (Frame σ)} (hframes : st.frames = top::frames) :
    Inv attempt computePartial history init (st.pop computePartial top frames) := by
  have hgrow := pop_grows computePartial st top frames
  have hsettled := pop_settled h hafter hgrow (by
    intro hp i hi
    simp only [Search.pop, hp, if_true]
    exact record_covers _ hi)
  have hpath := h.path
  have hbelow := h.below.grow hgrow
  rw [hframes] at hpath hbelow
  rw [hframes, toFinset_taken_cons] at hsettled
  obtain ⟨hlast,hfront,hstep⟩ := hpath.last
  refine ⟨?_,?_,?_,?_,hbelow.2,pop_sound h top frames⟩
  · simpa [Search.pop] using hlast
  · intro e he
    rcases List.mem_append.mp he with he | he
    · exact hfront e he
    · rw [List.mem_singleton.mp he]
      rfl
  · intro c hc
    rcases h.cached c hc with hc | hc
    · exact Or.inl (hc.grow hgrow)
    · rw [hframes] at hc
      rcases List.mem_cons.mp hc with rfl | hc
      · left
        rw [toFinset_taken_cons]
        exact hsettled
      · exact Or.inr hc
  · intro k s hk hs
    rcases List.mem_append.mp hk with hk | hk
    · exact hbelow.1 k s hk hs
    · cases List.mem_singleton.mp hk
      cases Option.some.inj (hs.symm.trans hstep)
      exact hsettled

theorem Inv.call_fresh {st : Search σ} (h : Inv attempt computePartial history init st) {i : ℕ}
    {after : List Event} (hafter : st.after = .call i::after) : i ∉ taken st.frames := by
  have hin : Event.call i ∈ remaining history (taken st.frames).toFinset := by
    simp [← h.path.facts.1, hafter]
  simpa [Event.id] using (mem_remaining.mp hin).2

theorem Inv.after_ne_nil {n : ℕ} (hw : WellFormed history n) {st : Search σ}
    (h : Inv attempt computePartial history init st) (hmore : st.before++st.after ≠ []) :
    st.after ≠ [] := by
  intro hafter
  have hrest := h.path.facts.1
  rw [hafter, List.append_nil] at hrest hmore
  rw [hrest] at hmore
  obtain ⟨j,hj⟩ := exists_ret_mem hw hmore
  rw [← hrest] at hj
  exact absurd (h.front _ hj) (by simp [Event.isCall])

/-- A turn goes on with less left to do, or ends with an exact verdict. -/
theorem turn_advances {n : ℕ} (hw : WellFormed history n)
    (hsame : ∀ s t i s', same s t = true → attempt s i = some s' →
      ∃ t', attempt t i = some t' ∧ same s' t' = true)
    (st : Search σ) (h : Inv attempt computePartial history init st) :
    Advances (Inv attempt computePartial history init) measure
      (fun r => ∃ o, r = some o ∧ Exact attempt computePartial history init o) st
      (turn attempt same computePartial st) := by
  obtain ⟨hrest,hnodup,hcomp⟩ := h.path.facts
  rw [turn]
  split
  · rename_i hdone
    rw [hdone] at hrest
    exact ⟨_,rfl,taken st.frames,by simpa using hcomp [] trivial,hrest.symm,rfl⟩
  · rename_i hmore
    split
    · rename_i hafter
      exact absurd hafter (h.after_ne_nil hw hmore)
    · rename_i i after hafter
      split
      · rename_i s hs
        split
        · rename_i hfound
          refine ⟨advance_inv h hafter ?_,measure_advance hafter⟩
          intro s' hs'
          cases Option.some.inj (hs.symm.trans hs')
          exact found_settled h hsame (h.call_fresh hafter) hfound
        · exact ⟨push_inv h hafter hs,measure_push s hafter⟩
      · rename_i hs
        refine ⟨advance_inv h hafter ?_,measure_advance hafter⟩
        intro s hs'
        rw [hs] at hs'
        cases hs'
    · rename_i j after hafter
      split
      · rename_i hframes
        have hsettled := pop_settled h hafter (fun i q hq => ⟨q,hq,le_rfl⟩)
          (by simp [hframes, taken])
        have hpath := h.path
        rw [hframes] at hsettled hpath
        rw [hpath.state_eq] at hsettled
        exact ⟨_,rfl,hsettled,h.sound⟩
      · rename_i top frames hframes
        exact ⟨pop_inv h hafter hframes,measure_pop hframes (by simp [hafter])⟩

end Turn

/-! ## What a verdict means -/

section Verdict

variable {σ : Type*} {attempt : σ → ℕ → Option σ} {computePartial : Bool} {history : List Event}
  {init : σ} {n : ℕ}

theorem remaining_eq_nil_iff (hw : WellFormed history n) (set : Finset ℕ) :
    remaining history set = [] ↔ ∀ i < n, i ∈ set := by
  rw [remaining, List.filter_eq_nil_iff]
  constructor
  · intro h i hi
    by_contra hnot
    exact h (.call i) ((hw.mem_iff _).mpr hi) (decide_eq_true hnot)
  · intro h e he
    simpa using h e.id ((hw.mem_iff e).mp he)

theorem callAt_le_retAt (hw : WellFormed history n) :
    ∀ i ∈ List.range n, callAt history i ≤ retAt history i :=
  fun i hi => (hw.ordered i (List.mem_range.mp hi)).le

/-- The search succeeds exactly when the history is linearizable. -/
theorem Exact.linearizable_iff (hw : WellFormed history n) {o : Outcome}
    (h : Exact attempt computePartial history init o) :
    o.1 = true ↔
      Linearizable (callAt history) (retAt history) attempt init (List.range n) := by
  obtain ⟨verdict,longest⟩ := o
  cases verdict with
  | true =>
    obtain ⟨l,hl,hrest,-⟩ := h
    refine iff_of_true rfl ⟨l,((continues_iff_isPartial hw init l).mp hl).linearizes ?_
      List.nodup_range⟩
    intro i hi
    exact List.mem_toFinset.mp ((remaining_eq_nil_iff hw _).mp hrest i (List.mem_range.mp hi))
  | false =>
    refine iff_of_false Bool.false_ne_true ?_
    rintro ⟨l,hl⟩
    have hseq := hl.partial List.nodup_range (callAt_le_retAt hw)
    have hmore := (h.1 l (by simpa using (continues_iff_isPartial hw init l).mpr hseq)).1
    apply hmore
    rw [Finset.empty_union, remaining_eq_nil_iff hw]
    intro i hi
    exact List.mem_toFinset.mpr (hl.perm.mem_iff.mpr (List.mem_range.mpr hi))

/-- A success records one linearization for every operation. -/
theorem Exact.linearizes (hw : WellFormed history n) {longest : ℕ → Option (List ℕ)}
    (h : Exact attempt computePartial history init (true,longest)) :
    ∃ l, Linearizes (callAt history) (retAt history) attempt init (List.range n) l ∧
      ∀ i, longest i = some l := by
  obtain ⟨l,hl,hrest,rfl⟩ := h
  refine ⟨l,((continues_iff_isPartial hw init l).mp hl).linearizes ?_ List.nodup_range,fun _ => rfl⟩
  intro i hi
  exact List.mem_toFinset.mp ((remaining_eq_nil_iff hw _).mp hrest i (List.mem_range.mp hi))

/-- For every operation that some partial order contains a longest one is recorded. -/
theorem Exact.longest (hw : WellFormed history n) {o : Outcome}
    (h : Exact attempt true history init o) {i : ℕ} (hi : i < n) :
    (∀ q, o.2 i = some q → i ∈ q ∧
      Partial (callAt history) (retAt history) attempt init (List.range n) q) ∧
    ∀ l, Partial (callAt history) (retAt history) attempt init (List.range n) l → i ∈ l →
      ∃ q, o.2 i = some q ∧ l.length ≤ q.length := by
  obtain ⟨verdict,longest⟩ := o
  cases verdict with
  | true =>
    obtain ⟨q,hq,hlongest⟩ := Exact.linearizes hw h
    constructor
    · intro q' hq'
      cases Option.some.inj ((hlongest i).symm.trans hq')
      exact ⟨hq.perm.mem_iff.mpr (List.mem_range.mpr hi),
        hq.partial List.nodup_range (callAt_le_retAt hw)⟩
    · intro l hl _
      refine ⟨q,hlongest i,?_⟩
      rw [hq.perm.length_eq]
      exact (List.subperm_of_subset hl.nodup hl.subset).length_le
  | false =>
    constructor
    · intro q hq
      obtain ⟨hmem,hcont⟩ := h.2 i q hq
      exact ⟨hmem,(continues_iff_isPartial hw init q).mp hcont⟩
    · intro l hl hmem
      have hcont := (continues_iff_isPartial hw init l).mpr hl
      obtain ⟨-,hrec⟩ := h.1 l (by simpa using hcont)
      simpa using hrec rfl i (by simpa using hmem)

end Verdict

end Gopher.LinearizationSearch
