import Gopher.RaftLogs

/-!
# What the tester's checks amount to

Without snapshots the checks are exact: the process goes on without an error exactly
as long as everything applied, by any server at any time, is one log that each server
applies in order. Snapshots are not checked when they are ingested, and the copied logs
agree exactly as long as every one of them fits the others. What `one` returns was
applied, or received in a snapshot, by as many servers as were asked for.
-/

set_option autoImplicit false

namespace Gopher.RaftLogs
open Gopher.StepRuns

variable {V : Type}

def ApplierPc.err : ApplierPc V → Option (ApplyError V)
  | .advancing _ err => err
  | .snapshotting _ err => err
  | .reporting err => err
  | _ => none

def Config.Clean (s : Config V) : Prop :=
  s.fatal = none ∧ ∀ (k : ℕ) (a : Applier V), s.appliers[k]? = some a → a.pc.err = none

def Action.fresh : Action V → Bool
  | .restart _ (some _) => false
  | _ => true

def Setup.Placed (p : Setup V) (s : Config V) : Prop :=
  ∀ (k : ℕ) (a : Applier V), s.appliers[k]? = some a → a.server < p.n

def Setup.ingested (p : Setup V) (a : Action V) (s : Config V) : Option (ℕ × Snapshot V) :=
  if s.fatal.isSome then none
  else match a with
    | .restart i (some (some snap)) => if i < p.n then some (i,snap) else none
    | .receive k m =>
      match s.appliers[k]? with
      | some ⟨i,.reading⟩ =>
        if p.snapshot = true ∧ m.snapshotValid = true then
          match m.snapshot with
          | some (some snap) =>
            if m.snapshotIndex ≠ -1 ∧ m.snapshotIndex ≠ snap.lastIncludedIndex then none
            else some (i,snap)
          | _ => none
        else none
      | _ => none
    | _ => none

def Setup.applied (p : Setup V) (a : Action V) (s : Config V) : List (ℕ × ℤ × V) :=
  if s.fatal.isSome then []
  else match a with
    | .receive k m =>
      match s.appliers[k]? with
      | some ⟨i,.reading⟩ =>
        if p.snapshot = false ∧ m.commandValid = true then [(i,m.commandIndex,m.command)] else []
      | _ => []
    | .proceed k =>
      match s.appliers[k]? with
      | some ⟨i,.checking v index⟩ => [(i,index,v)]
      | _ => []
    | _ => []

def Setup.entered (p : Setup V) (a : Action V) (s : Config V) : List (ℕ × ℤ × V) :=
  p.applied a s++match p.ingested a s with
    | some (i,snap) => snap.xlog.zipIdx.map (fun e => (i,(e.2 : ℤ),e.1))
    | none => []

section Appliers

variable {s : Config V} {k i : ℕ} {old pc : ApplierPc V}

theorem getElem?_setPc_self (h : s.appliers[k]? = some ⟨i,old⟩) :
    (s.setPc k pc).appliers[k]? = some ⟨i,pc⟩ := by
  simp [Config.setPc, h]

theorem getElem?_setPc_of_ne {m : ℕ} (hm : k ≠ m) :
    (s.setPc k pc).appliers[m]? = s.appliers[m]? := by
  simp [Config.setPc, hm]

theorem clean_setPc (h : s.appliers[k]? = some ⟨i,old⟩) (herr : pc.err = none → old.err = none) :
    (s.setPc k pc).Clean ↔ s.Clean ∧ pc.err = none := by
  constructor
  · rintro ⟨hfatal,hall⟩
    have hk : pc.err = none := hall k _ (getElem?_setPc_self h)
    refine ⟨⟨hfatal,?_⟩,hk⟩
    intro m a hm
    by_cases hkm : k = m
    · subst hkm
      cases Option.some.inj (h.symm.trans hm)
      exact herr hk
    · exact hall m a ((getElem?_setPc_of_ne hkm).trans hm)
  · rintro ⟨⟨hfatal,hall⟩,hk⟩
    refine ⟨hfatal,?_⟩
    intro m a hm
    by_cases hkm : k = m
    · subst hkm
      cases Option.some.inj ((getElem?_setPc_self h).symm.trans hm)
      exact hk
    · exact hall m a ((getElem?_setPc_of_ne hkm).symm.trans hm)

theorem clean_keepErr (h : s.appliers[k]? = some ⟨i,old⟩) (herr : pc.err = old.err) :
    (s.setPc k pc).Clean ↔ s.Clean := by
  rw [clean_setPc h (fun hpc => herr ▸ hpc)]
  exact and_iff_left_of_imp (fun hs => herr.trans (hs.2 k _ h))

theorem not_clean_setPc (h : s.appliers[k]? = some ⟨i,old⟩) (herr : pc.err ≠ none) :
    ¬(s.setPc k pc).Clean :=
  fun hc => herr (hc.2 k _ (getElem?_setPc_self h))

theorem clean_newApplier (s : Config V) (i : ℕ) :
    ({ s with appliers := s.appliers++[⟨i,.reading⟩] } : Config V).Clean ↔ s.Clean := by
  refine and_congr_right (fun _ => ⟨?_,?_⟩)
  · intro hall m a hm
    have hlt := (List.getElem?_eq_some_iff.mp hm).1
    exact hall m a ((List.getElem?_append_left hlt).trans hm)
  · intro hall m a hm
    rw [List.getElem?_append] at hm
    split at hm
    · exact hall m a hm
    · cases List.mem_singleton.mp (List.mem_of_getElem? hm)
      rfl

theorem placed_setPc {p : Setup V} (h : p.Placed s) : p.Placed (s.setPc k pc) := by
  intro m a hm
  rw [Config.setPc, List.getElem?_modify] at hm
  obtain ⟨b,hb,hab⟩ := Option.map_eq_some_iff.mp hm
  have hlt := h m b hb
  rw [← hab]
  split
  · exact hlt
  · exact hlt

theorem placed_newApplier {p : Setup V} (h : p.Placed s) (hi : i < p.n) :
    p.Placed { s with appliers := s.appliers++[⟨i,.reading⟩] } := by
  intro m a hm
  rw [List.getElem?_append] at hm
  split at hm
  · exact h m a hm
  · cases List.mem_singleton.mp (List.mem_of_getElem? hm)
    exact hi

end Appliers

section Logs

variable [DecidableEq V] (s : Config V) (n i : ℕ) (v : V) (index : ℤ)

theorem mismatchOf_eq_none_iff (logs : ℕ → ℤ → Option V) :
    mismatchOf logs n i v index = none ↔ ∀ j < n, ∀ old, logs j index = some old → old = v := by
  induction n with
  | zero => simp [mismatchOf]
  | succ n ih =>
    rw [mismatchOf] at ih
    rw [mismatchOf, List.range_succ, List.foldl_append, List.foldl_cons, List.foldl_nil,
      Nat.forall_lt_succ_right, ← ih]
    cases h : logs n index with
    | none => simp
    | some old =>
      by_cases hv : old = v
      · simp [hv]
      · simp [hv]

theorem applyCommand_eq_none_iff : (s.applyCommand n i v index).1 = none ↔
    (1 < index → (s.logs i (index-1)).isSome) ∧
      ∀ j < n, ∀ old, s.logs j index = some old → old = v := by
  rw [← mismatchOf_eq_none_iff n i]
  change (if 1 < index ∧ (s.logs i (index-1)).isSome = false then
    some (ApplyError.outOfOrder i index) else mismatchOf s.logs n i v index) = none ↔ _
  split
  · rename_i h
    simp [h.1, h.2]
  · rename_i h
    refine (and_iff_right ?_).symm
    intro hindex
    exact Bool.of_not_eq_false (fun hprev => h ⟨hindex,hprev⟩)

theorem logs_applyCommand (j : ℕ) (k : ℤ) : (s.applyCommand n i v index).2.logs j k =
    if j = i ∧ k = index then some v else s.logs j k := by
  simp only [Config.applyCommand, Config.checkLogs, Function.update_apply]
  by_cases hj : j = i
  · subst hj
    by_cases hk : k = index <;> simp [hk]
  · simp [hj]

omit [DecidableEq V] in
theorem logs_adopt (snap : Snapshot V) (j : ℕ) (k : ℤ) : (s.adopt i snap).logs j k =
    if j = i then (if 0 ≤ k then snap.xlog[k.toNat]? else none) else s.logs j k := by
  simp only [Config.adopt, Function.update_apply]
  split <;> rfl

end Logs

section Effects

variable [DecidableEq V]

inductive Effect (p : Setup V) (a : Action V) (s s' : Config V) : Prop
  | still (hlogs : s'.logs = s.logs) (happlied : p.applied a s = []) (hclean : s'.Clean ↔ s.Clean)
      (hnone : p.ingested a s = none)
  | failed (hlogs : s'.logs = s.logs) (happlied : p.applied a s = []) (hclean : ¬s'.Clean)
      (hmode : p.snapshot = true ∨ a.fresh = false) (hnone : p.ingested a s = none)
  | applied (i : ℕ) (v : V) (index : ℤ) (hi : i < p.n)
      (hlogs : s'.logs = (s.applyCommand p.n i v index).2.logs)
      (happlied : p.applied a s = [(i,index,v)])
      (hclean : s'.Clean ↔ s.Clean ∧ (s.applyCommand p.n i v index).1 = none)
      (hnone : p.ingested a s = none)
  | adopted (i : ℕ) (snap : Snapshot V) (hi : i < p.n)
      (hlogs : s'.logs = (s.adopt i snap).logs) (happlied : p.applied a s = [])
      (hclean : s'.Clean ↔ s.Clean) (hmode : p.snapshot = true ∨ a.fresh = false)
      (hsome : p.ingested a s = some (i,snap))

variable {p : Setup V} {s : Config V}

theorem restart_effect (hrun : s.fatal = none) (i : ℕ) (saved : Option (Option (Snapshot V))) :
    Effect p (.restart i saved) s (p.restart s i saved) := by
  have happlied : p.applied (.restart i saved) s = [] := by
    simp [Setup.applied]
  rw [Setup.restart]
  split
  · rename_i hi
    rcases saved with _ | _ | snap
    · exact .still rfl happlied (clean_newApplier _ i) (by simp [Setup.ingested])
    · refine .failed rfl happlied ?_ (.inr rfl) (by simp [Setup.ingested])
      rintro ⟨hfatal,-⟩
      cases hfatal
    · exact .adopted i snap hi rfl happlied (clean_newApplier _ i) (.inr rfl)
        (by simp [Setup.ingested, hrun, hi])
  · rename_i hi
    refine .still rfl happlied Iff.rfl ?_
    rcases saved with _ | _ | snap <;> simp [Setup.ingested, hi]

theorem applied_effect {a : Action V} {k i : ℕ} {old pc : ApplierPc V} (hplaced : p.Placed s)
    (h : s.appliers[k]? = some ⟨i,old⟩) (hold : old.err = none) (v : V) (index : ℤ)
    (hpc : pc.err = (s.applyCommand p.n i v index).1) (happlied : p.applied a s = [(i,index,v)])
    (hnone : p.ingested a s = none) :
    Effect p a s ((s.applyCommand p.n i v index).2.setPc k pc) := by
  refine .applied i v index (hplaced k _ h) rfl happlied ?_ hnone
  rw [← hpc]
  exact clean_setPc (s := (s.applyCommand p.n i v index).2) h (fun _ => hold)

theorem ingest_effect (hrun : s.fatal = none) (hplaced : p.Placed s) {k i : ℕ}
    (h : s.appliers[k]? = some ⟨i,.reading⟩) (m : ApplyMsg V) (hmode : p.snapshot = true)
    (hvalid : m.snapshotValid = true) :
    Effect p (.receive k m) s ((s.ingestSnap i m.snapshot m.snapshotIndex).2.setPc k
      (.reporting (s.ingestSnap i m.snapshot m.snapshotIndex).1)) := by
  have hing : p.ingested (.receive k m) s = match m.snapshot with
      | some (some snap) =>
        if m.snapshotIndex ≠ -1 ∧ m.snapshotIndex ≠ snap.lastIncludedIndex then none
        else some (i,snap)
      | _ => none := by
    simp only [Setup.ingested, hrun, h, hmode, hvalid, Option.isSome_none, Bool.false_eq_true,
      if_false, and_self, if_true]
  have happlied : p.applied (.receive k m) s = [] := by
    simp [Setup.applied, hrun, h, hmode]
  rcases hsnap : m.snapshot with _ | _ | snap <;> rw [hsnap] at hing
  · refine .failed rfl happlied ?_ (.inl hmode) hing
    rintro ⟨hfatal,-⟩
    cases hfatal
  · refine .failed rfl happlied ?_ (.inl hmode) hing
    rintro ⟨hfatal,-⟩
    cases hfatal
  · simp only [Config.ingestSnap]
    simp only at hing
    split
    · rename_i hwrong
      rw [if_pos hwrong] at hing
      exact .failed rfl happlied (not_clean_setPc h (Option.some_ne_none _)) (.inl hmode) hing
    · rename_i hright
      rw [if_neg hright] at hing
      exact .adopted i snap (hplaced k _ h) rfl happlied
        (clean_keepErr (s := s.adopt i snap) h rfl) (.inl hmode) hing

theorem command_effect (hrun : s.fatal = none) (hplaced : p.Placed s) {k i : ℕ}
    (h : s.appliers[k]? = some ⟨i,.reading⟩) (m : ApplyMsg V)
    (hmode : ¬(p.snapshot = true ∧ m.snapshotValid = true)) :
    Effect p (.receive k m) s (p.receive s k m) := by
  have hnone : p.ingested (.receive k m) s = none := by
    simp only [Setup.ingested, hrun, h, Option.isSome_none, Bool.false_eq_true, if_false,
      if_neg hmode]
  have happlied : p.applied (.receive k m) s =
      if p.snapshot = false ∧ m.commandValid = true then [(i,m.commandIndex,m.command)] else [] := by
    simp [Setup.applied, hrun, h]
  rw [Setup.receive, h]
  cases hsnapshot : p.snapshot with
  | true =>
    have hvalid : m.snapshotValid = false := by simpa [hsnapshot] using hmode
    simp only [hsnapshot, hvalid, Bool.true_eq_false, false_and, if_false, if_true,
      Bool.false_eq_true] at happlied ⊢
    split
    · split
      · exact .failed rfl happlied (not_clean_setPc h (Option.some_ne_none _)) (.inl hsnapshot)
          hnone
      · exact .still rfl happlied (clean_keepErr h rfl) hnone
    · exact .still rfl happlied Iff.rfl hnone
  | false =>
    cases hvalid : m.commandValid with
    | true =>
      simp only [hsnapshot, hvalid, and_self, if_true, Bool.false_eq_true, if_false] at happlied ⊢
      exact applied_effect hplaced h rfl _ _ rfl happlied hnone
    | false =>
      simp only [hsnapshot, hvalid, Bool.false_eq_true, and_false, if_false] at happlied ⊢
      exact .still rfl happlied Iff.rfl hnone

theorem receive_effect (hrun : s.fatal = none) (hplaced : p.Placed s) (k : ℕ) (m : ApplyMsg V) :
    Effect p (.receive k m) s (p.receive s k m) := by
  by_cases hreading : ∃ i, s.appliers[k]? = some ⟨i,.reading⟩
  · obtain ⟨i,h⟩ := hreading
    by_cases hmode : p.snapshot = true ∧ m.snapshotValid = true
    · have heffect := ingest_effect hrun hplaced h m hmode.1 hmode.2
      simp only [Setup.receive, h, hmode.1, hmode.2, if_true]
      exact heffect
    · exact command_effect hrun hplaced h m hmode
  · have hother (i : ℕ) : s.appliers[k]? ≠ some ⟨i,.reading⟩ := fun h => hreading ⟨i,h⟩
    have hsame : p.receive s k m = s := by
      rw [Setup.receive]
      split
      · exact absurd ‹_› (hother _)
      · rfl
    rw [hsame]
    refine .still rfl ?_ Iff.rfl ?_
    · simp only [Setup.applied, hrun, Option.isSome_none, Bool.false_eq_true, if_false]
    · simp only [Setup.ingested, hrun, Option.isSome_none, Bool.false_eq_true, if_false]

theorem proceed_effect (hrun : s.fatal = none) (hplaced : p.Placed s) (k : ℕ) :
    Effect p (.proceed k) s (p.proceed s k) := by
  have hnone : p.ingested (.proceed k) s = none := by
    simp [Setup.ingested]
  have happlied : p.applied (.proceed k) s = match s.appliers[k]? with
      | some ⟨i,.checking v index⟩ => [(i,index,v)]
      | _ => [] := by
    simp only [Setup.applied, hrun, Option.isSome_none, Bool.false_eq_true, if_false]
  rw [Setup.proceed]
  split
  · rename_i i v index h
    rw [h] at happlied
    exact applied_effect hplaced h rfl v index rfl happlied hnone
  · rename_i i index err h
    rw [h] at happlied
    exact .still rfl happlied (clean_keepErr (s := { s with
      lastApplied := Function.update s.lastApplied i index }) h rfl) hnone
  · rename_i i index err h
    rw [h] at happlied
    split
    · exact .still rfl happlied (clean_keepErr (s := { s with
        taken := s.taken++[p.snapshotAt s i index] }) h rfl) hnone
    · exact .still rfl happlied (clean_keepErr h rfl) hnone
  · rename_i i e h
    rw [h] at happlied
    refine .still rfl happlied (iff_of_false ?_ ?_) hnone
    · rintro ⟨hfatal,-⟩
      cases hfatal
    · intro hc
      cases hc.2 k _ h
  · rename_i i h
    rw [h] at happlied
    exact .still rfl happlied (clean_keepErr h rfl) hnone
  · rename_i hchecking _ _ _ _
    refine .still rfl ?_ Iff.rfl hnone
    rw [happlied]
    split
    · exact absurd ‹_› (hchecking _ _ _)
    · rfl

theorem step_effect (hplaced : p.Placed s) (a : Action V) : Effect p a s (p.step a s) := by
  unfold Setup.step
  split
  · rename_i hfatal
    exact .still rfl (if_pos hfatal) Iff.rfl (if_pos hfatal)
  · rename_i hfatal
    have hrun : s.fatal = none := by simpa using hfatal
    cases a with
    | restart i saved => exact restart_effect hrun i saved
    | receive k m => exact receive_effect hrun hplaced k m
    | proceed k => exact proceed_effect hrun hplaced k
    | loop | tryServer | poll | count =>
      exact .still rfl (by simp [Setup.applied]) Iff.rfl (by simp [Setup.ingested])

theorem receive_placed (k : ℕ) (m : ApplyMsg V) (s : Config V) (h : p.Placed s) :
    p.Placed (p.receive s k m) := by
  simp only [Setup.receive]
  split
  · split
    · split
      · rcases m.snapshot with _ | _ | snap
        · exact placed_setPc (s := { s with fatal := _ }) h
        · exact placed_setPc (s := { s with fatal := _ }) h
        · simp only [Config.ingestSnap]
          split
          · exact placed_setPc h
          · exact placed_setPc (s := s.adopt _ snap) h
      · split
        · split <;> exact placed_setPc h
        · exact h
    · split
      · exact placed_setPc (s := (s.applyCommand _ _ _ _).2) h
      · exact h
  · exact h

theorem proceed_placed (k : ℕ) (s : Config V) (h : p.Placed s) : p.Placed (p.proceed s k) := by
  simp only [Setup.proceed]
  split
  · exact placed_setPc (s := (s.applyCommand _ _ _ _).2) h
  · exact placed_setPc (s := { s with lastApplied := _ }) h
  · split
    · exact placed_setPc (s := { s with taken := _ }) h
    · exact placed_setPc h
  · exact h
  · exact placed_setPc h
  · exact h

theorem step_placed (a : Action V) (s : Config V) (h : p.Placed s) : p.Placed (p.step a s) := by
  unfold Setup.step
  split
  · exact h
  · cases a with
    | restart i saved =>
      simp only [Setup.restart]
      split
      · rename_i hi
        rcases saved with _ | _ | snap <;> exact placed_newApplier (s := { s with
          lastApplied := _ }) h hi
      · exact h
    | receive k m => exact receive_placed k m s h
    | proceed k => exact proceed_placed k s h
    | loop => exact h
    | tryServer => exact h
    | poll => exact h
    | count => exact h

omit [DecidableEq V] in
theorem start_placed : p.Placed start := by
  intro k a h
  cases h

end Effects

section Snapshots

variable [DecidableEq V] {p : Setup V} {s : Config V} {n i : ℕ}

def Config.Agree (s : Config V) (n : ℕ) : Prop :=
  ∀ i < n, ∀ j < n, ∀ k v w, s.logs i k = some v → s.logs j k = some w → v = w

def Config.Fits (s : Config V) (n i : ℕ) (snap : Snapshot V) : Prop :=
  ∀ j < n, j ≠ i → ∀ (k : ℕ) v w, snap.xlog[k]? = some v → s.logs j k = some w → v = w

def Setup.Fitting (p : Setup V) (a : Action V) (s : Config V) : Prop :=
  ∀ i snap, p.ingested a s = some (i,snap) → s.Clean → s.Fits p.n i snap

theorem Config.Agree.applyCommand (h : s.Agree n) {v : V} {index : ℤ}
    (hsame : ∀ j < n, ∀ old, s.logs j index = some old → old = v) :
    (s.applyCommand n i v index).2.Agree n := by
  intro j hj l hl k u w hu hw
  rw [logs_applyCommand] at hu hw
  split at hu
  · rename_i hnew
    cases hu
    split at hw
    · cases hw
      rfl
    · exact (hsame l hl w (hnew.2 ▸ hw)).symm
  · split at hw
    · rename_i hnew
      cases hw
      exact hsame j hj u (hnew.2 ▸ hu)
    · exact h j hj l hl k u w hu hw

omit [DecidableEq V] in
theorem logs_adopt_self (snap : Snapshot V) (k : ℕ) :
    (s.adopt i snap).logs i k = snap.xlog[k]? := by
  rw [logs_adopt, if_pos rfl, if_pos (Int.natCast_nonneg k), Int.toNat_natCast]

omit [DecidableEq V] in
theorem Config.Fits.agree {snap : Snapshot V} (hfits : s.Fits n i snap) {j : ℕ} (hj : j < n)
    (hji : j ≠ i) {k : ℤ} {v w : V} (hv : (s.adopt i snap).logs i k = some v)
    (hw : s.logs j k = some w) : v = w := by
  rw [logs_adopt, if_pos rfl] at hv
  split at hv
  · rename_i hk
    refine hfits j hj hji k.toNat v w hv ?_
    rw [Int.toNat_of_nonneg hk]
    exact hw
  · cases hv

omit [DecidableEq V] in
theorem agree_adopt_iff (h : s.Agree n) (hi : i < n) (snap : Snapshot V) :
    (s.adopt i snap).Agree n ↔ s.Fits n i snap := by
  have hother {j : ℕ} (hji : j ≠ i) (k : ℤ) : (s.adopt i snap).logs j k = s.logs j k := by
    rw [logs_adopt, if_neg hji]
  constructor
  · intro hagree j hj hji k v w hv hw
    exact hagree i hi j hj k v w ((logs_adopt_self snap k).trans hv) ((hother hji k).trans hw)
  · intro hfits j hj l hl k v w hv hw
    by_cases hji : j = i
    · subst hji
      by_cases hlj : l = j
      · subst hlj
        exact Option.some.inj (hv.symm.trans hw)
      · exact hfits.agree hl hlj hv ((hother hlj k).symm.trans hw)
    · rw [hother hji] at hv
      by_cases hli : l = i
      · subst hli
        exact (hfits.agree hj hji hw hv).symm
      · exact h j hj l hl k v w hv ((hother hli k).symm.trans hw)

omit [DecidableEq V] in
theorem agree_congr {s' : Config V} (hlogs : s'.logs = s.logs) : s'.Agree n ↔ s.Agree n := by
  rw [Config.Agree, Config.Agree, hlogs]

/-- One action keeps the logs of a process without errors in agreement exactly when the snapshot
it ingests, if any, fits. -/
theorem step_agree (a : Action V) (s : Config V) (hplaced : p.Placed s)
    (h : s.Clean → s.Agree p.n) :
    ((p.step a s).Clean → (p.step a s).Agree p.n) ↔ p.Fitting a s := by
  have hfitting (hnone : p.ingested a s = none) : p.Fitting a s := by
    intro i snap hsome
    cases hnone.symm.trans hsome
  cases step_effect hplaced a with
  | still hlogs _ hclean hnone =>
    refine iff_of_true ?_ (hfitting hnone)
    rwa [hclean, agree_congr hlogs]
  | failed _ _ hclean _ hnone => exact iff_of_true (fun hc => absurd hc hclean) (hfitting hnone)
  | applied i v index _ hlogs _ hclean hnone =>
    refine iff_of_true ?_ (hfitting hnone)
    rw [hclean, agree_congr hlogs]
    rintro ⟨hs,herr⟩
    exact (h hs).applyCommand ((applyCommand_eq_none_iff _ _ _ _ _).mp herr).2
  | adopted i snap hi hlogs _ hclean _ hsome =>
    rw [hclean, agree_congr hlogs]
    constructor
    · intro hagree j snap' hsome' hs
      cases hsome.symm.trans hsome'
      exact (agree_adopt_iff (h hs) hi snap).mp (hagree hs)
    · intro hfit hs
      exact (agree_adopt_iff (h hs) hi snap).mpr (hfit i snap hsome hs)

/-- With or without snapshots, the copied logs of any two servers agree at every index, in every
state in which no error was found, exactly when each ingested snapshot fits the logs of the
others at that time: nothing checks it. -/
theorem agree_iff_snapshots_fit (p : Setup V) (as : List (Action V)) :
    Throughout p.step (fun s => s.Clean → s.Agree p.n) as start ↔
      Along p.step p.Fitting as start := by
  apply throughout_iff_along p.step p.Fitting p.Placed (fun s => s.Clean → s.Agree p.n)
  · exact fun a s hplaced _ => step_placed a s hplaced
  · exact fun a s hplaced h => step_agree a s hplaced h
  · exact start_placed
  · intro _ i _ j _ k v w hv
    cases hv

end Snapshots

section Records

variable [DecidableEq V] {p : Setup V} {s : Config V} {held : List (ℕ × ℤ × V)}

def Config.Logged (s : Config V) (held : List (ℕ × ℤ × V)) : Prop :=
  ∀ i k v, s.logs i k = some v → (i,k,v) ∈ held

theorem Config.Logged.applyCommand (h : s.Logged held) (n i : ℕ) (v : V) (index : ℤ) :
    (s.applyCommand n i v index).2.Logged (held++[(i,index,v)]) := by
  intro j k w hw
  rw [logs_applyCommand] at hw
  split at hw
  · rename_i hnew
    cases hw
    rw [hnew.1, hnew.2]
    exact List.mem_append_right _ (List.mem_singleton_self _)
  · exact List.mem_append_left _ (h j k w hw)

omit [DecidableEq V] in
theorem Config.Logged.adopt (h : s.Logged held) (i : ℕ) (snap : Snapshot V) :
    (s.adopt i snap).Logged (held++snap.xlog.zipIdx.map (fun e => (i,(e.2 : ℤ),e.1))) := by
  intro j k v hv
  rw [logs_adopt] at hv
  split at hv
  · rename_i hji
    subst hji
    split at hv
    · rename_i hk
      refine List.mem_append_right _ (List.mem_map.mpr ⟨(v,k.toNat),?_,?_⟩)
      · exact List.mem_zipIdx_iff_getElem?.mpr hv
      · rw [Int.toNat_of_nonneg hk]
    · cases hv
  · exact List.mem_append_left _ (h j k v hv)

omit [DecidableEq V] in
theorem Config.Logged.congr {t : Config V} (h : s.Logged held) (hlogs : t.logs = s.logs) :
    t.Logged held := by
  rw [Config.Logged, hlogs]
  exact h

theorem step_logged (a : Action V) (s : Config V) (hplaced : p.Placed s) (h : s.Logged held) :
    (p.step a s).Logged (held++p.entered a s) := by
  rw [Setup.entered]
  cases step_effect hplaced a with
  | still hlogs happlied _ hnone =>
    rw [happlied, hnone, List.append_nil, List.append_nil]
    exact h.congr hlogs
  | failed hlogs happlied _ _ hnone =>
    rw [happlied, hnone, List.append_nil, List.append_nil]
    exact h.congr hlogs
  | applied i v index _ hlogs happlied _ hnone =>
    rw [happlied, hnone, List.append_nil]
    exact (h.applyCommand p.n i v index).congr hlogs
  | adopted i snap _ hlogs happlied _ _ hsome =>
    rw [happlied, hsome, List.nil_append]
    exact (h.adopt i snap).congr hlogs

end Records

section Exactness

variable [DecidableEq V] {p : Setup V} {s : Config V}

structure Consistent (held : List (ℕ × ℤ × V)) : Prop where
  agree : ∀ i j k v w, (i,k,v) ∈ held → (j,k,w) ∈ held → v = w
  ordered : ∀ l₁ i k v l₂, held = l₁++(i,k,v)::l₂ → 1 < k → ∃ w, (i,k-1,w) ∈ l₁

omit [DecidableEq V] in
theorem consistent_concat_iff (held : List (ℕ × ℤ × V)) (i : ℕ) (k : ℤ) (v : V) :
    Consistent (held++[(i,k,v)]) ↔ Consistent held ∧ (∀ j w, (j,k,w) ∈ held → w = v) ∧
      (1 < k → ∃ w, (i,k-1,w) ∈ held) := by
  constructor
  · rintro ⟨hagree,hordered⟩
    refine ⟨⟨?_,?_⟩,?_,hordered held i k v [] rfl⟩
    · exact fun j j' k' w w' hw hw' =>
        hagree j j' k' w w' (List.mem_append_left _ hw) (List.mem_append_left _ hw')
    · intro l₁ j k' w l₂ heq
      refine hordered l₁ j k' w (l₂++[(i,k,v)]) ?_
      rw [heq, List.append_assoc, List.cons_append]
    · exact fun j w hw => hagree j i k w v (List.mem_append_left _ hw) (by simp)
  · rintro ⟨hc,hsame,hprev⟩
    constructor
    · intro j j' k' w w' hw hw'
      rcases List.mem_append.mp hw with hw | hw <;> rcases List.mem_append.mp hw' with hw' | hw'
      · exact hc.agree j j' k' w w' hw hw'
      · cases List.mem_singleton.mp hw'
        exact hsame j w hw
      · cases List.mem_singleton.mp hw
        exact (hsame j' w' hw').symm
      · cases List.mem_singleton.mp hw
        cases List.mem_singleton.mp hw'
        rfl
    · intro l₁ j k' w l₂ heq
      rcases List.eq_nil_or_concat l₂ with rfl | ⟨l,e,rfl⟩
      · obtain ⟨rfl,hlast⟩ := List.append_inj' heq rfl
        cases hlast
        exact hprev
      · rw [List.concat_eq_append, ← List.cons_append, ← List.append_assoc] at heq
        obtain ⟨rfl,-⟩ := List.append_inj' heq rfl
        exact hc.ordered l₁ j k' w l rfl

structure Exact (p : Setup V) (held : List (ℕ × ℤ × V)) (s : Config V) : Prop where
  placed : p.Placed s
  logged : s.Logged held
  kept : ∀ i k v, (i,k,v) ∈ held → i < p.n ∧ (s.logs i k).isSome = true
  clean : s.Clean ↔ Consistent held

variable {held : List (ℕ × ℤ × V)}

/-- As long as what was applied is consistent, a command passes the checks exactly when it keeps
it so. -/
theorem Exact.passes_iff (h : Exact p held s) (hc : Consistent held) (i : ℕ) (v : V) (index : ℤ) :
    (s.applyCommand p.n i v index).1 = none ↔
      (∀ j w, (j,index,w) ∈ held → w = v) ∧ (1 < index → ∃ w, (i,index-1,w) ∈ held) := by
  rw [applyCommand_eq_none_iff, and_comm]
  refine and_congr ⟨?_,?_⟩ (forall_congr' fun _ => ⟨?_,?_⟩)
  · intro hsame j w hw
    obtain ⟨hj,hsome⟩ := h.kept j index w hw
    obtain ⟨u,hu⟩ := Option.isSome_iff_exists.mp hsome
    rw [hc.agree j j index w u hw (h.logged j index u hu)]
    exact hsame j hj u hu
  · exact fun hsame j _ old hold => hsame j old (h.logged j index old hold)
  · intro hsome
    obtain ⟨w,hw⟩ := Option.isSome_iff_exists.mp hsome
    exact ⟨w,h.logged i _ w hw⟩
  · rintro ⟨w,hw⟩
    exact (h.kept i _ w hw).2

theorem Exact.kept_applyCommand (h : Exact p held s) {i : ℕ} (hi : i < p.n) (v : V) (index : ℤ)
    {j : ℕ} {k : ℤ} {w : V} (hw : (j,k,w) ∈ held++[(i,index,v)]) :
    j < p.n ∧ ((s.applyCommand p.n i v index).2.logs j k).isSome = true := by
  rw [logs_applyCommand]
  split
  · rename_i hnew
    exact ⟨hnew.1 ▸ hi,rfl⟩
  · rename_i hold
    rcases List.mem_append.mp hw with hw | hw
    · exact h.kept j k w hw
    · cases List.mem_singleton.mp hw
      exact absurd ⟨rfl,rfl⟩ hold

theorem step_exact (hmode : p.snapshot = false) (held : List (ℕ × ℤ × V)) (a : Action V)
    (s : Config V) (h : Exact p held s) (ha : a.fresh = true) :
    Exact p (held++p.applied a s) (p.step a s) := by
  have hplain : ¬(p.snapshot = true ∨ a.fresh = false) := by
    simp [hmode, ha]
  have hplaced := step_placed a s h.placed
  cases step_effect h.placed a with
  | still hlogs happlied hclean =>
    rw [happlied, List.append_nil]
    exact ⟨hplaced,h.logged.congr hlogs,by rw [hlogs]; exact h.kept,hclean.trans h.clean⟩
  | failed _ _ _ hsnap => exact absurd hsnap hplain
  | applied i v index hi hlogs happlied hclean =>
    rw [happlied]
    refine ⟨hplaced,(h.logged.applyCommand p.n i v index).congr hlogs,?_,?_⟩
    · intro j k w hw
      rw [hlogs]
      exact h.kept_applyCommand hi v index hw
    · rw [hclean, consistent_concat_iff, h.clean]
      exact and_congr_right (fun hc => h.passes_iff hc i v index)
  | adopted _ _ _ _ _ _ hsnap => exact absurd hsnap hplain

omit [DecidableEq V] in
theorem start_exact : Exact p [] start := by
  refine ⟨start_placed,?_,?_,iff_of_true ⟨rfl,?_⟩ ⟨?_,?_⟩⟩
  · intro i k v hv
    cases hv
  · intro i k v hv
    cases hv
  · intro k a ha
    cases ha
  · intro i j k v w hv
    cases hv
  · intro l₁ i k v l₂ heq
    simp at heq

/-- Without snapshots the checks are exact in every run: no error was found exactly when
everything ever applied is one log, applied by each server in order. -/
theorem clean_iff_consistent (p : Setup V) (hmode : p.snapshot = false) (as : List (Action V))
    (has : ∀ a ∈ as, a.fresh = true) :
    (run p.step as start).Clean ↔ Consistent (gathered p.step p.applied as start) :=
  (run_records p.step (fun a _ => a.fresh = true) p.applied (Exact p)
    (fun held a s h ha => step_exact hmode held a s h ha) as [] start start_exact
    (along_of_forall _ _ as start (fun a ha _ => has a ha))).clean

end Exactness

def pair : Setup ℕ := ⟨2,false,0,7,2,false⟩

def commandAt (v : ℕ) (index : ℤ) : ApplyMsg ℕ := ⟨true,v,index,false,none,0⟩

def agreeOnce : List (Action ℕ) :=
  [.restart 0 none,.restart 1 none,.loop true false,.tryServer (some 1),
    .receive 0 (commandAt 7 1),.receive 1 (commandAt 7 1),.poll true,.count,.count,.count]

theorem clean_iff_consistent_agreeOnce : (run pair.step agreeOnce start).Clean ↔
    Consistent (gathered pair.step pair.applied agreeOnce start) :=
  clean_iff_consistent pair rfl agreeOnce (by decide)

section One

variable {p : Setup V} {s : Config V} {held held' : List (ℕ × ℤ × V)}

def TesterPc.Ok (p : Setup V) (held : List (ℕ × ℤ × V)) : TesterPc V → Prop
  | .counting _ index i count cmd => i ≤ p.n ∧ ∃ S ⊆ Finset.range i, S.card = count ∧
      ∀ j ∈ S, ∃ v, cmd = some v ∧ (j,index,v) ∈ held
  | .returned index => index ≠ -1 → ∃ S ⊆ Finset.range p.n, 0 < S.card ∧
      p.expectedServers ≤ S.card ∧ ∀ j ∈ S, (j,index,p.cmd) ∈ held
  | _ => True

theorem TesterPc.Ok.mono {pc : TesterPc V} (h : pc.Ok p held) (hsub : held ⊆ held') :
    pc.Ok p held' := by
  cases pc with
  | counting starts index i count cmd =>
    obtain ⟨hi,S,hS,hcard,hmem⟩ := h
    refine ⟨hi,S,hS,hcard,?_⟩
    intro j hj
    obtain ⟨v,hv,hheld⟩ := hmem j hj
    exact ⟨v,hv,hsub hheld⟩
  | returned index =>
    intro hindex
    obtain ⟨S,hS,hpos,hcard,hmem⟩ := h hindex
    exact ⟨S,hS,hpos,hcard,fun j hj => hsub (hmem j hj)⟩
  | outer => trivial
  | trying => trivial
  | polling => trivial
  | mismatch => trivial
  | failed => trivial

theorem counted_ok {starts : ℕ} {index : ℤ} {i count : ℕ} {cmd : Option V} {v : V}
    (h : (TesterPc.counting starts index i count cmd).Ok p held) (hi : i < p.n)
    (hv : (i,index,v) ∈ held) (hsame : ∀ old, cmd = some old → 0 < count → old = v) :
    (TesterPc.counting starts index (i+1) (count+1) (some v)).Ok p held := by
  obtain ⟨-,S,hS,hcard,hmem⟩ := h
  have hnot : i ∉ S := fun hiS => Nat.lt_irrefl i (Finset.mem_range.mp (hS hiS))
  refine ⟨hi,insert i S,?_,?_,?_⟩
  · rw [Finset.range_add_one]
    exact Finset.insert_subset_insert i hS
  · rw [Finset.card_insert_of_notMem hnot, hcard]
  · intro j hj
    rcases Finset.mem_insert.mp hj with rfl | hjS
    · exact ⟨v,rfl,hv⟩
    · obtain ⟨old,hold,hheld⟩ := hmem j hjS
      have hpos : 0 < count := hcard ▸ Finset.card_pos.mpr ⟨j,hjS⟩
      exact ⟨v,rfl,hsame old hold hpos ▸ hheld⟩

variable [DecidableEq V]

theorem countStep_ok (hlogged : s.Logged held) {starts : ℕ} {index : ℤ} {i count : ℕ}
    {cmd : Option V} (h : (TesterPc.counting starts index i count cmd).Ok p held) :
    (p.countStep s starts index i count cmd).Ok p held := by
  unfold Setup.countStep
  split
  · rename_i hi
    split
    · obtain ⟨-,S,hS,hcard,hmem⟩ := h
      exact ⟨hi,S,hS.trans (Finset.range_subset_range.mpr (Nat.le_succ i)),hcard,hmem⟩
    · rename_i cmd1 old hcmd1
      split
      · trivial
      · rename_i hsame
        refine counted_ok h hi (hlogged i index cmd1 hcmd1) ?_
        intro old' hold' hpos
        cases hold'
        by_contra hne
        exact hsame ⟨hpos,hne⟩
    · rename_i cmd1 hcmd1
      refine counted_ok h hi (hlogged i index cmd1 hcmd1) ?_
      intro old hold
      cases hold
  · split
    · rename_i henough
      obtain ⟨hpos,hexpected,hcmd⟩ := henough
      obtain ⟨hi,S,hS,hcard,hmem⟩ := h
      intro _
      refine ⟨S,hS.trans (Finset.range_subset_range.mpr hi),hcard ▸ hpos,hcard ▸ hexpected,?_⟩
      intro j hj
      obtain ⟨v,hv,hheld⟩ := hmem j hj
      cases Option.some.inj (hv.symm.trans hcmd)
      exact hheld
    · trivial

theorem testerStep_ok (hlogged : s.Logged held) (h : s.tester.Ok p held) (a : Action V) :
    (p.testerStep s a).Ok p held := by
  unfold Setup.testerStep
  split
  · split
    · trivial
    · split
      · exact fun hindex => absurd rfl hindex
      · trivial
  · split
    · split
      · split <;> trivial
      · trivial
    · trivial
  · split
    · refine ⟨Nat.zero_le _,∅,Finset.empty_subset _,rfl,?_⟩
      exact fun j hj => absurd hj (Finset.notMem_empty j)
    · split <;> trivial
  · rename_i htester
    rw [htester] at h
    exact countStep_ok hlogged h
  · exact h

theorem step_tester (a : Action V) (s : Config V) :
    (p.step a s).tester = s.tester ∨ (p.step a s).tester = p.testerStep s a := by
  unfold Setup.step
  split
  · exact .inl rfl
  · cases a with
    | restart i saved =>
      refine .inl ?_
      simp only [Setup.restart]
      split
      · rcases saved with _ | _ | snap <;> rfl
      · rfl
    | receive k m =>
      refine .inl ?_
      simp only [Setup.receive, Config.ingestSnap]
      repeat' split
      all_goals rfl
    | proceed k =>
      refine .inl ?_
      simp only [Setup.proceed]
      repeat' split
      all_goals rfl
    | loop => exact .inr rfl
    | tryServer => exact .inr rfl
    | poll => exact .inr rfl
    | count => exact .inr rfl

structure Counted (p : Setup V) (held : List (ℕ × ℤ × V)) (s : Config V) : Prop where
  placed : p.Placed s
  logged : s.Logged held
  tester : s.tester.Ok p held

theorem step_counted (held : List (ℕ × ℤ × V)) (a : Action V) (s : Config V)
    (h : Counted p held s) : Counted p (held++p.entered a s) (p.step a s) := by
  refine ⟨step_placed a s h.placed,step_logged a s h.placed h.logged,?_⟩
  have hok : (p.step a s).tester.Ok p held := by
    rcases step_tester a s with htester | htester <;> rw [htester]
    · exact h.tester
    · exact testerStep_ok h.logged h.tester a
  exact hok.mono (List.subset_append_left _ _)

omit [DecidableEq V] in
theorem start_counted : Counted p [] start :=
  ⟨start_placed,fun _ _ _ hv => (by cases hv),trivial⟩

/-- When `one` returns an index, its command was applied there, or received in a snapshot, by at
least as many different servers as it was asked for, and by one at least. -/
theorem one_returned (p : Setup V) (as : List (Action V)) (index : ℤ)
    (hreturned : (run p.step as start).tester = .returned index) (hindex : index ≠ -1) :
    ∃ S ⊆ Finset.range p.n, 0 < S.card ∧ p.expectedServers ≤ S.card ∧
      ∀ i ∈ S, (i,index,p.cmd) ∈ gathered p.step p.entered as start := by
  have hok := (run_records p.step (fun _ _ => True) p.entered (Counted p)
    (fun held a s h _ => step_counted held a s h) as [] start start_counted
    (along_of_forall _ _ as start (fun _ _ _ => trivial))).tester
  rw [hreturned] at hok
  exact hok hindex

theorem one_returned_agreeOnce : ∃ S ⊆ Finset.range 2, 0 < S.card ∧ (2 : ℤ) ≤ S.card ∧
    ∀ i ∈ S, (i,(1 : ℤ),7) ∈ gathered pair.step pair.entered agreeOnce start :=
  one_returned pair agreeOnce 1 (by decide) (by decide)

end One

end Gopher.RaftLogs
