import Gopher.StepRuns
import Gopher.SqlStatements
import Gopher.ListQueries

/-!
# Articles and their pages

The service fills in the times of an article, the mapper writes the columns
its statements name, and pages are ordered by one of these columns. The clock
advances before every call. What a `datetime` column keeps of a time is an
argument, as are errors of the database; how the database places rows with
equal times may change from query to query.
-/

set_option autoImplicit false

namespace Gopher.Articles
open Gopher.StepRuns Gopher.KeyedTable Gopher.SqlStatements Gopher.ListQueries

structure Article where
  id : Option ℤ := none
  title : String
  content : String
  image : String
  state : Option ℤ := none
  categoryId : Option ℤ := none
  createUser : Option ℤ := none
  createTime : Option ℕ := none
  updateTime : Option ℕ := none
  deriving DecidableEq, Repr

structure Row where
  id : ℕ
  title : String
  content : String
  image : String
  state : Option ℤ
  categoryId : Option ℤ
  createUser : ℤ
  createTime : ℕ
  updateTime : ℕ
  deriving DecidableEq, Repr

abbrev Rows : Type := Table Row.id

namespace Mapper

def newRow (column : ℕ → ℕ) (article : Article) (user : ℤ) (created updated : ℕ) (id : ℕ) :
    Row where
  id := id
  title := article.title
  content := article.content
  image := article.image
  state := article.state
  categoryId := article.categoryId
  createUser := user
  createTime := column created
  updateTime := column updated

theorem newRow_id (column : ℕ → ℕ) (article : Article) (user : ℤ) (created updated id : ℕ) :
    (newRow column article user created updated id).id = id := rfl

def insertArticle (column : ℕ → ℕ) (fault : Option String) (article : Article) (t : Rows) :
    Except String (ℕ × Rows) := do
  answered fault
  let user ← required "create_user" article.createUser
  let created ← required "create_time" article.createTime
  let updated ← required "update_time" article.updateTime
  return (1,t.create (newRow column article user created updated)
    (newRow_id column article user created updated))

def setColumns (article : Article) (row : Row) : Row :=
  { row with
    title := article.title
    content := article.content
    image := article.image
    state := article.state
    categoryId := article.categoryId }

theorem setColumns_id (article : Article) (row : Row) : (setColumns article row).id = row.id := rfl

def updateArticle (fault : Option String) (article : Article) (t : Rows) :
    Except String (ℕ × Rows) :=
  updateById fault article.id (setColumns article) (setColumns_id article) t

def deleteArticleById (fault : Option String) (id : Option ℤ) (t : Rows) :
    Except String (ℕ × Rows) :=
  deleteById fault id t

end Mapper

def insertArticle (column : ℕ → ℕ) (fault : Option String) (user : Option ℤ) (created updated : ℕ)
    (article : Article) (t : Rows) : Except String (ℕ × Rows) :=
  Mapper.insertArticle column fault { article with
    createUser := user
    createTime := some created
    updateTime := some updated } t

def updateArticle (fault : Option String) (now : ℕ) (article : Article) (t : Rows) :
    Except String (ℕ × Rows) :=
  Mapper.updateArticle fault { article with updateTime := some now } t

def deleteArticleById (fault : Option String) (id : Option ℤ) (t : Rows) :
    Except String (ℕ × Rows) :=
  Mapper.deleteArticleById fault id t

def NotOlder (a b : Row) : Prop := b.updateTime ≤ a.updateTime

def eqIfGiven (v column : Option ℤ) : Bool :=
  match v with
  | none => true
  | some x => column = some x

def selected (categoryId state : Option ℤ) (t : Rows) : List Row :=
  t.rows.filter (fun row => eqIfGiven categoryId row.categoryId && eqIfGiven state row.state)

structure Page where
  total : ℕ
  records : List Row

/-- A page number up to one is the first page, and a negative size no limit. -/
def selectArticlePage (sorter : Sorter NotOlder) (pageNum pageSize : ℤ)
    (categoryId state : Option ℤ) (t : Rows) : Page :=
  let rows := selected categoryId state t
  { total := rows.length
    records :=
      if pageSize < 0 then sorter.sort rows
      else page (if pageNum ≤ 1 then 0 else ((pageNum-1)*pageSize).toNat) pageSize.toNat
        (sorter.sort rows) }

structure State where
  table : Rows
  clock : ℕ
  touched : ℕ → ℕ

inductive Action where
  | insertArticle (pause gap : ℕ) (fault : Option String) (user : Option ℤ) (article : Article)
  | updateArticle (pause : ℕ) (fault : Option String) (article : Article)
  | deleteArticleById (pause : ℕ) (fault : Option String) (id : Option ℤ)
  deriving DecidableEq, Repr

def start : State where
  table := Table.empty Row.id
  clock := 0
  touched := fun _ => 0

def State.put (s : State) (now : ℕ) (key : Option ℕ) (res : Except String (ℕ × Rows)) : State :=
  match res, key with
  | .ok (_,t), some k =>
    { table := t, clock := now, touched := Function.update s.touched k now }
  | .ok (_,t), none => { s with table := t, clock := now }
  | .error _, _ => { s with clock := now }

def step (column : ℕ → ℕ) (a : Action) (s : State) : State :=
  match a with
  | .insertArticle pause gap fault user article =>
    let created := s.clock+pause+1
    let now := created+gap
    s.put now (some s.table.next) (insertArticle column fault user created now article s.table)
  | .updateArticle pause fault article =>
    let now := s.clock+pause+1
    s.put now (keyOf article.id) (updateArticle fault now article s.table)
  | .deleteArticleById pause fault id =>
    s.put (s.clock+pause+1) none (deleteArticleById fault id s.table)

def listed (sorters : ℕ → Sorter NotOlder) (n size : ℕ) (categoryId state : Option ℤ) (t : Rows) :
    List Row :=
  (List.range n).flatMap (fun i =>
    (selectArticlePage (sorters i) (i+1) size categoryId state t).records)

/-- Whatever the page size, the filter and the choices of the database, the
pages list the articles of the filter, the last touched first. -/
def LastTouchedFirst (s : State) : Prop :=
  ∀ (sorters : ℕ → Sorter NotOlder) (n size : ℕ) (categoryId state : Option ℤ), 0 < size →
    (selected categoryId state s.table).length ≤ n*size →
      (listed sorters n size categoryId state s.table).Perm (selected categoryId state s.table) ∧
        (listed sorters n size categoryId state s.table).Pairwise
          (fun a b => s.touched b.id < s.touched a.id)

/-- A new article gets a later time than every other one, and an update goes
to the article whose time is the latest. -/
def Guard (column : ℕ → ℕ) (a : Action) (s : State) : Prop :=
  match a with
  | .insertArticle pause gap fault user _ =>
    fault = none → user ≠ none →
      ∀ row ∈ s.table.rows, row.updateTime < column (s.clock+pause+1+gap)
  | .updateArticle _ fault article =>
    fault = none → ∀ row ∈ s.table.rows, keyOf article.id = some row.id →
      ∀ b ∈ s.table.rows, b.id ≠ row.id → b.updateTime < row.updateTime
  | .deleteArticleById _ _ _ => True

structure Timed (s : State) : Prop where
  past : ∀ row ∈ s.table.rows, s.touched row.id ≤ s.clock
  apart : ∀ a ∈ s.table.rows, ∀ b ∈ s.table.rows, s.touched a.id = s.touched b.id → a = b

def Consistent (s : State) : Prop :=
  ∀ a ∈ s.table.rows, ∀ b ∈ s.table.rows, s.touched a.id < s.touched b.id →
    a.updateTime < b.updateTime

theorem records_eq (sorter : Sorter NotOlder) (i size : ℕ) (categoryId state : Option ℤ)
    (t : Rows) :
    (selectArticlePage sorter (i+1) size categoryId state t).records =
      page (i*size) size (sorter.sort (selected categoryId state t)) := by
  have hsize : ¬((size : ℤ) < 0) := by omega
  have hskip : (if (i : ℤ)+1 ≤ 1 then 0 else (((i : ℤ)+1-1)*size).toNat) = i*size := by
    split_ifs with hi
    · have : i = 0 := by omega
      simp [this]
    · rw [add_sub_cancel_right, ← Nat.cast_mul, Int.toNat_natCast]
  simp only [selectArticlePage, if_neg hsize, hskip, Int.toNat_natCast]

theorem listed_eq (sorters : ℕ → Sorter NotOlder) (n size : ℕ) (categoryId state : Option ℤ)
    (t : Rows) (l : List Row) (hsort : ∀ i, (sorters i).sort (selected categoryId state t) = l)
    (hn : l.length ≤ n*size) : listed sorters n size categoryId state t = l := by
  have hpages : listed sorters n size categoryId state t =
      (List.range n).flatMap (fun i => page (i*size) size l) := by
    simp only [listed, records_eq, hsort]
  rw [hpages, flatMap_page, List.take_of_length_le hn]

theorem selected_sublist (categoryId state : Option ℤ) (t : Rows) :
    (selected categoryId state t).Sublist t.rows := List.filter_sublist

theorem selected_all (t : Rows) : selected none none t = t.rows := by
  simp [selected, eqIfGiven]

theorem listed_of_consistent {s : State} (hi : Timed s) (h : Consistent s) :
    LastTouchedFirst s := by
  intro sorters n size categoryId state _ hn
  have hsub := selected_sublist categoryId state s.table
  have hmem : ∀ a ∈ selected categoryId state s.table, a ∈ s.table.rows := fun a ha => hsub.mem ha
  have hlt : ∀ a ∈ s.table.rows, ∀ b ∈ s.table.rows, NotOlder a b → a ≠ b →
      s.touched b.id < s.touched a.id := by
    intro a ha b hb hab hne
    by_contra hle
    have hlt : s.touched a.id < s.touched b.id :=
      lt_of_le_of_ne (not_lt.mp hle) (fun he => hne (hi.apart a ha b hb he))
    exact absurd (h a ha b hb hlt) (not_lt.mpr hab)
  have hsort : ∀ i, (sorters i).sort (selected categoryId state s.table) =
      (sorters 0).sort (selected categoryId state s.table) := by
    intro i
    apply Sorter.sort_eq
    intro a ha b hb hab hba
    by_contra hne
    have h₁ := hlt a (hmem a ha) b (hmem b hb) hab hne
    have h₂ := hlt b (hmem b hb) a (hmem a ha) hba (fun he => hne he.symm)
    exact absurd h₁ (lt_asymm h₂)
  have hperm := (sorters 0).perm (selected categoryId state s.table)
  have hlist := listed_eq sorters n size categoryId state s.table _ hsort
    (by rw [hperm.length_eq]; exact hn)
  rw [hlist]
  refine ⟨hperm,?_⟩
  have hnd : ((sorters 0).sort (selected categoryId state s.table)).Nodup :=
    hperm.nodup_iff.mpr (hsub.nodup s.table.rows_nodup)
  apply (hnd.and ((sorters 0).sorted _)).imp_of_mem
  intro a b ha hb hab
  exact hlt a (hmem a (hperm.mem_iff.mp ha)) b (hmem b (hperm.mem_iff.mp hb)) hab.2 hab.1

def adverseTest (s : State) (a b : Row) : Bool :=
  b.updateTime < a.updateTime ∨ b.updateTime = a.updateTime ∧ s.touched a.id ≤ s.touched b.id

def adverse (s : State) : Sorter (fun a b => adverseTest s a b = true) :=
  Sorter.merge (adverseTest s)
    (by intro a b c; simp only [adverseTest, decide_eq_true_eq]; omega)
    (by intro a b; simp only [adverseTest, Bool.or_eq_true, decide_eq_true_eq]; omega)

theorem adverse_notOlder (s : State) (a b : Row) (h : adverseTest s a b = true) :
    NotOlder a b := by
  simp only [adverseTest, decide_eq_true_eq] at h
  unfold NotOlder
  omega

theorem consistent_of_listed {s : State} (h : LastTouchedFirst s) : Consistent s := by
  have hone : s.table.rows.length ≤ 1*(s.table.rows.length+1) := by omega
  have hmem := (adverse s).perm s.table.rows
  obtain ⟨-,hpair⟩ := h (fun _ => (adverse s).weaken (adverse_notOlder s)) 1
    (s.table.rows.length+1) none none (Nat.succ_pos _) (by rwa [selected_all])
  rw [listed_eq _ 1 (s.table.rows.length+1) none none s.table ((adverse s).sort s.table.rows)
    (fun _ => by rw [selected_all]; rfl) (by rwa [hmem.length_eq])] at hpair
  have hboth := (hpair.and ((adverse s).sorted s.table.rows)).imp (S := fun a b =>
      (s.touched a.id < s.touched b.id → a.updateTime < b.updateTime) ∧
        (s.touched b.id < s.touched a.id → b.updateTime < a.updateTime)) (by
    intro a b hab
    obtain ⟨hlt,hle⟩ := hab
    simp only [adverseTest, decide_eq_true_eq] at hle
    omega)
  intro a ha b hb hlt
  refine (hboth.forall_of_forall_of_flip ?_ ?_ (hmem.mem_iff.mpr ha) (hmem.mem_iff.mpr hb)).1 hlt
  · intro x _
    omega
  · exact hboth.imp (fun hxy => ⟨hxy.2,hxy.1⟩)

theorem lastTouchedFirst_iff {s : State} (hi : Timed s) :
    LastTouchedFirst s ↔ Consistent s :=
  ⟨consistent_of_listed,listed_of_consistent hi⟩

def State.touch (s : State) (t : Rows) (k now : ℕ) : State :=
  { table := t, clock := now, touched := Function.update s.touched k now }

inductive Effect (column : ℕ → ℕ) (s : State) : Action → State → Prop where
  | idle {a : Action} {now : ℕ} (hnow : s.clock < now) (hg : Guard column a s) :
      Effect column s a { s with clock := now }
  | inserted (pause gap : ℕ) (user : ℤ) (article : Article) (t : Rows) (row : Row)
      (hrow : row.id = s.table.next ∧ row.updateTime = column (s.clock+pause+1+gap))
      (ht : t.rows = s.table.rows++[row]) :
      Effect column s (.insertArticle pause gap none (some user) article)
        (s.touch t s.table.next (s.clock+pause+1+gap))
  | updated (pause : ℕ) (article : Article) (k : ℕ) (hk : keyOf article.id = some k) :
      Effect column s (.updateArticle pause none article)
        (s.touch (s.table.modify k (Mapper.setColumns article) (fun _ h => h)) k (s.clock+pause+1))
  | deleted (pause : ℕ) (id : Option ℤ) (k : ℕ) :
      Effect column s (.deleteArticleById pause none id)
        { table := s.table.remove k, clock := s.clock+pause+1, touched := s.touched }

theorem insert_effect (column : ℕ → ℕ) (s : State) (pause gap : ℕ) (fault : Option String)
    (user : Option ℤ) (article : Article) :
    Effect column s (.insertArticle pause gap fault user article)
      (step column (.insertArticle pause gap fault user article) s) := by
  have hnow : s.clock < s.clock+pause+1+gap := by omega
  cases fault with
  | some err =>
    refine .idle hnow ?_
    intro hf
    cases hf
  | none =>
    cases user with
    | none =>
      refine .idle hnow ?_
      intro _ hu
      exact absurd rfl hu
    | some user => exact .inserted pause gap user article _ _ ⟨rfl,rfl⟩ rfl

theorem update_effect (column : ℕ → ℕ) (s : State) (pause : ℕ) (fault : Option String)
    (article : Article) :
    Effect column s (.updateArticle pause fault article)
      (step column (.updateArticle pause fault article) s) := by
  have hnow : s.clock < s.clock+pause+1 := by omega
  cases fault with
  | some err =>
    refine .idle hnow ?_
    intro hf
    cases hf
  | none =>
    cases hk : keyOf article.id with
    | none =>
      have hstep : step column (.updateArticle pause none article) s =
          { s with clock := s.clock+pause+1 } := by
        simp only [step, updateArticle, Mapper.updateArticle, updateById_unkeyed hk, hk, State.put]
      rw [hstep]
      refine .idle hnow ?_
      intro _ row _ hrow
      simp [hk] at hrow
    | some k =>
      have hstep : step column (.updateArticle pause none article) s =
          s.touch (s.table.modify k (Mapper.setColumns article) (fun _ h => h)) k
            (s.clock+pause+1) := by
        simp only [step, updateArticle, Mapper.updateArticle, updateById_keyed hk, hk, State.put]
        rfl
      rw [hstep]
      exact .updated pause article k hk

theorem delete_effect (column : ℕ → ℕ) (s : State) (pause : ℕ) (fault : Option String)
    (id : Option ℤ) :
    Effect column s (.deleteArticleById pause fault id)
      (step column (.deleteArticleById pause fault id) s) := by
  have hnow : s.clock < s.clock+pause+1 := by omega
  cases fault with
  | some err => exact .idle hnow trivial
  | none =>
    cases hk : keyOf id with
    | none =>
      have hstep : step column (.deleteArticleById pause none id) s =
          { s with clock := s.clock+pause+1 } := by
        simp only [step, deleteArticleById, Mapper.deleteArticleById, deleteById_unkeyed hk,
          State.put]
      rw [hstep]
      exact .idle hnow trivial
    | some k =>
      have hstep : step column (.deleteArticleById pause none id) s =
          { table := s.table.remove k, clock := s.clock+pause+1, touched := s.touched } := by
        simp only [step, deleteArticleById, Mapper.deleteArticleById, deleteById_keyed hk,
          State.put]
      rw [hstep]
      exact .deleted pause id k

theorem step_effect (column : ℕ → ℕ) (a : Action) (s : State) :
    Effect column s a (step column a s) := by
  cases a with
  | insertArticle pause gap fault user article =>
    exact insert_effect column s pause gap fault user article
  | updateArticle pause fault article => exact update_effect column s pause fault article
  | deleteArticleById pause fault id => exact delete_effect column s pause fault id

theorem touch_other {s : State} {t : Rows} {k now : ℕ} {row : Row} (h : row.id ≠ k) :
    (s.touch t k now).touched row.id = s.touched row.id := Function.update_of_ne h ..

theorem touch_same {s : State} {t : Rows} {k now : ℕ} {row : Row} (h : row.id = k) :
    (s.touch t k now).touched row.id = now := by
  rw [h]
  exact Function.update_self ..

section
variable {s : State} {t : Rows} {k now : ℕ} (hnow : s.clock < now)
  (hrest : ∀ row ∈ t.rows, row.id ≠ k → row ∈ s.table.rows)
include hnow hrest

theorem touch_timed (h : Timed s) : Timed (s.touch t k now) := by
  have hold : ∀ row ∈ t.rows, row.id ≠ k → (s.touch t k now).touched row.id < now := by
    intro row hr hk
    rw [touch_other hk]
    exact (h.past row (hrest row hr hk)).trans_lt hnow
  constructor
  · intro row hr
    by_cases hk : row.id = k
    · exact (touch_same hk).le
    · exact (hold row hr hk).le
  · intro a ha b hb he
    by_cases hka : a.id = k <;> by_cases hkb : b.id = k
    · exact t.key_inj ha hb (hka.trans hkb.symm)
    · rw [touch_same hka] at he
      exact absurd he.symm (hold b hb hkb).ne
    · rw [touch_same hkb] at he
      exact absurd he (hold a ha hka).ne
    · rw [touch_other hka, touch_other hkb] at he
      exact h.apart a (hrest a ha hka) b (hrest b hb hkb) he

theorem touch_consistent (hi : Timed s) (h : Consistent s) :
    Consistent (s.touch t k now) ↔
      ∀ row ∈ t.rows, row.id = k → ∀ b ∈ t.rows, b.id ≠ k → b.updateTime < row.updateTime := by
  have hold : ∀ row ∈ t.rows, row.id ≠ k → (s.touch t k now).touched row.id < now := by
    intro row hr hk
    rw [touch_other hk]
    exact (hi.past row (hrest row hr hk)).trans_lt hnow
  constructor
  · intro hc row hr hk b hb hne
    apply hc b hb row hr
    rw [touch_same hk]
    exact hold b hb hne
  · intro hg a ha b hb hlt
    by_cases hka : a.id = k <;> by_cases hkb : b.id = k
    · rw [touch_same hka, touch_same hkb] at hlt
      exact absurd hlt (lt_irrefl _)
    · rw [touch_same hka] at hlt
      exact absurd hlt (lt_asymm (hold b hb hkb))
    · exact hg b hb hkb a ha hka
    · rw [touch_other hka, touch_other hkb] at hlt
      exact h a (hrest a ha hka) b (hrest b hb hkb) hlt

end

theorem inserted_rest {s : State} {t : Rows} {row : Row} (hrow : row.id = s.table.next)
    (ht : t.rows = s.table.rows++[row]) :
    ∀ b ∈ t.rows, b.id ≠ s.table.next → b ∈ s.table.rows := by
  intro b hb hne
  rw [ht] at hb
  rcases List.mem_append.mp hb with hb | hb
  · exact hb
  · exact absurd ((congrArg Row.id (List.mem_singleton.mp hb)).trans hrow) hne

theorem updated_row {t : Rows} {k : ℕ} {article : Article} {b : Row}
    (hb : b ∈ (t.modify k (Mapper.setColumns article) (fun _ h => h)).rows) :
    ∃ a ∈ t.rows, a.id = b.id ∧ a.updateTime = b.updateTime ∧ (b.id ≠ k → a = b) := by
  obtain ⟨a,ha,rfl⟩ := List.mem_map.mp hb
  refine ⟨a,ha,?_⟩
  unfold Table.put
  split_ifs with hk
  · exact ⟨rfl,rfl,fun hne => absurd hk hne⟩
  · exact ⟨rfl,rfl,fun _ => rfl⟩

theorem updated_rest {t : Rows} {k : ℕ} {article : Article} :
    ∀ b ∈ (t.modify k (Mapper.setColumns article) (fun _ h => h)).rows, b.id ≠ k → b ∈ t.rows := by
  intro b hb hne
  obtain ⟨a,ha,-,-,he⟩ := updated_row hb
  exact he hne ▸ ha

theorem row_updated (k : ℕ) (article : Article) {t : Rows} {a : Row} (ha : a ∈ t.rows) :
    ∃ b ∈ (t.modify k (Mapper.setColumns article) (fun _ h => h)).rows,
      b.id = a.id ∧ b.updateTime = a.updateTime := by
  refine ⟨_,List.mem_map_of_mem ha,?_⟩
  unfold Table.put
  split_ifs <;> exact ⟨rfl,rfl⟩

theorem timed_step (column : ℕ → ℕ) (a : Action) (s : State) (h : Timed s) :
    Timed (step column a s) := by
  have heff := step_effect column a s
  generalize step column a s = u at heff
  cases heff with
  | idle hnow _ => exact ⟨fun row hr => (h.past row hr).trans hnow.le,h.apart⟩
  | inserted pause gap user article t row hrow ht =>
    exact touch_timed (by omega) (inserted_rest hrow.1 ht) h
  | updated pause article k hk => exact touch_timed (by omega) updated_rest h
  | deleted pause id k =>
    exact ⟨fun row hr => (h.past row (List.mem_of_mem_filter hr)).trans (by dsimp only; omega),
      fun a ha b hb => h.apart a (List.mem_of_mem_filter ha) b (List.mem_of_mem_filter hb)⟩

/-- One call keeps the column in the order of the calls exactly under the
guard. -/
theorem consistent_step (column : ℕ → ℕ) (a : Action) (s : State) (hi : Timed s)
    (h : Consistent s) : Consistent (step column a s) ↔ Guard column a s := by
  have heff := step_effect column a s
  generalize step column a s = u at heff
  cases heff with
  | idle _ hg => exact iff_of_true h hg
  | inserted pause gap user article t row hrow ht =>
    rw [touch_consistent (by omega) (inserted_rest hrow.1 ht) hi h]
    constructor
    · intro hc _ _ b hb
      rw [← hrow.2]
      refine hc row (by simp [ht]) hrow.1 b (by simp [ht, hb]) ?_
      exact (s.table.used b hb).2.ne
    · intro hg r hr hk b hb hne
      have hlt := hg rfl (by simp) b (inserted_rest hrow.1 ht b hb hne)
      rw [← hrow.2] at hlt
      rwa [t.key_inj hr (by simp [ht] : row ∈ t.rows) (hk.trans hrow.1.symm)]
  | updated pause article k hk =>
    rw [touch_consistent (by omega) updated_rest hi h]
    constructor
    · intro hc _ row hr hid b hb hne
      obtain rfl : k = row.id := Option.some.inj (hk.symm.trans hid)
      obtain ⟨r,hr',hrid,hrtime⟩ := row_updated row.id article hr
      obtain ⟨c,hc',hcid,hctime⟩ := row_updated row.id article hb
      have := hc r hr' hrid c hc' (by rwa [hcid])
      rwa [hrtime, hctime] at this
    · intro hg r hr hrid b hb hne
      obtain ⟨row,hrow,hid,htime,-⟩ := updated_row hr
      have hb' := updated_rest b hb hne
      have := hg rfl row hrow (by rw [hk, hid, hrid]) b hb' (by rwa [hid, hrid])
      rwa [htime] at this
  | deleted pause id k =>
    refine iff_of_true ?_ trivial
    intro a ha b hb
    exact h a (List.mem_of_mem_filter ha) b (List.mem_of_mem_filter hb)

/-- The pages list the last touched article first in every state of a
schedule exactly when every insert is given a later time than all rows have
and every update goes to the row with the latest time. -/
theorem pages_last_touched_first (column : ℕ → ℕ) (as : List Action) :
    Throughout (step column) LastTouchedFirst as start ↔
      Along (step column) (Guard column) as start := by
  apply throughout_iff_along (step column) (Guard column) Timed LastTouchedFirst
  · intro a s hi _
    exact timed_step column a s hi
  · intro a s hi h
    rw [lastTouchedFirst_iff (timed_step column a s hi)]
    exact consistent_step column a s hi ((lastTouchedFirst_iff hi).mp h)
  · exact ⟨nofun,nofun⟩
  · exact listed_of_consistent ⟨nofun,nofun⟩ nofun

def Stamped (column : ℕ → ℕ) (s : State) : Prop :=
  ∀ row ∈ s.table.rows, ∃ time ≤ s.clock, row.updateTime = column time

theorem stamped_step (column : ℕ → ℕ) (a : Action) (s : State) (h : Stamped column s) :
    Stamped column (step column a s) := by
  have heff := step_effect column a s
  generalize step column a s = u at heff
  cases heff with
  | idle hnow _ =>
    intro row hr
    obtain ⟨time,ht,he⟩ := h row hr
    exact ⟨time,ht.trans hnow.le,he⟩
  | inserted pause gap user article t row hrow ht =>
    intro b hb
    by_cases hid : b.id = s.table.next
    · have hnew : b = row := t.key_inj hb (by simp [ht]) (hid.trans hrow.1.symm)
      exact ⟨_,le_refl _,by rw [hnew]; exact hrow.2⟩
    · obtain ⟨time,htime,he⟩ := h b (inserted_rest hrow.1 ht b hb hid)
      exact ⟨time,by simp only [State.touch]; omega,he⟩
  | updated pause article k hk =>
    intro b hb
    obtain ⟨a,ha,-,htime,-⟩ := updated_row hb
    obtain ⟨time,ht,he⟩ := h a ha
    exact ⟨time,by simp only [State.touch]; omega,htime ▸ he⟩
  | deleted pause id k =>
    intro row hr
    obtain ⟨time,ht,he⟩ := h row (List.mem_of_mem_filter hr)
    exact ⟨time,by dsimp only; omega,he⟩

/-- Where the column tells all times apart an insert always meets the guard. -/
theorem insert_guarded (column : ℕ → ℕ) (hcol : StrictMono column) (as : List Action)
    (pause gap : ℕ) (fault : Option String) (user : Option ℤ) (article : Article) :
    Guard column (.insertArticle pause gap fault user article) (run (step column) as start) := by
  have hst := run_keeps (step column) (Stamped column) (stamped_step column) as start nofun
  intro _ _ row hr
  obtain ⟨time,ht,he⟩ := hst row hr
  rw [he]
  exact hcol (by omega)

def draft : Article where
  title := "title"
  content := "content"
  image := "image"

/-- Two articles are inserted and the first of them is updated: it stays
behind the other one. -/
theorem update_not_listed_first :
    ¬LastTouchedFirst (run (step id)
      [.insertArticle 0 0 none (some 1) draft,.insertArticle 0 0 none (some 1) draft,
        .updateArticle 0 none { draft with id := some 1 }] start) := by
  intro h
  have := consistent_of_listed h (Mapper.newRow id draft 1 2 2 2) (by decide)
    (Mapper.newRow id draft 1 1 1 1) (by decide) (by decide)
  revert this
  decide

end Gopher.Articles
