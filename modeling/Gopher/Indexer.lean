import Gopher.MapOrders
import Gopher.WordCount

/-!
# The index of words

Every file names each of its words once, in the order in which a map is
enumerated, and the files of a word are sorted by name.
-/

set_option autoImplicit false

namespace Gopher.Indexer
open Gopher.ListQueries Gopher.MapOrders Gopher.MapReduce Gopher.WordCount

def marked (words : List GoString) : Map GoString Bool :=
  words.foldl (fun m w => m.insert w true) ∅

def map (isLetter : ℕ → Bool) (it : GoString → Iteration GoString Bool)
    (document value : GoString) : List KeyValue :=
  ((it document).order (marked (fieldsFunc value (fun x => !isLetter x)))).map
    (fun e => ⟨e.1,document⟩)

def entry (values : List GoString) : GoString :=
  itoa values.length++ascii " "++(ascii ",").intercalate values

def reduce (strings : Sorter (fun a b : GoString => ¬b < a)) (_key : GoString)
    (values : List GoString) : GoString :=
  entry (strings.sort values)

def comma : Fin 256 := ⟨44,by decide⟩

theorem entry_eq (values : List GoString) :
    entry values = decimal values.length++[space]++[comma].intercalate values := by
  rw [entry, itoa_eq]
  rfl

noncomputable def documents (isLetter : ℕ → Bool) (disk : GoString → File)
    (filenames : List GoString) (w : GoString) : List GoString :=
  filenames.filter (fun f => 0 < occurrences isLetter (contentOf disk f) w)

theorem lookup_foldl_insert (words : List GoString) (m : Map GoString Bool) (w : GoString) :
    (words.foldl (fun m w => m.insert w true) m).lookup w =
      if w ∈ words then some true else m.lookup w := by
  induction words generalizing m with
  | nil => simp
  | cons v words ih =>
    rw [List.foldl_cons, ih, lookup_insert]
    by_cases hw : w ∈ words
    · simp [hw]
    · simp [hw]

theorem mem_marked (it : Iteration GoString Bool) (words : List GoString) (w : GoString) :
    w ∈ (it.order (marked words)).map Prod.fst ↔ w ∈ words := by
  have hlookup (b : Bool) : (w,b) ∈ it.order (marked words) ↔ w ∈ words ∧ b = true := by
    rw [Iteration.mem_order, marked, lookup_foldl_insert]
    by_cases hw : w ∈ words
    · simp [hw, eq_comm]
    · simp [hw]
  simp [hlookup]

theorem countP_order (it : Iteration GoString Bool) (words : List GoString) (w : GoString) :
    (it.order (marked words)).countP (fun e => e.1 = w) = if w ∈ words then 1 else 0 := by
  have h := (it.nodup_keys (marked words)).count (a := w)
  simp only [mem_marked] at h
  rw [← h, List.count, List.countP_map]
  congr 1
  funext e
  exact (beq_eq_decide _ _).symm

theorem sort_congr (strings : Sorter (fun a b : GoString => ¬b < a)) {l l' : List GoString}
    (h : l.Perm l') : strings.sort l = strings.sort l' := by
  apply List.Perm.eq_of_pairwise _ (strings.sorted l) (strings.sorted l')
    ((strings.perm l).trans (h.trans (strings.perm l').symm))
  intro a b _ _ hab hba
  exact le_antisymm (not_lt.mp hab) (not_lt.mp hba)

section Index

variable (isLetter : ℕ → Bool) (it : GoString → Iteration GoString Bool)

/-- Of one file a word has the name once, or nothing. -/
theorem values_of_file (document value w : GoString) :
    ((map isLetter it document value).filter (fun kv => kv.key = w)).map KeyValue.value =
      if 0 < occurrences isLetter value w then [document] else [] := by
  have hname : ((map isLetter it document value).filter (fun kv => kv.key = w)).map
      KeyValue.value = List.replicate (if 0 < occurrences isLetter value w then 1 else 0)
        document := by
    simp only [← count_fieldsFunc, List.count_pos_iff]
    rw [← countP_order (it document), List.countP_eq_length_filter, map, List.filter_map,
      List.map_map]
    exact List.map_const
  rw [hname]
  split <;> rfl

theorem emitted_eq (disk : GoString → File) (filenames : List GoString) (w : GoString) :
    emitted disk (map isLetter it) filenames w = documents isLetter disk filenames w := by
  rw [emitted, documents]
  induction filenames with
  | nil => rfl
  | cons f filenames ih =>
    rw [List.flatMap_cons, ih, values_of_file, List.filter_cons]
    by_cases hf : 0 < occurrences isLetter (contentOf disk f) w
    · simp [hf]
    · simp [hf]

end Index

/-- There is a line for each word of a file, in increasing order, with the files that have it:
how many, and their names in order, in whatever order the maps are enumerated. -/
theorem index_exact (disk : GoString → File) (isLetter : ℕ → Bool)
    (it : GoString → Iteration GoString Bool) (sorter : Sorter (fun a b => ¬less b a))
    (strings : Sorter (fun a b : GoString => ¬b < a)) (prog plugin : GoString)
    (filenames : List GoString) :
    ∃ words : List GoString, words.Pairwise (· < ·) ∧
      (∀ w, w ∈ words ↔ ∃ f ∈ filenames, (places isLetter (contentOf disk f) w).Nonempty) ∧
      ∀ ofile, (main disk (map isLetter it) (reduce strings) sorter
          (prog::plugin::filenames)).map Output.ofile = .ok ofile ↔
        (filenames ≠ [] ∧ ∀ f ∈ filenames, Readable disk f) ∧
          ofile = words.flatMap (fun w => w++[space]++
            decimal (documents isLetter disk filenames w).length++[space]++
              [comma].intercalate (strings.sort (documents isLetter disk filenames w))++
                [newline]) := by
  have hgroup := callsOf_grouped disk (map isLetter it) sorter filenames
  have hlines : (callsOf disk (map isLetter it) sorter filenames).flatMap
      (fun c => line c.key (reduce strings c.key c.values)) =
        ((callsOf disk (map isLetter it) sorter filenames).map Call.key).flatMap (fun w =>
          w++[space]++decimal (documents isLetter disk filenames w).length++[space]++
            [comma].intercalate (strings.sort (documents isLetter disk filenames w))++
              [newline]) := by
    rw [List.flatMap_map]
    apply List.flatMap_congr
    intro call hcall
    rw [line_eq, reduce, sort_congr strings (hgroup.values call hcall), emitted_eq, entry_eq,
      (strings.perm _).length_eq]
    simp only [List.append_assoc]
  refine ⟨_,hgroup.increasing,?_,?_⟩
  · intro w
    rw [hgroup.keys, emitted_eq, documents, Ne, List.filter_eq_nil_iff]
    simp [occurrences_pos]
  · intro ofile
    rw [← hlines]
    have hmain := main_ok disk (map isLetter it) (reduce strings) sorter prog plugin filenames
    cases hout : main disk (map isLetter it) (reduce strings) sorter
        (prog::plugin::filenames) with
    | error e =>
      rw [hout] at hmain
      constructor
      · intro h
        cases h
      · rintro ⟨hread,-⟩
        cases (hmain _).mpr ⟨hread,rfl⟩
    | ok out =>
      obtain ⟨hread,rfl⟩ := (hmain out).mp hout
      constructor
      · intro h
        cases h
        exact ⟨hread,rfl⟩
      · rintro ⟨-,rfl⟩
        rfl

end Gopher.Indexer
