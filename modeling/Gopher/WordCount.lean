import Mathlib.Data.Set.Card
import Gopher.MapReduce
import Gopher.MaximalRuns

/-!
# The word count

A text is read as a sequence of runes, each at the offset of its first byte;
a byte that starts no valid encoding is a rune of its own. Which runes are
letters is left open.
-/

set_option autoImplicit false

namespace Gopher.WordCount
open Gopher.ListQueries Gopher.MapReduce Gopher.MaximalRuns

/-! ## Runes -/

def runeError : ℕ := 0xFFFD

/-- What a first byte says: the number of bytes that follow, its part of the
rune, and the bounds of the second byte. -/
structure Lead where
  size : ℕ
  payload : ℕ
  low : ℕ
  high : ℕ

def lead (b : ℕ) : Option Lead :=
  if b < 0x80 then some ⟨0,b,0x80,0xBF⟩
  else if b < 0xC2 then none
  else if b < 0xE0 then some ⟨1,b-0xC0,0x80,0xBF⟩
  else if b = 0xE0 then some ⟨2,0,0xA0,0xBF⟩
  else if b = 0xED then some ⟨2,0xD,0x80,0x9F⟩
  else if b < 0xF0 then some ⟨2,b-0xE0,0x80,0xBF⟩
  else if b = 0xF0 then some ⟨3,0,0x90,0xBF⟩
  else if b < 0xF4 then some ⟨3,b-0xF0,0x80,0xBF⟩
  else if b = 0xF4 then some ⟨3,4,0x80,0x8F⟩
  else none

def between (low high : ℕ) (b : Fin 256) : Bool := low ≤ b.val && b.val ≤ high

def decodeRune (b : Fin 256) (rest : GoString) : ℕ × ℕ :=
  match lead b.val with
  | none => (runeError,1)
  | some h =>
    if (rest.take h.size).length = h.size ∧ (rest.take h.size).all (between 0x80 0xBF) ∧
        ((rest.take h.size).take 1).all (between h.low h.high) then
      ((rest.take h.size).foldl (fun r c => r*64+(c.val-0x80)) h.payload,h.size+1)
    else (runeError,1)

def rangeFrom : GoString → ℕ → ℕ → List (ℕ × ℕ)
  | [], _, _ => []
  | _::rest, pos, skip+1 => rangeFrom rest (pos+1) skip
  | b::rest, pos, 0 =>
    ((decodeRune b rest).1,pos)::rangeFrom rest (pos+1) ((decodeRune b rest).2-1)

def range (s : GoString) : List (ℕ × ℕ) := rangeFrom s 0 0

def slice (s : GoString) (start stop : ℕ) : GoString := (s.take stop).drop start

def fieldsFunc (s : GoString) (f : ℕ → Bool) : List GoString :=
  (runs (fun r => !f r) s.length (range s) none).map (fun span => slice s span.1 span.2)

/-! ## The application -/

def map (isLetter : ℕ → Bool) (_filename contents : GoString) : List KeyValue :=
  (fieldsFunc contents (fun r => !isLetter r)).map (fun w => ⟨w,ascii "1"⟩)

def itoa (n : ℕ) : GoString := ascii (toString n)

def reduce (_key : GoString) (values : List GoString) : GoString := itoa values.length

/-! ## Lines of text -/

def space : Fin 256 := ⟨32,by decide⟩

def newline : Fin 256 := ⟨10,by decide⟩

def digit (d : ℕ) : Fin 256 := ⟨(48+d)%256,Nat.mod_lt _ (by decide)⟩

def decimal (n : ℕ) : GoString :=
  if n = 0 then [digit 0] else (Nat.digits 10 n).reverse.map digit

theorem digitChar_byte (d : ℕ) (h : d < 10) : Fin.ofNat 256 (Nat.digitChar d).toNat = digit d := by
  interval_cases d <;> rfl

theorem decimal_step (n : ℕ) (h : 10 ≤ n) : decimal n = decimal (n/10)++[digit (n%10)] := by
  have hn : n ≠ 0 := by omega
  have hq : n/10 ≠ 0 := by omega
  rw [decimal, if_neg hn, decimal, if_neg hq, Nat.digits_eq_cons_digits_div (by decide) hn]
  simp

theorem toDigits_bytes (n : ℕ) :
    (Nat.toDigits 10 n).map (fun c => Fin.ofNat 256 c.toNat) = decimal n := by
  induction n using Nat.strongRecOn with
  | ind n ih =>
    rw [Nat.toDigits_eq_if (by decide)]
    split
    · next h =>
      rw [List.map_singleton, digitChar_byte n h, decimal]
      split
      · next h0 => rw [h0]
      · next h0 => simp [Nat.digits_of_lt 10 n h0 h]
    · next h =>
      rw [List.map_append, List.map_singleton, ih (n/10) (by omega),
        digitChar_byte _ (Nat.mod_lt _ (by decide)), decimal_step n (by omega)]

theorem itoa_eq (n : ℕ) : itoa n = decimal n := by
  rw [itoa, ascii, ← toDigits_bytes, Nat.toString_eq_ofList_toDigits, String.toList_ofList]

theorem line_eq (key output : GoString) : line key output = key++[space]++output++[newline] := rfl

/-! ## Words of a text -/

def runes (s : GoString) : List ℕ := (range s).map Prod.fst

def textAt (s : GoString) (r : ℕ × ℕ) : GoString :=
  slice s (label (range s) s.length r.1) (label (range s) s.length r.2)

def places (isLetter : ℕ → Bool) (s w : GoString) : Set (ℕ × ℕ) :=
  {r | IsRun isLetter (runes s) r.1 r.2 ∧ textAt s r = w}

noncomputable def occurrences (isLetter : ℕ → Bool) (s w : GoString) : ℕ :=
  (places isLetter s w).ncard

def runsOf (isLetter : ℕ → Bool) (s : GoString) : List (ℕ × ℕ) :=
  runs isLetter (runes s).length (runes s).zipIdx none

theorem fieldsFunc_eq (isLetter : ℕ → Bool) (s : GoString) :
    fieldsFunc s (fun r => !isLetter r) = (runsOf isLetter s).map (textAt s) := by
  simp only [fieldsFunc, Bool.not_not]
  rw [runs_eq_map_label, List.map_map]
  rfl

example : fieldsFunc [0xC3,0xA9,0x61,0x2C,0xC3,0x61] (fun r => !(r = 0x61 || r = 0xE9)) =
    [[0xC3,0xA9,0x61],[0x61]] := by decide

theorem places_eq (isLetter : ℕ → Bool) (s w : GoString) :
    places isLetter s w =
      (((runsOf isLetter s).filter (fun r => textAt s r = w)).toFinset : Set (ℕ × ℕ)) := by
  ext ⟨i,j⟩
  simp [places, runsOf, mem_runs]

theorem count_fieldsFunc (isLetter : ℕ → Bool) (s w : GoString) :
    (fieldsFunc s (fun r => !isLetter r)).count w = occurrences isLetter s w := by
  have hnodup : ((runsOf isLetter s).filter (fun r => textAt s r = w)).Nodup :=
    (runs_nodup isLetter (runes s)).filter _
  rw [occurrences, places_eq, Set.ncard_coe_finset, List.toFinset_card_of_nodup hnodup,
    fieldsFunc_eq, List.count, List.countP_map, List.countP_eq_length_filter]
  congr 2
  funext r
  exact beq_eq_decide _ _

theorem emitted_length (isLetter : ℕ → Bool) (disk : GoString → File)
    (filenames : List GoString) (w : GoString) :
    (emitted disk (map isLetter) filenames w).length =
      (filenames.map (fun f => occurrences isLetter (contentOf disk f) w)).sum := by
  rw [emitted, List.length_flatMap]
  congr 2
  funext f
  rw [← count_fieldsFunc, List.length_map, map, List.filter_map, List.length_map, List.count,
    List.countP_eq_length_filter]
  congr 2
  funext v
  exact (beq_eq_decide _ _).symm

theorem occurrences_pos (isLetter : ℕ → Bool) (s w : GoString) :
    0 < occurrences isLetter s w ↔ (places isLetter s w).Nonempty := by
  have hfinite : (places isLetter s w).Finite := by
    rw [places_eq]
    exact Finset.finite_toSet _
  rw [occurrences, Set.ncard_pos hfinite]

/-- The calls of the reduce function are grouped by key, and the file has a line for each: the key,
a space and the result. Of the word count there is a line for each word with the number of its
places in all files, in decimal. -/
theorem reduce_grouped_words_counted (disk : GoString → File)
    (sorter : Sorter (fun a b => ¬less b a)) (prog plugin : GoString)
    (filenames : List GoString) :
    (∀ mapf reducef,
      ((∃ out, main disk mapf reducef sorter (prog::plugin::filenames) = .ok out) ↔
          filenames ≠ [] ∧ ∀ f ∈ filenames, Readable disk f) ∧
        ∀ out, main disk mapf reducef sorter (prog::plugin::filenames) = .ok out →
          Grouped (emitted disk mapf filenames) out.calls ∧
            out.ofile = out.calls.flatMap
              (fun c => c.key++[space]++reducef c.key c.values++[newline])) ∧
      ∀ isLetter out,
        main disk (map isLetter) reduce sorter (prog::plugin::filenames) = .ok out →
          ∃ words : List GoString, words.Pairwise (· < ·) ∧
            (∀ w, w ∈ words ↔ ∃ f ∈ filenames, (places isLetter (contentOf disk f) w).Nonempty) ∧
            out.ofile = words.flatMap (fun w => w++[space]++
              decimal (filenames.map (fun f => occurrences isLetter (contentOf disk f) w)).sum++
                [newline]) := by
  refine ⟨fun mapf reducef => ⟨?_,?_⟩,?_⟩
  · constructor
    · rintro ⟨out,hout⟩
      exact ((main_ok disk mapf reducef sorter prog plugin filenames out).mp hout).1
    · intro h
      exact ⟨_,(main_ok disk mapf reducef sorter prog plugin filenames _).mpr ⟨h,rfl⟩⟩
  · intro out hout
    obtain ⟨-,rfl⟩ := (main_ok disk mapf reducef sorter prog plugin filenames out).mp hout
    exact ⟨callsOf_grouped disk mapf sorter filenames,rfl⟩
  · intro isLetter out hout
    obtain ⟨-,rfl⟩ := (main_ok disk (map isLetter) reduce sorter prog plugin filenames out).mp hout
    have hgroup := callsOf_grouped disk (map isLetter) sorter filenames
    refine ⟨_,hgroup.increasing,?_,?_⟩
    · intro w
      rw [hgroup.keys, ← List.length_pos_iff, emitted_length, List.sum_pos_iff_exists_pos_nat]
      simp [occurrences_pos]
    · rw [List.flatMap_map]
      apply List.flatMap_congr
      intro call hcall
      rw [line_eq, reduce, itoa_eq, (hgroup.values call hcall).length_eq, emitted_length]

end Gopher.WordCount
