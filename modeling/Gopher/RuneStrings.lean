import Mathlib.Tactic
import Gopher.WordCount

/-!
# Strings made of runes

The bytes of a slice of runes. What is no scalar value is replaced. Strings of
scalar values are read back as the runes they were made of.
-/

set_option autoImplicit false

namespace Gopher.RuneStrings
open Gopher.MapReduce Gopher.WordCount

def byte (n : ℕ) : Fin 256 := ⟨n%256,Nat.mod_lt n (Nat.succ_pos 255)⟩

def continuation (r : ℕ) : Fin 256 := byte (0x80+r%64)

def threeBytes (r : ℕ) : GoString := [byte (0xE0+r/4096),continuation (r/64),continuation r]

def encodeRune (r : ℕ) : GoString :=
  if r ≤ 0x7F then [byte r]
  else if r ≤ 0x7FF then [byte (0xC0+r/64),continuation r]
  else if 0x10FFFF < r ∨ (0xD800 ≤ r ∧ r ≤ 0xDFFF) then threeBytes runeError
  else if r ≤ 0xFFFF then threeBytes r
  else [byte (0xF0+r/262144),continuation (r/4096),continuation (r/64),continuation r]

def ofRunes (rs : List ℕ) : GoString := rs.flatMap encodeRune

def Scalar (r : ℕ) : Prop := r ≤ 0x10FFFF ∧ ¬(0xD800 ≤ r ∧ r ≤ 0xDFFF)

def Valid (s : GoString) : Prop := ∃ rs, (∀ r ∈ rs, Scalar r) ∧ s = ofRunes rs

/-! ## One rune -/

@[simp] theorem byte_val {n : ℕ} (h : n < 256) : (byte n).val = n := Nat.mod_eq_of_lt h

@[simp] theorem continuation_val (r : ℕ) : (continuation r).val = 0x80+r%64 :=
  byte_val (by omega)

theorem between_continuation (low high r : ℕ) :
    between low high (continuation r) = decide (low ≤ 0x80+r%64 ∧ 0x80+r%64 ≤ high) := by
  rw [between, continuation_val, Bool.decide_and]

theorem lead_two {q : ℕ} (hlow : 2 ≤ q) (hhigh : q < 32) :
    lead (0xC0+q) = some ⟨1,q,0x80,0xBF⟩ := by
  interval_cases q <;> rfl

theorem lead_three {q : ℕ} (hq : q < 16) :
    lead (0xE0+q) =
      some ⟨2,q,if q = 0 then 0xA0 else 0x80,if q = 13 then 0x9F else 0xBF⟩ := by
  interval_cases q <;> rfl

theorem lead_four {q : ℕ} (hq : q < 5) :
    lead (0xF0+q) =
      some ⟨3,q,if q = 0 then 0x90 else 0x80,if q = 4 then 0x8F else 0xBF⟩ := by
  interval_cases q <;> rfl

theorem decodeRune_continuations {b : Fin 256} {h : Lead} (cs : List ℕ) (rest : GoString)
    (hlead : lead b.val = some h) (hsize : h.size = cs.length)
    (hsecond : ∀ c ∈ cs.take 1, h.low ≤ 0x80+c%64 ∧ 0x80+c%64 ≤ h.high) :
    decodeRune b (cs.map continuation++rest) =
      (cs.foldl (fun r c => r*64+c%64) h.payload,cs.length+1) := by
  have htake : (cs.map continuation++rest).take h.size = cs.map continuation :=
    List.take_left' (by rw [List.length_map, hsize])
  have hall : (cs.map continuation).all (between 0x80 0xBF) = true := by
    rw [List.all_map, List.all_eq_true]
    intro c _
    simp only [Function.comp, between_continuation, decide_eq_true_eq]
    omega
  have hnext : ((cs.map continuation).take 1).all (between h.low h.high) = true := by
    rw [← List.map_take, List.all_map, List.all_eq_true]
    intro c hc
    simpa only [Function.comp, between_continuation, decide_eq_true_eq] using hsecond c hc
  rw [decodeRune, hlead]
  dsimp only
  rw [htake, if_pos ⟨by rw [List.length_map, hsize],hall,hnext⟩, List.foldl_map, hsize]
  simp only [continuation_val, Nat.add_sub_cancel_left]

/-- The bytes of a scalar value are read back as the value. -/
theorem decodeRune_encodeRune {r : ℕ} (hr : Scalar r) (rest : GoString) :
    ∃ b bs, encodeRune r = b::bs ∧ decodeRune b (bs++rest) = (r,bs.length+1) := by
  obtain ⟨hmax,hsurrogate⟩ := hr
  unfold encodeRune
  split_ifs with h1 h2 h3 h4
  · have hlead : lead (byte r).val = some ⟨0,r,0x80,0xBF⟩ := by
      rw [byte_val (by omega)]
      exact if_pos (by omega)
    exact ⟨_,_,rfl,decodeRune_continuations [] rest hlead rfl (by simp)⟩
  · have hlead : lead (byte (0xC0+r/64)).val = some ⟨1,r/64,0x80,0xBF⟩ := by
      rw [byte_val (by omega), lead_two (by omega) (by omega)]
    refine ⟨_,_,rfl,(decodeRune_continuations [r] rest hlead rfl ?_).trans ?_⟩
    · simp
      omega
    · simp
      omega
  · exact absurd h3 (by omega)
  · have hlead := lead_three (show r/4096 < 16 by omega)
    rw [← byte_val (show 0xE0+r/4096 < 256 by omega)] at hlead
    refine ⟨_,_,rfl,(decodeRune_continuations [r/64,r] rest hlead rfl ?_).trans ?_⟩
    · simp
      split_ifs <;> omega
    · simp
      omega
  · have hlead := lead_four (show r/262144 < 5 by omega)
    rw [← byte_val (show 0xF0+r/262144 < 256 by omega)] at hlead
    refine ⟨_,_,rfl,(decodeRune_continuations [r/4096,r/64,r] rest hlead rfl ?_).trans ?_⟩
    · simp
      split_ifs <;> omega
    · simp
      omega

/-! ## Slices of runes -/

theorem rangeFrom_skip (bs rest : GoString) (pos : ℕ) :
    rangeFrom (bs++rest) pos bs.length = rangeFrom rest (pos+bs.length) 0 := by
  induction bs generalizing pos with
  | nil => rfl
  | cons b bs ih =>
    rw [List.cons_append, List.length_cons, rangeFrom, ih, Nat.add_assoc, Nat.add_comm 1]

theorem rangeFrom_ofRunes (rs : List ℕ) (hrs : ∀ r ∈ rs, Scalar r) (pos : ℕ) :
    (rangeFrom (ofRunes rs) pos 0).map Prod.fst = rs := by
  induction rs generalizing pos with
  | nil => rfl
  | cons r rs ih =>
    obtain ⟨b,bs,hbytes,hdecode⟩ := decodeRune_encodeRune (hrs r List.mem_cons_self) (ofRunes rs)
    have hsplit : ofRunes (r::rs) = b::(bs++ofRunes rs) := by
      rw [ofRunes, List.flatMap_cons, hbytes]
      rfl
    rw [hsplit, rangeFrom, hdecode, Nat.add_sub_cancel, rangeFrom_skip, List.map_cons,
      ih (fun r' hr' => hrs r' (List.mem_cons_of_mem r hr'))]

/-- The runes of a string of scalar values are the values it was made of. -/
theorem runes_ofRunes {rs : List ℕ} (hrs : ∀ r ∈ rs, Scalar r) : runes (ofRunes rs) = rs :=
  rangeFrom_ofRunes rs hrs 0

theorem Valid.scalar {s : GoString} (h : Valid s) : ∀ r ∈ runes s, Scalar r := by
  obtain ⟨rs,hrs,rfl⟩ := h
  rwa [runes_ofRunes hrs]

theorem ofRunes_inj {rs rs' : List ℕ} (h : ∀ r ∈ rs, Scalar r) (h' : ∀ r ∈ rs', Scalar r)
    (heq : ofRunes rs = ofRunes rs') : rs = rs' := by
  rw [← runes_ofRunes h, heq, runes_ofRunes h']

end Gopher.RuneStrings
