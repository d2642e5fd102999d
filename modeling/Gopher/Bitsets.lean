import Mathlib.Data.Finset.Basic
import Mathlib.Tactic

/-!
# Sets of small numbers as words

Sixty-four numbers share a word. An access to a word that does not exist is an
index out of range. Two bitsets of one size are equal word by word exactly when
they hold the same numbers, and then they have the same hash.
-/

set_option autoImplicit false

namespace Gopher.Bitsets

abbrev Bitset : Type := List (BitVec 64)

def newBitset (bits : ℕ) : Bitset :=
  List.replicate (bits/64+(if bits%64 ≠ 0 then 1 else 0)) 0

def bitsetIndex (pos : ℕ) : ℕ × ℕ := (pos/64,pos%64)

def change (b : Bitset) (major : ℕ) (f : BitVec 64 → BitVec 64) : Option Bitset :=
  b[major]?.map (fun v => List.set b major (f v))

def set (b : Bitset) (pos : ℕ) : Option Bitset :=
  change b (bitsetIndex pos).1 (fun v => v ||| 1#64 <<< (bitsetIndex pos).2)

def clear (b : Bitset) (pos : ℕ) : Option Bitset :=
  change b (bitsetIndex pos).1 (fun v => v &&& ~~~(1#64 <<< (bitsetIndex pos).2))

def popcnt (b : Bitset) : ℕ := b.foldl (fun total v => total+v.cpop.toNat) 0

def hash (b : Bitset) : BitVec 64 := b.foldl (fun h v => h ^^^ v) (BitVec.ofNat 64 (popcnt b))

def equals (b b2 : Bitset) : Bool :=
  b.length == b2.length && (b.zip b2).all (fun p => p.1 == p.2)

def bit (b : Bitset) (pos : ℕ) : Bool := (b.getD (pos/64) 0).getLsbD (pos%64)

structure Represents (n : ℕ) (b : Bitset) (s : Finset ℕ) : Prop where
  length : b.length = (newBitset n).length
  bits : ∀ pos, bit b pos = decide (pos ∈ s)

theorem newBitset_represents (n : ℕ) : Represents n (newBitset n) ∅ := by
  refine ⟨rfl,fun pos => ?_⟩
  have hword : (newBitset n).getD (pos/64) 0 = 0 := by
    rw [List.getD_eq_getElem?_getD, newBitset, List.getElem?_replicate]
    exact (apply_ite (Option.getD · 0) _ _ _).trans (ite_self _)
  rw [bit, hword]
  simp

theorem index_lt {n pos : ℕ} (h : pos < n) : pos/64 < (newBitset n).length := by
  rw [newBitset, List.length_replicate]
  split <;> omega

theorem getLsbD_one_shift {i j : ℕ} (hi : i < 64) :
    (1#64 <<< j).getLsbD i = decide (i = j) := by
  rw [BitVec.getLsbD_shiftLeft, BitVec.getLsbD_one]
  by_cases h : i = j
  · subst h
    simp [hi]
  · simp only [hi, h, decide_true, Bool.true_and, decide_false]
    by_cases hlt : i < j
    · simp [hlt]
    · have : i-j ≠ 0 := by omega
      simp [this]

theorem bit_change {b b' : Bitset} {pos : ℕ} {f : BitVec 64 → BitVec 64}
    (h : change b (pos/64) f = some b') (q : ℕ) :
    bit b' q = if q/64 = pos/64 then (f (b.getD (pos/64) 0)).getLsbD (q%64) else bit b q := by
  obtain ⟨v,hv,rfl⟩ := Option.map_eq_some_iff.mp h
  have hlt := (List.getElem?_eq_some_iff.mp hv).1
  have hword : b.getD (pos/64) 0 = v := by rw [List.getD_eq_getElem?_getD, hv]; rfl
  rw [bit, List.getD_eq_getElem?_getD]
  split
  · rename_i hq
    rw [hq, hword, List.getElem?_set_self hlt]
    rfl
  · rename_i hq
    rw [List.getElem?_set_ne (fun h => hq h.symm), ← List.getD_eq_getElem?_getD, bit]

theorem change_total {b : Bitset} {n pos : ℕ} (hlen : b.length = (newBitset n).length)
    (hpos : pos < n) (f : BitVec 64 → BitVec 64) :
    ∃ b', change b (pos/64) f = some b' ∧ b'.length = b.length := by
  have hlt : pos/64 < b.length := hlen ▸ index_lt hpos
  rw [change, List.getElem?_eq_getElem hlt]
  exact ⟨_,rfl,List.length_set⟩

theorem same_place {p q : ℕ} : q = p ↔ q/64 = p/64 ∧ q%64 = p%64 := by omega

theorem set_represents {n pos : ℕ} {b : Bitset} {s : Finset ℕ} (h : Represents n b s)
    (hpos : pos < n) : ∃ b', set b pos = some b' ∧ Represents n b' (insert pos s) := by
  obtain ⟨b',hb',hlen⟩ :=
    change_total h.length hpos (fun v => v ||| 1#64 <<< (pos%64))
  refine ⟨b',hb',hlen.trans h.length,fun q => ?_⟩
  have hold := h.bits q
  rw [bit_change hb']
  split
  · rename_i hq
    rw [bit, hq] at hold
    rw [BitVec.getLsbD_or, hold, getLsbD_one_shift (Nat.mod_lt q (by decide))]
    simp only [Finset.mem_insert, same_place (p := pos) (q := q), hq, true_and]
    rw [Bool.or_comm, Bool.decide_or]
  · rename_i hq
    have hne : q ≠ pos := fun h => hq (by rw [h])
    rw [hold]
    simp [hne]

theorem clear_represents {n pos : ℕ} {b : Bitset} {s : Finset ℕ} (h : Represents n b s)
    (hpos : pos < n) : ∃ b', clear b pos = some b' ∧ Represents n b' (s.erase pos) := by
  obtain ⟨b',hb',hlen⟩ :=
    change_total h.length hpos (fun v => v &&& ~~~(1#64 <<< (pos%64)))
  refine ⟨b',hb',hlen.trans h.length,fun q => ?_⟩
  have hold := h.bits q
  have hmod : q%64 < 64 := Nat.mod_lt q (by decide)
  rw [bit_change hb']
  split
  · rename_i hq
    rw [bit, hq] at hold
    rw [BitVec.getLsbD_and, hold, BitVec.getLsbD_not, getLsbD_one_shift hmod]
    simp only [Finset.mem_erase, ne_eq, same_place (p := pos) (q := q), hq, true_and, hmod,
      decide_true, Bool.true_and]
    rw [Bool.and_comm, Bool.decide_and, decide_not]
  · rename_i hq
    have hne : q ≠ pos := fun h => hq (by rw [h])
    rw [hold]
    simp [hne]

theorem equals_iff_eq (b b2 : Bitset) : equals b b2 = true ↔ b = b2 := by
  induction b generalizing b2 with
  | nil => cases b2 with
    | nil => simp [equals]
    | cons v b2 => simp [equals]
  | cons v b ih => cases b2 with
    | nil => simp [equals]
    | cons v2 b2 =>
      have htail := ih b2
      simp only [equals, Bool.and_eq_true, beq_iff_eq] at htail
      simp only [equals, List.length_cons, List.zip_cons_cons, List.all_cons, Bool.and_eq_true,
        beq_iff_eq, List.cons.injEq, ← htail, Nat.add_right_cancel_iff]
      tauto

/-- Bitsets of one size are equal exactly when they hold the same numbers. -/
theorem equals_iff {n : ℕ} {b b2 : Bitset} {s s2 : Finset ℕ} (h : Represents n b s)
    (h2 : Represents n b2 s2) : equals b b2 = true ↔ s = s2 := by
  have hlen : b.length = b2.length := h.length.trans h2.length.symm
  rw [equals_iff_eq]
  constructor
  · rintro rfl
    ext pos
    have := (h.bits pos).symm.trans (h2.bits pos)
    simpa using this
  · rintro rfl
    apply List.ext_getElem hlen
    intro i hi hi2
    apply BitVec.eq_of_getLsbD_eq
    intro j hj
    have hbits := (h.bits (64*i+j)).trans (h2.bits (64*i+j)).symm
    have hdiv : (64*i+j)/64 = i := by omega
    have hmod : (64*i+j)%64 = j := by omega
    simpa [bit, hdiv, hmod, List.getD_eq_getElem?_getD, hi, hi2] using hbits

end Gopher.Bitsets
