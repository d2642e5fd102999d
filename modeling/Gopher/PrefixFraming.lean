import Mathlib.Data.List.Basic
import Mathlib.Tactic

/-!
# Framing by a prefix code

A prefix code is given by its encoder, the set of values it may carry and a
reader of one frame from the front of a word. Its law is exact in both
directions: the reader succeeds precisely on an encoded value followed by
anything. The decomposition of a word into frames is then unique, and every
other run of frames from the front is a part of it.
-/

set_option autoImplicit false

namespace Gopher.PrefixFraming

variable {α β : Type*}

structure PrefixCode (α β : Type*) where
  encode : β → List α
  Carried : β → Prop
  next : List α → Option (β × List α)
  next_iff : ∀ s b r, next s = some (b,r) ↔ Carried b ∧ s = encode b++r
  encode_ne : ∀ b, Carried b → encode b ≠ []

namespace PrefixCode

variable (code : PrefixCode α β)

def Splits (s : List α) (bs : List β) (rest : List α) : Prop :=
  s = bs.flatMap code.encode++rest ∧ ∀ b ∈ bs, code.Carried b

def Frames (s : List α) (bs : List β) (rest : List α) : Prop :=
  code.Splits s bs rest ∧ code.next rest = none

theorem frames_nil (s : List α) (h : code.next s = none) : code.Frames s [] s :=
  ⟨⟨by simp,by simp⟩,h⟩

theorem frames_cons (s r : List α) (b : β) (bs : List β) (rest : List α)
    (h : code.next s = some (b,r)) (hr : code.Frames r bs rest) :
    code.Frames s (b::bs) rest := by
  obtain ⟨hb,rfl⟩ := (code.next_iff s b r).mp h
  obtain ⟨⟨rfl,hbs⟩,hn⟩ := hr
  refine ⟨⟨by simp,?_⟩,hn⟩
  intro c hc
  rcases List.mem_cons.mp hc with rfl | hc
  · exact hb
  · exact hbs c hc

theorem next_shortens (s r : List α) (b : β) (h : code.next s = some (b,r)) :
    r.length < s.length := by
  obtain ⟨hb,rfl⟩ := (code.next_iff s b r).mp h
  have := List.length_pos_iff.mpr (code.encode_ne b hb)
  simp only [List.length_append]
  omega

/-- A run of frames from the front is an initial part of the decomposition.
Both lists are read off the same word by the same reader. -/
theorem splits_extend (s : List α) (bs cs : List β) (rest tail : List α)
    (hf : code.Frames s bs rest) (hc : code.Splits s cs tail) : cs <+: bs := by
  induction bs generalizing s cs with
  | nil =>
    cases cs with
    | nil => exact List.prefix_rfl
    | cons c cs =>
      obtain ⟨hs,hcs⟩ := hc
      have hn := (code.next_iff s c (cs.flatMap code.encode++tail)).mpr
        ⟨hcs c (by simp),by rw [hs]; simp⟩
      have he : s = rest := by simpa using hf.1.1
      rw [he, hf.2] at hn
      cases hn
  | cons b bs ih =>
    cases cs with
    | nil => exact List.nil_prefix
    | cons c cs =>
      obtain ⟨⟨hs,hbs⟩,hn⟩ := hf
      obtain ⟨ht,hcs⟩ := hc
      have hb := (code.next_iff s b (bs.flatMap code.encode++rest)).mpr
        ⟨hbs b (by simp),by rw [hs]; simp⟩
      have hc := (code.next_iff s c (cs.flatMap code.encode++tail)).mpr
        ⟨hcs c (by simp),by rw [ht]; simp⟩
      rw [hb] at hc
      obtain ⟨rfl,hrest⟩ := Prod.mk.inj (Option.some.inj hc)
      refine List.cons_prefix_cons.mpr ⟨rfl,ih _ cs ⟨⟨rfl,?_⟩,hn⟩ ⟨hrest,?_⟩⟩
      · exact fun d hd => hbs d (by simp [hd])
      · exact fun d hd => hcs d (by simp [hd])

theorem frames_unique (s : List α) (bs cs : List β) (rest tail : List α)
    (hb : code.Frames s bs rest) (hc : code.Frames s cs tail) : cs = bs ∧ tail = rest := by
  have hcb := code.splits_extend s bs cs rest tail hb hc.1
  have hbc := code.splits_extend s cs bs tail rest hc hb.1
  obtain rfl := hcb.eq_of_length_le hbc.length_le
  exact ⟨rfl,List.append_cancel_left (hc.1.1.symm.trans hb.1.1)⟩

end PrefixCode

end Gopher.PrefixFraming
