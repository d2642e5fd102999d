import Mathlib.Data.List.Basic
import Mathlib.Tactic

/-!
# Fixed-width little-endian numbers

A number is written as a supplied count of base-256 digits, least
significant first. The reader takes whatever digits it is given. Neither
direction assumes that the number fits: what is lost is a multiple of the
capacity of the field.
-/

set_option autoImplicit false

namespace Gopher.LittleEndian

def putLE : ℕ → ℕ → List UInt8
  | 0, _ => []
  | w+1, n => UInt8.ofNat n :: putLE w (n/256)

def getLE : List UInt8 → ℕ
  | [] => 0
  | b::bs => b.toNat+256*getLE bs

@[simp] theorem put_length (w n : ℕ) : (putLE w n).length = w := by
  induction w generalizing n with
  | zero => rfl
  | succ w ih => simp [putLE, ih]

theorem get_put (w n : ℕ) : getLE (putLE w n) = n%256^w := by
  induction w generalizing n with
  | zero => simp [putLE, getLE, Nat.mod_one]
  | succ w ih =>
    rw [putLE, getLE, ih, pow_succ', Nat.mod_mul]
    simp

theorem get_lt (bs : List UInt8) : getLE bs < 256^bs.length := by
  induction bs with
  | nil => simp [getLE]
  | cons b bs ih =>
    have hb : b.toNat < 256 := b.toNat_lt
    rw [getLE, List.length_cons, pow_succ']
    omega

theorem put_get (bs : List UInt8) : putLE bs.length (getLE bs) = bs := by
  induction bs with
  | nil => rfl
  | cons b bs ih =>
    have hb : b.toNat < 256 := b.toNat_lt
    have hd : (b.toNat+256*getLE bs)/256 = getLE bs := by omega
    have hm : UInt8.ofNat (b.toNat+256*getLE bs) = b := by
      apply UInt8.toNat_inj.mp
      rw [UInt8.toNat_ofNat']
      omega
    rw [List.length_cons, putLE, getLE, hd, hm, ih]

end Gopher.LittleEndian
