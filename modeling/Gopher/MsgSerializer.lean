import Gopher.LittleEndian

/-!
# Messages and their packets

`Pack` writes the length field, the id and the data; the length field is the
one the message carries, not a recount of the data. `Unpack` reads a head of
two fields and applies the configured limit. Writing to a `bytes.Buffer`
never fails, so the error paths of `Pack` are present and not taken.
-/

set_option autoImplicit false

namespace Gopher.MsgSerializer
open Gopher.LittleEndian

inductive GoError where
  | eof
  | unexpectedEOF
  | text (msg : String)
  deriving DecidableEq, Repr

structure Conf where
  maxConnNum : ℤ := 1024
  maxPacketSize : UInt32 := 4096
  workerPoolSize : UInt32 := 10
  deriving DecidableEq, Repr

structure Msg where
  len : UInt32
  id : UInt32
  data : List UInt8
  deriving DecidableEq, Repr

def newMsg (id : UInt32) (data : List UInt8) : Msg :=
  { len := UInt32.ofNat data.length, id := id, data := data }

def Msg.setData (m : Msg) (data : List UInt8) : Msg := { m with data := data }

inductive Field where
  | uint32 (v : UInt32)
  | bytes (bs : List UInt8)

def Field.wire : Field → List UInt8
  | .uint32 v => putLE 4 v.toNat
  | .bytes bs => bs

def binaryWrite (buf : List UInt8) (f : Field) : Except GoError (List UInt8) :=
  .ok (buf++f.wire)

def binaryRead (bs : List UInt8) : Except GoError (UInt32 × List UInt8) :=
  if bs = [] then .error .eof
  else if bs.length < 4 then .error .unexpectedEOF
  else .ok (UInt32.ofNat (getLE (bs.take 4)),bs.drop 4)

def getHeadLen : ℕ := 8

def pack (m : Msg) : Except GoError (List UInt8) := do
  let buf ← binaryWrite [] (.uint32 m.len)
  let buf ← binaryWrite buf (.uint32 m.id)
  let buf ← binaryWrite buf (.bytes m.data)
  return buf

def overflowText (len : UInt32) : String := "Packet size (" ++ toString len ++ "B) overflow"

def unpack (conf : Conf) (packet : List UInt8) : Except GoError Msg := do
  let (len,rest) ← binaryRead packet
  let (id,_) ← binaryRead rest
  if len > conf.maxPacketSize then
    throw (.text (overflowText len))
  return { len := len, id := id, data := [] }

def packed (m : Msg) : List UInt8 := ((pack m).toOption).getD []

def head (len id : UInt32) : List UInt8 := putLE 4 len.toNat++putLE 4 id.toNat

theorem pack_eq (m : Msg) : pack m = .ok (head m.len m.id++m.data) := by
  simp [pack, binaryWrite, Field.wire, head, bind, Except.bind]

theorem packed_eq (m : Msg) : packed m = head m.len m.id++m.data := by
  simp [packed, pack_eq, Except.toOption]

@[simp] theorem head_length (len id : UInt32) : (head len id).length = 8 := by
  simp [head]

theorem uint32_get_put (v : UInt32) : UInt32.ofNat (getLE (putLE 4 v.toNat)) = v := by
  have hv : v.toNat < 256^4 := v.toNat_lt
  rw [get_put, Nat.mod_eq_of_lt hv, UInt32.ofNat_toNat]

theorem put_uint32_get (bs : List UInt8) (h : bs.length = 4) :
    putLE 4 (UInt32.ofNat (getLE bs)).toNat = bs := by
  have hl := get_lt bs
  rw [h, show 256^4 = 2^32 by norm_num] at hl
  have ht : (UInt32.ofNat (getLE bs)).toNat = getLE bs := by
    rw [UInt32.toNat_ofNat', Nat.mod_eq_of_lt hl]
  rw [ht]
  simpa [h] using put_get bs

theorem read_field (v : UInt32) (rest : List UInt8) :
    binaryRead (putLE 4 v.toNat++rest) = .ok (v,rest) := by
  have hne : putLE 4 v.toNat++rest ≠ [] := by simp [putLE]
  have hl : ¬(putLE 4 v.toNat++rest).length < 4 := by simp
  rw [binaryRead, if_neg hne, if_neg hl, List.take_left' (put_length 4 _),
    List.drop_left' (put_length 4 _), uint32_get_put]

/-- The whole behaviour of `Unpack` on a head: the limit is inclusive and the
message starts without data. -/
theorem unpack_head (conf : Conf) (len id : UInt32) :
    unpack conf (head len id) =
      if len > conf.maxPacketSize then .error (.text (overflowText len))
      else .ok { len := len, id := id, data := [] } := by
  have hid := read_field id []
  rw [List.append_nil] at hid
  simp only [unpack, head, read_field, hid, bind, Except.bind]
  split <;> rfl

/-- Every eight bytes are the head of exactly one length and id. -/
theorem head_surjective (bs : List UInt8) (h : bs.length = 8) :
    ∃ len id, bs = head len id := by
  refine ⟨UInt32.ofNat (getLE (bs.take 4)),UInt32.ofNat (getLE (bs.drop 4)),?_⟩
  rw [head, put_uint32_get _ (by simp [h]), put_uint32_get _ (by simp [h]),
    List.take_append_drop]

theorem head_injective (len id len' id' : UInt32) (h : head len id = head len' id') :
    len = len' ∧ id = id' := by
  obtain ⟨hl,hi⟩ := List.append_inj h (by simp)
  exact ⟨by rw [← uint32_get_put len, hl, uint32_get_put],
    by rw [← uint32_get_put id, hi, uint32_get_put]⟩

end Gopher.MsgSerializer
