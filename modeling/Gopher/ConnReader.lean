import Gopher.ByteStream
import Gopher.PrefixFraming
import Gopher.MsgSerializer

/-!
# The framing loop of the connection reader

The socket hands over pieces of a byte stream and then ends, fails or stays
silent. Each turn of the loop reads a head, unpacks it and reads the body it
announces. The loop is compared with the prefix code of packets, for which
the pieces no longer exist. What the reader does after the loop, which is to
stop the connection, is not part of this module.
-/

set_option autoImplicit false

namespace Gopher.ConnReader
open Gopher.ByteStream Gopher.PrefixFraming Gopher.MsgSerializer

structure Req (ι : Type*) where
  conn : ι
  msg : Msg
  deriving DecidableEq, Repr

inductive Ending where
  | eof
  | failed (e : GoError)
  | silent
  deriving DecidableEq, Repr

inductive Exit where
  | readFull (e : GoError)
  | unpack (e : GoError)
  | waiting
  deriving DecidableEq, Repr

inductive Dispatch (ι : Type*) where
  | pushToReqChan (req : Req ι)
  | goUseRoute (req : Req ι)
  deriving DecidableEq, Repr

def Dispatch.req {ι : Type*} : Dispatch ι → Req ι
  | .pushToReqChan r => r
  | .goUseRoute r => r

def dispatch {ι : Type*} (conf : Conf) (r : Req ι) : Dispatch ι :=
  if conf.workerPoolSize > 0 then .pushToReqChan r else .goUseRoute r

/-- `io.ReadFull` on a stream that stops short reports a clean end only when
nothing was read; on a silent stream it does not return. -/
def shortRead (fin : Ending) (got : List UInt8) : Exit :=
  match fin with
  | .eof => .readFull (if got = [] then .eof else .unexpectedEOF)
  | .failed e => .readFull e
  | .silent => .waiting

def readBody (fin : Ending) (m : Msg) (cs : List (List UInt8)) :
    Except Exit (Msg × List (List UInt8)) :=
  if m.len > 0 then
    match readFull m.len.toNat cs with
    | .error got => .error (shortRead fin got)
    | .ok (data,cs) => .ok (m.setData data,cs)
  else .ok (m.setData [],cs)

def readMsg (conf : Conf) (fin : Ending) (cs : List (List UInt8)) :
    Except Exit (Msg × List (List UInt8)) :=
  match readFull getHeadLen cs with
  | .error got => .error (shortRead fin got)
  | .ok (packetHead,cs) =>
    match unpack conf packetHead with
    | .error e => .error (.unpack e)
    | .ok m => readBody fin m cs

def nextMsg (conf : Conf) (s : List UInt8) : Option (Msg × List UInt8) :=
  if s.length < getHeadLen then none
  else match unpack conf (s.take getHeadLen) with
    | .error _ => none
    | .ok m =>
      if (s.drop getHeadLen).length < m.len.toNat then none
      else some (m.setData ((s.drop getHeadLen).take m.len.toNat),
        (s.drop getHeadLen).drop m.len.toNat)

def forget (r : Except Exit (Msg × List (List UInt8))) : Option (Msg × List UInt8) :=
  r.toOption.map (fun p => (p.1,p.2.flatten))

theorem readBody_flat (fin : Ending) (m : Msg) (cs : List (List UInt8)) :
    forget (readBody fin m cs) =
      if cs.flatten.length < m.len.toNat then none
      else some (m.setData (cs.flatten.take m.len.toNat),cs.flatten.drop m.len.toNat) := by
  by_cases hz : m.len > 0
  · by_cases hs : cs.flatten.length < m.len.toNat
    · rw [readBody, if_pos hz, readFull_short _ _ hs, if_pos hs]
      rfl
    · obtain ⟨rest,hr,hf⟩ := readFull_enough m.len.toNat cs (by omega)
      rw [readBody, if_pos hz, hr, if_neg hs, ← hf]
      rfl
  · have hn : m.len.toNat = 0 := by
      have := UInt32.lt_iff_toNat_lt.not.mp hz
      simpa using this
    simp [readBody, hz, hn, forget, Except.toOption]

/-- One turn of the loop depends on the pieces only through their
concatenation. -/
theorem readMsg_flat (conf : Conf) (fin : Ending) (cs : List (List UInt8)) :
    forget (readMsg conf fin cs) = nextMsg conf cs.flatten := by
  by_cases hs : cs.flatten.length < getHeadLen
  · rw [readMsg, readFull_short _ _ hs, nextMsg, if_pos hs]
    rfl
  · obtain ⟨rest,hr,hf⟩ := readFull_enough getHeadLen cs (by omega)
    rw [readMsg, hr, nextMsg, if_neg hs, ← hf]
    cases hu : unpack conf (cs.flatten.take getHeadLen) with
    | error e => simp only [hu]; rfl
    | ok m => simp only [hu, readBody_flat]

def Fits (conf : Conf) (m : Msg) : Prop :=
  m.data.length = m.len.toNat ∧ m.len ≤ conf.maxPacketSize

theorem nextMsg_head (conf : Conf) (len id : UInt32) (tail : List UInt8) :
    nextMsg conf (head len id++tail) =
      if len > conf.maxPacketSize ∨ tail.length < len.toNat then none
      else some ({ len := len, id := id, data := tail.take len.toNat },tail.drop len.toNat) := by
  have hl : ¬(head len id++tail).length < getHeadLen := by simp [getHeadLen]
  have ht : (head len id++tail).take getHeadLen = head len id := List.take_left' (head_length len id)
  have hd : (head len id++tail).drop getHeadLen = tail := List.drop_left' (head_length len id)
  rw [nextMsg, if_neg hl, ht, hd, unpack_head]
  by_cases hm : len > conf.maxPacketSize
  · simp [hm]
  · by_cases hs : tail.length < len.toNat
    · simp [hm, hs]
    · simp [hm, hs, Msg.setData]

theorem nextMsg_iff (conf : Conf) (s : List UInt8) (m : Msg) (r : List UInt8) :
    nextMsg conf s = some (m,r) ↔ Fits conf m ∧ s = packed m++r := by
  constructor
  · intro h
    have hl : ¬s.length < getHeadLen := by
      intro hs
      rw [nextMsg, if_pos hs] at h
      cases h
    obtain ⟨len,id,hh⟩ := head_surjective (s.take 8) (by simp only [getHeadLen] at hl; simp; omega)
    obtain ⟨tail,rfl⟩ : ∃ tail, s = head len id++tail :=
      ⟨s.drop 8,by rw [← hh, List.take_append_drop]⟩
    rw [nextMsg_head] at h
    split_ifs at h with hc
    obtain ⟨rfl,rfl⟩ := Prod.mk.inj (Option.some.inj h)
    simp only [not_or, gt_iff_lt, not_lt] at hc
    refine ⟨⟨by simpa using hc.2,UInt32.not_lt.mp hc.1⟩,?_⟩
    rw [packed_eq, List.append_assoc, List.take_append_drop]
  · rintro ⟨⟨hd,hm⟩,rfl⟩
    have hn : ¬(m.len > conf.maxPacketSize ∨ (m.data++r).length < m.len.toNat) := by
      rw [List.length_append, hd]
      simp only [not_or, gt_iff_lt, not_lt]
      exact ⟨UInt32.not_lt.mpr hm,by omega⟩
    rw [packed_eq, List.append_assoc, nextMsg_head, if_neg hn, List.take_left' hd, List.drop_left' hd]

def tlvCode (conf : Conf) : PrefixCode UInt8 Msg where
  encode := packed
  Carried := Fits conf
  next := nextMsg conf
  next_iff := nextMsg_iff conf
  encode_ne := by
    intro m _ h
    have := congrArg List.length h
    rw [packed_eq, List.length_append, head_length] at this
    simp at this

theorem readMsg_shortens (conf : Conf) (fin : Ending) (cs rest : List (List UInt8)) (m : Msg)
    (h : readMsg conf fin cs = .ok (m,rest)) : rest.flatten.length < cs.flatten.length := by
  apply (tlvCode conf).next_shortens cs.flatten rest.flatten m
  change nextMsg conf cs.flatten = _
  rw [← readMsg_flat conf fin, h]
  rfl

def startReader {ι : Type*} (conf : Conf) (conn : ι) (fin : Ending) (cs : List (List UInt8)) :
    List (Dispatch ι) × Exit :=
  match _h : readMsg conf fin cs with
  | .error e => ([],e)
  | .ok (m,rest) =>
    let (ds,e) := startReader conf conn fin rest
    (dispatch conf { conn := conn, msg := m }::ds,e)
termination_by cs.flatten.length
decreasing_by exact readMsg_shortens conf fin cs rest m _h

theorem startReader_error {ι : Type*} (conf : Conf) (conn : ι) (fin : Ending)
    (cs : List (List UInt8)) (e : Exit) (h : readMsg conf fin cs = .error e) :
    startReader conf conn fin cs = ([],e) := by
  rw [startReader]
  split <;> simp_all

theorem startReader_ok {ι : Type*} (conf : Conf) (conn : ι) (fin : Ending)
    (cs rest : List (List UInt8)) (m : Msg) (h : readMsg conf fin cs = .ok (m,rest)) :
    startReader conf conn fin cs =
      (dispatch conf { conn := conn, msg := m }::(startReader conf conn fin rest).1,
        (startReader conf conn fin rest).2) := by
  rw [startReader]
  split
  · simp_all
  · next m' rest' h' =>
    rw [h] at h'
    obtain ⟨rfl,rfl⟩ := Prod.mk.inj (Except.ok.inj h')
    rfl

/-- The loop computes the decomposition of the bytes into frames. -/
theorem startReader_frames {ι : Type*} (conf : Conf) (conn : ι) (fin : Ending)
    (cs : List (List UInt8)) :
    ∃ ms rest, (startReader conf conn fin cs).1 =
        ms.map (fun m => dispatch conf { conn := conn, msg := m }) ∧
      (tlvCode conf).Frames cs.flatten ms rest := by
  induction hn : cs.flatten.length using Nat.strong_induction_on generalizing cs with
  | _ n ih =>
    have hflat := readMsg_flat conf fin cs
    cases hr : readMsg conf fin cs with
    | error e =>
      rw [hr] at hflat
      refine ⟨[],cs.flatten,?_,(tlvCode conf).frames_nil _ hflat.symm⟩
      rw [startReader_error conf conn fin cs e hr]
      rfl
    | ok p =>
      obtain ⟨m,rest⟩ := p
      rw [hr] at hflat
      have hlt := readMsg_shortens conf fin cs rest m hr
      obtain ⟨ms,tail,hd,hf⟩ := ih rest.flatten.length (by omega) rest rfl
      refine ⟨m::ms,tail,?_,(tlvCode conf).frames_cons _ rest.flatten m ms tail hflat.symm hf⟩
      rw [startReader_ok conf conn fin cs rest m hr, hd]
      rfl

def Stuck (conf : Conf) (rest : List UInt8) : Prop :=
  rest.length < getHeadLen ∨
  ∃ len id tail, rest = head len id++tail ∧
    (len > conf.maxPacketSize ∨ len ≤ conf.maxPacketSize ∧ tail.length < len.toNat)

def Framing (conf : Conf) (s : List UInt8) (ms : List Msg) (rest : List UInt8) : Prop :=
  s = ms.flatMap packed++rest ∧ (∀ m ∈ ms, Fits conf m) ∧ Stuck conf rest

theorem nextMsg_none_iff (conf : Conf) (rest : List UInt8) :
    nextMsg conf rest = none ↔ Stuck conf rest := by
  by_cases hs : rest.length < getHeadLen
  · exact iff_of_true (by rw [nextMsg, if_pos hs]) (Or.inl hs)
  have h8 : (rest.take 8).length = 8 := by simp only [getHeadLen] at hs; simp; omega
  obtain ⟨len,id,hh⟩ := head_surjective (rest.take 8) h8
  obtain ⟨tail,rfl⟩ : ∃ tail, rest = head len id++tail :=
    ⟨rest.drop 8,by rw [← hh, List.take_append_drop]⟩
  rw [nextMsg_head]
  constructor
  · intro h
    refine Or.inr ⟨len,id,tail,rfl,?_⟩
    split_ifs at h with hc
    rcases hc with hc | hc
    · exact Or.inl hc
    · by_cases hm : len > conf.maxPacketSize
      · exact Or.inl hm
      · exact Or.inr ⟨UInt32.not_lt.mp hm,hc⟩
  · rintro (h | ⟨len',id',tail',he,hc⟩)
    · exact absurd h hs
    · obtain ⟨hhead,rfl⟩ := List.append_inj he (by simp)
      obtain ⟨rfl,rfl⟩ := head_injective _ _ _ _ hhead
      exact if_pos (hc.imp_right And.right)

theorem framing_iff (conf : Conf) (s : List UInt8) (ms : List Msg) (rest : List UInt8) :
    Framing conf s ms rest ↔ (tlvCode conf).Frames s ms rest := by
  change _ ↔ (_ ∧ _) ∧ nextMsg conf rest = none
  rw [nextMsg_none_iff, and_assoc]
  rfl

theorem newMsg_fits (conf : Conf) (id : UInt32) (data : List UInt8)
    (h : data.length ≤ conf.maxPacketSize.toNat) : Fits conf (newMsg id data) := by
  have hm := conf.maxPacketSize.toNat_lt
  have hl : (newMsg id data).len.toNat = data.length := by
    rw [newMsg, UInt32.toNat_ofNat', Nat.mod_eq_of_lt (by omega)]
  exact ⟨hl.symm,UInt32.le_iff_toNat_le.mpr (by omega)⟩

/-- The framing is exact: whatever the pieces, the reader dispatches the
unique longest list of packets from the front of the stream, in order and
for its own connection, and nothing of what is left. A concatenation of
packets within the limit is read back as the list that was packed. -/
theorem reader_framing_exact {ι : Type*} (conf : Conf) (conn : ι) (fin : Ending)
    (s : List UInt8) (cs : List (List UInt8)) (hs : cs.flatten = s) :
    (∃ ms rest, (startReader conf conn fin cs).1 =
        ms.map (fun m => dispatch conf { conn := conn, msg := m }) ∧
      Framing conf s ms rest ∧
      (∀ ms' rest', s = ms'.flatMap packed++rest' → (∀ m ∈ ms', Fits conf m) → ms' <+: ms) ∧
      ∀ ms' rest', Framing conf s ms' rest' → ms' = ms ∧ rest' = rest) ∧
    ∀ calls : List (UInt32 × List UInt8),
      (∀ c ∈ calls, c.2.length ≤ conf.maxPacketSize.toNat) →
      s = calls.flatMap (fun c => packed (newMsg c.1 c.2)) →
      (startReader conf conn fin cs).1 =
        calls.map (fun c => dispatch conf { conn := conn, msg := newMsg c.1 c.2 }) := by
  subst hs
  obtain ⟨ms,rest,hd,hf⟩ := startReader_frames conf conn fin cs
  constructor
  · refine ⟨ms,rest,hd,(framing_iff _ _ _ _).mpr hf,?_,?_⟩
    · intro ms' rest' he hm
      exact (tlvCode conf).splits_extend _ ms ms' rest rest' hf ⟨he,hm⟩
    · intro ms' rest' h
      exact (tlvCode conf).frames_unique _ ms ms' rest rest' hf ((framing_iff _ _ _ _).mp h)
  · intro calls hc he
    have hsent : Framing conf cs.flatten (calls.map (fun c => newMsg c.1 c.2)) [] := by
      refine ⟨by rw [he, List.flatMap_map, List.append_nil],?_,Or.inl (by simp [getHeadLen])⟩
      intro m hm
      obtain ⟨c,hcm,rfl⟩ := List.mem_map.mp hm
      exact newMsg_fits conf c.1 c.2 (hc c hcm)
    obtain ⟨rfl,-⟩ := (tlvCode conf).frames_unique _ ms _ rest [] hf ((framing_iff _ _ _ _).mp hsent)
    rw [hd, List.map_map]
    rfl

theorem reader_framing_exact_cut :
    (startReader {} () .eof [[0,0,0],[0,1,0,0,0,2,0],[0,0,2,0,0,0,7],[8]]).1 =
      [.pushToReqChan { conn := (), msg := newMsg 1 [] },
        .pushToReqChan { conn := (), msg := newMsg 2 [7,8] }] :=
  (reader_framing_exact {} () .eof _ _ rfl).2 [(1,[]),(2,[7,8])] (by decide) (by decide)

/-- What a sender may expect of a peer with the same limit: the packet it
produced is read as the message it sent, and the peer goes on at the first
byte after it. -/
def Agrees {ι : Type*} (conf : Conf) (conn : ι) (id : UInt32) (data : List UInt8) : Prop :=
  ∀ packet further fin cs, pack (newMsg id data) = .ok packet → cs.flatten = packet++further →
    ∃ m rest, m.id = id ∧ m.data = data ∧ rest.flatten = further ∧
      startReader conf conn fin cs =
        (dispatch conf { conn := conn, msg := m }::(startReader conf conn fin rest).1,
          (startReader conf conn fin rest).2)

theorem pack_newMsg (id : UInt32) (data : List UInt8) :
    pack (newMsg id data) = .ok (packed (newMsg id data)) := by
  rw [pack_eq, packed_eq]

theorem readMsg_ok_iff (conf : Conf) (fin : Ending) (cs : List (List UInt8)) (m : Msg)
    (r : List UInt8) :
    (∃ rest, readMsg conf fin cs = .ok (m,rest) ∧ rest.flatten = r) ↔
      nextMsg conf cs.flatten = some (m,r) := by
  rw [← readMsg_flat conf fin]
  cases readMsg conf fin cs with
  | error e => simp [forget, Except.toOption]
  | ok p => simp [forget, Except.toOption, Prod.ext_iff, and_assoc]

theorem agrees_of_le {ι : Type*} (conf : Conf) (conn : ι) (id : UInt32) (data : List UInt8)
    (h : data.length ≤ conf.maxPacketSize.toNat) : Agrees conf conn id data := by
  intro packet further fin cs hp hf
  rw [pack_newMsg, Except.ok.injEq] at hp
  subst hp
  have hn := (nextMsg_iff conf cs.flatten _ further).mpr ⟨newMsg_fits conf id data h,hf⟩
  obtain ⟨rest,hr,hrest⟩ := (readMsg_ok_iff conf fin cs _ further).mpr hn
  exact ⟨newMsg id data,rest,rfl,rfl,hrest,startReader_ok conf conn fin cs rest _ hr⟩

theorem dispatch_injective {ι : Type*} (conf : Conf) (r r' : Req ι)
    (h : dispatch conf r = dispatch conf r') : r = r' := by
  have hreq : ∀ q : Req ι, (dispatch conf q).req = q := by
    intro q
    simp only [dispatch]
    split <;> rfl
  rw [← hreq r, h, hreq]

/-- A length over the limit is either refused by the peer or, when it wraps
at `2^32`, read as a shorter message. -/
theorem not_agrees_of_gt {ι : Type*} (conf : Conf) (conn : ι) (id : UInt32) (data : List UInt8)
    (h : conf.maxPacketSize.toNat < data.length) : ¬Agrees conf conn id data := by
  intro ha
  obtain ⟨m,rest,-,hd,-,hs⟩ := ha _ [] .eof [packed (newMsg id data)] (pack_newMsg id data) (by simp)
  cases hr : readMsg conf .eof [packed (newMsg id data)] with
  | error e =>
    rw [startReader_error _ _ _ _ e hr] at hs
    cases hs
  | ok p =>
    obtain ⟨m',rest'⟩ := p
    rw [startReader_ok _ _ _ _ rest' m' hr] at hs
    have hreq := dispatch_injective conf _ _ (List.cons.inj (Prod.mk.inj hs).1).1
    obtain rfl : m' = m := (Req.mk.inj hreq).2
    have hn := (readMsg_ok_iff conf .eof _ m' rest'.flatten).mp ⟨rest',hr,rfl⟩
    obtain ⟨⟨hl,hm⟩,-⟩ := (nextMsg_iff conf _ m' _).mp hn
    have := UInt32.le_iff_toNat_le.mp hm
    rw [hd] at hl
    omega

/-- The sender never looks at the limit, so the two sides agree exactly on
the data that respects it. -/
theorem agrees_iff {ι : Type*} (conf : Conf) (conn : ι) (id : UInt32) (data : List UInt8) :
    Agrees conf conn id data ↔ data.length ≤ conf.maxPacketSize.toNat := by
  constructor
  · intro h
    by_contra hl
    exact not_agrees_of_gt conf conn id data (by omega) h
  · exact agrees_of_le conf conn id data

theorem oversized_not_read : ¬Agrees {} () 200 (List.replicate 4097 0) :=
  not_agrees_of_gt {} () 200 _ (by rw [List.length_replicate]; decide)

end Gopher.ConnReader
