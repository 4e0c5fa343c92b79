import Libcat.Sphynx.Cluster
import Libcat.Sphynx.Fragment

/-!
# The writers of the send cluster

`WriteUnreliable`, `WriteACK`, `WriteSendQueueNode`, `Retransmit` and `FlushWrites`, as far as they write
to the cluster and queue datagrams. Each grows the cluster by what it expects to write, and
`ClusterReliableAppend` takes a byte back if the header is short. The generator behind the random
padding and LZ4 are parameters; every datagram that has been queued stays in `outgoing`, and `given` is
the record of what the writers were to write.

- `SendCluster.Holds`: the workspace has the bytes of messages, and the cluster the next id.
- `clusterReliableAppend_spec`: what an append leaves in the cluster.
-/

namespace Libcat.Sphynx

open Window Bytes

structure SendCluster where
  workspace : Nat → u8
  ackId : u32
  bytes : Nat
  stream : Nat
  lossOn : Bool

def SendCluster.clear (c : SendCluster) : SendCluster :=
  { c with bytes := 0, stream := numStreams, lossOn := false }

/-- `SendCluster::Next`: where the new bytes go, and the cluster that has them. -/
def SendCluster.next (c : SendCluster) (addBytes : Nat) : Nat × SendCluster :=
  (c.bytes, { c with bytes := c.bytes + addBytes })

def SendCluster.write (c : SendCluster) (pkt : Nat) (l : List u8) : SendCluster :=
  { c with workspace := store l pkt c.workspace }

structure SendState where
  cluster : SendCluster
  outgoing : List (List u8)
  given : List Message

/-- What the transport is set up with: the size of a payload, LZ4 and the outputs of `rand_pad`. -/
structure SendConfig where
  maxPayloadBytes : Nat
  lz4 : LZ4
  randPad : Nat → u32

/-- `CAT_RAND_PAD_EXP`. -/
def catRandPadExp : List Nat := [
  44, 38, 35, 33, 31, 30, 28, 27, 26, 25, 25, 24, 23, 23, 22, 22, 21, 21, 20,
  20, 20, 19, 19, 18, 18, 18, 17, 17, 17, 17, 16, 16, 16, 16, 15, 15, 15, 15,
  15, 14, 14, 14, 14, 14, 13, 13, 13, 13, 13, 13, 12, 12, 12, 12, 12, 12, 12,
  11, 11, 11, 11, 11, 11, 11, 10, 10, 10, 10, 10, 10, 10, 10, 10, 9, 9, 9, 9,
  9, 9, 9, 9, 9, 9, 8, 8, 8, 8, 8, 8, 8, 8, 8, 8, 8, 7, 7, 7, 7, 7, 7, 7, 7,
  7, 7, 7, 7, 6, 6, 6, 6, 6, 6, 6, 6, 6, 6, 6, 6, 6, 6, 5, 5, 5, 5, 5, 5, 5,
  5, 5, 5, 5, 5, 5, 5, 5, 5, 5, 4, 4, 4, 4, 4, 4, 4, 4, 4, 4, 4, 4, 4, 4, 4,
  4, 4, 4, 3, 3, 3, 3, 3, 3, 3, 3, 3, 3, 3, 3, 3, 3, 3, 3, 3, 3, 3, 3, 2, 2,
  2, 2, 2, 2, 2, 2, 2, 2, 2, 2, 2, 2, 2, 2, 2, 2, 2, 2, 2, 2, 2, 2, 1, 1, 1,
  1, 1, 1, 1, 1, 1, 1, 1, 1, 1, 1, 1, 1, 1, 1, 1, 1, 1, 1, 1, 1, 1, 1, 0, 0,
  0, 0, 0, 0, 0, 0, 0, 0, 0, 0, 0, 0, 0, 0, 0, 0, 0, 0, 0, 0, 0, 0, 0, 0, 0,
  0, 0, 0, 0]

/-- `RandPadDatagram` with the output `rv` of the generator. -/
def randPadDatagram (maxPayloadBytes : Nat) (rv : u32) (data : Nat → u8) (dataBytes : Nat) :
    (Nat → u8) × Nat :=
  let pad := catRandPadExp.getD (rv.setWidth 8 : u8).toNat 0
  let room := maxPayloadBytes - dataBytes
  let pad := if maxPayloadBytes < pad + dataBytes then room else pad
  if pad = 0 then (data, dataBytes)
  else
    (store (hdrNop :: List.replicate (pad - 1) ((rv >>> 13).setWidth 8)) dataBytes data,
      dataBytes + pad)

/-- The packet of a datagram: its bytes or what LZ4 makes of them, and the mark that says which. -/
def packDatagram (lz4 : LZ4) (data : List u8) : List u8 :=
  match lz4.compress data with
  | none => data ++ [0]
  | some compressed => compressed ++ [1]

section Writers

variable (config : SendConfig)

/-- `QueueWriteDatagram`. -/
def queueWriteDatagram (s : SendState) : SendState :=
  let p := randPadDatagram config.maxPayloadBytes (config.randPad s.outgoing.length)
    s.cluster.workspace s.cluster.bytes
  { s with
    cluster := { s.cluster with workspace := p.1 }
    outgoing := s.outgoing ++ [packDatagram config.lz4 (window p.1 0 p.2)] }

/-- Queue the cluster and clear it. -/
def dumpCluster (s : SendState) : SendState :=
  let s := queueWriteDatagram config s
  { s with cluster := s.cluster.clear }

/-- The cluster is dumped if it cannot take `needed` more bytes. -/
def roomFor (needed : Nat) (s : SendState) : SendState :=
  if config.maxPayloadBytes < s.cluster.bytes + needed then dumpCluster config s else s

/-- The end of `FlushWrites`: what is in the cluster is queued. -/
def flushCluster (s : SendState) : SendState :=
  if s.cluster.bytes ≠ 0 then dumpCluster config s else s

/-- `WriteUnreliable`. -/
def writeUnreliable (msgOpcode : u8) (msgData : List u8) (superOpcode : SuperOpcode) (s : SendState) :
    SendState × Bool :=
  let dataBytes := msgData.length + 1
  let headerBytes := if bloMask.toNat < dataBytes then 2 else 1
  let needed := headerBytes + dataBytes
  if config.maxPayloadBytes < needed then (s, false)
  else
    let s := roomFor config needed s
    let (pkt, cluster) := s.cluster.next needed
    let cluster := cluster.write pkt (lengthHeader dataBytes (superOpcode.code <<< sopShift))
    let cluster := cluster.write (pkt + headerBytes) (msgOpcode :: msgData)
    ({ s with cluster, given := s.given ++ [⟨none, superOpcode, msgOpcode :: msgData⟩] }, true)

/-- The message of `WriteACK`, when the fields of the acknowledgement have been written. -/
def writeAckMessage (fields : List u8) (s : SendState) : SendState :=
  let packet := lengthHeader fields.length (SuperOpcode.sopAck.code <<< sopShift) ++ fields
  let s := roomFor config packet.length s
  let (pkt, cluster) := s.cluster.next packet.length
  { s with cluster := cluster.write pkt packet, given := s.given ++ [⟨none, .sopAck, fields⟩] }

/-- The fragment header. -/
def fragmentHeader (fragTotalBytes fragCompBytes : u16) : List u8 :=
  toBytes 2 (fragTotalBytes - 1) ++ toBytes 2 fragCompBytes

/-- `ClusterReliableAppend` to a cluster that has been grown from `pkt` on: the cluster, and the next
id. -/
def clusterReliableAppend (stream : Nat) (ackId : u32) (pkt ackIdOverhead fragOverhead : Nat)
    (cluster : SendCluster) (sop : SuperOpcode) (copySrc : List u8) (fragTotalBytes fragCompBytes : u16) :
    SendCluster × u32 :=
  let dataBytes := copySrc.length + fragOverhead
  let hdr := messageFlags true (decide (ackIdOverhead ≠ 0)) sop
  let header := lengthHeader dataBytes hdr
  -- a header of one byte: the cluster is a byte shorter
  let cluster :=
    if dataBytes ≤ bloMask.toNat then { cluster with bytes := cluster.bytes - 1 } else cluster
  let cluster := cluster.write pkt header
  let pkt := pkt + header.length
  let cluster :=
    if ackIdOverhead ≠ 0 then
      { cluster.write pkt (ackIdField ackIdOverhead stream ackId) with stream := stream }
    else cluster
  let pkt := pkt + ackIdOverhead
  let cluster := { cluster with ackId := ackId + 1 }
  let cluster :=
    if fragOverhead ≠ 0 then cluster.write pkt (fragmentHeader fragTotalBytes fragCompBytes) else cluster
  (cluster.write (pkt + fragOverhead) copySrc, ackId + 1)

/-- The data of a message, with the fragment header if there is one. -/
def fragmentData (fragOverhead : Nat) (fragTotalBytes fragCompBytes : u16) (copySrc : List u8) : List u8 :=
  if fragOverhead ≠ 0 then fragmentHeader fragTotalBytes fragCompBytes ++ copySrc else copySrc

/-- A node of a sent list. Of a fragment it has the bytes of the whole message. -/
structure SentNode where
  id : u32
  sop : SuperOpcode
  data : Nat → u8
  bytes : Nat
  offset : Nat
  fullBytes : Nat
  origBytes : Nat

/-- The bytes that come in front of the data of a node. -/
def SentNode.fragOverhead (node : SentNode) : Nat :=
  if node.sop = .sopFrag ∧ node.offset = 0 then fragHeaderBytes else 0

/-- The data of a node. -/
def SentNode.copySrc (node : SentNode) : List u8 :=
  window node.data (if node.sop = .sopFrag then node.offset else 0) (node.bytes % 2 ^ 16)

/-- The message of a node. -/
def SentNode.message (node : SentNode) (stream : Nat) : Message where
  id := some (stream, node.id)
  sop := node.sop
  data := fragmentData node.fragOverhead (BitVec.ofNat 16 node.fullBytes)
    (BitVec.ofNat 16 node.origBytes) node.copySrc

/-- `Retransmit`. -/
def retransmit (stream : Nat) (node : SentNode) (s : SendState) : SendState :=
  let fragOverhead := node.fragOverhead
  let dataBytes := fragOverhead + node.copySrc.length
  let hdrBytes := if dataBytes ≤ bloMask.toNat then 1 else 2
  let ackIdOverhead :=
    if s.cluster.stream ≠ stream ∨ s.cluster.ackId ≠ node.id then maxAckIdBytes else 0
  let msgBytes := hdrBytes + ackIdOverhead + dataBytes
  let (s, ackIdOverhead, msgBytes) :=
    if config.maxPayloadBytes < s.cluster.bytes + msgBytes then
      (dumpCluster config s, maxAckIdBytes, msgBytes + (maxAckIdBytes - ackIdOverhead))
    else (s, ackIdOverhead, msgBytes)
  let (pkt, cluster) := s.cluster.next msgBytes
  let r := clusterReliableAppend stream node.id pkt ackIdOverhead fragOverhead cluster node.sop
    node.copySrc (BitVec.ofNat 16 node.fullBytes) (BitVec.ofNat 16 node.origBytes)
  { s with cluster := r.1, given := s.given ++ [node.message stream] }

/-! ## `WriteSendQueueNode` -/

/-- A message of a send queue. -/
structure OutgoingMessage where
  data : Nat → u8
  bytes : Nat
  sop : SuperOpcode
  fragCount : Nat
  sentBytes : Nat
  origBytes : Nat

/-- What `WriteSendQueueNode` links into the sent list: the node, or a fragment of it. -/
structure SentEntry where
  id : u32
  frag : Option (Nat × Nat)
  lossOn : Bool
deriving DecidableEq

/-- An entry as `Retransmit` finds it, with the node as it is then. -/
def SentEntry.node (e : SentEntry) (node : OutgoingMessage) : SentNode :=
  match e.frag with
  | none => ⟨e.id, node.sop, node.data, node.bytes, 0, 0, 0⟩
  | some (offset, bytes) => ⟨e.id, .sopFrag, node.data, bytes, offset, node.bytes, node.origBytes⟩

/-- `GetACKIDOverhead`. -/
def getAckIdOverhead (ackId remoteExpected : u32) : Nat :=
  let diff := ackId - remoteExpected
  if diff < 16 then 1 else if diff < 2048 then 2 else 3

/-- The variables of the loop. -/
structure SendLoop where
  s : SendState
  node : OutgoingMessage
  ackId : u32
  ackIdOverhead : Nat
  sentBytes : Nat
  sendLimit : Nat
  fragmented : Bool
  remaining : Int
  sent : List SentEntry

/-- The message would not fit in the room that is left. -/
def SendLoop.tooLong (p : SendLoop) (room : Nat) : Bool :=
  decide (room < maxMessageHeaderBytes + p.ackIdOverhead + p.sendLimit)

/-- Fragmentation begins, unless it has begun before. -/
def SendLoop.startFragments (p : SendLoop) : SendLoop × Nat :=
  if p.fragmented then (p, 0) else ({ p with fragmented := true }, fragHeaderBytes)

/-- `remaining_send_buffer`, an unsigned difference. -/
def remainingSendBuffer (c : SendCluster) : Nat :=
  if c.bytes ≤ config.maxPayloadBytes then config.maxPayloadBytes - c.bytes
  else config.maxPayloadBytes + 2 ^ 32 - c.bytes

/-- The first part of a pass: whether the message is fragmented or the cluster dumped. It ends with the
room that is left and the size of the fragment header, or with the loop if there is no bandwidth
left. -/
def SendLoop.makeRoom (remoteExpected : u32) (p : SendLoop) : SendLoop × Option (Nat × Nat) :=
  let room := remainingSendBuffer config p.s.cluster
  if p.tooLong room then
    if fragThreshold ≤ room then
      let (p, fragOverhead) := p.startFragments
      (p, some (room, fragOverhead))
    else if 0 < p.s.cluster.bytes then
      let remaining := p.remaining - p.s.cluster.bytes
      let p := { p with s := dumpCluster config p.s, remaining }
      if remaining ≤ 0 then (p, none)
      else
        let p := { p with ackIdOverhead := getAckIdOverhead p.ackId remoteExpected }
        let (p, fragOverhead) := if p.tooLong config.maxPayloadBytes then p.startFragments else (p, 0)
        (p, some (config.maxPayloadBytes, fragOverhead))
    else
      let (p, fragOverhead) := p.startFragments
      (p, some (room, fragOverhead))
  else (p, some (room, 0))

/-- `data_bytes_to_copy`: what of the message goes in this pass. -/
def dataBytesToCopy (room overhead ackIdOverhead sendLimit : Nat) : Nat :=
  let writeBytes := min (overhead + sendLimit) room
  let retransmitLimit := subU32 config.maxPayloadBytes (subU32 maxAckIdBytes ackIdOverhead)
  subU32 (min writeBytes retransmitLimit) overhead

/-- One more fragment of the node. With the first one the message is compressed, which changes what is
left to send. -/
def SendLoop.countFragment (p : SendLoop) : SendLoop :=
  if p.fragmented then
    let node := { p.node with fragCount := p.node.fragCount + 1 }
    if p.node.fragCount = 0 then
      match config.lz4.compress (window node.data 0 node.bytes) with
      | none => { p with node := { node with origBytes := node.bytes % 2 ^ 16 } }
      | some dest =>
        { p with
          node := { node with
            data := store dest 0 node.data, bytes := dest.length, origBytes := node.bytes % 2 ^ 16 }
          sendLimit := dest.length }
    else { p with node }
  else p

/-- The second part of a pass: a piece of the message goes into the cluster. -/
def SendLoop.writePiece (stream room fragOverhead : Nat) (p : SendLoop) : SendLoop :=
  let overhead := maxMessageHeaderBytes + p.ackIdOverhead + fragOverhead
  let p := p.countFragment config
  let n := dataBytesToCopy config room overhead p.ackIdOverhead p.sendLimit
  let sop := if p.fragmented then .sopFrag else p.node.sop
  let entry : SentEntry :=
    { id := p.ackId
      frag := if p.fragmented then some (p.sentBytes, n) else none
      lossOn := !p.s.cluster.lossOn }
  let copySrc := window p.node.data p.sentBytes n
  let total := BitVec.ofNat 16 p.node.bytes
  let orig := BitVec.ofNat 16 p.node.origBytes
  let (pkt, cluster) := ({ p.s.cluster with lossOn := true }).next (overhead + n)
  let r := clusterReliableAppend stream p.ackId pkt p.ackIdOverhead fragOverhead cluster sop copySrc
    total orig
  { p with
    s := { p.s with
      cluster := r.1
      given := p.s.given ++
        [⟨some (stream, p.ackId), sop, fragmentData fragOverhead total orig copySrc⟩] }
    ackId := r.2
    ackIdOverhead := 0
    sentBytes := (p.sentBytes + n) % 2 ^ 16
    sendLimit := p.sendLimit - n
    sent := p.sent ++ [entry] }

/-- The loop; `none` when the passes allowed for it do not suffice. -/
def sendLoop (stream : Nat) (remoteExpected : u32) : Nat → SendLoop → Option SendLoop
  | 0, _ => none
  | fuel + 1, p =>
    match p.makeRoom config remoteExpected with
    | (p, none) => some p
    | (p, some (room, fragOverhead)) =>
      let p := p.writePiece config stream room fragOverhead
      if 0 < p.sendLimit then sendLoop stream remoteExpected fuel p else some p

/-- Every pass takes at least a byte of the message, of which there are less than `2 ^ 16` after it has
been compressed. -/
def OutgoingMessage.maxPasses (node : OutgoingMessage) : Nat := 2 ^ 16 + node.bytes + 1

/-- `WriteSendQueueNode`, and whether the node is done. -/
def writeSendQueueNode (stream : Nat) (nextSendId remoteExpected : u32) (node : OutgoingMessage)
    (remaining : Int) (s : SendState) : Option (SendLoop × Bool) :=
  let ackIdOverhead :=
    if s.cluster.ackId ≠ nextSendId ∨ s.cluster.stream ≠ stream then
      getAckIdOverhead nextSendId remoteExpected
    else 0
  let p : SendLoop :=
    { s, node, ackId := nextSendId, ackIdOverhead, sentBytes := node.sentBytes
      sendLimit := node.bytes - node.sentBytes
      fragmented := decide (0 < node.sentBytes), remaining, sent := [] }
  if outOfOrderLimit ≤ (nextSendId - remoteExpected).toNat then some (p, false)
  else
    (sendLoop config stream remoteExpected node.maxPasses p).map fun p =>
      if p.fragmented then
        ({ p with node := { p.node with sentBytes := p.sentBytes } },
          decide (p.node.bytes ≤ p.sentBytes))
      else (p, decide (p.sendLimit = 0))

end Writers

/-! ## What an append leaves in the cluster -/

section Append

theorem Chained.concat {m : ClusterMessage} : ∀ (ms : List ClusterMessage) {next : Option (Nat × u32)},
    Chained next ms →
      (∀ i ∈ m.id, m.overhead = 0 → ms.foldl ClusterMessage.idAfter next = some i) →
        Chained next (ms ++ [m])
  | [], _, _, h => ⟨h, trivial⟩
  | _ :: ms, _, ⟨hid, hms⟩, h => ⟨hid, Chained.concat ms hms h⟩

/-- The workspace has the messages, and the cluster knows the id that comes next. -/
structure SendCluster.Holds (c : SendCluster) (ms : List ClusterMessage) : Prop where
  bytes : window c.workspace 0 c.bytes = ms.flatMap ClusterMessage.encode
  chained : Chained none ms
  next : c.stream < numStreams → ms.foldl ClusterMessage.idAfter none = some (c.stream, c.ackId)

theorem SendCluster.holds_clear (c : SendCluster) : c.clear.Holds [] :=
  ⟨rfl, trivial, fun h => absurd h (Nat.lt_irrefl _)⟩

/-- One more message. -/
theorem SendCluster.Holds.append {c c' : SendCluster} {ms : List ClusterMessage} (h : c.Holds ms)
    {m : ClusterMessage} (hbytes : c'.bytes = c.bytes + m.encode.length)
    (hkept : window c'.workspace 0 c.bytes = window c.workspace 0 c.bytes)
    (hnew : window c'.workspace c.bytes m.encode.length = m.encode)
    (hprev : ∀ i ∈ m.id, m.overhead = 0 → (c.stream, c.ackId) = i)
    (hnext : (c'.stream, c'.ackId) = match m.id with
      | none => (c.stream, c.ackId)
      | some i => (i.1, i.2 + 1)) : c'.Holds (ms ++ [m]) where
  bytes := by
    rw [hbytes, window_add, hkept, h.bytes, Nat.zero_add, hnew, List.flatMap_append,
      List.flatMap_singleton]
  chained := h.chained.concat ms fun i hi h0 => by
    have hlt := m.stream_lt i hi
    rw [← hprev i hi h0] at hlt
    rw [h.next hlt, hprev i hi h0]
  next := fun hlt => by
    rw [List.foldl_append, List.foldl_cons, List.foldl_nil, ClusterMessage.idAfter, hnext]
    cases hid : m.id with
    | none =>
      rw [hid] at hnext
      have hs := congrArg Prod.fst hnext
      dsimp only at hs ⊢
      exact h.next (hs ▸ hlt)
    | some i => rfl

/-- The message that `ClusterReliableAppend` writes. -/
def reliableMessage (stream : Nat) (ackId : u32) (ackIdOverhead : Nat) (sop : SuperOpcode)
    (data : List u8) (hs : stream < numStreams) (ho : ackIdOverhead ≤ maxAckIdBytes)
    (hn : data.length < 2 ^ 11) : ClusterMessage where
  id := some (stream, ackId)
  sop := sop
  data := data
  overhead := ackIdOverhead
  stream_lt := by rintro i ⟨⟩; exact hs
  overhead_le := ho
  unreliable := nofun
  small := hn

theorem length_fragmentHeader (total orig : u16) :
    (fragmentHeader total orig).length = fragHeaderBytes := by
  rw [fragmentHeader, List.length_append, length_toBytes, length_toBytes]
  rfl

theorem length_fragmentData {fragOverhead : Nat} (hf : fragOverhead = 0 ∨ fragOverhead = fragHeaderBytes)
    (total orig : u16) (copySrc : List u8) :
    (fragmentData fragOverhead total orig copySrc).length = copySrc.length + fragOverhead := by
  rcases hf with rfl | rfl
  · rfl
  · rw [fragmentData, if_pos (by decide), List.length_append, length_fragmentHeader, Nat.add_comm]

/-- What `ClusterReliableAppend` leaves in the cluster. -/
theorem clusterReliableAppend_spec {stream ackIdOverhead fragOverhead : Nat} {ackId : u32}
    {c : SendCluster} {sop : SuperOpcode} {copySrc : List u8} {total orig : u16} {m : ClusterMessage}
    (ho : ackIdOverhead ≤ maxAckIdBytes) (hf : fragOverhead = 0 ∨ fragOverhead = fragHeaderBytes)
    (hm : m.toMessage = ⟨some (stream, ackId), sop, fragmentData fragOverhead total orig copySrc⟩)
    (hmo : m.overhead = ackIdOverhead) (pkt : Nat) :
    let r := clusterReliableAppend stream ackId pkt ackIdOverhead fragOverhead c sop copySrc total orig
    r.2 = ackId + 1 ∧ r.1.workspace = store m.encode pkt c.workspace ∧
      r.1.bytes = (if m.data.length ≤ bloMask.toNat then c.bytes - 1 else c.bytes) ∧
      r.1.ackId = ackId + 1 ∧ r.1.stream = if ackIdOverhead ≠ 0 then stream else c.stream := by
  intro r
  have hid : m.id = some (stream, ackId) := congrArg Message.id hm
  have hsop : m.sop = sop := congrArg Message.sop hm
  have hdata : m.data = fragmentData fragOverhead total orig copySrc := congrArg Message.data hm
  have hlen : m.data.length = copySrc.length + fragOverhead := by
    rw [hdata, length_fragmentData hf]
  have hheader : m.header =
      lengthHeader (copySrc.length + fragOverhead) (messageFlags true (decide (ackIdOverhead ≠ 0)) sop) := by
    rw [ClusterMessage.header, ClusterMessage.flags, hlen, hid, hmo, hsop]
    rfl
  have hfield : m.idField = if ackIdOverhead = 0 then [] else ackIdField ackIdOverhead stream ackId := by
    rw [ClusterMessage.idField, hid, hmo]
  have hn : m.idField.length = ackIdOverhead := by
    rw [hfield]
    split
    · exact Eq.symm ‹_›
    · exact length_ackIdField ‹_› ho stream ackId
  refine ⟨rfl, ?_, ?_, ?_, ?_⟩
  · have hall : m.encode = m.header ++ m.idField ++ fragmentData fragOverhead total orig copySrc := by
      rw [ClusterMessage.encode, hdata]
    rw [hall, ← store_append, ← store_append, List.length_append, hn, hheader, hfield]
    rcases hf with rfl | rfl
    · simp only [r, clusterReliableAppend, SendCluster.write, fragmentData,
        apply_ite SendCluster.workspace, ite_self, ne_eq, not_true_eq_false, if_false, Nat.add_zero]
      by_cases h0 : ackIdOverhead = 0
      · simp [h0, store_nil]
      · simp [h0, Nat.add_assoc]
    · simp only [r, clusterReliableAppend, SendCluster.write, fragmentData,
        apply_ite SendCluster.workspace, ite_self, ne_eq, show fragHeaderBytes ≠ 0 by decide,
        not_false_eq_true, if_true, ← store_append, length_fragmentHeader]
      by_cases h0 : ackIdOverhead = 0
      · simp [h0, store_nil, Nat.add_assoc]
      · simp [h0, Nat.add_assoc]
  · rw [hlen]
    simp only [r, clusterReliableAppend, SendCluster.write, apply_ite SendCluster.bytes, ite_self]
  · simp only [r, clusterReliableAppend, SendCluster.write, apply_ite SendCluster.ackId, ite_self]
  · simp only [r, clusterReliableAppend, SendCluster.write, apply_ite SendCluster.stream, ite_self]

end Append

end Libcat.Sphynx
