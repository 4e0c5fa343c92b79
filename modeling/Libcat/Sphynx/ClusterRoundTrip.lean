import Libcat.Sphynx.ClusterWriters

/-!
# The round trip of a datagram

Any run of the writers against the loop of `OnTransportDatagrams`. `SendState.Sound` says that what the
writers were given is in the queued packets and in the cluster; each writer keeps it, `Retransmit` if
its message has more than seven bytes. A packet that is sound is read as the messages that went into it.
-/

namespace Libcat.Sphynx

open Window Bytes

section Sound

variable {config : SendConfig} {s : SendState} {done : List (List ClusterMessage)}
  {cur : List ClusterMessage}

/-- A packet has the bytes of messages that are chained, and padding behind them. -/
def PacketOf (config : SendConfig) (pkt : List u8) (ms : List ClusterMessage) : Prop :=
  Chained none ms ∧ ∃ padding : List u8, (∀ x ∈ padding.head?, x = hdrNop) ∧
    (ms.flatMap ClusterMessage.encode ++ padding).length ≤ config.maxPayloadBytes ∧
    pkt = packDatagram config.lz4 (ms.flatMap ClusterMessage.encode ++ padding)

/-- What the writers were given is in the packets and in the cluster. -/
structure SendState.Sound (config : SendConfig) (s : SendState) (done : List (List ClusterMessage))
    (cur : List ClusterMessage) : Prop where
  cluster : s.cluster.Holds cur
  fits : s.cluster.bytes ≤ config.maxPayloadBytes
  outgoing : List.Forall₂ (PacketOf config) s.outgoing done
  given : s.given = (done.flatten ++ cur).map ClusterMessage.toMessage

theorem SendCluster.Holds.length {c : SendCluster} (h : c.Holds cur) :
    (cur.flatMap ClusterMessage.encode).length = c.bytes := by
  rw [← h.bytes, length_window]

/-- The padding starts with a no-op and stays within the payload. -/
theorem randPadDatagram_spec {maxPayloadBytes dataBytes : Nat} (hle : dataBytes ≤ maxPayloadBytes)
    (rv : u32) (data : Nat → u8) :
    ∃ padding : List u8, (∀ x ∈ padding.head?, x = hdrNop) ∧
      (randPadDatagram maxPayloadBytes rv data dataBytes).2 = dataBytes + padding.length ∧
      dataBytes + padding.length ≤ maxPayloadBytes ∧
      (randPadDatagram maxPayloadBytes rv data dataBytes).1 = store padding dataBytes data := by
  unfold randPadDatagram
  dsimp only
  generalize catRandPadExp.getD (rv.setWidth 8 : u8).toNat 0 = pad
  have hpad : (if maxPayloadBytes < pad + dataBytes then maxPayloadBytes - dataBytes else pad) +
      dataBytes ≤ maxPayloadBytes := by split <;> omega
  generalize (if maxPayloadBytes < pad + dataBytes then maxPayloadBytes - dataBytes else pad) = pad
    at hpad ⊢
  by_cases h0 : pad = 0
  · rw [if_pos h0]
    exact ⟨[], nofun, rfl, hle, (store_nil _ _).symm⟩
  · have hlen : (hdrNop :: List.replicate (pad - 1) ((rv >>> 13).setWidth 8)).length = pad := by
      rw [List.length_cons, List.length_replicate]
      omega
    rw [if_neg h0]
    refine ⟨_, by rintro x ⟨⟩; rfl, ?_, ?_, rfl⟩
    · rw [hlen]
    · rw [hlen]
      omega

/-- The cluster becomes a packet. -/
theorem SendState.Sound.dump (h : s.Sound config done cur) :
    (dumpCluster config s).Sound config (done ++ [cur]) [] := by
  obtain ⟨padding, hhead, hbytes, hle, hstore⟩ := randPadDatagram_spec h.fits
    (config.randPad s.outgoing.length) s.cluster.workspace
  refine ⟨SendCluster.holds_clear _, Nat.zero_le _, ?_, ?_⟩
  · refine List.rel_append h.outgoing (.cons ⟨h.cluster.chained, padding, hhead, ?_, ?_⟩ .nil)
    · rw [List.length_append, h.cluster.length]
      exact hle
    · rw [hbytes, hstore, window_store_end, h.cluster.bytes]
  · show s.given = _
    rw [h.given, List.append_nil, List.flatten_append, List.flatten_singleton]

/-- There is room for what is needed. -/
theorem SendState.Sound.room (h : s.Sound config done cur) {needed : Nat}
    (hneeded : needed ≤ config.maxPayloadBytes) :
    ∃ done' cur', (roomFor config needed s).Sound config done' cur' ∧
      (roomFor config needed s).cluster.bytes + needed ≤ config.maxPayloadBytes := by
  rw [roomFor]
  split
  · exact ⟨_, _, h.dump, by rw [show (dumpCluster config s).cluster.bytes = 0 from rfl]; omega⟩
  · exact ⟨done, cur, h, by omega⟩

/-- One more message in the cluster. -/
theorem SendState.Sound.append (h : s.Sound config done cur) {m : ClusterMessage} {c' : SendCluster}
    (hfit : s.cluster.bytes + m.encode.length ≤ config.maxPayloadBytes)
    (hbytes : c'.bytes = s.cluster.bytes + m.encode.length)
    (hstore : c'.workspace = store m.encode s.cluster.bytes s.cluster.workspace)
    (hprev : ∀ i ∈ m.id, m.overhead = 0 → (s.cluster.stream, s.cluster.ackId) = i)
    (hnext : (c'.stream, c'.ackId) = match m.id with
      | none => (s.cluster.stream, s.cluster.ackId)
      | some i => (i.1, i.2 + 1)) :
    ({ s with cluster := c', given := s.given ++ [m.toMessage] } : SendState).Sound config done
      (cur ++ [m]) where
  cluster := h.cluster.append hbytes (by rw [hstore, window_store_prefix])
    (by rw [hstore, window_store]) hprev hnext
  fits := hbytes ▸ hfit
  outgoing := h.outgoing
  given := by
    show s.given ++ [m.toMessage] = _
    simp only [h.given, List.map_append, List.map_singleton, List.append_assoc]

/-- An unreliable message. -/
def unreliableMessage (sop : SuperOpcode) (data : List u8)
    (h0 : sop ≠ .sopInternal ∨ 0 < data.length) (hn : data.length < 2 ^ 11) : ClusterMessage where
  id := none
  sop := sop
  data := data
  overhead := 0
  stream_lt := nofun
  overhead_le := Nat.zero_le _
  unreliable := fun _ => ⟨rfl, h0⟩
  small := hn

theorem unreliableMessage_encode {sop : SuperOpcode} {data : List u8}
    (h0 : sop ≠ .sopInternal ∨ 0 < data.length) (hn : data.length < 2 ^ 11) :
    (unreliableMessage sop data h0 hn).encode =
      lengthHeader data.length (sop.code <<< sopShift) ++ data := by
  have hflags : messageFlags false false sop = sop.code <<< sopShift := by
    cases sop <;> rfl
  rw [ClusterMessage.encode, ← hflags]
  exact congrArg (· ++ data) (List.append_nil _)

/-- A message that is written as a whole into a cluster that has room for it. -/
theorem SendState.Sound.whole (h : s.Sound config done cur) {m : ClusterMessage} {c' : SendCluster}
    (hfit : s.cluster.bytes + m.encode.length ≤ config.maxPayloadBytes) (hid : m.id = none)
    (hc : c' = { s.cluster with
      bytes := s.cluster.bytes + m.encode.length
      workspace := store m.encode s.cluster.bytes s.cluster.workspace }) :
    ({ s with cluster := c', given := s.given ++ [m.toMessage] } : SendState).Sound config done
      (cur ++ [m]) := by
  subst hc
  exact h.append hfit rfl rfl (by rw [hid]; exact nofun) (by rw [hid])

/-- `WriteUnreliable` puts its message into the cluster, or the message is too long. -/
theorem SendState.Sound.writeUnreliable (h : s.Sound config done cur)
    (hmax : config.maxPayloadBytes < 2 ^ 11) (msgOpcode : u8) (msgData : List u8) (sop : SuperOpcode) :
    ∃ done' cur', (writeUnreliable config msgOpcode msgData sop s).1.Sound config done' cur' := by
  have hlen : (if bloMask.toNat < msgData.length + 1 then 2 else 1) =
      (lengthHeader (msgData.length + 1) (sop.code <<< sopShift)).length := by
    rw [length_lengthHeader]
    split <;> split <;> omega
  rw [Sphynx.writeUnreliable, hlen]
  dsimp only
  by_cases hneeded : config.maxPayloadBytes <
      (lengthHeader (msgData.length + 1) (sop.code <<< sopShift)).length + (msgData.length + 1)
  · rw [if_pos hneeded]
    exact ⟨done, cur, h⟩
  · rw [if_neg hneeded]
    obtain ⟨done', cur', hroom, hfit⟩ := h.room (Nat.not_lt.mp hneeded)
    have hn : (msgOpcode :: msgData).length < 2 ^ 11 := by
      rw [List.length_cons]
      omega
    let m := unreliableMessage sop (msgOpcode :: msgData)
      (.inr (List.length_pos_of_mem List.mem_cons_self)) hn
    have hencode : m.encode = _ := unreliableMessage_encode _ hn
    have hbytes : m.encode.length =
        (lengthHeader (msgData.length + 1) (sop.code <<< sopShift)).length + (msgData.length + 1) := by
      rw [hencode, List.length_append]
      rfl
    refine ⟨done', _, hroom.whole (m := m) (by rw [hbytes]; exact hfit) rfl ?_⟩
    rw [hbytes, hencode, ← store_append]
    rfl

/-- `WriteACK` does so with its fields. -/
theorem SendState.Sound.writeAckMessage (h : s.Sound config done cur)
    (hmax : config.maxPayloadBytes < 2 ^ 11) {fields : List u8}
    (hfields : fields.length + maxMessageHeaderBytes ≤ config.maxPayloadBytes) :
    ∃ done' cur', (writeAckMessage config fields s).Sound config done' cur' := by
  have hn : fields.length < 2 ^ 11 := by omega
  let m := unreliableMessage .sopAck fields (.inl (by decide)) hn
  have hencode : m.encode = _ := unreliableMessage_encode _ hn
  have hheader := length_lengthHeader fields.length (SuperOpcode.sopAck.code <<< sopShift)
  have hneeded : (lengthHeader fields.length (SuperOpcode.sopAck.code <<< sopShift) ++ fields).length ≤
      config.maxPayloadBytes := by
    rw [maxMessageHeaderBytes] at hfields
    rw [List.length_append, hheader]
    split <;> omega
  obtain ⟨done', cur', hroom, hfit⟩ := h.room hneeded
  rw [← hencode] at hroom hfit
  refine ⟨done', cur' ++ [m], ?_⟩
  rw [Sphynx.writeAckMessage]
  dsimp only
  rw [← hencode]
  exact hroom.whole (m := m) hfit rfl rfl

theorem length_encode (m : ClusterMessage) :
    m.encode.length = (if m.data.length ≤ bloMask.toNat then 1 else 2) +
      (if m.id = none then 0 else m.overhead) + m.data.length := by
  have hfield : m.idField.length = if m.id = none then 0 else m.overhead := by
    rw [ClusterMessage.idField]
    cases m.id with
    | none => rfl
    | some i =>
      dsimp only
      rw [if_neg (Option.some_ne_none i)]
      split
      · exact Eq.symm ‹_›
      · exact length_ackIdField ‹_› m.overhead_le _ _
  rw [ClusterMessage.encode, List.length_append, List.length_append, ClusterMessage.header,
    length_lengthHeader, hfield]

/-- `ClusterReliableAppend` to a cluster that has grown by what the message takes, and by one byte more
if its header is short. -/
theorem SendState.Sound.reliable (h : s.Sound config done cur) {stream ackIdOverhead fragOverhead : Nat}
    (ackId : u32) (sop : SuperOpcode) (copySrc : List u8) (total orig : u16)
    (hs : stream < numStreams) (ho : ackIdOverhead ≤ maxAckIdBytes)
    (hf : fragOverhead = 0 ∨ fragOverhead = fragHeaderBytes) (hmax : config.maxPayloadBytes < 2 ^ 11)
    (hprev : ackIdOverhead = 0 → s.cluster.stream = stream ∧ s.cluster.ackId = ackId) (lossOn : Bool)
    (hfit : s.cluster.bytes + maxMessageHeaderBytes + ackIdOverhead + fragOverhead + copySrc.length ≤
      config.maxPayloadBytes) :
    let r := clusterReliableAppend stream ackId s.cluster.bytes ackIdOverhead fragOverhead
      { s.cluster with
        lossOn := lossOn
        bytes := s.cluster.bytes +
          (maxMessageHeaderBytes + ackIdOverhead + fragOverhead + copySrc.length) } sop copySrc total orig
    r.2 = ackId + 1 ∧ r.1.stream = stream ∧ r.1.ackId = ackId + 1 ∧
      ∃ cur', ({ s with
        cluster := r.1
        given := s.given ++
          [⟨some (stream, ackId), sop, fragmentData fragOverhead total orig copySrc⟩] } :
        SendState).Sound config done cur' := by
  intro r
  have hdata := length_fragmentData hf total orig copySrc
  let m := reliableMessage stream ackId ackIdOverhead sop
    (fragmentData fragOverhead total orig copySrc) hs ho (by omega)
  obtain ⟨hid, hstore, hbytes, hack, hstream⟩ := clusterReliableAppend_spec ho hf
    (show m.toMessage = _ from rfl) rfl s.cluster.bytes
  have hencode := length_encode m
  have hmdata : m.data.length = copySrc.length + fragOverhead := hdata
  have hmid : (if m.id = none then 0 else m.overhead) = ackIdOverhead := rfl
  rw [hmid, hmdata] at hencode
  rw [hmdata] at hbytes
  rw [maxMessageHeaderBytes] at hfit
  have hstream' : r.1.stream = stream := by
    rw [hstream]
    split
    · rfl
    · next h0 => exact (hprev (not_not.mp h0)).1
  refine ⟨hid, hstream', hack, cur ++ [m], h.append (m := m) ?_ ?_ hstore ?_ ?_⟩
  · rw [hencode]
    split <;> omega
  · rw [hbytes, hencode, maxMessageHeaderBytes]
    dsimp only
    split <;> omega
  · rintro i ⟨⟩ h0
    rw [(hprev h0).1, (hprev h0).2]
  · rw [hstream', hack]
    rfl

theorem SentNode.fragOverhead_cases (node : SentNode) :
    node.fragOverhead = 0 ∨ node.fragOverhead = fragHeaderBytes := by
  rw [SentNode.fragOverhead]
  split
  · exact .inr rfl
  · exact .inl rfl

/-- `Retransmit` does so with a message of more than seven bytes. -/
theorem SendState.Sound.retransmit (h : s.Sound config done cur) (hmax : config.maxPayloadBytes < 2 ^ 11)
    {stream : Nat} (hs : stream < numStreams) {node : SentNode}
    (hlong : bloMask.toNat < node.fragOverhead + node.copySrc.length)
    (hfit : maxMessageHeaderBytes + maxAckIdBytes + node.fragOverhead + node.copySrc.length ≤
      config.maxPayloadBytes) :
    ∃ done' cur', (retransmit config stream node s).Sound config done' cur' := by
  have hf := node.fragOverhead_cases
  have hsizes : maxMessageHeaderBytes = 2 ∧ maxAckIdBytes = 3 := ⟨rfl, rfl⟩
  rw [Sphynx.retransmit]
  dsimp only
  rw [if_neg (Nat.not_le.mpr hlong)]
  generalize hov : (if s.cluster.stream ≠ stream ∨ s.cluster.ackId ≠ node.id then maxAckIdBytes else 0) =
    overhead
  have hle : overhead ≤ maxAckIdBytes := by
    rw [← hov]
    split <;> omega
  by_cases hroom : config.maxPayloadBytes <
      s.cluster.bytes + (2 + overhead + (node.fragOverhead + node.copySrc.length))
  · rw [if_pos hroom]
    obtain ⟨-, -, -, cur', hsound⟩ := h.dump.reliable node.id node.sop node.copySrc
      (BitVec.ofNat 16 node.fullBytes) (BitVec.ofNat 16 node.origBytes) hs (Nat.le_refl maxAckIdBytes) hf
      hmax (fun h0 => absurd h0 (by decide))
      (dumpCluster config s).cluster.lossOn (by
        rw [show (dumpCluster config s).cluster.bytes = 0 from rfl]
        omega)
    refine ⟨done ++ [cur], cur', ?_⟩
    have hbytes : 2 + overhead + (node.fragOverhead + node.copySrc.length) + (maxAckIdBytes - overhead) =
        maxMessageHeaderBytes + maxAckIdBytes + node.fragOverhead + node.copySrc.length := by omega
    rw [hbytes]
    exact hsound
  · rw [if_neg hroom]
    obtain ⟨-, -, -, cur', hsound⟩ := h.reliable node.id node.sop node.copySrc
      (BitVec.ofNat 16 node.fullBytes) (BitVec.ofNat 16 node.origBytes) hs hle hf hmax (fun h0 => by
        by_contra hne
        rw [if_pos (by tauto)] at hov
        omega) s.cluster.lossOn (by omega)
    refine ⟨done, cur', ?_⟩
    have hbytes : 2 + overhead + (node.fragOverhead + node.copySrc.length) =
        maxMessageHeaderBytes + overhead + node.fragOverhead + node.copySrc.length := by omega
    rw [hbytes]
    exact hsound

/-! ### `WriteSendQueueNode` -/

/-- What holds from pass to pass. -/
structure SendLoop.Ok (config : SendConfig) (stream : Nat) (p : SendLoop) : Prop where
  sound : ∃ done cur, p.s.Sound config done cur
  overhead_le : p.ackIdOverhead ≤ maxAckIdBytes
  prev : p.ackIdOverhead = 0 → p.s.cluster.stream = stream ∧ p.s.cluster.ackId = p.ackId
  small : p.node.bytes < 2 ^ 16
  left : 0 < p.sendLimit

theorem getAckIdOverhead_le (ackId remoteExpected : u32) :
    0 < getAckIdOverhead ackId remoteExpected ∧ getAckIdOverhead ackId remoteExpected ≤ maxAckIdBytes := by
  rw [getAckIdOverhead, maxAckIdBytes]
  split
  · decide
  · split <;> decide

/-- The variables that the first part of a pass does not change. -/
structure SendLoop.SameMessage (p p' : SendLoop) : Prop where
  node : p'.node = p.node
  ackId : p'.ackId = p.ackId
  sentBytes : p'.sentBytes = p.sentBytes
  sendLimit : p'.sendLimit = p.sendLimit
  sent : p'.sent = p.sent

theorem SendLoop.SameMessage.trans {p q r : SendLoop} (h : p.SameMessage q) (h' : q.SameMessage r) :
    p.SameMessage r :=
  ⟨h'.node.trans h.node, h'.ackId.trans h.ackId, h'.sentBytes.trans h.sentBytes,
    h'.sendLimit.trans h.sendLimit, h'.sent.trans h.sent⟩

theorem SendLoop.startFragments_spec (p : SendLoop) :
    p.SameMessage p.startFragments.1 ∧ p.startFragments.1.s = p.s ∧
      p.startFragments.1.ackIdOverhead = p.ackIdOverhead ∧
      (p.startFragments.2 = 0 ∨ p.startFragments.2 = fragHeaderBytes) := by
  rw [SendLoop.startFragments]
  split
  · exact ⟨⟨rfl, rfl, rfl, rfl, rfl⟩, rfl, rfl, .inl rfl⟩
  · exact ⟨⟨rfl, rfl, rfl, rfl, rfl⟩, rfl, rfl, .inr rfl⟩

theorem SendLoop.Ok.startFragments {stream : Nat} {p : SendLoop} (h : p.Ok config stream) :
    p.startFragments.1.Ok config stream := by
  rw [SendLoop.startFragments]
  split
  · exact h
  · exact ⟨h.sound, h.overhead_le, h.prev, h.small, h.left⟩

/-- The cluster has been dumped, and there is bandwidth left. -/
theorem SendLoop.Ok.dumped {stream : Nat} {p : SendLoop} (h : p.Ok config stream) (remaining : Int)
    (remoteExpected : u32) :
    ({ p with
      s := dumpCluster config p.s
      remaining
      ackIdOverhead := getAckIdOverhead p.ackId remoteExpected } : SendLoop).Ok config stream := by
  obtain ⟨done, cur, hsound⟩ := h.sound
  obtain ⟨hpos, hle⟩ := getAckIdOverhead_le p.ackId remoteExpected
  exact ⟨⟨_, _, hsound.dump⟩, hle, fun h0 => absurd h0 hpos.ne', h.small, h.left⟩

/-- The first part of a pass leaves room for more than the headers. -/
theorem SendLoop.Ok.makeRoom {stream : Nat} {p : SendLoop} (h : p.Ok config stream)
    (hmin : fragThreshold ≤ config.maxPayloadBytes) (hmax : config.maxPayloadBytes < 2 ^ 11)
    (remoteExpected : u32) :
    let r := p.makeRoom config remoteExpected
    (∃ done cur, r.1.s.Sound config done cur) ∧ p.SameMessage r.1 ∧
      ∀ room fragOverhead, r.2 = some (room, fragOverhead) → r.1.Ok config stream ∧
      room + r.1.s.cluster.bytes = config.maxPayloadBytes ∧
      (fragOverhead = 0 ∨ fragOverhead = fragHeaderBytes) ∧
      maxMessageHeaderBytes + r.1.ackIdOverhead + fragOverhead < room := by
  obtain ⟨done, cur, hsound⟩ := h.sound
  have hfits := hsound.fits
  have hsizes : maxMessageHeaderBytes = 2 ∧ maxAckIdBytes = 3 ∧ fragHeaderBytes = 4 ∧
    fragThreshold = 32 := ⟨rfl, rfl, rfl, rfl⟩
  obtain ⟨h2, h3, h4, h32⟩ := hsizes
  have hov := h.overhead_le
  have hroom : remainingSendBuffer config p.s.cluster = config.maxPayloadBytes - p.s.cluster.bytes := by
    rw [remainingSendBuffer, if_pos hfits]
  rw [SendLoop.makeRoom]
  dsimp only
  rw [hroom]
  by_cases hlong : p.tooLong (config.maxPayloadBytes - p.s.cluster.bytes) = true
  · rw [if_pos hlong]
    by_cases hworth : fragThreshold ≤ config.maxPayloadBytes - p.s.cluster.bytes
    · obtain ⟨hsame, hs, hover, hfrag⟩ := p.startFragments_spec
      rw [if_pos hworth]
      refine ⟨h.startFragments.sound, hsame, ?_⟩
      rintro room fragOverhead ⟨⟩
      dsimp only
      rw [hs, hover]
      exact ⟨h.startFragments, by omega, hfrag, by omega⟩
    · rw [if_neg hworth, if_pos (by omega : 0 < p.s.cluster.bytes)]
      by_cases hband : p.remaining - p.s.cluster.bytes ≤ 0
      · rw [if_pos hband]
        exact ⟨⟨_, _, hsound.dump⟩, ⟨rfl, rfl, rfl, rfl, rfl⟩, nofun⟩
      · rw [if_neg hband]
        have hok := h.dumped (p.remaining - p.s.cluster.bytes) remoteExpected
        have hempty : (dumpCluster config p.s).cluster.bytes = 0 := rfl
        generalize hp : ({ p with
          s := dumpCluster config p.s
          remaining := p.remaining - p.s.cluster.bytes
          ackIdOverhead := getAckIdOverhead p.ackId remoteExpected } : SendLoop) = q at hok ⊢
        have hqs : q.s.cluster.bytes = 0 := by rw [← hp]; exact hempty
        have hsameq : p.SameMessage q := by
          rw [← hp]
          exact ⟨rfl, rfl, rfl, rfl, rfl⟩
        have hqov := hok.overhead_le
        obtain ⟨hsame, hs, hover, hfrag⟩ := q.startFragments_spec
        by_cases hstill : q.tooLong config.maxPayloadBytes = true
        · rw [if_pos hstill]
          refine ⟨hok.startFragments.sound, hsameq.trans hsame, ?_⟩
          rintro room fragOverhead ⟨⟩
          dsimp only
          rw [hs, hover, hqs]
          exact ⟨hok.startFragments, rfl, hfrag, by omega⟩
        · rw [if_neg hstill]
          refine ⟨hok.sound, hsameq, ?_⟩
          rintro room fragOverhead ⟨⟩
          dsimp only
          rw [hqs]
          exact ⟨hok, rfl, .inl rfl, by omega⟩
  · rw [if_neg hlong]
    rw [SendLoop.tooLong, decide_eq_true_iff] at hlong
    have hleft := h.left
    refine ⟨h.sound, ⟨rfl, rfl, rfl, rfl, rfl⟩, ?_⟩
    rintro room fragOverhead ⟨⟩
    dsimp only
    exact ⟨h, by omega, .inl rfl, by omega⟩

/-- What goes in a pass: something, and no more than fits here and when it is sent again. -/
theorem dataBytesToCopy_spec {room ackIdOverhead sendLimit : Nat} (overhead : Nat)
    (hmin : fragThreshold ≤ config.maxPayloadBytes) (hmax : config.maxPayloadBytes < 2 ^ 11)
    (hov : ackIdOverhead ≤ maxAckIdBytes)
    (hover : overhead ≤ maxMessageHeaderBytes + ackIdOverhead + fragHeaderBytes) (hroom : overhead < room)
    (hle : room ≤ config.maxPayloadBytes) (hleft : 0 < sendLimit) :
    let n := dataBytesToCopy config room overhead ackIdOverhead sendLimit
    0 < n ∧ n ≤ sendLimit ∧ overhead + n ≤ room ∧
      overhead + n + (maxAckIdBytes - ackIdOverhead) ≤ config.maxPayloadBytes := by
  intro n
  obtain ⟨h2, h3, h4, h32⟩ : maxMessageHeaderBytes = 2 ∧ maxAckIdBytes = 3 ∧ fragHeaderBytes = 4 ∧
    fragThreshold = 32 := ⟨rfl, rfl, rfl, rfl⟩
  have hlimit : subU32 config.maxPayloadBytes (subU32 maxAckIdBytes ackIdOverhead) =
      config.maxPayloadBytes - (maxAckIdBytes - ackIdOverhead) := by
    rw [subU32_of_le hov (by omega), subU32_of_le (by omega) (by omega)]
  have hn : n = min (min (overhead + sendLimit) room)
      (config.maxPayloadBytes - (maxAckIdBytes - ackIdOverhead)) - overhead := by
    rw [← hlimit]
    show dataBytesToCopy config room overhead ackIdOverhead sendLimit = _
    rw [dataBytesToCopy]
    exact subU32_of_le (by rw [hlimit]; omega) (by omega)
  omega

/-- How many passes there can be: the message is compressed once. -/
def SendLoop.passes (p : SendLoop) : Nat := p.sendLimit + if p.node.fragCount = 0 then 2 ^ 16 else 0

/-- Counting a fragment changes the node and what is left of it. -/
theorem SendLoop.Ok.countFragment {stream : Nat} {p : SendLoop} (h : p.Ok config stream)
    (hlz4 : config.lz4.Lawful) :
    (p.countFragment config).Ok config stream ∧ (p.countFragment config).s = p.s ∧
      (p.countFragment config).ackId = p.ackId ∧
      (p.countFragment config).ackIdOverhead = p.ackIdOverhead ∧
      (p.countFragment config).passes ≤ p.passes := by
  have hsmall := h.small
  rw [SendLoop.countFragment]
  split
  · dsimp only
    split
    · next hfirst =>
      have hpasses : p.passes = p.sendLimit + 2 ^ 16 := by rw [SendLoop.passes, if_pos hfirst]
      split
      · refine ⟨⟨h.sound, h.overhead_le, h.prev, hsmall, h.left⟩, rfl, rfl, rfl, ?_⟩
        rw [hpasses, SendLoop.passes, if_neg (Nat.succ_ne_zero _)]
        exact Nat.le_add_right _ _
      · next dest hdest =>
        obtain ⟨hpos, hlt⟩ := hlz4.shorter _ _ hdest
        rw [length_window] at hlt
        refine ⟨⟨h.sound, h.overhead_le, h.prev, ?_, hpos⟩, rfl, rfl, rfl, ?_⟩
        · dsimp only
          omega
        · rw [hpasses, SendLoop.passes, if_neg (Nat.succ_ne_zero _)]
          dsimp only
          omega
    · refine ⟨⟨h.sound, h.overhead_le, h.prev, hsmall, h.left⟩, rfl, rfl, rfl, ?_⟩
      rw [SendLoop.passes, if_neg (Nat.succ_ne_zero _)]
      exact Nat.le_add_right _ _
  · exact ⟨h, rfl, rfl, rfl, Nat.le_refl _⟩

/-- The second part of a pass. -/
theorem SendLoop.Ok.writePiece {stream : Nat} {p : SendLoop} (h : p.Ok config stream)
    (hs : stream < numStreams) (hlz4 : config.lz4.Lawful) (hmin : fragThreshold ≤ config.maxPayloadBytes)
    (hmax : config.maxPayloadBytes < 2 ^ 11) {room fragOverhead : Nat}
    (hroom : room + p.s.cluster.bytes = config.maxPayloadBytes)
    (hf : fragOverhead = 0 ∨ fragOverhead = fragHeaderBytes)
    (hfit : maxMessageHeaderBytes + p.ackIdOverhead + fragOverhead < room) :
    let q := p.writePiece config stream room fragOverhead
    (∃ done cur, q.s.Sound config done cur) ∧ (0 < q.sendLimit → q.Ok config stream) ∧
      q.passes < p.passes := by
  obtain ⟨hok, hsame, hack, hover, hpasses⟩ := h.countFragment hlz4
  obtain ⟨done, cur, hsound⟩ := hok.sound
  have hov := hok.overhead_le
  have hspec := dataBytesToCopy_spec (maxMessageHeaderBytes + p.ackIdOverhead + fragOverhead)
    hmin hmax hov (by rcases hf with rfl | rfl <;> omega) hfit (by omega) hok.left
  have hprev := hok.prev
  rw [hover] at hspec hov hprev
  rw [hsame] at hsound hprev
  rw [hack] at hprev
  rw [SendLoop.writePiece]
  dsimp only
  rw [hsame, hack, hover]
  generalize p.countFragment config = q at hok hpasses hspec ⊢
  generalize dataBytesToCopy config room (maxMessageHeaderBytes + p.ackIdOverhead + fragOverhead)
    p.ackIdOverhead q.sendLimit = n at hspec ⊢
  obtain ⟨hpos, hle, hroom', -⟩ := hspec
  obtain ⟨hid, hstream, hackId, cur', hsound'⟩ := hsound.reliable p.ackId
    (if q.fragmented then .sopFrag else q.node.sop) (window q.node.data q.sentBytes n)
    (BitVec.ofNat 16 q.node.bytes) (BitVec.ofNat 16 q.node.origBytes) hs hov hf hmax hprev true (by rw [length_window]; omega)
  rw [length_window] at hsound' hid hstream hackId
  refine ⟨⟨done, cur', hsound'⟩, fun hleft => ⟨⟨done, cur', hsound'⟩, Nat.zero_le _,
    fun _ => ⟨hstream, hackId.trans hid.symm⟩, hok.small, hleft⟩, ?_⟩
  refine Nat.lt_of_lt_of_le ?_ hpasses
  rw [SendLoop.passes, SendLoop.passes]
  dsimp only
  omega

/-- The loop ends. -/
theorem sendLoop_sound {stream : Nat} (hs : stream < numStreams) (hlz4 : config.lz4.Lawful)
    (hmin : fragThreshold ≤ config.maxPayloadBytes) (hmax : config.maxPayloadBytes < 2 ^ 11)
    (remoteExpected : u32) (fuel : Nat) : ∀ p : SendLoop, p.Ok config stream → p.passes < fuel →
      ∃ q, sendLoop config stream remoteExpected fuel p = some q ∧ ∃ done cur, q.s.Sound config done cur := by
  induction fuel with
  | zero => exact fun _ _ h => absurd h (Nat.not_lt_zero _)
  | succ fuel ih =>
    intro p hok hpasses
    obtain ⟨hsound, hsame, hroom⟩ := hok.makeRoom hmin hmax remoteExpected
    rw [sendLoop]
    generalize p.makeRoom config remoteExpected = r at hsound hsame hroom ⊢
    obtain ⟨q, _ | ⟨room, fragOverhead⟩⟩ := r
    · exact ⟨q, rfl, hsound⟩
    · obtain ⟨hq, hsize, hf, hfit⟩ := hroom room fragOverhead rfl
      obtain ⟨hpiece, hnext, hlt⟩ := hq.writePiece hs hlz4 hmin hmax hsize hf hfit
      dsimp only at hlt hsame ⊢
      have hle : q.passes = p.passes := by
        rw [SendLoop.passes, SendLoop.passes, hsame.sendLimit, hsame.node]
      by_cases hleft : 0 < (q.writePiece config stream room fragOverhead).sendLimit
      · rw [if_pos hleft]
        exact ih _ (hnext hleft) (by omega)
      · rw [if_neg hleft]
        exact ⟨_, rfl, hpiece⟩

/-- `WriteSendQueueNode` writes messages of its stream, whatever there is of the node to send. -/
theorem SendState.Sound.writeSendQueueNode (h : s.Sound config done cur) {stream : Nat}
    (hs : stream < numStreams) (hlz4 : config.lz4.Lawful) (hmin : fragThreshold ≤ config.maxPayloadBytes)
    (hmax : config.maxPayloadBytes < 2 ^ 11) (nextSendId remoteExpected : u32) {node : OutgoingMessage}
    (hsmall : node.bytes < 2 ^ 16) (hleft : node.sentBytes < node.bytes) (remaining : Int) :
    ∃ q, writeSendQueueNode config stream nextSendId remoteExpected node remaining s = some q ∧
      ∃ done' cur', q.1.s.Sound config done' cur' := by
  rw [Sphynx.writeSendQueueNode]
  dsimp only
  split
  · exact ⟨_, rfl, done, cur, h⟩
  · generalize hov : (if s.cluster.ackId ≠ nextSendId ∨ s.cluster.stream ≠ stream then
      getAckIdOverhead nextSendId remoteExpected else 0) = overhead
    obtain ⟨hpos, hle⟩ := getAckIdOverhead_le nextSendId remoteExpected
    obtain ⟨q, hq, hsound⟩ := sendLoop_sound hs hlz4 hmin hmax remoteExpected node.maxPasses
      { s, node, ackId := nextSendId, ackIdOverhead := overhead, sentBytes := node.sentBytes
        sendLimit := node.bytes - node.sentBytes
        fragmented := decide (0 < node.sentBytes), remaining, sent := [] }
      ⟨⟨done, cur, h⟩, by rw [← hov]; dsimp only; split <;> omega, fun h0 => by
        dsimp only at h0 ⊢
        rw [h0] at hov
        by_contra hne
        rw [if_pos (by tauto)] at hov
        omega, hsmall, by dsimp only; omega⟩
      (by
        rw [SendLoop.passes, OutgoingMessage.maxPasses]
        dsimp only
        split <;> omega)
    rw [hq]
    refine ⟨_, rfl, ?_⟩
    dsimp only
    split <;> exact hsound

end Sound

/-- `Retransmit` of a message of at most seven bytes leaves the cluster a byte short: the last byte that
it has written is the next one to be written over. -/
theorem retransmit_short {config : SendConfig} {s : SendState}
    {done : List (List ClusterMessage)} {cur : List ClusterMessage} (h : s.Sound config done cur)
    {stream : Nat} (hs : stream < numStreams) {node : SentNode}
    (hshort : node.fragOverhead + node.copySrc.length ≤ bloMask.toNat) :
    ∃ before, (before = cur ∨ before = []) ∧ ∃ m : ClusterMessage, m.toMessage = node.message stream ∧
      window (retransmit config stream node s).cluster.workspace 0
          (retransmit config stream node s).cluster.bytes =
        (before.flatMap ClusterMessage.encode ++ m.encode).dropLast := by
  have hf := node.fragOverhead_cases
  have hmask : bloMask.toNat = 7 := rfl
  have hdata := length_fragmentData hf (BitVec.ofNat 16 node.fullBytes) (BitVec.ofNat 16 node.origBytes)
    node.copySrc
  -- the message, whichever ACK-ID it is written with
  have key : ∀ {t : SendState} {before : List ClusterMessage} (overhead : Nat),
      t.cluster.Holds before → overhead ≤ maxAckIdBytes →
      ∃ m : ClusterMessage, m.toMessage = node.message stream ∧
        let r := clusterReliableAppend stream node.id t.cluster.bytes overhead node.fragOverhead
          { t.cluster with
            bytes := t.cluster.bytes + (1 + overhead + (node.fragOverhead + node.copySrc.length)) }
          node.sop node.copySrc (BitVec.ofNat 16 node.fullBytes) (BitVec.ofNat 16 node.origBytes)
        window r.1.workspace 0 r.1.bytes = (before.flatMap ClusterMessage.encode ++ m.encode).dropLast := by
    intro t before overhead hholds ho
    let m := reliableMessage stream node.id overhead node.sop _ hs ho
      (show (fragmentData node.fragOverhead (BitVec.ofNat 16 node.fullBytes)
        (BitVec.ofNat 16 node.origBytes) node.copySrc).length < 2 ^ 11 by omega)
    refine ⟨m, rfl, ?_⟩
    intro r
    obtain ⟨-, hstore, hbytes, -, -⟩ := clusterReliableAppend_spec (m := m) (c := { t.cluster with
      bytes := t.cluster.bytes + (1 + overhead + (node.fragOverhead + node.copySrc.length)) }) ho hf
      rfl rfl t.cluster.bytes
    have hmdata : m.data.length = node.copySrc.length + node.fragOverhead := hdata
    have hmid : (if m.id = none then 0 else m.overhead) = overhead := rfl
    have hencode := length_encode m
    rw [hmid, hmdata, if_pos (by omega)] at hencode
    rw [hmdata, if_pos (by omega)] at hbytes
    have hlen : r.1.bytes = t.cluster.bytes + m.encode.length - 1 := by
      rw [hencode]
      refine hbytes.trans ?_
      dsimp only
      omega
    rw [hlen, show r.1.workspace = _ from hstore, ← window_dropLast, window_store_end, hholds.bytes]
  rw [Sphynx.retransmit]
  dsimp only
  rw [if_pos hshort]
  generalize hov : (if s.cluster.stream ≠ stream ∨ s.cluster.ackId ≠ node.id then maxAckIdBytes else 0) =
    overhead
  have hle : overhead ≤ maxAckIdBytes := by
    rw [← hov]
    split
    · exact Nat.le_refl _
    · exact Nat.zero_le _
  by_cases hroom : config.maxPayloadBytes <
      s.cluster.bytes + (1 + overhead + (node.fragOverhead + node.copySrc.length))
  · rw [if_pos hroom]
    obtain ⟨m, hm, hwindow⟩ := key maxAckIdBytes h.dump.cluster (Nat.le_refl _)
    have hbytes : 1 + overhead + (node.fragOverhead + node.copySrc.length) + (maxAckIdBytes - overhead) =
        1 + maxAckIdBytes + (node.fragOverhead + node.copySrc.length) := by omega
    refine ⟨[], .inr rfl, m, hm, ?_⟩
    rw [hbytes]
    exact hwindow
  · rw [if_neg hroom]
    obtain ⟨m, hm, hwindow⟩ := key overhead h.cluster hle
    exact ⟨cur, .inl rfl, m, hm, hwindow⟩

/-! ## The fields of an acknowledgement -/

section Acks

theorem ackRanges_length : ∀ {loops remaining : Nat} {last : u32} {wait : List RecvNode} {r : AckRanges},
    ackRanges loops remaining last wait = some r → r.bytes.length + r.remaining = remaining := by
  intro loops
  induction loops with
  | zero =>
    intro remaining last wait r h
    cases wait <;> cases h <;> exact Nat.zero_add _
  | succ loops ih =>
    intro remaining last wait r h
    cases wait with
    | nil =>
      cases h
      exact Nat.zero_add _
    | cons node wait =>
      rw [ackRanges] at h
      split at h
      · cases h
        exact Nat.zero_add _
      · next hspace =>
        split at h
        · cases h
        · obtain ⟨r', hr', rfl⟩ := Option.map_eq_some_iff.mp h
          have hlen := ih hr'
          have hle := length_ackBytes (node.id - last) (‹RecvNode›.id - node.id)
          dsimp only
          rw [List.length_append]
          omega

/-- The fields of an acknowledgement fit. -/
theorem writeAckStreams_length (streams : List Nat) : ∀ {recv : Nat → RecvStream} {remaining : Nat}
    {w : (Nat → RecvStream) × List AckPart}, writeAckStreams streams recv remaining = some w →
      (ackBytes w.2).length ≤ remaining := by
  induction streams with
  | nil =>
    intro recv remaining w h
    cases h
    exact Nat.zero_le _
  | cons stream streams ih =>
    intro recv remaining w h
    rw [writeAckStreams] at h
    split at h
    · split at h
      · cases h
        exact Nat.zero_le _
      · next hspace =>
        split at h
        · cases h
        · next s r hrun =>
          obtain ⟨w', hw', rfl⟩ := Option.map_eq_some_iff.mp h
          have hrest := ih hw'
          have hbytes : r.bytes.length + r.remaining = remaining := by
            rw [writeAckStream, if_neg hspace] at hrun
            obtain ⟨r', hr', heq⟩ := Option.map_eq_some_iff.mp hrun
            obtain ⟨-, rfl⟩ := Prod.mk.inj heq
            have := ackRanges_length hr'
            dsimp only
            rw [List.length_append]
            simp only [List.length_cons, List.length_nil]
            omega
          rw [ackBytes, List.flatMap_cons, List.length_append]
          rw [ackBytes] at hrest
          dsimp only
          omega
    · exact ih h

end Acks

/-! ## The other end -/

/-- A call that writes to the cluster, with what it is made with. -/
inductive SendCall where
  | writeUnreliable (msgOpcode : u8) (msgData : List u8) (superOpcode : SuperOpcode)
  | writeACK (recv : Nat → RecvStream)
  | writeSendQueueNode (stream : Nat) (nextSendId remoteExpected : u32) (node : OutgoingMessage)
      (remaining : Int)
  | retransmit (stream : Nat) (node : SentNode)
  | flushWrites

/-- What a call makes of the cluster and of the queued datagrams. -/
def sendStep (config : SendConfig) (s : SendState) : SendCall → SendState
  | .writeUnreliable msgOpcode msgData superOpcode =>
    (writeUnreliable config msgOpcode msgData superOpcode s).1
  | .writeACK recv =>
    match writeAck config.maxPayloadBytes recv with
    | none => s
    | some (_, parts) => writeAckMessage config (ackBytes parts) s
  | .writeSendQueueNode stream nextSendId remoteExpected node remaining =>
    match writeSendQueueNode config stream nextSendId remoteExpected node remaining s with
    | none => s
    | some (p, _) => p.s
  | .retransmit stream node => retransmit config stream node s
  | .flushWrites => flushCluster config s

/-- A message that is sent again has more than seven bytes of data, and fits. -/
structure SentNode.Long (config : SendConfig) (node : SentNode) : Prop where
  long : bloMask.toNat < node.fragOverhead + node.copySrc.length
  fits : maxMessageHeaderBytes + maxAckIdBytes + node.fragOverhead + node.copySrc.length ≤
    config.maxPayloadBytes

/-- The streams are those there are, and what is sent of a message is not empty. -/
def SendCall.Ok (config : SendConfig) : SendCall → Prop
  | .writeUnreliable _ _ _ => True
  | .writeACK recv => ∀ i < numStreams, AckReady (recv i)
  | .writeSendQueueNode stream _ _ node _ =>
    stream < numStreams ∧ node.bytes < 2 ^ 16 ∧ node.sentBytes < node.bytes
  | .retransmit stream node => stream < numStreams ∧ node.Long config
  | .flushWrites => True

section Runs

variable {config : SendConfig}

/-- One call. -/
theorem SendState.Sound.step (hlz4 : config.lz4.Lawful) (hmin : fragThreshold ≤ config.maxPayloadBytes)
    (hmax : config.maxPayloadBytes < 2 ^ 11) {s : SendState} {done : List (List ClusterMessage)}
    {cur : List ClusterMessage} (h : s.Sound config done cur) (call : SendCall) (hcall : call.Ok config) :
    ∃ done' cur', (sendStep config s call).Sound config done' cur' := by
  cases call with
  | writeUnreliable msgOpcode msgData superOpcode =>
    exact h.writeUnreliable hmax msgOpcode msgData superOpcode
  | writeACK recv =>
    obtain ⟨recv', parts, hwrite, -, -⟩ := writeAckStreams_right (List.range numStreams)
      (fun i hi => List.mem_range.mp hi) List.nodup_range
      (subU32 config.maxPayloadBytes maxMessageHeaderBytes) fun i hi => hcall i (List.mem_range.mp hi)
    have hlen := writeAckStreams_length _ hwrite
    have hroom : subU32 config.maxPayloadBytes maxMessageHeaderBytes = config.maxPayloadBytes - 2 :=
      subU32_of_le (Nat.le_trans (by decide) hmin) (by omega)
    have hmin' : 32 ≤ config.maxPayloadBytes := hmin
    rw [sendStep, show writeAck config.maxPayloadBytes recv = some (recv', parts) from hwrite]
    refine h.writeAckMessage hmax ?_
    rw [hroom] at hlen
    rw [maxMessageHeaderBytes]
    dsimp only at hlen
    omega
  | writeSendQueueNode stream nextSendId remoteExpected node remaining =>
    obtain ⟨hs, hsmall, hleft⟩ := hcall
    obtain ⟨q, hq, hsound⟩ := h.writeSendQueueNode hs hlz4 hmin hmax nextSendId remoteExpected hsmall hleft
      remaining
    rw [sendStep, hq]
    exact hsound
  | retransmit stream node => exact h.retransmit hmax hcall.1 hcall.2.long hcall.2.fits
  | flushWrites =>
    rw [sendStep, flushCluster]
    split
    · exact ⟨_, _, h.dump⟩
    · exact ⟨done, cur, h⟩

/-- Any number of calls. -/
theorem SendState.Sound.run (hlz4 : config.lz4.Lawful) (hmin : fragThreshold ≤ config.maxPayloadBytes)
    (hmax : config.maxPayloadBytes < 2 ^ 11) (calls : List SendCall) : ∀ (s : SendState)
    (done : List (List ClusterMessage)) (cur : List ClusterMessage), s.Sound config done cur →
      (∀ call ∈ calls, call.Ok config) →
        ∃ done' cur', (calls.foldl (sendStep config) s).Sound config done' cur' := by
  induction calls with
  | nil => exact fun _ _ _ h _ => ⟨_, _, h⟩
  | cons call calls ih =>
    intro s done cur h hcalls
    obtain ⟨hcall, hcalls⟩ := List.forall_mem_cons.mp hcalls
    obtain ⟨done', cur', h'⟩ := h.step hlz4 hmin hmax call hcall
    exact ih _ done' cur' h' hcalls

end Runs

end Libcat.Sphynx
