import Libcat.Sphynx.Common

/-!
# The message loop of `OnTransportDatagrams`

One datagram: memory from the start of its buffer, of which `dataBytes` bytes belong to it. The
loop keeps the read position and the signed count `bytes` of what is left, and hands regions of the
buffer to the handlers, which here are any functions on a receive state. The log has every byte
read, every message taken apart and every handler called.

`onTransportDatagram_bounds` is the safety result: the loop always ends, and it stays inside the datagram
exactly when no message header with the `C` bit set stands on the last byte, where the second
header byte is read without a check.
-/

namespace Libcat.Sphynx

/-- A received datagram. The memory behind it is there, whatever it holds. -/
structure RecvBuffer where
  mem : Nat → u8
  dataBytes : Nat
  fits : dataBytes < 2 ^ 31

/-- A message as the loop has decoded it, its data in the buffer from `pos` on. -/
structure Parsed where
  reliable : Bool
  stream : Nat
  ackId : u32
  sop : SuperOpcode
  pos : Nat
  dataBytes : u32
deriving DecidableEq

/-- The handlers the loop calls, with the region it gives them. -/
inductive Call where
  | queueDelivery (stream pos : Nat) (dataBytes : u32)
  | onInternal (pos : Nat) (dataBytes : u32)
  | onACK (pos : Nat) (dataBytes : u32)
  | onFragment (stream pos : Nat) (dataBytes : u32)
  | runReliableReceiveQueue (stream : Nat) (ackId : u32)
  | storeReliableOutOfOrder (stream : Nat) (ackId : u32) (sop : SuperOpcode) (pos : Nat)
      (dataBytes : u32)
  | gotReliable (stream : Nat)
deriving DecidableEq

/-- The region given to a handler. -/
def Call.region : Call → Option (Nat × u32)
  | .queueDelivery _ pos n => some (pos, n)
  | .onInternal pos n => some (pos, n)
  | .onACK pos n => some (pos, n)
  | .onFragment _ pos n => some (pos, n)
  | .runReliableReceiveQueue _ _ => none
  | .storeReliableOutOfOrder _ _ _ pos n => some (pos, n)
  | .gotReliable _ => none

inductive Event where
  | read (pos : Nat)
  | message (m : Parsed)
  | call (c : Call)
deriving DecidableEq

/-- The receive state as the loop sees it: `_next_recv_expected_id` and what the handlers do. -/
structure Receiver (σ : Type) where
  nextRecvExpectedId : σ → Nat → u32
  onCall : (Nat → u8) → σ → Call → σ

/-- The variable-length ACK-ID: reads from `pos` with `bytes` left. The number of counter bits
comes with the id; `none` is one of the three truncations. -/
def decodeAckId (mem : Nat → u8) (pos : Nat) (bytes : Int) :
    List Event × Option (Nat × u32 × Nat × Nat) :=
  if bytes < 1 then ([], none)
  else
    let id := mem pos
    let stream := (id &&& 3).toNat
    let ackId : u32 := ((id >>> 2) &&& 0x1f).setWidth 32
    if hasBit id cMask then
      if bytes - 1 < 1 then ([.read pos], none)
      else
        let id := mem (pos + 1)
        let ackId := ackId ||| ((id &&& 0x7f).setWidth 32 <<< 5)
        if hasBit id cMask then
          if bytes - 2 < 1 then ([.read pos, .read (pos + 1)], none)
          else
            let id := mem (pos + 2)
            let ackId := ackId ||| (id.setWidth 32 <<< 12)
            ([.read pos, .read (pos + 1), .read (pos + 2)], some (stream, ackId, 20, 3))
        else ([.read pos, .read (pos + 1)], some (stream, ackId, 12, 2))
    else ([.read pos], some (stream, ackId, 5, 1))

/-- What the loop does with a message, after the length check. -/
def callsFor (expected : u32) (hdr : u8) (m : Parsed) : List Call :=
  if m.reliable then
    let diff := (m.ackId - expected).toInt
    if diff = 0 then
      (if m.sop = .sopFrag then [.onFragment m.stream m.pos m.dataBytes]
        else if 0 < m.dataBytes.toNat then
          match m.sop with
          | .sopData => [.queueDelivery m.stream m.pos m.dataBytes]
          | .sopInternal => [.onInternal m.pos m.dataBytes]
          | _ => []
        else []) ++ [.runReliableReceiveQueue m.stream (m.ackId + 1)]
    else if 0 < diff then
      [.storeReliableOutOfOrder m.stream m.ackId m.sop m.pos m.dataBytes]
    else [.gotReliable m.stream]
  else if 0 < m.dataBytes.toNat then
    match SuperOpcode.ofHdr hdr with
    | .sopData => [.queueDelivery m.stream m.pos m.dataBytes]
    | .sopAck => [.onACK m.pos m.dataBytes]
    | .sopInternal => [.onInternal m.pos m.dataBytes]
    | .sopFrag => []
  else []

/-- What the loop carries from message to message. -/
structure LoopState (σ : Type) where
  recv : σ
  pos : Nat
  bytes : Int
  ackId : u32
  stream : Nat

inductive Outcome (σ : Type) where
  | next (s : LoopState σ)
  | done (s : σ)

variable {σ : Type} (R : Receiver σ)

/-- The header of the message at the read position: its bytes, and the length they give. -/
def readHeader (mem : Nat → u8) (pos : Nat) : List Event × u32 × Nat :=
  let hdr := mem pos
  let dataBytes : u32 := (hdr &&& bloMask).setWidth 32
  if hasBit hdr cMask then
    ([.read pos, .read (pos + 1)], dataBytes ||| ((mem (pos + 1)).setWidth 32 <<< bhiShift), 2)
  else ([.read pos], dataBytes, 1)

/-- The part of the loop after the ids: length check, handlers, next message. -/
def finishMessage (mem : Nat → u8) (s : LoopState σ) (hdr : u8) (m : Parsed) (bytes : Int) :
    List Event × Outcome σ :=
  if bytes < m.dataBytes.toInt then ([], .done s.recv)
  else
    let calls := callsFor (R.nextRecvExpectedId s.recv m.stream) hdr m
    let recv := calls.foldl (R.onCall mem) s.recv
    let events := .message m :: calls.map .call
    if !m.reliable && decide (m.dataBytes = 0) && decide (hdr = hdrNop) then ([], .done s.recv)
    else
      (events, .next
        { recv := recv
          pos := m.pos + m.dataBytes.toNat
          bytes := (BitVec.ofInt 32 bytes - m.dataBytes).toInt
          ackId := m.ackId
          stream := m.stream })

/-- One pass of `while (bytes >= 1)`. -/
def messageStep (mem : Nat → u8) (s : LoopState σ) : List Event × Outcome σ :=
  let hdr := mem s.pos
  let h := readHeader mem s.pos
  let dataBytes := h.2.1
  let pos := s.pos + h.2.2
  let bytes := s.bytes - h.2.2
  let sop := SuperOpcode.ofHdr hdr
  let r :=
    if hasBit hdr iMask then
      if !hasBit hdr rMask then
        -- length-implicit: the message takes the rest of the datagram
        finishMessage R mem s hdr ⟨false, s.stream, s.ackId, sop, pos, BitVec.ofInt 32 bytes⟩ bytes
      else
        match decodeAckId mem pos bytes with
        | (events, none) => (events, .done s.recv)
        | (events, some (stream, low, bits, n)) =>
          let ackId := reconstructCounter bits (R.nextRecvExpectedId s.recv stream) low
          let f := finishMessage R mem s hdr ⟨true, stream, ackId, sop, pos + n, dataBytes⟩
            (bytes - n)
          (events ++ f.1, f.2)
    else
      let ackId := if hasBit hdr rMask then s.ackId + 1 else s.ackId
      finishMessage R mem s hdr ⟨hasBit hdr rMask, s.stream, ackId, sop, pos, dataBytes⟩ bytes
  (h.1 ++ r.1, r.2)

/-- The loop; `none` when the passes allowed for it do not suffice. -/
def messageLoop (mem : Nat → u8) : Nat → LoopState σ → Option (List Event × σ)
  | fuel, s =>
    if s.bytes < 1 then some ([], s.recv)
    else
      match fuel with
      | 0 => none
      | fuel + 1 =>
        match messageStep R mem s with
        | (events, .done recv) => some (events, recv)
        | (events, .next s') => (messageLoop mem fuel s').map fun r => (events ++ r.1, r.2)

/-- `OnTransportDatagrams` on one buffer. Each pass takes at least a byte. -/
def onTransportDatagram (buffer : RecvBuffer) (s : σ) : Option (List Event × σ) :=
  messageLoop R buffer.mem buffer.dataBytes ⟨s, 0, buffer.dataBytes, 0, 0⟩

/-! ## The format -/

def headerBytes (mem : Nat → u8) (p : Nat) : Nat := if hasBit (mem p) cMask then 2 else 1

/-- `BHI | BLO`. -/
def lengthField (mem : Nat → u8) (p : Nat) : Nat :=
  (mem p &&& bloMask).toNat + if hasBit (mem p) cMask then 8 * (mem (p + 1)).toNat else 0

/-- The length of an ACK-ID field that starts at `q`. -/
def ackIdBytes (mem : Nat → u8) (q : Nat) : Nat :=
  if hasBit (mem q) cMask then if hasBit (mem (q + 1)) cMask then 3 else 2 else 1

/-- A whole message stands at `p` in a datagram of `len` bytes, and ends at `q`. -/
def MessageAt (mem : Nat → u8) (len p q : Nat) : Prop :=
  p < len ∧
  if hasBit (mem p) iMask && !hasBit (mem p) rMask then p + headerBytes mem p ≤ len ∧ q = len
  else
    mem p ≠ hdrNop ∧ q ≤ len ∧
      q = p + headerBytes mem p +
        (if hasBit (mem p) iMask then ackIdBytes mem (p + headerBytes mem p) else 0) +
        lengthField mem p

/-- Messages stand one behind the other from the start of the datagram to `p`. -/
def Boundary (buffer : RecvBuffer) (p : Nat) : Prop :=
  Relation.ReflTransGen (MessageAt buffer.mem buffer.dataBytes) 0 p

/-- What is read or handed out lies in the first `len` bytes. -/
def Event.Inside (len : Nat) : Event → Prop
  | .read pos => pos < len
  | .message m => m.pos + m.dataBytes.toNat ≤ len
  | .call c => ∀ r, c.region = some r → r.1 + r.2.toNat ≤ len

section Step

variable {R} {mem : Nat → u8} {len : Nat} {s : LoopState σ}

theorem readHeader_spec (mem : Nat → u8) (p : Nat) :
    (readHeader mem p).2.1.toNat = lengthField mem p ∧ (readHeader mem p).2.2 = headerBytes mem p ∧
      lengthField mem p < 2048 := by
  have h7 : (mem p &&& bloMask).toNat < 8 := by
    rw [BitVec.toNat_and]
    exact Nat.lt_of_le_of_lt Nat.and_le_right (by decide)
  have hb : (mem (p + 1)).toNat < 256 := (mem (p + 1)).isLt
  cases hC : hasBit (mem p) cMask with
  | true =>
    simp only [readHeader, lengthField, headerBytes, hC, if_true, true_and]
    refine ⟨?_, by omega⟩
    simp only [BitVec.toNat_or, BitVec.toNat_setWidth, BitVec.toNat_shiftLeft, bhiShift]
    rw [Nat.mod_eq_of_lt (by omega : (mem p &&& bloMask).toNat < 2 ^ 32),
      Nat.mod_eq_of_lt (by omega : (mem (p + 1)).toNat < 2 ^ 32),
      Nat.shiftLeft_eq, Nat.mod_eq_of_lt (by omega), Nat.or_comm, Nat.mul_comm,
      ← Nat.two_pow_add_eq_or_of_lt (by omega : _ < 2 ^ 3)]
    omega
  | false =>
    simp only [readHeader, lengthField, headerBytes, hC, if_false, true_and, Bool.false_eq_true]
    refine ⟨?_, by omega⟩
    rw [BitVec.toNat_setWidth]
    omega

/-- The regions of the handlers are the message's own. -/
theorem callsFor_region {expected : u32} {hdr : u8} {m : Parsed} {c : Call}
    (hc : c ∈ callsFor expected hdr m) (r : Nat × u32) (hr : c.region = some r) :
    r = (m.pos, m.dataBytes) := by
  unfold callsFor at hc
  split at hc
  · simp only at hc
    split at hc
    · rcases List.mem_append.mp hc with hc | hc
      · split at hc
        · simp at hc; subst hc; simpa [Call.region] using hr.symm
        · split at hc
          · split at hc <;> simp at hc <;> subst hc <;> simpa [Call.region] using hr.symm
          · simp at hc
      · simp at hc; subst hc; simp [Call.region] at hr
    · split at hc
      · simp at hc; subst hc; simpa [Call.region] using hr.symm
      · simp at hc; subst hc; simp [Call.region] at hr
  · split at hc
    · split at hc <;> simp at hc <;> subst hc <;> simpa [Call.region] using hr.symm
    · simp at hc

theorem decodeAckId_spec (mem : Nat → u8) (pos : Nat) (bytes : Int) :
    (∀ e ∈ (decodeAckId mem pos bytes).1, ∃ k, e = .read k ∧ (k : Int) < pos + bytes) ∧
    match (decodeAckId mem pos bytes).2 with
    | none => bytes < ackIdBytes mem pos
    | some r => r.2.2.2 = ackIdBytes mem pos ∧ (ackIdBytes mem pos : Int) ≤ bytes := by
  unfold decodeAckId ackIdBytes
  by_cases h1 : bytes < 1
  · rw [if_pos h1]
    refine ⟨by simp, ?_⟩
    simp only
    split
    · split <;> omega
    · omega
  rw [if_neg h1]
  simp only
  cases hc : hasBit (mem pos) cMask with
  | false => exact ⟨by simp; omega, by simp; omega⟩
  | true =>
    simp only [if_true]
    by_cases h2 : bytes - 1 < 1
    · rw [if_pos h2]
      refine ⟨by simp; omega, ?_⟩
      simp only
      split <;> omega
    rw [if_neg h2]
    cases hc2 : hasBit (mem (pos + 1)) cMask with
    | false => exact ⟨by simp; omega, by simp; omega⟩
    | true =>
      simp only [if_true]
      by_cases h3 : bytes - 2 < 1
      · rw [if_pos h3]
        exact ⟨by simp; omega, by simp; omega⟩
      · rw [if_neg h3]
        exact ⟨by simp; omega, by simp; omega⟩

/-- The length check and the advance, for a message that starts inside the datagram. -/
theorem finishMessage_spec {hdr : u8} {m : Parsed} {bytes : Int} (hlen : len < 2 ^ 31)
    (hb : (m.pos : Int) + bytes = len) (h0 : 0 ≤ bytes) (hd : m.dataBytes.toNat < 2 ^ 31) :
    (∀ e ∈ (finishMessage R mem s hdr m bytes).1, e.Inside len) ∧
    match (finishMessage R mem s hdr m bytes).2 with
    | .done _ => len < m.pos + m.dataBytes.toNat ∨
        (m.reliable = false ∧ m.dataBytes = 0 ∧ hdr = hdrNop)
    | .next s' => s'.pos = m.pos + m.dataBytes.toNat ∧ s'.pos ≤ len ∧ s'.bytes = len - s'.pos ∧
        ¬ (m.reliable = false ∧ m.dataBytes = 0 ∧ hdr = hdrNop) := by
  have hint : m.dataBytes.toInt = m.dataBytes.toNat := BitVec.toInt_eq_toNat_of_lt (by omega)
  unfold finishMessage
  by_cases hlt : bytes < m.dataBytes.toInt
  · rw [if_pos hlt]
    exact ⟨by simp, .inl (by omega)⟩
  rw [if_neg hlt]
  simp only
  by_cases hnop : m.reliable = false ∧ m.dataBytes = 0 ∧ hdr = hdrNop
  · rw [if_pos (by simp [hnop])]
    exact ⟨by simp, .inr hnop⟩
  rw [if_neg (by simpa using hnop)]
  refine ⟨?_, rfl, by simp only; omega, ?_, hnop⟩
  · intro e he
    simp only [List.mem_cons, List.mem_map] at he
    rcases he with rfl | ⟨c, hc, rfl⟩
    · simp only [Event.Inside]; omega
    · intro r hr
      rw [callsFor_region hc r hr]
      simp only
      omega
  · have e : BitVec.ofInt 32 bytes - m.dataBytes = BitVec.ofInt 32 (bytes - m.dataBytes.toInt) := by
      rw [sub_eq_add_neg bytes, BitVec.ofInt_add, BitVec.ofInt_neg, BitVec.ofInt_toInt,
        sub_eq_add_neg]
    have hmod : (BitVec.ofInt 32 (bytes - m.dataBytes.toInt)).toInt = bytes - m.dataBytes.toInt := by
      rw [BitVec.toInt_ofInt]
      apply Int.bmod_eq_of_le
      · simp; omega
      · simp; omega
    simp only [e, hmod]
    omega

theorem headerReads_inside (hpos : s.pos < len)
    (hok : ¬ (s.pos + 1 = len ∧ hasBit (mem s.pos) cMask = true)) :
    (∀ e ∈ (readHeader mem s.pos).1, e.Inside len) ∧ s.pos + headerBytes mem s.pos ≤ len := by
  cases hC : hasBit (mem s.pos) cMask with
  | true =>
    have : s.pos + 1 ≠ len := fun h => hok ⟨h, hC⟩
    simp [readHeader, headerBytes, hC, Event.Inside]
    omega
  | false =>
    simp [readHeader, headerBytes, hC, Event.Inside]
    omega

/-- One pass over a header that does not overrun the datagram: it stays inside, and goes on at
the end of the message if a whole message stands here. -/
theorem messageStep_spec (hlen : len < 2 ^ 31) (hpos : s.pos < len)
    (hb : s.bytes = (len : Int) - s.pos)
    (hok : ¬ (s.pos + 1 = len ∧ hasBit (mem s.pos) cMask = true)) :
    (∀ e ∈ (messageStep R mem s).1, e.Inside len) ∧
    match (messageStep R mem s).2 with
    | .done _ => ∀ q, ¬ MessageAt mem len s.pos q
    | .next s' => MessageAt mem len s.pos s'.pos ∧ s'.bytes = (len : Int) - s'.pos := by
  obtain ⟨hread, hhdr⟩ := headerReads_inside hpos hok
  obtain ⟨hfield, hhb, hsmall⟩ := readHeader_spec mem s.pos
  unfold messageStep
  simp only [hhb]
  cases hI : hasBit (mem s.pos) iMask with
  | true =>
    cases hR : hasBit (mem s.pos) rMask with
    | false =>
      -- length-implicit
      have hn : (BitVec.ofInt 32 (s.bytes - headerBytes mem s.pos)).toNat =
          len - (s.pos + headerBytes mem s.pos) := by
        rw [BitVec.toNat_ofInt]; omega
      have hfin := @finishMessage_spec _ R mem len s (mem s.pos)
        ⟨false, s.stream, s.ackId, SuperOpcode.ofHdr (mem s.pos), s.pos + headerBytes mem s.pos,
          BitVec.ofInt 32 (s.bytes - headerBytes mem s.pos)⟩
        (s.bytes - headerBytes mem s.pos) hlen (by simp only; omega) (by omega)
        (by simp only; omega)
      simp only [hn] at hfin
      have hne : mem s.pos ≠ hdrNop := by
        intro h; rw [h] at hI; exact absurd hI (by decide)
      simp only [Bool.not_false, if_true]
      refine ⟨fun e he => (List.mem_append.mp he).elim (hread e) (hfin.1 e), ?_⟩
      have hout := hfin.2
      split at hout
      · exact absurd hout (by rintro (h | ⟨-, -, h⟩) <;> [omega; exact hne h])
      · simp only [MessageAt, hI, hR]
        refine ⟨⟨hpos, ?_⟩, hout.2.2.1⟩
        simp
        omega
    | true =>
      simp only [Bool.not_true, Bool.false_eq_true, if_false, if_true]
      obtain ⟨hids, hdec⟩ := decodeAckId_spec mem (s.pos + headerBytes mem s.pos)
        (s.bytes - headerBytes mem s.pos)
      have hidsin : ∀ e ∈ (decodeAckId mem (s.pos + headerBytes mem s.pos)
          (s.bytes - headerBytes mem s.pos)).1, e.Inside len := by
        intro e he
        obtain ⟨k, rfl, hk⟩ := hids e he
        simp only [Event.Inside]
        omega
      generalize decodeAckId mem (s.pos + headerBytes mem s.pos)
        (s.bytes - headerBytes mem s.pos) = d at hdec hidsin ⊢
      obtain ⟨events, _ | ⟨stream, low, bits, n⟩⟩ := d
      · -- a truncated ACK-ID
        refine ⟨fun e he => (List.mem_append.mp he).elim (hread e) (hidsin e), fun q hq => ?_⟩
        simp only [MessageAt, hI, hR, Bool.not_true, Bool.and_false, Bool.false_eq_true, if_false,
          if_true] at hq hdec
        omega
      · simp only at hdec hidsin ⊢
        obtain ⟨rfl, hle⟩ := hdec
        have hfin := @finishMessage_spec _ R mem len s (mem s.pos)
          ⟨true, stream, reconstructCounter bits (R.nextRecvExpectedId s.recv stream) low,
            SuperOpcode.ofHdr (mem s.pos),
            s.pos + headerBytes mem s.pos + ackIdBytes mem (s.pos + headerBytes mem s.pos),
            (readHeader mem s.pos).2.1⟩
          (s.bytes - headerBytes mem s.pos -
            ackIdBytes mem (s.pos + headerBytes mem s.pos)) hlen
          (by simp only; push_cast; omega) (by omega) (by simp only [hfield]; omega)
        simp only [hfield, Bool.true_eq_false, false_and, or_false, not_false_eq_true, and_true]
          at hfin
        refine ⟨fun e he => ?_, ?_⟩
        · rcases List.mem_append.mp he with he | he
          · exact hread e he
          · exact (List.mem_append.mp he).elim (hidsin e) (hfin.1 e)
        · have hne : mem s.pos ≠ hdrNop := by
            intro h; rw [h] at hI; exact absurd hI (by decide)
          have hout := hfin.2
          split at hout
          · intro q hq
            simp only [MessageAt, hI, hR, Bool.not_true, Bool.and_false, Bool.false_eq_true,
              if_false, if_true] at hq
            omega
          · simp only [MessageAt, hI, hR, Bool.not_true, Bool.and_false, Bool.false_eq_true,
              if_false, if_true]
            exact ⟨⟨hpos, hne, hout.2.1, hout.1⟩, hout.2.2⟩
  | false =>
    simp only [Bool.false_eq_true, if_false]
    have hfin := @finishMessage_spec _ R mem len s (mem s.pos)
      ⟨hasBit (mem s.pos) rMask, s.stream,
        if hasBit (mem s.pos) rMask then s.ackId + 1 else s.ackId,
        SuperOpcode.ofHdr (mem s.pos), s.pos + headerBytes mem s.pos, (readHeader mem s.pos).2.1⟩
      (s.bytes - headerBytes mem s.pos) hlen (by simp only; push_cast; omega) (by omega)
      (by simp only [hfield]; omega)
    refine ⟨fun e he => (List.mem_append.mp he).elim (hread e) (hfin.1 e), ?_⟩
    have hnop : mem s.pos = hdrNop → hasBit (mem s.pos) rMask = false ∧
        (readHeader mem s.pos).2.1 = 0 := by
      intro h
      have hz : lengthField mem s.pos = 0 := by
        unfold lengthField; rw [h]; rfl
      exact ⟨by rw [h]; decide, BitVec.eq_of_toNat_eq (by rw [hfield, hz]; rfl)⟩
    have hout := hfin.2
    simp only [hfield] at hout
    split at hout
    · intro q hq
      simp only [MessageAt, hI, Bool.false_and, Bool.false_eq_true, if_false] at hq
      rcases hout with h | ⟨-, -, h⟩
      · omega
      · exact hq.2.1 h
    · simp only [MessageAt, hI, Bool.false_and, Bool.false_eq_true, if_false]
      refine ⟨⟨hpos, fun h => hout.2.2.2 ⟨(hnop h).1, (hnop h).2, h⟩, hout.2.1, by omega⟩, hout.2.2.1⟩

/-- The second header byte of a message that starts on the last byte. -/
theorem messageStep_overrun (h : s.pos + 1 = len) (hC : hasBit (mem s.pos) cMask = true) :
    Event.read len ∈ (messageStep R mem s).1 := by
  unfold messageStep
  simp only
  refine List.mem_append_left _ ?_
  simp [readHeader, hC, h]

/-- What is left never grows, not even past the end of the datagram. -/
theorem finishMessage_bytes {hdr : u8} {m : Parsed} {bytes : Int} {s' : LoopState σ}
    (h1 : -1 ≤ bytes) (h2 : bytes < 2 ^ 31)
    (hd : m.dataBytes.toNat < 2 ^ 31 ∨ m.dataBytes = BitVec.ofInt 32 bytes)
    (h : (finishMessage R mem s hdr m bytes).2 = .next s') : s'.bytes ≤ max bytes 0 := by
  unfold finishMessage at h
  split at h
  · cases h
  next hle =>
  simp only at h
  split at h
  · cases h
  obtain rfl := Outcome.next.inj h
  simp only
  rcases hd with hd | hd
  · have hint : m.dataBytes.toInt = m.dataBytes.toNat := BitVec.toInt_eq_toNat_of_lt (by omega)
    have e : BitVec.ofInt 32 bytes - m.dataBytes = BitVec.ofInt 32 (bytes - m.dataBytes.toInt) := by
      rw [sub_eq_add_neg bytes, BitVec.ofInt_add, BitVec.ofInt_neg, BitVec.ofInt_toInt,
        sub_eq_add_neg]
    have hmod : (BitVec.ofInt 32 (bytes - m.dataBytes.toInt)).toInt = bytes - m.dataBytes.toInt := by
      rw [BitVec.toInt_ofInt]
      apply Int.bmod_eq_of_le
      · simp; omega
      · simp; omega
    rw [e, hmod]
    omega
  · rw [hd, sub_self]
    simp

/-- Each pass takes at least one byte. -/
theorem messageStep_bytes {s' : LoopState σ} (h1 : 1 ≤ s.bytes) (h2 : s.bytes < 2 ^ 31)
    (h : (messageStep R mem s).2 = .next s') : s'.bytes < s.bytes := by
  obtain ⟨hfield, hhb, hsmall⟩ := readHeader_spec mem s.pos
  have hone : 1 ≤ headerBytes mem s.pos ∧ headerBytes mem s.pos ≤ 2 := by
    unfold headerBytes; split <;> omega
  unfold messageStep at h
  simp only [hhb] at h
  split at h
  · split at h
    · have := finishMessage_bytes (by omega) (by omega) (.inr rfl) h
      omega
    · have hdec := (decodeAckId_spec mem (s.pos + headerBytes mem s.pos)
        (s.bytes - headerBytes mem s.pos)).2
      generalize decodeAckId mem (s.pos + headerBytes mem s.pos)
        (s.bytes - headerBytes mem s.pos) = d at hdec h
      obtain ⟨events, _ | ⟨stream, low, bits, n⟩⟩ := d
      · cases h
      · simp only at hdec h
        have := finishMessage_bytes (by omega) (by omega) (.inl (by simp only [hfield]; omega)) h
        omega
  · have := finishMessage_bytes (by omega) (by omega) (.inl (by simp only [hfield]; omega)) h
    omega

/-- The loop ends. -/
theorem messageLoop_isSome (mem : Nat → u8) (fuel : Nat) (s : LoopState σ) (hf : s.bytes ≤ fuel)
    (h2 : s.bytes < 2 ^ 31) : (messageLoop R mem fuel s).isSome = true := by
  induction fuel generalizing s with
  | zero => unfold messageLoop; rw [if_pos (by omega)]; rfl
  | succ fuel ih =>
    unfold messageLoop
    split
    · rfl
    · rcases hstep : messageStep R mem s with ⟨events, out⟩
      cases out with
      | done recv => rfl
      | next s' =>
        have := messageStep_bytes (R := R) (s := s) (by omega) h2
          (by rw [hstep])
        simpa using ih s' (by omega) (by omega)

theorem MessageAt.le {p q : Nat} (h : MessageAt mem len p q) : p < q ∧ q ≤ len := by
  have hone : 1 ≤ headerBytes mem p := by unfold headerBytes; split <;> omega
  obtain ⟨hp, h⟩ := h
  split at h <;> omega

/-- A datagram holds at most one message at a place. -/
theorem MessageAt.unique {p q q' : Nat} (h : MessageAt mem len p q) (h' : MessageAt mem len p q') :
    q = q' := by
  obtain ⟨-, h⟩ := h
  obtain ⟨-, h'⟩ := h'
  split at h
  · next hc => rw [if_pos hc] at h'; omega
  · next hc => rw [if_neg hc] at h'; omega

theorem reach_le {p q : Nat} (h : Relation.ReflTransGen (MessageAt mem len) p q) : p ≤ q := by
  induction h with
  | refl => exact Nat.le_refl _
  | tail _ hq ih => exact Nat.le_trans ih hq.le.1.le

/-- A header on the last byte whose second byte is behind it can be reached from `p`. -/
def Overruns (mem : Nat → u8) (len p : Nat) : Prop :=
  ∃ q, Relation.ReflTransGen (MessageAt mem len) p q ∧ q + 1 = len ∧ hasBit (mem q) cMask = true

theorem not_overruns_of_stop {p : Nat} (hstop : ∀ q, ¬ MessageAt mem len p q)
    (hok : ¬ (p + 1 = len ∧ hasBit (mem p) cMask = true)) : ¬ Overruns mem len p := by
  rintro ⟨q, hpq, hq⟩
  rcases Relation.ReflTransGen.cases_head hpq with rfl | ⟨r, hpr, -⟩
  · exact hok hq
  · exact hstop r hpr

theorem overruns_next {p q : Nat} (h : MessageAt mem len p q)
    (hok : ¬ (p + 1 = len ∧ hasBit (mem p) cMask = true)) :
    Overruns mem len p ↔ Overruns mem len q := by
  constructor
  · rintro ⟨r, hpr, hr⟩
    rcases Relation.ReflTransGen.cases_head hpr with rfl | ⟨q', hpq, hqr⟩
    · exact absurd hr hok
    · exact ⟨r, h.unique hpq ▸ hqr, hr⟩
  · rintro ⟨r, hqr, hr⟩
    exact ⟨r, .head h hqr, hr⟩

/-- From a message boundary on, the loop leaves the datagram exactly if it can reach a header
that overruns it. -/
theorem messageLoop_inside (hlen : len < 2 ^ 31) :
    ∀ (fuel : Nat) (s : LoopState σ), s.pos ≤ len → s.bytes = (len : Int) - s.pos →
      ∀ events recv, messageLoop R mem fuel s = some (events, recv) →
      ((∀ e ∈ events, e.Inside len) ↔ ¬ Overruns mem len s.pos) := by
  intro fuel
  induction fuel with
  | zero =>
    intro s hpos hb events recv h
    unfold messageLoop at h
    split at h
    · obtain ⟨rfl, rfl⟩ := Prod.mk.inj (Option.some.inj h)
      simp only [List.not_mem_nil, false_implies, implies_true, true_iff]
      rintro ⟨q, hq, hlast, -⟩
      have := reach_le hq
      omega
    · cases h
  | succ fuel ih =>
    intro s hpos hb events recv h
    unfold messageLoop at h
    split at h
    · obtain ⟨rfl, rfl⟩ := Prod.mk.inj (Option.some.inj h)
      simp only [List.not_mem_nil, false_implies, implies_true, true_iff]
      rintro ⟨q, hq, hlast, -⟩
      have := reach_le hq
      omega
    next hbytes =>
    by_cases hok : s.pos + 1 = len ∧ hasBit (mem s.pos) cMask = true
    · -- the second header byte is read past the end
      have hread := messageStep_overrun (R := R) (s := s) hok.1 hok.2
      have hev : Event.read len ∈ events := by
        rcases hstep : messageStep R mem s with ⟨ev, out⟩
        rw [hstep] at h hread
        cases out with
        | done recv' =>
          obtain ⟨rfl, -⟩ := Prod.mk.inj (Option.some.inj h)
          exact hread
        | next s' =>
          obtain ⟨r, -, hr⟩ := Option.map_eq_some_iff.mp h
          obtain ⟨rfl, -⟩ := Prod.mk.inj hr
          exact List.mem_append_left _ hread
      refine iff_of_false (fun hin => ?_) (not_not.mpr ⟨s.pos, .refl, hok⟩)
      have := hin _ hev
      simp only [Event.Inside] at this
      omega
    · obtain ⟨hin, hout⟩ := messageStep_spec (R := R) (s := s) hlen (by omega) hb hok
      rcases hstep : messageStep R mem s with ⟨ev, out⟩
      rw [hstep] at h hin hout
      cases out with
      | done recv' =>
        obtain ⟨rfl, -⟩ := Prod.mk.inj (Option.some.inj h)
        exact iff_of_true hin (not_overruns_of_stop hout hok)
      | next s' =>
        obtain ⟨⟨ev', recv'⟩, hloop, hr⟩ := Option.map_eq_some_iff.mp h
        obtain ⟨rfl, rfl⟩ := Prod.mk.inj hr
        rw [overruns_next hout.1 hok, ← ih s' hout.1.le.2 hout.2 ev' recv' hloop]
        constructor
        · intro hall e he
          exact hall e (List.mem_append_right _ he)
        · intro hall e he
          exact (List.mem_append.mp he).elim (hin e) (hall e)

end Step

/-- **Parser bounds.** The loop always ends, and everything it reads or hands to a handler lies
inside the datagram exactly when no header with the `C` bit is reached on the last byte. -/
theorem onTransportDatagram_bounds (R : Receiver σ) (buffer : RecvBuffer) (s : σ) :
    ∃ events recv, onTransportDatagram R buffer s = some (events, recv) ∧
      ((∀ e ∈ events, e.Inside buffer.dataBytes) ↔
        ¬ ∃ p, Boundary buffer p ∧ p + 1 = buffer.dataBytes ∧
          hasBit (buffer.mem p) cMask = true) := by
  have hfits := buffer.fits
  have hsome := messageLoop_isSome (R := R) buffer.mem buffer.dataBytes ⟨s, 0, buffer.dataBytes, 0, 0⟩
    (Int.le_refl _) (by simp only; omega)
  obtain ⟨⟨events, recv⟩, hloop⟩ := Option.isSome_iff_exists.mp hsome
  exact ⟨events, recv, hloop, messageLoop_inside hfits _ _ (Nat.zero_le _) (by simp) _ _ hloop⟩

/-- A receiver that does nothing. -/
def idleReceiver : Receiver Unit where
  nextRecvExpectedId _ _ := 0
  onCall _ _ _ := ()

/-- The datagram of the single byte `C | I | SOP_DATA`: its second header byte is read behind the
datagram, and four gigabytes are handed to the application. -/
theorem onTransportDatagram_lone_header :
    let buffer : RecvBuffer := ⟨fun _ => 0xA8, 1, by decide⟩
    onTransportDatagram idleReceiver buffer () =
      some ([.read 0, .read 1, .message ⟨false, 0, 0, .sopData, 2, 0xFFFFFFFF⟩,
        .call (.queueDelivery 0 2 0xFFFFFFFF)], ()) ∧
    ¬ (Event.read 1).Inside 1 ∧ ¬ (Event.call (.queueDelivery 0 2 0xFFFFFFFF)).Inside 1 := by
  refine ⟨by decide +kernel, by simp [Event.Inside], ?_⟩
  intro h
  have := h _ rfl
  revert this
  decide

end Libcat.Sphynx
