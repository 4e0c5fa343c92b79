import Libcat.Math.BitMath

/-!
# Constants and small types of the Sphynx transport

From `Common.hpp` and `Transport.hpp`. Sizes and offsets are natural numbers, ids are 32-bit
words, flags of header bytes are tested by mask as in the source. Where the source subtracts
unsigned sizes and could wrap, `subU32` is the subtraction.
-/

namespace Libcat.Sphynx

def bloMask : u8 := 7
def bhiShift : Nat := 3
def iMask : u8 := 0x08
def rMask : u8 := 0x10
def cMask : u8 := 0x80
def sopShift : Nat := 5
def hdrNop : u8 := 0

def maxAckIdBytes : Nat := 3
def maxMessageHeaderBytes : Nat := 2
def fragHeaderBytes : Nat := 4
def fragThreshold : Nat := 32
def outOfOrderLimit : Nat := 4096
def outOfOrderLoops : Nat := 32
def numStreams : Nat := 4
def streamUnordered : Nat := 0
def maximumMtu : Nat := 1500
def minimumMtu : Nat := 576
def maxMessageSize : Nat := 65535

/-- The super opcodes, in the order of their codes. -/
inductive SuperOpcode where
  | sopInternal
  | sopData
  | sopFrag
  | sopAck
deriving DecidableEq, Repr

namespace SuperOpcode

def code : SuperOpcode → u8
  | sopInternal => 0
  | sopData => 1
  | sopFrag => 2
  | sopAck => 3

/-- `(hdr >> SOP_SHIFT) & SOP_MASK`. -/
def ofHdr (hdr : u8) : SuperOpcode :=
  match ((hdr >>> sopShift) &&& 3).toNat with
  | 0 => sopInternal
  | 1 => sopData
  | 2 => sopFrag
  | _ => sopAck

end SuperOpcode

/-- Is a masked bit of a byte set? -/
def hasBit (x mask : u8) : Bool := x &&& mask != 0

/-- `a - b` of `u32` values. -/
def subU32 (a b : Nat) : Nat := (a + 2 ^ 32 - b % 2 ^ 32) % 2 ^ 32

theorem subU32_of_le {a b : Nat} (h : b ≤ a) (ha : a < 2 ^ 32) : subU32 a b = a - b := by
  unfold subU32
  omega

/-- `n` bytes of memory from `pos` on. -/
def slice (mem : Nat → u8) (pos n : Nat) : List u8 := (List.range n).map fun i => mem (pos + i)

@[simp] theorem length_slice (mem : Nat → u8) (pos n : Nat) : (slice mem pos n).length = n := by
  simp [slice]

end Libcat.Sphynx
