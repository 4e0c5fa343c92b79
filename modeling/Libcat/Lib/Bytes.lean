import Mathlib.Data.BitVec
import Mathlib.Tactic

/-!
# Little-endian words

`toBytes n x` is the low `n` bytes of `x`, the lowest first, and `ofBytes` puts a word together
again. `ofBytes_toBytes` is the round trip for a word that fits `n` bytes.
-/

namespace Libcat.Bytes

variable {w : Nat}

/-- The low `n` bytes of `x`, lowest first. -/
def toBytes : Nat → BitVec w → List (BitVec 8)
  | 0, _ => []
  | n + 1, x => x.setWidth 8 :: toBytes n (x >>> 8)

/-- The word with the given bytes, lowest first. -/
def ofBytes : List (BitVec 8) → BitVec w
  | [] => 0
  | b :: bs => b.setWidth w ||| (ofBytes bs <<< 8)

@[simp] theorem length_toBytes (n : Nat) (x : BitVec w) : (toBytes n x).length = n := by
  induction n generalizing x with
  | zero => rfl
  | succ n ih => simp [toBytes, ih]

/-- A word is its low byte and the rest. -/
theorem low_byte_or (x : BitVec w) : (x.setWidth 8).setWidth w ||| (x >>> 8 <<< 8) = x := by
  apply BitVec.eq_of_getLsbD_eq
  intro i hi
  by_cases h : i < 8
  · simp [h, hi]
  · simp [h, hi, show 8 + (i - 8) = i by omega]

theorem ofBytes_toBytes {n : Nat} {x : BitVec w} (h : x.toNat < 2 ^ (8 * n)) :
    ofBytes (toBytes n x) = x := by
  induction n generalizing x with
  | zero => exact (BitVec.eq_of_toNat_eq (by simpa [toBytes, ofBytes] using h)).symm
  | succ n ih =>
    have : (x >>> 8).toNat < 2 ^ (8 * n) := by
      rw [BitVec.toNat_ushiftRight, Nat.shiftRight_eq_div_pow]
      apply Nat.div_lt_of_lt_mul
      rwa [← Nat.pow_add, show 8 + 8 * n = 8 * (n + 1) by omega]
    rw [toBytes, ofBytes, ih this, low_byte_or]

end Libcat.Bytes
