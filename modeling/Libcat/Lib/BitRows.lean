import Mathlib.Tactic

/-!
# Bits of words in a row

Words of 64 bits in a memory, and the bits of all words numbered one after the other.

- `Flips`: the bits that are exclusive-ored in between two memories.
- `placed`: bits from one on; `placed_xor` adds those of one word more.
- `placedRows`: bits in rows; `placedRows_xor` adds one row more.
- `getLsbD_shifted`: a word shifted up with what is left of the one before it.
-/

namespace Libcat.BitRows

variable {m m' m'' word : Nat → BitVec 64} {f g : Nat → Bool} {a n p s start : Nat}

/-- A bit of a memory. -/
def bitAt (m : Nat → BitVec 64) (p : Nat) : Bool := (m (p / 64)).getLsbD (p % 64)

/-- `m[a] ^= w`. -/
def xorAt (a : Nat) (w : BitVec 64) (m : Nat → BitVec 64) : Nat → BitVec 64 :=
  Function.update m a (m a ^^^ w)

/-- The bits with `f` are flipped. -/
def Flips (f : Nat → Bool) (m m' : Nat → BitVec 64) : Prop :=
  ∀ p, bitAt m' p = (bitAt m p ^^ f p)

theorem Flips.refl (hf : ∀ p, f p = false) (m : Nat → BitVec 64) : Flips f m m := fun p => by
  rw [hf, Bool.xor_false]

theorem Flips.trans (h : Flips f m m') (h' : Flips g m' m'') :
    Flips (fun p => f p ^^ g p) m m'' := fun p => by
  rw [h' p, h p, Bool.xor_assoc]

theorem Flips.congr (h : Flips f m m') (hfg : ∀ p, f p = g p) : Flips g m m' := fun p => by
  rw [h p, hfg]

theorem flips_xorAt (a : Nat) (w : BitVec 64) (m : Nat → BitVec 64) :
    Flips (fun p => decide (p / 64 = a) && w.getLsbD (p % 64)) m (xorAt a w m) := fun p => by
  show bitAt (xorAt a w m) p = (bitAt m p ^^ (decide (p / 64 = a) && w.getLsbD (p % 64)))
  unfold bitAt xorAt
  by_cases h : p / 64 = a
  · rw [h, Function.update_self, BitVec.getLsbD_xor, decide_eq_true (Eq.refl a), Bool.true_and]
  · rw [Function.update_of_ne h, decide_eq_false h, Bool.false_and, Bool.xor_false]

/-- `n` bits from `start` on. -/
def placed (start n : Nat) (bits : Nat → Bool) (p : Nat) : Bool :=
  decide (start ≤ p ∧ p < start + n) && bits (p - start)

theorem placed_zero (start : Nat) (bits : Nat → Bool) (p : Nat) :
    placed start 0 bits p = false := by
  rw [placed, decide_eq_false (by omega), Bool.false_and]

/-- More bits: those that are there, and those of one word more. -/
theorem placed_xor {bits : Nat → Bool} {n' : Nat} {w : BitVec 64} (hle : n ≤ n')
    (hold : ∀ p, p / 64 = a → ¬(start ≤ p ∧ p < start + n))
    (hnew : ∀ p, start + n ≤ p → p < start + n' → p / 64 = a)
    (hw : ∀ p, p / 64 = a → w.getLsbD (p % 64) = placed start n' bits p) (p : Nat) :
    (placed start n bits p ^^ (decide (p / 64 = a) && w.getLsbD (p % 64))) =
      placed start n' bits p := by
  by_cases h : p / 64 = a
  · rw [hw p h, decide_eq_true h, Bool.true_and, placed, decide_eq_false (hold p h),
      Bool.false_and, Bool.false_xor]
  · have hsame : (start ≤ p ∧ p < start + n) ↔ (start ≤ p ∧ p < start + n') := by
      constructor
      · rintro ⟨hlo, hhi⟩
        exact ⟨hlo, by omega⟩
      · rintro ⟨hlo, hhi⟩
        refine ⟨hlo, ?_⟩
        by_contra hge
        exact h (hnew p (by omega) hhi)
    rw [placed, placed, decide_eq_decide.mpr hsame, decide_eq_false h, Bool.false_and,
      Bool.xor_false]

/-- The first rows of `width` bits, each with `n` bits from `offset` on. -/
def placedRows (width offset n : Nat) (bits : Nat → Nat → Bool) (rows p : Nat) : Bool :=
  decide (p / width < rows) && placed offset n (bits (p / width)) (p % width)

/-- One row more. -/
theorem placedRows_xor {width offset : Nat} {bits : Nat → Nat → Bool} (hn : 0 < n)
    (hwidth : offset + n ≤ width) (row p : Nat) :
    (placedRows width offset n bits row p ^^ placed (offset + row * width) n (bits row) p) =
      placedRows width offset n bits (row + 1) p := by
  have hsplit := Nat.mod_add_div p width
  have hc : p % width < width := Nat.mod_lt p (by omega)
  unfold placedRows placed
  set q := p / width with hq
  set c := p % width with hcdef
  rcases Nat.lt_trichotomy q row with h | h | h
  · -- the row begins behind the bit
    have hbehind : width * (q + 1) ≤ row * width := by
      rw [Nat.mul_comm row]
      exact Nat.mul_le_mul_left width h
    rw [Nat.mul_succ] at hbehind
    rw [decide_eq_true h, decide_eq_true (Nat.lt_succ_of_lt h),
      decide_eq_false (show ¬(offset + row * width ≤ p ∧ _) by omega), Bool.false_and,
      Bool.xor_false]
  · rw [h, Nat.mul_comm] at hsplit
    have hsame : (offset + row * width ≤ p ∧ p < offset + row * width + n) ↔
        (offset ≤ c ∧ c < offset + n) := by omega
    rw [h, decide_eq_false (Nat.lt_irrefl row), decide_eq_true (Nat.lt_succ_self row),
      decide_eq_decide.mpr hsame, Bool.false_and, Bool.false_xor, Bool.true_and,
      show p - (offset + row * width) = c - offset by omega]
  · -- the row ends before the bit
    have hbefore : row * width + width ≤ width * q := by
      rw [Nat.mul_comm row, ← Nat.mul_succ]
      exact Nat.mul_le_mul_left width h
    rw [decide_eq_false (show ¬ q < row by omega), decide_eq_false (show ¬ q < row + 1 by omega),
      decide_eq_false (show ¬(_ ∧ p < offset + row * width + n) by omega), Bool.false_and,
      Bool.false_and, Bool.false_xor]

/-- The bits of a row. -/
theorem bitAt_row (m : Nat → BitVec 64) (r pitch c : Nat) :
    bitAt m (r * (64 * pitch) + c) = (m (r * pitch + c / 64)).getLsbD (c % 64) := by
  have hr : r * (64 * pitch) = 64 * (r * pitch) := by ring
  unfold bitAt
  rw [hr, show (64 * (r * pitch) + c) / 64 = r * pitch + c / 64 by omega,
    show (64 * (r * pitch) + c) % 64 = c % 64 by omega]

/-- The word before. -/
def prevWord (word : Nat → BitVec 64) : Nat → BitVec 64
  | 0 => 0
  | i + 1 => word i

/-- A word shifted up, with what is left of the one before. -/
theorem getLsbD_shifted (word : Nat → BitVec 64) (hs : 0 < s) (hs' : s < 64) (i : Nat) {b : Nat}
    (hb : b < 64) :
    ((prevWord word i >>> (64 - s)) ||| (word i <<< s)).getLsbD b =
      (decide (s ≤ 64 * i + b) && bitAt word (64 * i + b - s)) := by
  rw [BitVec.getLsbD_or, BitVec.getLsbD_ushiftRight, BitVec.getLsbD_shiftLeft, decide_eq_true hb,
    Bool.true_and]
  unfold bitAt
  by_cases hlow : b < s
  · rw [decide_eq_true hlow, Bool.not_true, Bool.false_and, Bool.or_false]
    cases i with
    | zero =>
      rw [decide_eq_false (show ¬ s ≤ 64 * 0 + b by omega), Bool.false_and]
      exact BitVec.getLsbD_zero
    | succ i =>
      rw [prevWord, decide_eq_true (by omega), Bool.true_and,
        show (64 * (i + 1) + b - s) / 64 = i by omega,
        show (64 * (i + 1) + b - s) % 64 = 64 - s + b by omega]
  · rw [decide_eq_false hlow, Bool.not_false, Bool.true_and, decide_eq_true (by omega),
      Bool.true_and, BitVec.getLsbD_of_ge _ _ (by omega), Bool.false_or,
      show (64 * i + b - s) / 64 = i by omega, show (64 * i + b - s) % 64 = b - s by omega]

/-- The first bits of a word; all of them for none. -/
def lastBits (write_count : Nat) (w : BitVec 64) : BitVec 64 :=
  if write_count = 0 then w else w &&& (((1 : BitVec 64) <<< write_count) - 1)

theorem getLsbD_lastBits {c : Nat} (hc : c < 64) (w : BitVec 64) (b : Nat) :
    (lastBits c w).getLsbD b = (w.getLsbD b && decide (c = 0 ∨ b < c)) := by
  unfold lastBits
  by_cases h : c = 0
  · rw [if_pos h, decide_eq_true (Or.inl h), Bool.and_true]
  · have hmask : ((1 : BitVec 64) <<< c - 1).toNat = 2 ^ c - 1 := by
      have hpow : 2 ^ c < 2 ^ 64 := Nat.pow_lt_pow_right (by decide) hc
      have hone : (1 : BitVec 64).toNat = 1 := rfl
      have hshift : ((1 : BitVec 64) <<< c).toNat = 2 ^ c := by
        rw [BitVec.toNat_shiftLeft, hone, Nat.one_shiftLeft, Nat.mod_eq_of_lt hpow]
      have hpos := Nat.two_pow_pos c
      rw [BitVec.toNat_sub_of_le (by rw [BitVec.le_def, hshift, hone]; omega), hshift, hone]
    rw [if_neg h, BitVec.getLsbD_and]
    congr 1
    rw [BitVec.getLsbD, hmask, Nat.testBit_two_pow_sub_one]
    simp [h]

end Libcat.BitRows
