import Libcat.Fec.ColumnWalk
import Libcat.Fec.ShuffleDeck
import Libcat.Lib.BitRows

/-!
# AddInvertibleGF2Matrix

A square matrix of bits is added to the columns of the matrix of the solver from `offset` on. The rows
of a small matrix are words of a generator, shifted where the columns do not begin with a word; a large
one is the identity. `addInvertibleGF2Matrix_flips` says which bits are flipped.
-/

namespace Libcat.Fec.InvertibleMatrix

open BitRows ColumnWalk ShuffleDeck
open scoped List

section Model

def INVERTIBLE_MATRIX_SEEDS : List Nat := [
  0, 0, 2, 2, 10, 5, 6, 1, 2, 0, 0, 3, 5, 0, 0, 1, 0, 0, 0, 3, 0, 1, 2, 3, 0, 1, 6, 6, 1, 6, 0, 0,
  0, 4, 2, 7, 0, 2, 4, 2, 1, 1, 0, 0, 2, 12, 11, 3, 3, 3, 2, 1, 1, 4, 4, 1, 13, 2, 2, 1, 3, 2, 1, 1,
  3, 1, 0, 0, 1, 0, 0, 10, 8, 6, 0, 7, 3, 0, 1, 1, 0, 2, 6, 3, 2, 2, 1, 0, 5, 2, 5, 1, 1, 2, 4, 1,
  2, 1, 0, 0, 0, 2, 0, 5, 9, 17, 5, 1, 2, 2, 5, 4, 4, 4, 4, 4, 1, 2, 2, 2, 1, 0, 1, 0, 3, 2, 2, 0,
  1, 4, 1, 3, 1, 17, 3, 0, 0, 0, 0, 2, 2, 0, 0, 0, 1, 11, 4, 2, 4, 2, 1, 8, 2, 1, 1, 2, 6, 3, 0, 4,
  3, 10, 5, 3, 3, 1, 0, 1, 2, 6, 10, 10, 6, 0, 0, 0, 0, 0, 0, 1, 4, 2, 1, 2, 2, 12, 2, 2, 4, 0, 0,
  2, 0, 7, 12, 1, 1, 1, 0, 6, 8, 0, 0, 0, 0, 2, 1, 8, 6, 2, 0, 5, 4, 2, 7, 2, 10, 4, 2, 6, 4, 6, 6,
  1, 0, 0, 0, 0, 3, 1, 0, 4, 2, 6, 1, 1, 4, 2, 5, 1, 4, 1, 0, 0, 1, 8, 0, 0, 6, 0, 17, 4, 9, 8, 4,
  4, 3, 0, 0, 3, 1, 4, 3, 3, 0, 0, 3, 0, 0, 0, 3, 4, 4, 4, 3, 0, 0, 12, 1, 1, 2, 5, 8, 4, 8, 6, 2,
  2, 0, 0, 0, 13, 0, 3, 4, 2, 2, 1, 6, 13, 3, 12, 0, 0, 3, 7, 8, 2, 2, 2, 0, 0, 4, 0, 0, 0, 2, 0, 3,
  6, 7, 1, 0, 2, 2, 4, 4, 3, 6, 3, 6, 4, 4, 1, 3, 7, 1, 0, 0, 0, 1, 3, 0, 5, 4, 4, 4, 3, 1, 1, 7,
  13, 4, 6, 1, 1, 2, 2, 2, 5, 7, 1, 0, 0, 2, 2, 1, 2, 1, 6, 6, 6, 2, 2, 2, 5, 3, 2, 0, 0, 0, 0, 0,
  0, 0, 0, 2, 3, 2, 2, 0, 4, 0, 0, 4, 2, 0, 0, 0, 2, 4, 1, 2, 3, 1, 1, 1, 1, 1, 1, 1, 1, 4, 0, 0, 0,
  1, 1, 0, 0, 0, 0, 0, 4, 3, 0, 0, 0, 0, 4, 0, 0, 4, 5, 2, 0, 1, 0, 0, 1, 7, 1, 0, 0, 0, 0, 1, 1, 1,
  6, 3, 0, 0, 1, 3, 2, 0, 3, 0, 2, 1, 1, 1, 0, 0, 0, 0, 0, 0, 8, 0, 0, 6, 4, 1, 3, 5, 3, 0, 1, 1, 6,
  3, 3, 5, 2, 2, 9, 5, 1, 2, 2, 1, 1, 1, 1, 1, 1, 2, 2, 1, 3, 1, 0, 0, 4, 1, 7, 0, 0, 0, 0]

/-- The two outputs of the generator that make a word. -/
def nextWord (prng : Abyssinian) : u64 × Abyssinian :=
  let (rv1, prng) := prng.next
  let (rv2, prng) := prng.next
  ((rv2.setWidth 64 <<< 32) ||| rv1.setWidth 64, prng)

/-- The loop over the words of a row but the last, shifted; it keeps the last word. -/
def addShifted (shift row : Nat) (prng : Abyssinian) (matrix : Nat → u64) :
    Nat → u64 × Abyssinian × (Nat → u64)
  | 0 => (0, prng, matrix)
  | ii + 1 =>
    let (prev, prng, matrix) := addShifted shift row prng matrix ii
    let (word, prng) := nextWord prng
    (word, prng, xorAt (row + ii) ((prev >>> (64 - shift)) ||| (word <<< shift)) matrix)

/-- A row where the shift is not zero. -/
def addShiftedRow (shift n row : Nat) (prng : Abyssinian) (matrix : Nat → u64) :
    Abyssinian × (Nat → u64) :=
  let add_pitch := (n + 63) / 64
  let (prev, prng, matrix) := addShifted shift row prng matrix (add_pitch - 1)
  let (word, prng) := nextWord prng
  let last_bit := (shift + n + 63) / 64
  let write_count := (shift + n) % 64
  if last_bit > add_pitch then
    let matrix :=
      xorAt (row + (add_pitch - 1)) ((prev >>> (64 - shift)) ||| (word <<< shift)) matrix
    (prng, xorAt (row + add_pitch) (lastBits write_count (word >>> (64 - shift))) matrix)
  else
    (prng, xorAt (row + (add_pitch - 1))
      (lastBits write_count ((prev >>> (64 - shift)) ||| (word <<< shift))) matrix)

/-- The loop over the words of a row but the last. -/
def addAligned (row : Nat) (prng : Abyssinian) (matrix : Nat → u64) :
    Nat → Abyssinian × (Nat → u64)
  | 0 => (prng, matrix)
  | ii + 1 =>
    let (prng, matrix) := addAligned row prng matrix ii
    let (word, prng) := nextWord prng
    (prng, xorAt (row + ii) word matrix)

/-- A row where the shift is zero. -/
def addAlignedRow (n row : Nat) (prng : Abyssinian) (matrix : Nat → u64) :
    Abyssinian × (Nat → u64) :=
  let add_pitch := (n + 63) / 64
  let (prng, matrix) := addAligned row prng matrix (add_pitch - 1)
  let (word, prng) := nextWord prng
  (prng, xorAt (row + (add_pitch - 1)) (lastBits (n % 64) word) matrix)

/-- The loop over the rows. -/
def addRows (addRow : Nat → Abyssinian → (Nat → u64) → Abyssinian × (Nat → u64)) (row pitch : Nat)
    (prng : Abyssinian) (matrix : Nat → u64) : Nat → Abyssinian × (Nat → u64)
  | 0 => (prng, matrix)
  | row_i + 1 =>
    let (prng, matrix) := addRows addRow row pitch prng matrix row_i
    addRow (row + row_i * pitch) prng matrix

/-- The loop over the diagonal. -/
def addDiagonal (offset pitch : Nat) (matrix : Nat → u64) : Nat → (Nat → u64)
  | 0 => matrix
  | ii + 1 =>
    let column_i := offset + ii
    xorAt (ii * pitch + column_i / 64) ((1 : u64) <<< (column_i % 64))
      (addDiagonal offset pitch matrix ii)

/-- `AddInvertibleGF2Matrix`. -/
def addInvertibleGF2Matrix (matrix : Nat → u64) (offset pitch n : Nat) : Bool × (Nat → u64) :=
  if n = 0 then (false, matrix)
  else if n < 512 then
    let seed : u32 := BitVec.ofNat 32 (INVERTIBLE_MATRIX_SEEDS.getD n 0)
    let prng := Abyssinian.start seed seed
    let shift := offset % 64
    let row := offset / 64
    if shift > 0 then (true, (addRows (addShiftedRow shift n) row pitch prng matrix n).2)
    else (true, (addRows (addAlignedRow n) row pitch prng matrix n).2)
  else (true, addDiagonal offset pitch matrix n)

end Model

section Spec

variable {shift n row k : Nat} {prng : Abyssinian} {matrix : Nat → u64}

/-- The generator after some words. -/
def skip (k : Nat) (prng : Abyssinian) : Abyssinian := (fun o => (nextWord o).2)^[k] prng

/-- The words of a generator. -/
def wordAt (prng : Abyssinian) (i : Nat) : u64 := (nextWord (skip i prng)).1

theorem skip_succ (k : Nat) (prng : Abyssinian) :
    skip (k + 1) prng = (nextWord (skip k prng)).2 :=
  Function.iterate_succ_apply' _ _ _

theorem skip_skip (j k : Nat) (prng : Abyssinian) : skip j (skip k prng) = skip (j + k) prng :=
  (Function.iterate_add_apply _ j k prng).symm

/-- A shifted word of the generator is the next word of the row. -/
theorem shifted_bit (hs : 0 < shift) (hs' : shift < 64) {p : Nat} (hp : p / 64 = row + k) :
    ((prevWord (wordAt prng) k >>> (64 - shift)) ||| (wordAt prng k <<< shift)).getLsbD (p % 64) =
      (decide (64 * row + shift ≤ p) && bitAt (wordAt prng) (p - (64 * row + shift))) := by
  have hlow : shift ≤ 64 * k + p % 64 ↔ 64 * row + shift ≤ p := by omega
  rw [getLsbD_shifted (wordAt prng) hs hs' k (Nat.mod_lt p (by decide)), decide_eq_decide.mpr hlow,
    show 64 * k + p % 64 - shift = p - (64 * row + shift) by omega]

theorem addShifted_spec (hs : 0 < shift) (hs' : shift < 64) (row : Nat) (prng : Abyssinian)
    (matrix : Nat → u64) (k : Nat) :
    (addShifted shift row prng matrix k).1 = prevWord (wordAt prng) k ∧
      (addShifted shift row prng matrix k).2.1 = skip k prng ∧
      Flips (placed (64 * row + shift) (64 * k - shift) (bitAt (wordAt prng))) matrix
        (addShifted shift row prng matrix k).2.2 := by
  induction k with
  | zero =>
    refine ⟨rfl, rfl, ?_⟩
    rw [Nat.mul_zero, Nat.zero_sub]
    exact .refl (placed_zero _ _) matrix
  | succ k ih =>
    rcases hrun : addShifted shift row prng matrix k with ⟨prev, prng', matrix'⟩
    rw [hrun] at ih
    obtain ⟨rfl, rfl, hflips⟩ := ih
    unfold addShifted
    rw [hrun]
    refine ⟨rfl, (skip_succ k prng).symm, ?_⟩
    refine (hflips.trans (flips_xorAt _ _ _)).congr (placed_xor (by omega) ?_ ?_ fun p hp => ?_)
    · intro p hp
      omega
    · intro p hlo hhi
      omega
    · refine (shifted_bit hs hs' hp).trans ?_
      rw [placed, decide_eq_decide.mpr (show 64 * row + shift ≤ p ↔ 64 * row + shift ≤ p ∧
        p < 64 * row + shift + (64 * (k + 1) - shift) by omega)]

/-- A row of the matrix, shifted: `n` bits of the words, from the shift on. -/
theorem addShiftedRow_spec (hn : 0 < n) (hs : 0 < shift) (hs' : shift < 64) (row : Nat)
    (prng : Abyssinian) (matrix : Nat → u64) :
    (addShiftedRow shift n row prng matrix).1 = skip ((n + 63) / 64) prng ∧
      Flips (placed (64 * row + shift) n (bitAt (wordAt prng))) matrix
        (addShiftedRow shift n row prng matrix).2 := by
  obtain ⟨k, hk⟩ : ∃ k, (n + 63) / 64 = k + 1 := ⟨(n + 63) / 64 - 1, by omega⟩
  obtain ⟨hprev, hprng, hflips⟩ := addShifted_spec hs hs' row prng matrix k
  have hshift : ∀ p, p / 64 = row + k →
      ((prevWord (wordAt prng) k >>> (64 - shift)) ||| (wordAt prng k <<< shift)).getLsbD (p % 64) =
        (decide (64 * row + shift ≤ p) && bitAt (wordAt prng) (p - (64 * row + shift))) :=
    fun p hp => shifted_bit hs hs' hp
  unfold addShiftedRow
  simp only [hk, Nat.add_sub_cancel, hprev, hprng]
  by_cases hlast : (shift + n + 63) / 64 > k + 1
  · rw [if_pos hlast]
    refine ⟨(skip_succ k prng).symm, ?_⟩
    -- the last word of the generator goes into two words of the row
    have hfull : Flips (placed (64 * row + shift) (64 * (k + 1) - shift) (bitAt (wordAt prng))) matrix
        (xorAt (row + k) ((prevWord (wordAt prng) k >>> (64 - shift)) ||| (wordAt prng k <<< shift))
          (addShifted shift row prng matrix k).2.2) := by
      refine (hflips.trans (flips_xorAt (row + k) _ _)).congr
        (placed_xor (by omega) (fun p hp => by omega) (fun p hlo hhi => by omega) fun p hp => ?_)
      rw [hshift p hp, placed, decide_eq_decide.mpr (show 64 * row + shift ≤ p ↔
        64 * row + shift ≤ p ∧ p < 64 * row + shift + (64 * (k + 1) - shift) by omega)]
    refine (hfull.trans (flips_xorAt _ _ _)).congr
      (placed_xor (by omega) (fun p hp => by omega) (fun p hlo hhi => by omega) fun p hp => ?_)
    rw [getLsbD_lastBits (Nat.mod_lt _ (by decide)), BitVec.getLsbD_ushiftRight, placed]
    by_cases hb : p % 64 < (shift + n) % 64
    · rw [decide_eq_true (Or.inr hb), decide_eq_true (by omega), Bool.and_true, Bool.true_and, bitAt,
        show (p - (64 * row + shift)) / 64 = k by omega,
        show (p - (64 * row + shift)) % 64 = 64 - shift + p % 64 by omega]
      rfl
    · rw [decide_eq_false (show ¬((shift + n) % 64 = 0 ∨ p % 64 < (shift + n) % 64) by omega),
        decide_eq_false (by omega), Bool.and_false, Bool.false_and]
  · rw [if_neg hlast]
    refine ⟨(skip_succ k prng).symm, ?_⟩
    refine (hflips.trans (flips_xorAt _ _ _)).congr
      (placed_xor (by omega) (fun p hp => by omega) (fun p hlo hhi => by omega) fun p hp => ?_)
    have hcut : 64 * row + shift ≤ p ∧ p < 64 * row + shift + n ↔ 64 * row + shift ≤ p ∧
        ((shift + n) % 64 = 0 ∨ p % 64 < (shift + n) % 64) := by omega
    rw [getLsbD_lastBits (Nat.mod_lt _ (by decide))]
    refine (congrArg (· && _) (hshift p hp)).trans ?_
    rw [placed, decide_eq_decide.mpr hcut, Bool.decide_and, Bool.and_right_comm]

theorem addAligned_spec (row : Nat) (prng : Abyssinian) (matrix : Nat → u64) (k : Nat) :
    (addAligned row prng matrix k).1 = skip k prng ∧
      Flips (placed (64 * row) (64 * k) (bitAt (wordAt prng))) matrix
        (addAligned row prng matrix k).2 := by
  induction k with
  | zero => exact ⟨rfl, .refl (placed_zero _ _) matrix⟩
  | succ k ih =>
    rcases hrun : addAligned row prng matrix k with ⟨prng', matrix'⟩
    rw [hrun] at ih
    obtain ⟨rfl, hflips⟩ := ih
    unfold addAligned
    rw [hrun]
    refine ⟨(skip_succ k prng).symm, ?_⟩
    refine (hflips.trans (flips_xorAt _ _ _)).congr
      (placed_xor (by omega) (fun p hp => by omega) (fun p hlo hhi => by omega) fun p hp => ?_)
    rw [placed, decide_eq_true (by omega), Bool.true_and, bitAt,
      show (p - 64 * row) / 64 = k by omega, show (p - 64 * row) % 64 = p % 64 by omega]
    rfl

/-- A row of the matrix where the columns begin with a word. -/
theorem addAlignedRow_spec (hn : 0 < n) (row : Nat) (prng : Abyssinian) (matrix : Nat → u64) :
    (addAlignedRow n row prng matrix).1 = skip ((n + 63) / 64) prng ∧
      Flips (placed (64 * row) n (bitAt (wordAt prng))) matrix
        (addAlignedRow n row prng matrix).2 := by
  obtain ⟨k, hk⟩ : ∃ k, (n + 63) / 64 = k + 1 := ⟨(n + 63) / 64 - 1, by omega⟩
  obtain ⟨hprng, hflips⟩ := addAligned_spec row prng matrix k
  unfold addAlignedRow
  simp only [hk, Nat.add_sub_cancel, hprng]
  refine ⟨(skip_succ k prng).symm, ?_⟩
  refine (hflips.trans (flips_xorAt _ _ _)).congr
    (placed_xor (by omega) (fun p hp => by omega) (fun p hlo hhi => by omega) fun p hp => ?_)
  have hcut : 64 * row ≤ p ∧ p < 64 * row + n ↔ n % 64 = 0 ∨ p % 64 < n % 64 := by omega
  rw [getLsbD_lastBits (Nat.mod_lt _ (by decide)), placed, decide_eq_decide.mpr hcut, bitAt,
    show (p - 64 * row) / 64 = k by omega, show (p - 64 * row) % 64 = p % 64 by omega,
    Bool.and_comm]
  rfl

/-- The rows of a matrix that is made of the words of a generator. -/
def wordRows (prng : Abyssinian) (add_pitch row_i : Nat) : Nat → Bool :=
  bitAt (wordAt (skip (row_i * add_pitch) prng))

/-- The loop over the rows, with rows that do what they should. -/
theorem addRows_spec {addRow : Nat → Abyssinian → (Nat → u64) → Abyssinian × (Nat → u64)}
    {shift row pitch offset : Nat} (hn : 0 < n)
    (hrow : ∀ row prng matrix, (addRow row prng matrix).1 = skip ((n + 63) / 64) prng ∧
      Flips (placed (64 * row + shift) n (bitAt (wordAt prng))) matrix (addRow row prng matrix).2)
    (hoffset : 64 * row + shift = offset) (hpitch : offset + n ≤ 64 * pitch) (prng : Abyssinian)
    (matrix : Nat → u64) (rows : Nat) :
    (addRows addRow row pitch prng matrix rows).1 = skip (rows * ((n + 63) / 64)) prng ∧
      Flips (placedRows (64 * pitch) offset n (wordRows prng ((n + 63) / 64)) rows) matrix
        (addRows addRow row pitch prng matrix rows).2 := by
  induction rows with
  | zero =>
    rw [Nat.zero_mul]
    refine ⟨rfl, .refl (fun p => ?_) matrix⟩
    rw [placedRows, decide_eq_false (Nat.not_lt_zero _), Bool.false_and]
  | succ rows ih =>
    rcases hrun : addRows addRow row pitch prng matrix rows with ⟨prng', matrix'⟩
    rw [hrun] at ih
    obtain ⟨rfl, hflips⟩ := ih
    unfold addRows
    rw [hrun]
    obtain ⟨hprng, hnew⟩ := hrow (row + rows * pitch) (skip (rows * ((n + 63) / 64)) prng) matrix'
    have hstart : 64 * (row + rows * pitch) + shift = offset + rows * (64 * pitch) := by
      rw [← hoffset]
      ring
    rw [hstart] at hnew
    refine ⟨?_, (hflips.trans hnew).congr (placedRows_xor hn hpitch rows)⟩
    refine hprng.trans ?_
    rw [skip_skip, Nat.succ_mul, Nat.add_comm]

/-- The identity. -/
def diagonal (ii jj : Nat) : Bool := decide (jj = ii)

theorem getLsbD_one_shiftLeft {c : Nat} (hc : c < 64) (b : Nat) :
    ((1 : u64) <<< c).getLsbD b = decide (b = c) := by
  have h := BitVec.getLsbD_twoPow (w := 64) c b
  rw [decide_eq_true hc, Bool.true_and] at h
  exact h.trans (decide_eq_decide.mpr eq_comm)

theorem addDiagonal_spec {offset pitch : Nat} (hpitch : offset + n ≤ 64 * pitch)
    (matrix : Nat → u64) {rows : Nat} (hrows : rows ≤ n) :
    Flips (placedRows (64 * pitch) offset n diagonal rows) matrix
      (addDiagonal offset pitch matrix rows) := by
  induction rows with
  | zero =>
    refine .refl (fun p => ?_) matrix
    rw [placedRows, decide_eq_false (Nat.not_lt_zero _), Bool.false_and]
  | succ rows ih =>
    have hnew : Flips (placed (offset + rows * (64 * pitch)) n (diagonal rows))
        (addDiagonal offset pitch matrix rows) (addDiagonal offset pitch matrix (rows + 1)) := by
      refine (flips_xorAt _ _ _).congr fun p => ?_
      have hwidth : rows * (64 * pitch) = 64 * (rows * pitch) := by ring
      have hat : offset + rows * (64 * pitch) ≤ p ∧ p < offset + rows * (64 * pitch) + n ∧
          p - (offset + rows * (64 * pitch)) = rows ↔
          p / 64 = rows * pitch + (offset + rows) / 64 ∧ p % 64 = (offset + rows) % 64 := by
        omega
      rw [getLsbD_one_shiftLeft (Nat.mod_lt _ (by decide)), placed, diagonal, ← Bool.decide_and,
        ← Bool.decide_and]
      exact decide_eq_decide.mpr (hat.symm.trans and_assoc.symm)
    exact ((ih (by omega)).trans hnew).congr (placedRows_xor (by omega) hpitch rows)

/-- The rows of the matrix that is added. -/
def invertibleRows (n : Nat) : Nat → Nat → Bool :=
  if n < 512 then
    let seed : u32 := BitVec.ofNat 32 (INVERTIBLE_MATRIX_SEEDS.getD n 0)
    wordRows (Abyssinian.start seed seed) ((n + 63) / 64)
  else diagonal

/-- `AddInvertibleGF2Matrix` flips the bits of one matrix, at its columns. -/
theorem addInvertibleGF2Matrix_flips (hn : 0 < n) {offset pitch : Nat}
    (hpitch : offset + n ≤ 64 * pitch) (matrix : Nat → u64) :
    (addInvertibleGF2Matrix matrix offset pitch n).1 = true ∧
      Flips (placedRows (64 * pitch) offset n (invertibleRows n) n) matrix
        (addInvertibleGF2Matrix matrix offset pitch n).2 := by
  unfold addInvertibleGF2Matrix invertibleRows
  rw [if_neg hn.ne']
  by_cases hsmall : n < 512
  · rw [if_pos hsmall, if_pos hsmall]
    dsimp only
    by_cases hs : offset % 64 > 0
    · rw [if_pos hs]
      exact ⟨rfl, (addRows_spec hn
        (addShiftedRow_spec hn hs (Nat.mod_lt offset (by decide))) (by omega) hpitch _ matrix n).2⟩
    · rw [if_neg hs]
      have haligned : 64 * (offset / 64) + 0 = offset := by omega
      exact ⟨rfl, (addRows_spec hn (addAlignedRow_spec hn) haligned hpitch _ matrix n).2⟩
  · rw [if_neg hsmall, if_neg hsmall]
    exact ⟨rfl, addDiagonal_spec hpitch matrix le_rfl⟩

/-- A bit of a matrix of rows of `pitch` words. -/
def cell (matrix : Nat → u64) (pitch row_i column_i : Nat) : Bool :=
  (matrix (row_i * pitch + column_i / 64)).getLsbD (column_i % 64)

theorem addInvertibleGF2Matrix_cell (hn : 0 < n) {offset pitch : Nat}
    (hpitch : offset + n ≤ 64 * pitch) (matrix : Nat → u64) (row_i : Nat) {column_i : Nat}
    (hcolumn : column_i < 64 * pitch) :
    cell (addInvertibleGF2Matrix matrix offset pitch n).2 pitch row_i column_i =
      (cell matrix pitch row_i column_i ^^
        (decide (row_i < n ∧ offset ≤ column_i ∧ column_i < offset + n) &&
          invertibleRows n row_i (column_i - offset))) := by
  have hflip := (addInvertibleGF2Matrix_flips hn hpitch matrix).2 (row_i * (64 * pitch) + column_i)
  have hrow : (row_i * (64 * pitch) + column_i) / (64 * pitch) = row_i := by
    rw [Nat.mul_comm, Nat.mul_add_div (by omega), Nat.div_eq_of_lt hcolumn, Nat.add_zero]
  have hrest : (row_i * (64 * pitch) + column_i) % (64 * pitch) = column_i := by
    rw [Nat.mul_comm, Nat.mul_add_mod, Nat.mod_eq_of_lt hcolumn]
  rw [bitAt_row, bitAt_row, placedRows, placed, hrow, hrest, ← Bool.and_assoc,
    ← Bool.decide_and] at hflip
  exact hflip

/-- **The helpers of the dense rows.** `ShuffleDeck16` terminates and writes the first `count` places.
They get the numbers below `count` as far as 16 bits can hold them, which is a permutation of the
places exactly up to 65536. `AddInvertibleGF2Matrix` adds the bits of one matrix for each size to the
columns from `offset` on of the first rows, and no other. -/
theorem dense_matrix_helpers :
    (∀ (σ : Type) (next : σ → u32 × σ) (prng : σ) (deck : Deck) (count : u32), 1 ≤ count.toNat →
      ∀ fuel, count.toNat ≤ fuel →
        ∃ prng' deck', shuffleDeck16 next fuel prng deck count = some (prng', deck') ∧
          (∀ i, count.toNat ≤ i → deck' i = deck i) ∧
          ((List.range count.toNat).map fun i => (deck' i).toNat) ~
            (List.range count.toNat).map (· % 0x10000) ∧
          (((List.range count.toNat).map fun i => (deck' i).toNat) ~ List.range count.toNat ↔
            count.toNat ≤ 0x10000)) ∧
      ∀ n, 1 ≤ n → ∃ bits : Nat → Nat → Bool, ∀ (matrix : Nat → u64) (offset pitch : Nat),
        offset + n ≤ 64 * pitch →
          (addInvertibleGF2Matrix matrix offset pitch n).1 = true ∧
          ∀ row_i column_i, column_i < 64 * pitch →
            cell (addInvertibleGF2Matrix matrix offset pitch n).2 pitch row_i column_i =
              (cell matrix pitch row_i column_i ^^
                (decide (row_i < n ∧ offset ≤ column_i ∧ column_i < offset + n) &&
                  bits row_i (column_i - offset))) := by
  refine ⟨fun σ next prng deck count hcount fuel hfuel => ?_, fun n hn => ?_⟩
  · obtain ⟨prng', deck', hrun, hdealt⟩ := shuffleDeck16_spec next prng deck hcount hfuel
    exact ⟨prng', deck', hrun, hdealt.rest, hdealt.shown, hdealt.range_iff⟩
  · refine ⟨invertibleRows n, fun matrix offset pitch hpitch => ?_⟩
    exact ⟨(addInvertibleGF2Matrix_flips hn hpitch matrix).1, fun row_i column_i hcolumn =>
      addInvertibleGF2Matrix_cell hn hpitch matrix row_i hcolumn⟩

/-- A deck of ten from a generator of zeroes. -/
theorem dense_matrix_helpers_ten :
    ∃ prng' deck', shuffleDeck16 (fun prng : Unit => ((0 : u32), prng)) 10 () (fun _ => 0) 10 =
        some (prng', deck') ∧
      ((List.range 10).map fun i => (deck' i).toNat) ~ List.range 10 := by
  obtain ⟨prng', deck', hrun, -, -, hperm⟩ :=
    dense_matrix_helpers.1 Unit (fun prng => (0, prng)) () (fun _ => 0) 10 (by decide) 10 (by decide)
  exact ⟨prng', deck', hrun, hperm.mpr (by decide)⟩

/-- One card more than there are numbers for. -/
theorem not_dense_matrix_helpers :
    ∃ prng' deck', shuffleDeck16 (fun prng : Unit => ((0 : u32), prng)) 65537 () (fun _ => 0) 65537 =
        some (prng', deck') ∧
      ¬ ((List.range 65537).map fun i => (deck' i).toNat) ~ List.range 65537 := by
  obtain ⟨prng', deck', hrun, hdealt⟩ :=
    shuffleDeck16_spec (fun prng : Unit => ((0 : u32), prng)) () (fun _ => 0)
      (show 0 < (65537 : u32).toNat by decide) (Nat.le_refl 65537)
  exact ⟨prng', deck', hrun, fun hperm => absurd (hdealt.range_iff.mp hperm) (by decide)⟩

end Spec

end Libcat.Fec.InvertibleMatrix
