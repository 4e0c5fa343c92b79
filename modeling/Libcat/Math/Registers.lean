import Libcat.Lib.Window
import Libcat.Math.BigRTL

/-!
# Registers in memory

The functions of `BigRTL` that work on parts of a register or on several at once, over the memory that
holds them all. Addresses count legs. Comparisons, used legs, shifts and trailing zeroes, each with what
it does to the values of windows.
-/

namespace Libcat.Math.Registers

open Radix Window BigRTL

variable {build : Build}

/-- `library_memory`, by legs. -/
abbrev Mem (build : Build) := Nat → Leg build

/-- The sizes of a library. -/
structure Library where
  library_legs : Nat
  library_regs : Nat

/-- `Get`. -/
def Library.get (lib : Library) (reg_index : Nat) : Nat := lib.library_legs * reg_index

section Model

/-- `Less`. -/
def less (mem : Mem build) (in_a in_b : Nat) : Nat → Bool
  | 0 => false
  | legs + 1 =>
    let a := mem (in_a + legs)
    let b := mem (in_b + legs)
    if b < a then false
    else if a < b then true
    else less mem in_a in_b legs

/-- The loop of `EqualX` and `GreaterX`: the legs above the first are zero. -/
def upperZero (mem : Mem build) (inp : Nat) : Nat → Bool
  | 0 => true
  | ii + 1 => if mem (inp + (ii + 1)) ≠ 0 then false else upperZero mem inp ii

/-- `EqualX`. -/
def equalX (mem : Mem build) (inp : Nat) (x : Leg build) (legs : Nat) : Bool :=
  if upperZero mem inp (legs - 1) then decide (mem inp = x) else false

/-- `GreaterX`. -/
def greaterX (mem : Mem build) (inp : Nat) (x : Leg build) (legs : Nat) : Bool :=
  if upperZero mem inp (legs - 1) then decide (x < mem inp) else true

/-- `Equal`, by `memcmp`. -/
def equal (mem : Mem build) (in_a in_b legs : Nat) : Bool :=
  decide (window mem in_a legs = window mem in_b legs)

/-- `LegsUsed`. -/
def legsUsed (mem : Mem build) (in_reg : Nat) : Nat → Nat
  | 0 => 0
  | legs + 1 => if mem (in_reg + legs) ≠ 0 then legs + 1 else legsUsed mem in_reg legs

/-- `CopyX`. -/
def copyX (library_legs : Nat) (in_reg : Leg build) (out_reg : Nat) (mem : Mem build) : Mem build :=
  fill 0 (library_legs - 1) (out_reg + 1) (Function.update mem out_reg in_reg)

/-- `CAT_USED_BITS`: the index of the first bit from the top. -/
def usedBits (x : Leg build) : Nat := Nat.log2 x.toNat

/-- One leg of `ShiftLeft`. -/
def shiftLeftStep (shift : Nat) (carry x : Leg build) : Leg build × Leg build :=
  ((x <<< shift) ||| (carry >>> (build.legBits - shift)), x)

/-- `ShiftLeft`. -/
def shiftLeft (legs inp shift out : Nat) (mem : Mem build) : Mem build × Leg build :=
  if shift = 0 then (copy legs inp out mem, 0)
  else
    let carry := mem inp
    let mem := Function.update mem out (carry <<< shift)
    let r := forLoop (shiftLeftStep shift) (fun mem i => mem (inp + 1 + i)) (out + 1) (legs - 1) mem
      carry
    (r.1, r.2 >>> (build.legBits - shift))

/-- One leg of `ShiftRight`. -/
def shiftRightStep (shift : Nat) (carry x : Leg build) : Leg build × Leg build :=
  ((x >>> shift) ||| (carry <<< (build.legBits - shift)), x)

/-- `ShiftRight`. -/
def shiftRight (legs inp shift out : Nat) (mem : Mem build) : Mem build × Leg build :=
  if shift = 0 then (copy legs inp out mem, 0)
  else
    let carry := mem (inp + (legs - 1))
    let mem := Function.update mem (out + (legs - 1)) (carry >>> shift)
    let r := downLoop (shiftRightStep shift) (fun mem i => mem (inp + i)) out (legs - 1) mem carry
    (r.1, r.2 <<< (build.legBits - shift))

/-- `MoveLegsRight`. -/
def moveLegsRight (library_legs inp legs out : Nat) (mem : Mem build) : Mem build :=
  fill 0 legs (out + (library_legs - legs)) (copy (library_legs - legs) (inp + legs) out mem)

/-- The loop of `EatTrailingZeroes`. -/
def trailingZeroLegs (mem : Mem build) (inout : Nat) : Nat → Nat
  | 0 => 0
  | legs + 1 => if mem inout = 0 then trailingZeroLegs mem (inout + 1) legs + 1 else 0

/-- `EatTrailingZeroes`; `CAT_TRAILING_ZEROES` is the index of the lowest bit that is set. -/
def eatTrailingZeroes (library_legs inout : Nat) (mem : Mem build) : Nat × Mem build :=
  let trailing_zero_legs := trailingZeroLegs mem inout library_legs
  let mem := moveLegsRight library_legs inout trailing_zero_legs inout mem
  let trailing_zero_bits := (mem inout).ctz.toNat
  let mem := (shiftRight library_legs inout trailing_zero_bits inout mem).1
  (trailing_zero_legs * build.legBits + trailing_zero_bits, mem)

end Model

section Spec

variable {mem : Mem build} {p q n : Nat}

/-- The number in `n` legs from `p` on. -/
def number (mem : Mem build) (p n : Nat) : Nat := value (window mem p n)

theorem number_zero (mem : Mem build) (p : Nat) : number mem p 0 = 0 := rfl

theorem number_concat (mem : Mem build) (p n : Nat) :
    number mem p (n + 1) = number mem p n + (2 ^ build.legBits) ^ n * (mem (p + n)).toNat :=
  value_window_concat mem p n

theorem number_add (mem : Mem build) (p m n : Nat) :
    number mem p (m + n) = number mem p m + (2 ^ build.legBits) ^ m * number mem (p + m) n :=
  value_window_add mem p m n

theorem number_lt (mem : Mem build) (p n : Nat) : number mem p n < (2 ^ build.legBits) ^ n :=
  value_window_lt mem p n

theorem number_one (mem : Mem build) (p : Nat) : number mem p 1 = (mem p).toNat := by
  rw [number_concat, number_zero, pow_zero, Nat.one_mul, Nat.zero_add, Nat.add_zero]

theorem number_succ (mem : Mem build) (p n : Nat) :
    number mem p (n + 1) = (mem p).toNat + 2 ^ build.legBits * number mem (p + 1) n := by
  rw [Nat.add_comm n 1, number_add, number_one, pow_one]

theorem number_of_sameOff {mem' : Mem build} {m : Nat} (h : SameOff p n mem mem')
    (hd : q + m ≤ p ∨ p + n ≤ q) : number mem' q m = number mem q m :=
  congrArg value (h.window hd)

theorem number_congr {mem' : Mem build} (h : ∀ i < n, mem' (p + i) = mem (p + i)) :
    number mem' p n = number mem p n :=
  congrArg value (window_congr h)

theorem number_fill_zero (mem : Mem build) (p n : Nat) : number (fill 0 n p mem) p n = 0 := by
  rw [number, window_fill]
  exact value_replicate_zero n

/-- A number below the size of a leg is the first leg. -/
theorem number_eq_first {L : Nat} (hL : 0 < L) (h : number mem p L < 2 ^ build.legBits) :
    number mem p L = (mem p).toNat := by
  obtain ⟨n, rfl⟩ : ∃ n, L = n + 1 := ⟨L - 1, by omega⟩
  have hsplit := number_succ mem p n
  rcases Nat.eq_zero_or_pos (number mem (p + 1) n) with h0 | h0
  · rw [hsplit, h0, Nat.mul_zero, Nat.add_zero]
  · have := Nat.le_mul_of_pos_right (2 ^ build.legBits) h0
    omega

theorem Library.get_succ (lib : Library) (i : Nat) :
    lib.get (i + 1) = lib.get i + lib.library_legs := Nat.mul_succ _ _

/-- Registers do not overlap. -/
theorem Library.get_add_le (lib : Library) {i j : Nat} (h : i < j) :
    lib.get i + lib.library_legs ≤ lib.get j := by
  have := Nat.mul_le_mul_left lib.library_legs (Nat.succ_le_of_lt h)
  rwa [Nat.mul_succ] at this

theorem Library.get_apart (lib : Library) {i j : Nat} (h : i ≠ j) :
    lib.get i + lib.library_legs ≤ lib.get j ∨ lib.get j + lib.library_legs ≤ lib.get i :=
  (Nat.lt_or_gt_of_ne h).imp lib.get_add_le lib.get_add_le

theorem sameOff_copyX {L : Nat} (hL : 0 < L) (x : Leg build) (out : Nat) (mem : Mem build) :
    SameOff out L mem (copyX L x out mem) :=
  (SameOff.update mem le_rfl (by omega) x).trans ((sameOff_fill _ _ _ _).mono (by omega) (by omega))

theorem number_copyX {L : Nat} (hL : 0 < L) (x : Leg build) (out : Nat) (mem : Mem build) :
    number (copyX L x out mem) out L = x.toNat := by
  obtain ⟨n, rfl⟩ : ∃ n, L = n + 1 := ⟨L - 1, by omega⟩
  have hrest : number (copyX (n + 1) x out mem) (out + 1) n = 0 := number_fill_zero _ _ _
  have hfirst : copyX (n + 1) x out mem out = x := by
    rw [copyX, sameOff_fill _ _ _ _ _ (by omega), Function.update_self]
  rw [number_succ, hrest, hfirst, Nat.mul_zero, Nat.add_zero]

theorem number_copy (n src dst : Nat) (mem : Mem build) :
    number (copy n src dst mem) dst n = number mem src n :=
  congrArg value (window_copy n src dst mem)

theorem number_store {l : List (Leg build)} (h : l.length = n) (dst : Nat) (mem : Mem build) :
    SameOff dst n mem (store l dst mem) ∧ number (store l dst mem) dst n = value l := by
  subst h
  exact ⟨sameOff_store l dst mem, congrArg value (window_store l dst mem)⟩

/-- A sum in its register, whole or with a carry. -/
theorem carryOut_register {r : u8 × List (Leg build)} {s : Nat} (h : CarryOut r n s) (out : Nat)
    (mem : Mem build) :
    SameOff out n mem (store r.2 out mem) ∧
      (r.1 = 0 ∧ s < (2 ^ build.legBits) ^ n ∧ number (store r.2 out mem) out n = s ∨
        r.1 = 1 ∧ (2 ^ build.legBits) ^ n ≤ s ∧
          number (store r.2 out mem) out n + (2 ^ build.legBits) ^ n = s) := by
  obtain ⟨hlen, hcarry, hval⟩ := h
  obtain ⟨hoff, hnum⟩ := number_store hlen out mem
  have hlt := number_lt (store r.2 out mem) out n
  have hsum : number (store r.2 out mem) out n + (2 ^ build.legBits) ^ n * r.1.toNat = s := by
    rw [hnum, ← pow_mul]
    exact_mod_cast hval
  refine ⟨hoff, hcarry.imp (fun h0 => ⟨h0, ?_⟩) fun h1 => ⟨h1, ?_⟩⟩
  · rw [h0, show (0 : u8).toNat = 0 from rfl, Nat.mul_zero] at hsum
    omega
  · rw [h1, show (1 : u8).toNat = 1 from rfl, Nat.mul_one] at hsum
    omega

/-- A difference in its register, whole or with a borrow. -/
theorem borrowOut_register {r : u8 × List (Leg build)} {a b : Nat}
    (h : BorrowOut r n ((a : ℤ) - b)) (out : Nat) (mem : Mem build) :
    SameOff out n mem (store r.2 out mem) ∧
      (r.1 = 0 ∧ b ≤ a ∧ number (store r.2 out mem) out n + b = a ∨
        r.1 = 1 ∧ a < b ∧ number (store r.2 out mem) out n + b = a + (2 ^ build.legBits) ^ n) := by
  obtain ⟨hlen, hborrow, hval⟩ := h
  obtain ⟨hoff, hnum⟩ := number_store hlen out mem
  have hlt := number_lt (store r.2 out mem) out n
  have hdiff : number (store r.2 out mem) out n + b = a + (2 ^ build.legBits) ^ n * r.1.toNat := by
    rw [hnum, ← pow_mul]
    have hval' : (value r.2 : ℤ) + b = a + 2 ^ (build.legBits * n) * r.1.toNat := by
      linear_combination hval
    exact_mod_cast hval'
  refine ⟨hoff, hborrow.imp (fun h0 => ⟨h0, ?_⟩) fun h1 => ⟨h1, ?_⟩⟩
  · rw [h0, show (0 : u8).toNat = 0 from rfl, Nat.mul_zero] at hdiff
    omega
  · rw [h1, show (1 : u8).toNat = 1 from rfl, Nat.mul_one] at hdiff
    omega

/-- `Add` of two registers to a third: a sum, or one with a carry. -/
theorem add_registers (mem : Mem build) (in_a in_b out n : Nat) :
    let r := add (window mem in_a n) (window mem in_b n)
    SameOff out n mem (store r.2 out mem) ∧
      (r.1 = 0 ∧ number mem in_a n + number mem in_b n < (2 ^ build.legBits) ^ n ∧
          number (store r.2 out mem) out n = number mem in_a n + number mem in_b n ∨
        r.1 = 1 ∧ (2 ^ build.legBits) ^ n ≤ number mem in_a n + number mem in_b n ∧
          number (store r.2 out mem) out n + (2 ^ build.legBits) ^ n =
            number mem in_a n + number mem in_b n) := by
  intro r
  have hsum := add_spec (a := window mem in_a n) (b := window mem in_b n)
    (by rw [length_window, length_window])
  rw [length_window, ← Nat.cast_add] at hsum
  exact carryOut_register hsum out mem

/-- `Double` of a register to another. -/
theorem double_registers {n : Nat} (hn : 0 < n) (mem : Mem build) (inp out : Nat) :
    let r := double (window mem inp n)
    SameOff out n mem (store r.2 out mem) ∧
      (r.1 = 0 ∧ 2 * number mem inp n < (2 ^ build.legBits) ^ n ∧
          number (store r.2 out mem) out n = 2 * number mem inp n ∨
        r.1 = 1 ∧ (2 ^ build.legBits) ^ n ≤ 2 * number mem inp n ∧
          number (store r.2 out mem) out n + (2 ^ build.legBits) ^ n = 2 * number mem inp n) := by
  intro r
  have hsum := double_spec (l := window mem inp n)
    (List.ne_nil_of_length_pos (by rwa [length_window]))
  rw [length_window, ← Nat.cast_ofNat, ← Nat.cast_mul] at hsum
  exact carryOut_register hsum out mem

/-- `AddX` in place. -/
theorem addX_register {n : Nat} (hn : 0 < n) (mem : Mem build) (inout : Nat) (x : Leg build) :
    let r := addX (window mem inout n) x
    SameOff inout n mem (store r.2 inout mem) ∧
      (r.1 = 0 ∧ number mem inout n + x.toNat < (2 ^ build.legBits) ^ n ∧
          number (store r.2 inout mem) inout n = number mem inout n + x.toNat ∨
        r.1 = 1 ∧ (2 ^ build.legBits) ^ n ≤ number mem inout n + x.toNat ∧
          number (store r.2 inout mem) inout n + (2 ^ build.legBits) ^ n =
            number mem inout n + x.toNat) := by
  intro r
  have hsum := addX_spec (List.ne_nil_of_length_pos (by rwa [length_window mem inout])) x
  rw [length_window, ← Nat.cast_add] at hsum
  exact carryOut_register hsum inout mem

/-- `SubtractX` in place. -/
theorem subtractX_register {n : Nat} (hn : 0 < n) (mem : Mem build) (inout : Nat) (x : Leg build) :
    let r := subtractX (window mem inout n) x
    SameOff inout n mem (store r.2 inout mem) ∧
      (r.1 = 0 ∧ x.toNat ≤ number mem inout n ∧
          number (store r.2 inout mem) inout n + x.toNat = number mem inout n ∨
        r.1 = 1 ∧ number mem inout n < x.toNat ∧
          number (store r.2 inout mem) inout n + x.toNat =
            number mem inout n + (2 ^ build.legBits) ^ n) := by
  intro r
  have hdiff := subtractX_spec (List.ne_nil_of_length_pos (by rwa [length_window mem inout])) x
  rw [length_window] at hdiff
  exact borrowOut_register hdiff inout mem

/-- `Subtract` of two registers: a difference, or one with a borrow. -/
theorem subtract_registers (mem : Mem build) (in_a in_b out n : Nat) :
    let r := subtract (window mem in_a n) (window mem in_b n)
    SameOff out n mem (store r.2 out mem) ∧
      (r.1 = 0 ∧ number mem in_b n ≤ number mem in_a n ∧
          number (store r.2 out mem) out n + number mem in_b n = number mem in_a n ∨
        r.1 = 1 ∧ number mem in_a n < number mem in_b n ∧
          number (store r.2 out mem) out n + number mem in_b n =
            number mem in_a n + (2 ^ build.legBits) ^ n) := by
  intro r
  have hdiff := subtract_spec (a := window mem in_a n) (b := window mem in_b n)
    (by rw [length_window, length_window])
  rw [length_window] at hdiff
  exact borrowOut_register hdiff out mem

/-- The leading leg decides. -/
theorem number_lt_of_top_lt {mem' : Mem build} (h : (mem (p + n)).toNat < (mem' (q + n)).toNat) :
    number mem p (n + 1) < number mem' q (n + 1) := by
  have hp := number_lt mem p n
  have hmul := Nat.mul_le_mul_left ((2 ^ build.legBits) ^ n) (Nat.succ_le_of_lt h)
  rw [number_concat, number_concat]
  rw [Nat.mul_succ] at hmul
  omega

theorem less_eq (mem : Mem build) (in_a in_b n : Nat) :
    less mem in_a in_b n = true ↔ number mem in_a n < number mem in_b n := by
  induction n with
  | zero => simp [less, number_zero]
  | succ n ih =>
    rw [less]
    by_cases hgt : mem (in_b + n) < mem (in_a + n)
    · rw [if_pos hgt]
      have := number_lt_of_top_lt (BitVec.lt_def.mp hgt)
      exact iff_of_false Bool.false_ne_true (by omega)
    · rw [if_neg hgt]
      by_cases hlt : mem (in_a + n) < mem (in_b + n)
      · rw [if_pos hlt]
        exact iff_of_true rfl (number_lt_of_top_lt (BitVec.lt_def.mp hlt))
      · have heq : mem (in_a + n) = mem (in_b + n) := by
          rw [BitVec.lt_def] at hgt hlt
          exact BitVec.eq_of_toNat_eq (by omega)
        rw [if_neg hlt, ih, number_concat, number_concat, heq]
        omega

theorem upperZero_eq (mem : Mem build) (p n : Nat) :
    upperZero mem p n = true ↔ number mem (p + 1) n = 0 := by
  induction n with
  | zero => simp [upperZero, number_zero]
  | succ n ih =>
    rw [upperZero, number_concat, Nat.add_assoc, Nat.add_comm 1 n]
    by_cases h : mem (p + (n + 1)) ≠ 0
    · have hpos : 0 < (mem (p + (n + 1))).toNat := Nat.pos_of_ne_zero fun h0 =>
        h (BitVec.eq_of_toNat_eq h0)
      have := Nat.mul_pos (show 0 < (2 ^ build.legBits) ^ n by positivity) hpos
      rw [if_pos h]
      exact iff_of_false Bool.false_ne_true (by omega)
    · rw [if_neg h, ih, not_not.mp h]
      simp

theorem equalX_eq {L : Nat} (hL : 0 < L) (mem : Mem build) (p : Nat) (x : Leg build) :
    equalX mem p x L = true ↔ number mem p L = x.toNat := by
  obtain ⟨n, rfl⟩ : ∃ n, L = n + 1 := ⟨L - 1, by omega⟩
  have hx := x.isLt
  unfold equalX
  rw [Nat.add_sub_cancel, number_succ]
  by_cases h : upperZero mem p n = true
  · rw [if_pos h, (upperZero_eq _ _ _).mp h, Nat.mul_zero, Nat.add_zero, decide_eq_true_iff]
    exact ⟨congrArg BitVec.toNat, BitVec.eq_of_toNat_eq⟩
  · have hpos : 0 < number mem (p + 1) n :=
      Nat.pos_of_ne_zero fun h0 => h ((upperZero_eq _ _ _).mpr h0)
    have := Nat.le_mul_of_pos_right (2 ^ build.legBits) hpos
    rw [if_neg h]
    exact iff_of_false Bool.false_ne_true (by omega)

theorem greaterX_eq {L : Nat} (hL : 0 < L) (mem : Mem build) (p : Nat) (x : Leg build) :
    greaterX mem p x L = true ↔ x.toNat < number mem p L := by
  obtain ⟨n, rfl⟩ : ∃ n, L = n + 1 := ⟨L - 1, by omega⟩
  have hx := x.isLt
  unfold greaterX
  rw [Nat.add_sub_cancel, number_succ]
  by_cases h : upperZero mem p n = true
  · rw [if_pos h, (upperZero_eq _ _ _).mp h, Nat.mul_zero, Nat.add_zero, decide_eq_true_iff,
      BitVec.lt_def]
  · have hpos : 0 < number mem (p + 1) n :=
      Nat.pos_of_ne_zero fun h0 => h ((upperZero_eq _ _ _).mpr h0)
    have := Nat.le_mul_of_pos_right (2 ^ build.legBits) hpos
    rw [if_neg h]
    exact iff_of_true rfl (by omega)

/-- Lists of as many legs with one value are the same. -/
theorem value_inj {l m : List (Leg build)} (hlen : l.length = m.length) (h : value l = value m) :
    l = m := by
  have hlt (k : List (Leg build)) : ∀ d ∈ k.map BitVec.toNat, d < 2 ^ build.legBits := fun d hd => by
    obtain ⟨y, -, rfl⟩ := List.mem_map.mp hd
    exact y.isLt
  have hbits := two_le_pow_legBits build
  have hdigits := Nat.ofDigits_inj_of_len_eq (by omega : 1 < 2 ^ build.legBits)
    (by rwa [List.length_map, List.length_map]) (hlt l) (hlt m) h
  exact List.map_injective_iff.mpr (fun _ _ => BitVec.eq_of_toNat_eq) hdigits

theorem equal_eq (mem : Mem build) (in_a in_b n : Nat) :
    equal mem in_a in_b n = true ↔ number mem in_a n = number mem in_b n := by
  unfold equal
  rw [decide_eq_true_iff]
  exact ⟨congrArg value, value_inj (by rw [length_window, length_window])⟩

theorem legsUsed_le (mem : Mem build) (p n : Nat) : legsUsed mem p n ≤ n := by
  induction n with
  | zero => exact le_rfl
  | succ n ih =>
    rw [legsUsed]
    split <;> omega

/-- The legs that are used have the whole number. -/
theorem number_legsUsed (mem : Mem build) (p n : Nat) :
    number mem p (legsUsed mem p n) = number mem p n := by
  induction n with
  | zero => rfl
  | succ n ih =>
    rw [legsUsed]
    by_cases h : mem (p + n) ≠ 0
    · rw [if_pos h]
    · rw [if_neg h, ih, number_concat, not_not.mp h]
      simp

theorem legsUsed_top {u : Nat} (h : legsUsed mem p n = u + 1) : mem (p + u) ≠ 0 := by
  induction n with
  | zero => cases h
  | succ n ih =>
    rw [legsUsed] at h
    by_cases hne : mem (p + n) ≠ 0
    · rw [if_pos hne, Nat.add_right_cancel_iff] at h
      rwa [← h]
    · rw [if_neg hne] at h
      exact ih h

theorem pow_le_number {u : Nat} (h : legsUsed mem p n = u + 1) :
    (2 ^ build.legBits) ^ u ≤ number mem p n := by
  rw [← number_legsUsed, h, number_concat]
  have : 0 < (mem (p + u)).toNat := Nat.pos_of_ne_zero fun h0 =>
    legsUsed_top h (BitVec.eq_of_toNat_eq h0)
  exact (Nat.le_mul_of_pos_right _ this).trans (Nat.le_add_left _ _)

theorem legsUsed_eq_zero : legsUsed mem p n = 0 ↔ number mem p n = 0 := by
  constructor
  · intro h
    rw [← number_legsUsed, h, number_zero]
  · intro h
    rcases hu : legsUsed mem p n with _ | u
    · rfl
    · have := pow_le_number hu
      have : 0 < (2 ^ build.legBits) ^ u := by positivity
      omega

theorem legsUsed_add (mem : Mem build) (p m n : Nat) :
    legsUsed mem p (m + n) =
      if legsUsed mem (p + m) n ≠ 0 then legsUsed mem (p + m) n + m else legsUsed mem p m := by
  induction n with
  | zero => simp [legsUsed]
  | succ n ih =>
    rw [← Nat.add_assoc, legsUsed, legsUsed, ← Nat.add_assoc p m n]
    by_cases h : mem (p + m + n) ≠ 0
    · rw [if_pos h, if_pos h, if_pos (Nat.succ_ne_zero n)]
      omega
    · rw [if_neg h, if_neg h, ih]

theorem legsUsed_eq_one (h : number mem p n ≠ 0) :
    legsUsed mem p n = 1 ↔ number mem p n < 2 ^ build.legBits := by
  constructor
  · intro hone
    rw [← number_legsUsed, hone, number_one]
    exact (mem p).isLt
  · intro hlt
    rcases hu : legsUsed mem p n with _ | u
    · exact absurd (legsUsed_eq_zero.mp hu) h
    · have hle := (pow_le_number hu).trans_lt hlt
      have := (Nat.pow_lt_pow_iff_right (a := 2 ^ build.legBits) (n := u) (m := 1) (by
        have := two_le_pow_legBits build
        omega)).mp (by rwa [pow_one])
      omega

theorem legsUsed_eq_self (hn : 0 < n) :
    legsUsed mem p n = n ↔ (2 ^ build.legBits) ^ (n - 1) ≤ number mem p n := by
  obtain ⟨m, rfl⟩ : ∃ m, n = m + 1 := ⟨n - 1, by omega⟩
  rw [Nat.add_sub_cancel]
  refine ⟨pow_le_number, fun hle => ?_⟩
  have hlt := number_lt mem p (legsUsed mem p (m + 1))
  rw [number_legsUsed] at hlt
  have := (Nat.pow_lt_pow_iff_right (by have := two_le_pow_legBits build; omega)).mp
    (hle.trans_lt hlt)
  have := legsUsed_le mem p (m + 1)
  omega

/-- The larger number has as many legs. -/
theorem legsUsed_le_of_le {m n : Nat} (h : number mem q n ≤ number mem p m) :
    legsUsed mem q n ≤ legsUsed mem p m := by
  rcases hu : legsUsed mem q n with _ | u
  · exact Nat.zero_le _
  · have hlt := number_lt mem p (legsUsed mem p m)
    rw [number_legsUsed] at hlt
    have := (pow_le_number hu).trans h
    exact (Nat.pow_lt_pow_iff_right (by have := two_le_pow_legBits build; omega)).mp
      (this.trans_lt hlt)

end Spec

/-! ## Shifts -/

section Shift

variable {s : Nat}

theorem pow_split (hs : s ≤ build.legBits) : 2 ^ build.legBits = 2 ^ s * 2 ^ (build.legBits - s) := by
  rw [← Nat.pow_add, Nat.add_sub_cancel' hs]

theorem shl_toNat (hs : s ≤ build.legBits) (x : Leg build) :
    (x <<< s).toNat = 2 ^ s * (x.toNat % 2 ^ (build.legBits - s)) := by
  rw [BitVec.toNat_shiftLeft, Nat.shiftLeft_eq, pow_split hs, Nat.mul_comm, Nat.mul_mod_mul_left]

theorem shr_toNat (s : Nat) (x : Leg build) : (x >>> s).toNat = x.toNat / 2 ^ s := by
  rw [BitVec.toNat_ushiftRight, Nat.shiftRight_eq_div_pow]

theorem shr_lt (hs : s ≤ build.legBits) (x : Leg build) :
    (x >>> (build.legBits - s)).toNat < 2 ^ s := by
  have hx := x.isLt
  rw [pow_split hs, Nat.mul_comm] at hx
  rw [shr_toNat]
  exact Nat.div_lt_of_lt_mul hx

theorem shiftLeftStep_spec (hs : s ≤ build.legBits) (carry x : Leg build) :
    ((shiftLeftStep s carry x).1.toNat : ℤ) + 2 ^ build.legBits *
        (((shiftLeftStep s carry x).2 >>> (build.legBits - s)).toNat : ℤ) =
      2 ^ s * (x.toNat : ℤ) + ((carry >>> (build.legBits - s)).toNat : ℤ) := by
  have hor : (x <<< s ||| carry >>> (build.legBits - s)).toNat =
      (x <<< s).toNat + (carry >>> (build.legBits - s)).toNat := by
    rw [BitVec.toNat_or, shl_toNat hs]
    exact (Nat.two_pow_add_eq_or_of_lt (shr_lt hs carry) _).symm
  have hdiv := Nat.mod_add_div x.toNat (2 ^ (build.legBits - s))
  have hpow : (2 : ℤ) ^ build.legBits = 2 ^ s * 2 ^ (build.legBits - s) := by
    exact_mod_cast pow_split hs
  simp only [shiftLeftStep]
  rw [hor, shl_toNat hs, shr_toNat _ x, hpow]
  zify at hdiv
  push_cast
  linear_combination 2 ^ s * hdiv

theorem shiftRightStep_spec (hs : s ≤ build.legBits) (carry x : Leg build) :
    2 ^ s * ((shiftRightStep s carry x).1.toNat : ℤ) +
        (((shiftRightStep s carry x).2.toNat % 2 ^ s : Nat) : ℤ) =
      (x.toNat : ℤ) + 2 ^ build.legBits * ((carry.toNat % 2 ^ s : Nat) : ℤ) := by
  have hshl := @shl_toNat build (build.legBits - s) (Nat.sub_le _ _) carry
  rw [Nat.sub_sub_self hs] at hshl
  have hlt : (x >>> s).toNat < 2 ^ (build.legBits - s) := by
    have := @shr_lt build (build.legBits - s) (Nat.sub_le _ _) x
    rwa [Nat.sub_sub_self hs] at this
  have hor : (x >>> s ||| carry <<< (build.legBits - s)).toNat =
      (carry <<< (build.legBits - s)).toNat + (x >>> s).toNat := by
    rw [BitVec.toNat_or, hshl, Nat.or_comm]
    exact (Nat.two_pow_add_eq_or_of_lt hlt _).symm
  have hdiv := Nat.mod_add_div x.toNat (2 ^ s)
  have hpow : (2 : ℤ) ^ build.legBits = 2 ^ s * 2 ^ (build.legBits - s) := by
    exact_mod_cast pow_split hs
  rw [shiftRightStep, hor, hshl, shr_toNat, hpow]
  zify at hdiv
  push_cast
  linear_combination hdiv

/-- The first leg is a round with nothing carried in. -/
theorem shiftLeft_eq (h0 : s ≠ 0) (n inp out : Nat) (mem : Mem build) :
    shiftLeft (n + 1) inp s out mem =
      ((forLoop (shiftLeftStep s) (fun mem i => mem (inp + i)) out (n + 1) mem 0).1,
        (forLoop (shiftLeftStep s) (fun mem i => mem (inp + i)) out (n + 1) mem 0).2 >>>
          (build.legBits - s)) := by
  have hstep : shiftLeftStep s 0 (mem (inp + 0)) = (mem inp <<< s, mem inp) := by
    simp [shiftLeftStep]
  have hread : (fun (mem : Mem build) i => mem (inp + (i + 1))) =
      fun (mem : Mem build) i => mem (inp + 1 + i) := by
    funext mem i
    rw [Nat.add_assoc, Nat.add_comm 1 i]
  rw [shiftLeft, if_neg h0, forLoop_first, hstep, hread]
  rfl

theorem shiftRight_eq (h0 : s ≠ 0) (n inp out : Nat) (mem : Mem build) :
    shiftRight (n + 1) inp s out mem =
      ((downLoop (shiftRightStep s) (fun mem i => mem (inp + i)) out (n + 1) mem 0).1,
        (downLoop (shiftRightStep s) (fun mem i => mem (inp + i)) out (n + 1) mem 0).2 <<<
          (build.legBits - s)) := by
  have hstep : shiftRightStep s 0 (mem (inp + n)) = (mem (inp + n) >>> s, mem (inp + n)) := by
    simp [shiftRightStep]
  rw [shiftRight, if_neg h0, downLoop, hstep]
  rfl

/-- The legs shifted, and the bits that went out at the top. -/
theorem shiftLeft_spec (hs : s < build.legBits) {legs inp out : Nat} (hlegs : 0 < legs)
    (hd : inp + legs ≤ out ∨ out + legs ≤ inp) (mem : Mem build) :
    SameOff out legs mem (shiftLeft legs inp s out mem).1 ∧
      number (shiftLeft legs inp s out mem).1 out legs +
        (2 ^ build.legBits) ^ legs * (shiftLeft legs inp s out mem).2.toNat =
          2 ^ s * number mem inp legs ∧
      (shiftLeft legs inp s out mem).2.toNat < 2 ^ s := by
  by_cases h0 : s = 0
  · rw [shiftLeft, if_pos h0, h0]
    refine ⟨sameOff_copy _ _ _ _, ?_, by simp⟩
    rw [number, window_copy, number]
    simp
  · obtain ⟨n, rfl⟩ : ∃ n, legs = n + 1 := ⟨legs - 1, by omega⟩
    rw [shiftLeft_eq h0]
    have heq := @forLoop_eq _ (n + 1) out _ _ (shiftLeftStep s) (fun mem i => mem (inp + i)) mem 0
      fun i hi mem' hmem' => hmem' _ (by omega)
    have hval := @value_chain _ _ _ (shiftLeftStep s) (fun x => 2 ^ s * (x.toNat : ℤ))
      (fun carry => ((carry >>> (build.legBits - s)).toNat : ℤ)) (shiftLeftStep_spec hs.le) 0
      (window mem inp (n + 1))
    rw [weight_word, window, ← heq, ← window, length_window, pow_mul] at hval
    have hz : ((0 : Leg build) >>> (build.legBits - s)).toNat = 0 := by simp
    rw [hz] at hval
    refine ⟨forLoop_sameOff _ _ _ _ _ _, ?_, shr_lt hs.le _⟩
    unfold number
    zify
    linear_combination hval

/-- Also in place: each leg is read before it is written. -/
theorem shiftRight_spec (hs : s < build.legBits) {legs inp out : Nat} (hlegs : 0 < legs)
    (hd : inp ≤ out ∨ out + legs ≤ inp) (mem : Mem build) :
    SameOff out legs mem (shiftRight legs inp s out mem).1 ∧
      number (shiftRight legs inp s out mem).1 out legs = number mem inp legs / 2 ^ s := by
  by_cases h0 : s = 0
  · rw [shiftRight, if_pos h0, h0]
    refine ⟨sameOff_copy _ _ _ _, ?_⟩
    rw [number, window_copy, number]
    simp
  · obtain ⟨n, rfl⟩ : ∃ n, legs = n + 1 := ⟨legs - 1, by omega⟩
    rw [shiftRight_eq h0]
    obtain ⟨-, hval⟩ := @downLoop_value _ (n + 1) out _ _ (shiftRightStep s)
      (fun mem i => mem (inp + i)) mem 0 (2 ^ s) (fun x => 1 * (x.toNat : ℤ))
      (fun c => ((c.toNat % 2 ^ s : Nat) : ℤ)) (fun _ => True)
      (fun c x _ => ⟨trivial, by rw [one_mul]; exact shiftRightStep_spec hs.le c x⟩)
      (fun i hi mem' hmem' => hmem' _ (by omega)) trivial
    rw [← window, weight_word] at hval
    refine ⟨downLoop_sameOff _ _ _ _ _ _, ?_⟩
    rw [← number, ← number] at hval
    generalize number (downLoop (shiftRightStep s) (fun mem i => mem (inp + i)) out (n + 1) mem 0).1
      out (n + 1) = shifted at hval ⊢
    generalize (downLoop (shiftRightStep s) (fun mem i => mem (inp + i)) out (n + 1) mem 0).2 = last
      at hval
    have hlow := Nat.mod_lt last.toNat (Nat.two_pow_pos s)
    have hval' : 2 ^ s * shifted + last.toNat % 2 ^ s = number mem inp (n + 1) := by
      zify
      push_cast at hval
      simpa using hval
    rw [← hval', Nat.mul_add_div (Nat.two_pow_pos s), Nat.div_eq_of_lt hlow, Nat.add_zero]

end Shift

/-! ## Trailing zeroes -/

section TrailingZeroes

variable {mem : Mem build} {p L : Nat}

/-- The index of the lowest bit splits off the power of two. -/
theorem ctz_spec {x : Leg build} (hx : x ≠ 0) :
    x.ctz.toNat < build.legBits ∧ 2 ^ x.ctz.toNat ∣ x.toNat ∧ Odd (x.toNat / 2 ^ x.ctz.toNat) := by
  have hbit := BitVec.getLsbD_true_ctz_of_ne_zero hx
  have hlow : x.toNat % 2 ^ x.ctz.toNat = 0 := by
    refine Nat.eq_of_testBit_eq fun i => ?_
    rw [Nat.testBit_mod_two_pow, Nat.zero_testBit, Bool.and_eq_false_iff]
    by_cases hi : i < x.ctz.toNat
    · exact .inr (BitVec.getLsbD_false_of_lt_ctz hi)
    · exact .inl (decide_eq_false hi)
  refine ⟨BitVec.lt_of_getLsbD hbit, Nat.dvd_of_mod_eq_zero hlow, ?_⟩
  rw [BitVec.getLsbD, Nat.testBit_eq_decide_div_mod_eq, decide_eq_true_iff] at hbit
  exact Nat.odd_iff.mpr hbit

theorem trailingZeroLegs_spec (mem : Mem build) (p L : Nat) :
    trailingZeroLegs mem p L ≤ L ∧ number mem p (trailingZeroLegs mem p L) = 0 ∧
      (trailingZeroLegs mem p L < L → mem (p + trailingZeroLegs mem p L) ≠ 0) := by
  induction L generalizing p with
  | zero => exact ⟨le_rfl, number_zero _ _, fun h => absurd h (lt_irrefl _)⟩
  | succ L ih =>
    unfold trailingZeroLegs
    by_cases h : mem p = 0
    · obtain ⟨hle, hzero, hne⟩ := ih (p + 1)
      rw [if_pos h]
      refine ⟨by omega, ?_, fun hlt => ?_⟩
      · rw [number_succ, h, hzero]
        rfl
      · rw [Nat.add_comm _ 1, ← Nat.add_assoc]
        exact hne (by omega)
    · rw [if_neg h]
      exact ⟨by omega, number_zero _ _, fun _ => h⟩

/-- `MoveLegsRight` in place divides by a power of the size of a leg. -/
theorem moveLegsRight_spec (mem : Mem build) (p : Nat) {k : Nat} (hk : k ≤ L) :
    SameOff p L mem (moveLegsRight L p k p mem) ∧
      number (moveLegsRight L p k p mem) p L = number mem (p + k) (L - k) := by
  unfold moveLegsRight
  have hcopy := sameOff_copy (L - k) (p + k) p mem
  have hfill := sameOff_fill (0 : Leg build) k (p + (L - k)) (copy (L - k) (p + k) p mem)
  refine ⟨(hcopy.mono le_rfl (by omega)).trans (hfill.mono (by omega) (by omega)), ?_⟩
  have hsplit := number_add (fill 0 k (p + (L - k)) (copy (L - k) (p + k) p mem)) p (L - k) k
  rw [Nat.sub_add_cancel hk] at hsplit
  rw [hsplit, number_fill_zero, Nat.mul_zero, Nat.add_zero, number_of_sameOff hfill (.inl le_rfl),
    number_copy]

/-- **Trailing zeroes**: what is left is odd, and the zeroes that were eaten are the power of two. -/
theorem eatTrailingZeroes_spec (hne : number mem p L ≠ 0) :
    SameOff p L mem (eatTrailingZeroes L p mem).2 ∧
      Odd (number (eatTrailingZeroes L p mem).2 p L) ∧
      number mem p L =
        2 ^ (eatTrailingZeroes L p mem).1 * number (eatTrailingZeroes L p mem).2 p L := by
  obtain ⟨hle, hzero, hleg⟩ := trailingZeroLegs_spec mem p L
  unfold eatTrailingZeroes
  dsimp only
  set k := trailingZeroLegs mem p L with hk
  have hsplit : number mem p L = (2 ^ build.legBits) ^ k * number mem (p + k) (L - k) := by
    have := number_add mem p k (L - k)
    rwa [Nat.add_sub_cancel' hle, hzero, Nat.zero_add] at this
  have hlt : k < L := Nat.lt_of_le_of_ne hle fun h0 => hne (by
    rw [hsplit, h0, Nat.sub_self, number_zero, Nat.mul_zero])
  obtain ⟨hoff, hmoved⟩ := moveLegsRight_spec mem p hle
  set moved := moveLegsRight L p k p mem with hmovedDef
  -- the lowest leg is the first that was not zero
  obtain ⟨n, hn⟩ : ∃ n, L - k = n + 1 := ⟨L - k - 1, by omega⟩
  have hfirst : moved p = mem (p + k) := by
    have hcopy : copy (L - k) (p + k) p mem p = mem (p + k) := by
      rw [copy, if_pos (by omega), Nat.sub_self, Nat.add_zero]
    rw [hmovedDef, moveLegsRight, sameOff_fill _ _ _ _ _ (by omega), hcopy]
  obtain ⟨hc, hdvd, hodd⟩ := ctz_spec (hfirst ▸ hleg hlt)
  set c := (moved p).ctz.toNat with hcdef
  obtain ⟨hoff', hshift⟩ := @shiftRight_spec _ c hc L p p (by omega) (.inl le_rfl) moved
  have hpow := @pow_split build c hc.le
  have hhigh : Even (2 ^ (build.legBits - c)) :=
    (Nat.even_pow' (by omega)).mpr even_two
  have hvalue : number moved p L = 2 ^ c * ((moved p).toNat / 2 ^ c +
      2 ^ (build.legBits - c) * number mem (p + k + 1) n) := by
    rw [hmoved, hn, number_succ, ← hfirst, Nat.mul_add, Nat.mul_div_cancel' hdvd, hpow, Nat.mul_assoc]
  have hleft : number (shiftRight L p c p moved).1 p L =
      (moved p).toNat / 2 ^ c + 2 ^ (build.legBits - c) * number mem (p + k + 1) n := by
    rw [hshift, hvalue, Nat.mul_div_cancel_left _ (Nat.two_pow_pos c)]
  refine ⟨hoff.trans hoff', ?_, ?_⟩
  · rw [hleft]
    exact hodd.add_even (hhigh.mul_right _)
  · rw [hsplit, ← hmoved, hvalue, hleft, pow_add, Nat.mul_comm k, pow_mul, Nat.mul_assoc]

end TrailingZeroes

end Libcat.Math.Registers
