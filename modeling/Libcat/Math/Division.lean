import Libcat.Lib.LongDivision
import Libcat.Math.Registers

/-!
# Division of registers

`DivideX`, `ModulusX` and `DivideCore` of `BigRTL`. `DivideCore` is long division by a divisor with its
top bit set: a trial quotient from the two top legs of the numerator, the product taken off, and the
divisor added back while the overflow leg is not zero. That loop has fuel; `divideCore_spec` says that
three rounds are enough.
-/

namespace Libcat.Math.Division

open Radix Window BigRTL Registers LongDivision

variable {build : Build}

section Model

/-- One leg of `DivideX`: the quotient and the remainder. -/
def divideXStep (in_b R x : Leg build) : Leg build × Leg build :=
  let N := (toPair R <<< build.legBits) ||| toPair x
  ((N / toPair in_b).setWidth build.legBits, (N % toPair in_b).setWidth build.legBits)

/-- `DivideX`. -/
def divideX (library_legs in_a : Nat) (in_b : Leg build) (out : Nat) (mem : Mem build) :
    Mem build × Leg build :=
  downLoop (divideXStep in_b) (fun mem i => mem (in_a + i)) out library_legs mem 0

/-- The loop of `ModulusX`. -/
def modulusXLoop (mem : Mem build) (in_a : Nat) (in_b : Leg build) : Nat → Leg build → Leg build
  | 0, R => R
  | leg + 1, R => modulusXLoop mem in_a in_b leg (divideXStep in_b R (mem (in_a + leg))).2

/-- `ModulusX`. -/
def modulusX (library_legs in_a : Nat) (in_b : Leg build) (mem : Mem build) : Leg build :=
  let R := mem (in_a + (library_legs - 1))
  if in_b ≤ R then modulusXLoop mem in_a in_b library_legs 0
  else modulusXLoop mem in_a in_b (library_legs - 1) R

/-- `CAT_LEG_DIV`: the high and the low leg of the quotient. -/
def legDiv (A_hi A_lo B : Leg build) : Leg build × Leg build :=
  halves (((toPair A_hi <<< build.legBits) ||| toPair A_lo) / toPair B)

/-- The legs that `DivideCore` reads in its loops. -/
def pairAt (A_offset B : Nat) (mem : Mem build) (ii : Nat) : Leg build × Leg build :=
  (mem (A_offset + ii), mem (B + ii))

/-- Whether no leg below is less in A than in B, from the top. -/
def compareBelow (mem : Mem build) (A_offset B : Nat) : Nat → Bool
  | 0 => true
  | ii + 1 =>
    let a := mem (A_offset + ii)
    let b := mem (B + ii)
    if b < a then true
    else if a < b then false
    else compareBelow mem A_offset B ii

/-- The first `q_hi` of `DivideCore`. -/
def quotientHigh (mem : Mem build) (A_offset B B_used : Nat) (A_overflow B_high : Leg build) : Bool :=
  if A_overflow < B_high then false
  else if B_high = A_overflow then compareBelow mem A_offset B (B_used - 1)
  else true

/-- If `q_hi` is set, subtract B from A. -/
def subtractHigh (mem : Mem build) (A_offset B B_used : Nat) (A_overflow B_high : Leg build) :
    Mem build × Leg build :=
  let r := forLoop subFlagStep (pairAt (A_offset + 1) B) (A_offset + 1) (B_used - 1) mem false
  (r.1, A_overflow - (B_high + flag r.2))

/-- One leg of `A -= q_lo * B`, with `p_hi` and the borrow. -/
def mulSubStep (q_lo : Leg build) (s : Leg build × Bool) (x : Leg build × Leg build) :
    Leg build × Leg build × Bool :=
  let p := legMulAdd x.2 q_lo s.1
  let d := subFlagStep s.2 (x.1, p.2)
  (d.1, p.1, d.2)

/-- One leg of `A -= (1 | q_lo) * B`, with `p_hi`, `B_last` and the borrow. -/
def mulSubHighStep (q_lo : Leg build) (s : Leg build × Leg build × Bool) (x : Leg build × Leg build) :
    Leg build × Leg build × Leg build × Bool :=
  let p := legMulAdd2 x.2 q_lo s.1 s.2.1
  let d := subFlagStep s.2.2 (x.1, p.2)
  (d.1, p.1, x.2, d.2)

/-- Take the trial quotient times B off A. -/
def subtractProduct (q : Leg build × Leg build) (A_offset B B_used : Nat) (mem : Mem build)
    (A_overflow : Leg build) : Mem build × Leg build :=
  if q.1 ≠ 0 then
    let r := forLoop (mulSubHighStep q.2) (pairAt A_offset B) A_offset B_used mem (0, 0, false)
    (r.1, A_overflow - r.2.2.1 - (r.2.1 + flag r.2.2.2))
  else
    let r := forLoop (mulSubStep q.2) (pairAt A_offset B) A_offset B_used mem (0, false)
    (r.1, A_overflow - (r.2.1 + flag r.2.2))

/-- Correct the trial quotient: `while (A_overflow)`. -/
def correct (A_offset B B_used : Nat) :
    Nat → Mem build → Leg build → Leg build → Option (Mem build × Leg build)
  | 0, _, _, _ => none
  | fuel + 1, mem, A_overflow, q_lo =>
    if A_overflow ≠ 0 then
      let r := forLoop addFlagStep (pairAt A_offset B) A_offset B_used mem false
      correct A_offset B B_used fuel r.1 (A_overflow + flag r.2) (q_lo - 1)
    else some (mem, q_lo)

/-- A round of `DivideCore`, with the next overflow leg. -/
def divideRound (fuel A B B_used Q : Nat) (B_high : Leg build) (offset : Nat) (mem : Mem build)
    (A_overflow : Leg build) : Option (Mem build × Leg build) := do
  let A_offset := A + offset
  let q := legDiv A_overflow (mem (A_offset + (B_used - 1))) B_high
  let r := subtractProduct q A_offset B B_used mem A_overflow
  let s ← correct A_offset B B_used fuel r.1 r.2 q.2
  let mem := Function.update s.1 (Q + offset) s.2
  return (mem, mem (A_offset + (B_used - 1)))

/-- `do .. while (offset--);` -/
def divideRounds (fuel A B B_used Q : Nat) (B_high : Leg build) :
    Nat → Mem build → Leg build → Option (Mem build)
  | 0, mem, A_overflow =>
    (divideRound fuel A B B_used Q B_high 0 mem A_overflow).map Prod.fst
  | offset + 1, mem, A_overflow => do
    let r ← divideRound fuel A B B_used Q B_high (offset + 1) mem A_overflow
    divideRounds fuel A B B_used Q B_high offset r.1 r.2

/-- `DivideCore`. -/
def divideCore (fuel A_used : Nat) (A_overflow : Leg build) (A B_used B Q : Nat) (mem : Mem build) :
    Option (Mem build) :=
  let offset := A_used - B_used
  let B_high := mem (B + (B_used - 1))
  let A_offset := A + offset
  let q_hi := quotientHigh mem A_offset B B_used A_overflow B_high
  let mem := Function.update mem (Q + offset + 1) (flag q_hi)
  let r :=
    if q_hi then subtractHigh mem A_offset B B_used A_overflow B_high else (mem, A_overflow)
  divideRounds fuel A B B_used Q B_high offset r.1 r.2

end Model

/-! ## One leg -/

section OneLeg

variable {b R x : Leg build}

theorem pairOf_toNat (R x : Leg build) :
    ((toPair R <<< build.legBits) ||| toPair x).toNat = R.toNat * 2 ^ build.legBits + x.toNat := by
  have hR := R.isLt
  have hlt : R.toNat * 2 ^ build.legBits < 2 ^ (build.legBits + build.legBits) := by
    rw [Nat.pow_add]
    exact Nat.mul_lt_mul_of_pos_right hR (Nat.two_pow_pos _)
  rw [BitVec.toNat_or, BitVec.toNat_shiftLeft, Nat.shiftLeft_eq, toPair_toNat, toPair_toNat,
    Nat.mod_eq_of_lt hlt, Nat.mul_comm]
  exact (Nat.two_pow_add_eq_or_of_lt x.isLt _).symm

theorem legDiv_toNat (A_hi A_lo B : Leg build) :
    (legDiv A_hi A_lo B).2.toNat + 2 ^ build.legBits * (legDiv A_hi A_lo B).1.toNat =
      (A_hi.toNat * 2 ^ build.legBits + A_lo.toNat) / B.toNat := by
  rw [legDiv, halves_toNat, BitVec.toNat_udiv, pairOf_toNat, toPair_toNat]

theorem divideXStep_spec (hb : b ≠ 0) (hR : R < b) :
    (divideXStep b R x).2 < b ∧
      (b.toNat : ℤ) * ((divideXStep b R x).1.toNat : ℤ) + ((divideXStep b R x).2.toNat : ℤ) =
        1 * (x.toNat : ℤ) + 2 ^ build.legBits * (R.toNat : ℤ) := by
  have hb0 : 0 < b.toNat := Nat.pos_of_ne_zero fun h => hb (BitVec.eq_of_toNat_eq h)
  have hx := x.isLt
  have hR' : R.toNat + 1 ≤ b.toNat := BitVec.lt_def.mp hR
  -- the quotient is a leg as the remainder before was below the divisor
  have hq : (R.toNat * 2 ^ build.legBits + x.toNat) / b.toNat < 2 ^ build.legBits := by
    refine (Nat.div_lt_iff_lt_mul hb0).mpr ?_
    have := Nat.mul_le_mul_left (2 ^ build.legBits) hR'
    rw [Nat.mul_succ] at this
    rw [Nat.mul_comm R.toNat]
    omega
  have hr : (R.toNat * 2 ^ build.legBits + x.toNat) % b.toNat < b.toNat := Nat.mod_lt _ hb0
  have h1 : (divideXStep b R x).1.toNat = (R.toNat * 2 ^ build.legBits + x.toNat) / b.toNat := by
    rw [divideXStep, BitVec.toNat_setWidth, BitVec.toNat_udiv, pairOf_toNat, toPair_toNat,
      Nat.mod_eq_of_lt hq]
  have h2 : (divideXStep b R x).2.toNat = (R.toNat * 2 ^ build.legBits + x.toNat) % b.toNat := by
    rw [divideXStep, BitVec.toNat_setWidth, BitVec.toNat_umod, pairOf_toNat, toPair_toNat,
      Nat.mod_eq_of_lt (hr.trans b.isLt)]
  refine ⟨by rw [BitVec.lt_def, h2]; exact hr, ?_⟩
  have hdiv := Nat.div_add_mod (R.toNat * 2 ^ build.legBits + x.toNat) b.toNat
  rw [← h1, ← h2] at hdiv
  zify at hdiv
  linear_combination hdiv

/-- The quotient by a leg, in place or not, and the remainder. -/
theorem divideX_spec (hb : b ≠ 0) {legs in_a out : Nat}
    (hd : in_a = out ∨ in_a + legs ≤ out ∨ out + legs ≤ in_a) (mem : Mem build) :
    SameOff out legs mem (divideX legs in_a b out mem).1 ∧
      number (divideX legs in_a b out mem).1 out legs * b.toNat +
        (divideX legs in_a b out mem).2.toNat = number mem in_a legs ∧
      (divideX legs in_a b out mem).2 < b := by
  have hb0 : (0 : Leg build) < b := by
    rw [BitVec.lt_def]
    exact Nat.pos_of_ne_zero fun h => hb (BitVec.eq_of_toNat_eq h)
  obtain ⟨hlt, hval⟩ := @downLoop_value _ legs out _ _ (divideXStep b) (fun mem i => mem (in_a + i))
    mem 0 b.toNat (fun x => 1 * (x.toNat : ℤ)) (fun R => (R.toNat : ℤ)) (· < b)
    (fun R x hR => divideXStep_spec hb hR) (fun i hi mem' hmem' => hmem' _ (by omega)) hb0
  rw [← window, weight_word] at hval
  refine ⟨downLoop_sameOff _ _ _ _ _ _, ?_, hlt⟩
  rw [← number, ← number] at hval
  zify
  rw [divideX]
  simp only [BitVec.ofNat_eq_ofNat, BitVec.toNat_ofNat, Nat.zero_mod, Nat.cast_zero, mul_zero] at hval
  linear_combination hval

theorem modulusXLoop_spec (hb : b ≠ 0) (mem : Mem build) (in_a legs : Nat) (hR : R < b) :
    (modulusXLoop mem in_a b legs R).toNat =
      (number mem in_a legs + (2 ^ build.legBits) ^ legs * R.toNat) % b.toNat := by
  induction legs generalizing R with
  | zero =>
    rw [modulusXLoop, number_zero, pow_zero, Nat.one_mul, Nat.zero_add,
      Nat.mod_eq_of_lt (BitVec.lt_def.mp hR)]
  | succ legs ih =>
    obtain ⟨hlt, hstep⟩ := @divideXStep_spec _ b R (mem (in_a + legs)) hb hR
    rw [modulusXLoop, ih hlt, number_concat]
    generalize (divideXStep b R (mem (in_a + legs))).2.toNat = r at hstep
    generalize (divideXStep b R (mem (in_a + legs))).1.toNat = q at hstep
    have hstep' : b.toNat * q + r = (mem (in_a + legs)).toNat + 2 ^ build.legBits * R.toNat := by
      zify
      linarith
    have : number mem in_a legs + (2 ^ build.legBits) ^ legs * (mem (in_a + legs)).toNat +
        (2 ^ build.legBits) ^ (legs + 1) * R.toNat = number mem in_a legs +
          (2 ^ build.legBits) ^ legs * r + b.toNat * ((2 ^ build.legBits) ^ legs * q) := by
      rw [pow_succ]
      linear_combination -((2 ^ build.legBits) ^ legs * hstep')
    rw [this, Nat.add_mul_mod_self_left]

theorem modulusX_spec (hb : b ≠ 0) {legs : Nat} (hlegs : 0 < legs) (mem : Mem build) (in_a : Nat) :
    (modulusX legs in_a b mem).toNat = number mem in_a legs % b.toNat := by
  obtain ⟨n, rfl⟩ : ∃ n, legs = n + 1 := ⟨legs - 1, by omega⟩
  have hb0 : (0 : Leg build) < b := by
    rw [BitVec.lt_def]
    exact Nat.pos_of_ne_zero fun h => hb (BitVec.eq_of_toNat_eq h)
  rw [modulusX]
  simp only [Nat.add_sub_cancel]
  by_cases h : b ≤ mem (in_a + n)
  · rw [if_pos h, modulusXLoop_spec hb mem in_a _ hb0]
    simp
  · rw [if_neg h, modulusXLoop_spec hb mem in_a _ (BitVec.not_le.mp h), number_concat]

end OneLeg

/-! ## A round -/

section Round

variable {A B Q n k fuel : Nat} {mem : Mem build} {A_overflow b q_lo : Leg build}

/-- Sums of two words modulo their size. -/
theorem add_modEq (x y : Leg build) :
    ((x + y).toNat : ℤ) ≡ x.toNat + y.toNat [ZMOD 2 ^ build.legBits] := by
  rw [BitVec.toNat_add]
  push_cast
  exact Int.mod_modEq _ _

theorem sub_modEq (x y : Leg build) :
    ((x - y).toNat : ℤ) ≡ x.toNat - y.toNat [ZMOD 2 ^ build.legBits] := by
  have h := (add_modEq (x - y) y).sub_right (y.toNat : ℤ)
  rw [BitVec.sub_add_cancel, add_sub_cancel_right] at h
  exact h.symm

theorem flag_bit (c : Bool) : ((flag c : Leg build).toNat : ℤ) = bit c := by
  rw [flag_toNat]
  cases c <;> rfl

theorem zero_toNat (build : Build) : (0 : Leg build).toNat = 0 := BitVec.toNat_ofNat 0 _

theorem bit_false : bit false = 0 := rfl

/-- A loop over two windows with the result in the first. -/
theorem pairLoop_spec {σ : Type} {i j : ℤ} (step : σ → Leg build × Leg build → Leg build × σ)
    (g : σ → ℤ) (h : ∀ c x, ((step c x).1.toNat : ℤ) + 2 ^ build.legBits * g (step c x).2 =
      (i * (x.1.toNat : ℤ) + j * (x.2.toNat : ℤ)) + g c)
    (hd : A + n ≤ B ∨ B + n ≤ A) (mem : Mem build) (c : σ) :
    SameOff A n mem (forLoop step (pairAt A B) A n mem c).1 ∧
      (number (forLoop step (pairAt A B) A n mem c).1 A n : ℤ) +
        (2 ^ build.legBits) ^ n * g (forLoop step (pairAt A B) A n mem c).2 =
          i * number mem A n + j * number mem B n + g c := by
  have hread : (List.range n).map (pairAt A B mem) = (window mem A n).zip (window mem B n) :=
    (zip_window mem mem A B n).symm
  have heq := @forLoop_eq _ n A _ _ step (pairAt A B) mem c fun i hi mem' hmem' => by
    rw [pairAt, pairAt, hmem' _ (by omega), hmem' _ (by omega)]
  have hval := @value_chain _ _ _ step (fun x => i * (x.1.toNat : ℤ) + j * (x.2.toNat : ℤ)) g h c
    ((window mem A n).zip (window mem B n))
  rw [← hread, ← heq, hread, weight_zip i j (by simp), List.length_zip, length_window, length_window,
    Nat.min_self, pow_mul] at hval
  exact ⟨forLoop_sameOff _ _ _ _ _ _, hval⟩

theorem mulSubStep_spec (q_lo : Leg build) (s : Leg build × Bool) (x : Leg build × Leg build) :
    ((mulSubStep q_lo s x).1.toNat : ℤ) + 2 ^ build.legBits *
        (-((mulSubStep q_lo s x).2.1.toNat + bit (mulSubStep q_lo s x).2.2)) =
      (1 * (x.1.toNat : ℤ) + (-(q_lo.toNat : ℤ)) * (x.2.toNat : ℤ)) + -(s.1.toNat + bit s.2) := by
  have hp := legMulAdd_toNat x.2 q_lo s.1
  have hd := subFlagStep_spec s.2 (x.1, (legMulAdd x.2 q_lo s.1).2)
  zify at hp
  simp only [mulSubStep] at hd ⊢
  linear_combination hd - hp

theorem mulSubHighStep_spec (q_lo : Leg build) (s : Leg build × Leg build × Bool)
    (x : Leg build × Leg build) :
    ((mulSubHighStep q_lo s x).1.toNat : ℤ) + 2 ^ build.legBits *
        (-((mulSubHighStep q_lo s x).2.1.toNat + (mulSubHighStep q_lo s x).2.2.1.toNat +
          bit (mulSubHighStep q_lo s x).2.2.2)) =
      (1 * (x.1.toNat : ℤ) + (-(2 ^ build.legBits + q_lo.toNat : ℤ)) * (x.2.toNat : ℤ)) +
        -(s.1.toNat + s.2.1.toNat + bit s.2.2) := by
  have hp := legMulAdd2_toNat x.2 q_lo s.1 s.2.1
  have hd := subFlagStep_spec s.2.2 (x.1, (legMulAdd2 x.2 q_lo s.1 s.2.1).2)
  zify at hp
  simp only [mulSubHighStep] at hd ⊢
  linear_combination hd - hp

/-- The overflow leg and the legs below it, modulo their size. -/
abbrev WrappedAt (mem : Mem build) (A n : Nat) (A_overflow : Leg build) (x : ℤ) : Prop :=
  Wrapped (2 ^ build.legBits) ((2 ^ build.legBits) ^ n) A_overflow.toNat (number mem A n) x

theorem wrappedAt_of {mem' : Mem build} {x top : ℤ}
    (htop : (A_overflow.toNat : ℤ) ≡ top [ZMOD 2 ^ build.legBits])
    (hx : top * (2 ^ build.legBits) ^ n + number mem' A n ≡ x
      [ZMOD 2 ^ build.legBits * (2 ^ build.legBits) ^ n]) : WrappedAt mem' A n A_overflow x where
  top_lt := A_overflow.isLt
  low_lt := number_lt mem' A n
  modEq := by
    push_cast
    exact (htop.mul_right'.add_right _).trans hx

/-- The trial quotient times B is taken off. -/
theorem subtractProduct_spec (hd : A + n ≤ B ∨ B + n ≤ A) (q : Leg build × Leg build)
    (hq : q.1.toNat ≤ 1) (mem : Mem build) (A_overflow : Leg build) :
    SameOff A n mem (subtractProduct q A B n mem A_overflow).1 ∧
      WrappedAt (subtractProduct q A B n mem A_overflow).1 A n
        (subtractProduct q A B n mem A_overflow).2
        (number mem A n + (2 ^ build.legBits) ^ n * A_overflow.toNat -
          (q.2.toNat + 2 ^ build.legBits * q.1.toNat) * number mem B n) := by
  rw [subtractProduct]
  by_cases h : q.1 ≠ 0
  · rw [if_pos h]
    have hq1 : q.1.toNat = 1 := by
      have : q.1.toNat ≠ 0 := fun h0 => h (BitVec.eq_of_toNat_eq h0)
      omega
    obtain ⟨hoff, hval⟩ := pairLoop_spec (mulSubHighStep q.2)
      (fun s => -(s.1.toNat + s.2.1.toNat + bit s.2.2)) (mulSubHighStep_spec q.2) hd mem (0, 0, false)
    refine ⟨hoff, wrappedAt_of ((sub_modEq _ _).trans ((sub_modEq _ _).sub (add_modEq _ _))) (congrArg (· % _) ?_)⟩
    simp only [bit_false, zero_toNat] at hval
    rw [flag_bit, hq1]
    push_cast at hval ⊢
    linear_combination hval
  · rw [if_neg h]
    rw [not_not] at h
    obtain ⟨hoff, hval⟩ := pairLoop_spec (mulSubStep q.2) (fun s => -(s.1.toNat + bit s.2))
      (mulSubStep_spec q.2) hd mem (0, false)
    refine ⟨hoff, wrappedAt_of ((sub_modEq _ _).trans ((add_modEq _ _).sub_left _)) (congrArg (· % _) ?_)⟩
    simp only [bit_false, zero_toNat] at hval
    rw [flag_bit, h, zero_toNat]
    push_cast at hval ⊢
    linear_combination hval

/-- B is added back. -/
theorem addBack_spec (hd : A + n ≤ B ∨ B + n ≤ A) {x : ℤ} (hw : WrappedAt mem A n A_overflow x) :
    SameOff A n mem (forLoop addFlagStep (pairAt A B) A n mem false).1 ∧
      WrappedAt (forLoop addFlagStep (pairAt A B) A n mem false).1 A n
        (A_overflow + flag (forLoop addFlagStep (pairAt A B) A n mem false).2)
        (x + number mem B n) := by
  obtain ⟨hoff, hval⟩ := pairLoop_spec addFlagStep bit addFlagStep_spec hd mem false
  refine ⟨hoff, wrappedAt_of (add_modEq _ _) ?_⟩
  have hmod := hw.modEq.add_right (number mem B n : ℤ)
  push_cast at hmod
  rw [bit_false] at hval
  rw [flag_bit]
  refine (congrArg (· % _) ?_).trans hmod
  linear_combination hval

/-- The divisor is added back at most as often as the trial quotient was too large. -/
theorem correct_spec (hd : A + n ≤ B ∨ B + n ≤ A) {t V : Nat} (ht : t ≤ 2) {x : ℤ}
    (hV : number mem B n = V) (hw : WrappedAt mem A n A_overflow x) (hlo : -(t * (V : ℤ)) ≤ x)
    (hhi : x < V) :
    ∃ k mem', (∀ fuel, t < fuel → correct A B n fuel mem A_overflow q_lo =
        some (mem', q_lo - BitVec.ofNat build.legBits k)) ∧ SameOff A n mem mem' ∧
      (number mem' A n : ℤ) = x + k * V ∧ number mem' A n < V := by
  have hβ : 3 ≤ 2 ^ build.legBits := by
    have := two_le_pow_legBits build
    omega
  have hVlt : (V : ℤ) < ((2 ^ build.legBits) ^ n : Nat) := by
    rw [← hV]
    exact_mod_cast number_lt mem B n
  have hlow : -(2 * (((2 ^ build.legBits) ^ n : Nat) : ℤ)) ≤ x := by
    have : (t : ℤ) * V ≤ 2 * V :=
      mul_le_mul_of_nonneg_right (by exact_mod_cast ht) (Int.natCast_nonneg _)
    linarith
  induction t generalizing mem A_overflow q_lo x with
  | zero =>
    obtain ⟨htop, hx⟩ | ⟨-, hneg⟩ := hw.cases hβ hlow (hhi.trans hVlt)
    · refine ⟨0, mem, fun fuel hfuel => ?_, SameOff.refl _ _ _, by rw [hx]; ring, by omega⟩
      obtain ⟨f, rfl⟩ : ∃ f, fuel = f + 1 := ⟨fuel - 1, by omega⟩
      simp [correct, BitVec.eq_of_toNat_eq (x := A_overflow) (y := 0) htop]
    · rw [Nat.cast_zero, zero_mul, neg_zero] at hlo
      linarith
  | succ t ih =>
    obtain ⟨htop, hx⟩ | ⟨htop, hneg⟩ := hw.cases hβ hlow (hhi.trans hVlt)
    · refine ⟨0, mem, fun fuel hfuel => ?_, SameOff.refl _ _ _, by rw [hx]; ring, by omega⟩
      obtain ⟨f, rfl⟩ : ∃ f, fuel = f + 1 := ⟨fuel - 1, by omega⟩
      simp [correct, BitVec.eq_of_toNat_eq (x := A_overflow) (y := 0) htop]
    · have hne : A_overflow ≠ 0 := fun h => htop (by rw [h, zero_toNat])
      obtain ⟨hoff, hw'⟩ := addBack_spec hd hw
      have hB : number (forLoop addFlagStep (pairAt A B) A n mem false).1 B n = V := by
        rw [← hV]
        exact number_of_sameOff hoff (by omega)
      rw [hV] at hw'
      push_cast at hlo
      obtain ⟨k, mem', hrun, hoff', hval, hlt⟩ := @ih _ _ (q_lo - 1) (by omega) _ hB hw' (by linarith)
        (by linarith) (by linarith [Int.natCast_nonneg V])
      refine ⟨k + 1, mem', fun fuel hfuel => ?_, hoff.trans hoff', ?_, hlt⟩
      · obtain ⟨f, rfl⟩ : ∃ f, fuel = f + 1 := ⟨fuel - 1, by omega⟩
        have hsub : q_lo - 1 - BitVec.ofNat build.legBits k =
            q_lo - BitVec.ofNat build.legBits (k + 1) := by
          rw [BitVec.sub_sub, Nat.add_comm, BitVec.ofNat_add]
          rfl
        rw [correct, if_pos hne, hrun f (by omega), hsub]
      · rw [hval]
        push_cast
        ring

/-- The divisor of a round: its top leg has the top bit set. -/
structure Normal (mem : Mem build) (B n : Nat) (B_high : Leg build) : Prop where
  pos : 0 < n
  high : mem (B + (n - 1)) = B_high
  top : 2 ^ build.legBits ≤ 2 * B_high.toNat

theorem Normal.congr {mem' : Mem build} (h : Normal mem B n b)
    (hB : ∀ i < n, mem' (B + i) = mem (B + i)) : Normal mem' B n b where
  pos := h.pos
  high := by rw [hB _ (Nat.sub_lt h.pos Nat.one_pos), h.high]
  top := h.top

/-- The numerator of a round. -/
def numerator (mem : Mem build) (A n : Nat) (A_overflow : Leg build) : Nat :=
  number mem A n + (2 ^ build.legBits) ^ n * A_overflow.toNat

theorem Normal.leading (h : Normal mem B n b)
    (hlt : numerator mem A n A_overflow < 2 ^ build.legBits * number mem B n) :
    Leading (2 ^ build.legBits) ((2 ^ build.legBits) ^ (n - 1)) A_overflow.toNat
      (mem (A + (n - 1))).toNat b.toNat (number mem B n) (numerator mem A n A_overflow) := by
  obtain ⟨m, hm⟩ : ∃ m, n = m + 1 := ⟨n - 1, by have := h.pos; omega⟩
  have hhigh := h.high
  subst hm
  rw [Nat.add_sub_cancel] at hhigh ⊢
  have hBlt := number_lt mem B m
  have hAlt := number_lt mem A m
  have hB := number_concat mem B m
  have hA : numerator mem A (m + 1) A_overflow = number mem A m + (A_overflow.toNat *
      2 ^ build.legBits + (mem (A + m)).toNat) * (2 ^ build.legBits) ^ m := by
    rw [numerator, number_concat, pow_succ]
    ring
  rw [hhigh, Nat.mul_comm] at hB
  have hpow := Nat.two_pow_pos build.legBits
  refine ⟨h.top, ?_, (mem (A + m)).isLt, ?_, ?_, ?_, ?_, hlt⟩
  · have := h.top
    omega
  · rw [hB]
    omega
  · rw [hB, Nat.add_mul]
    omega
  · rw [hA]
    omega
  · rw [hA, Nat.add_mul _ 1]
    omega

/-- A round divides its numerator. -/
theorem divideRound_spec (hd : A + k + n ≤ B ∨ B + n ≤ A + k) (hQA : Q + k < A + k ∨ A + k + n ≤ Q + k)
    (hn : Normal mem B n b)
    (hlt : numerator mem (A + k) n A_overflow < 2 ^ build.legBits * number mem B n) :
    ∃ mem', (∀ fuel, 3 ≤ fuel → divideRound fuel A B n Q b k mem A_overflow =
        some (mem', mem' (A + k + (n - 1)))) ∧
      (∀ j, j < A + k ∨ A + k + n ≤ j → j ≠ Q + k → mem' j = mem j) ∧
      numerator mem (A + k) n A_overflow =
        (mem' (Q + k)).toNat * number mem B n + number mem' (A + k) n ∧
      number mem' (A + k) n < number mem B n := by
  have hlead := hn.leading hlt
  obtain ⟨hlo, hhi⟩ := hlead.remainder_bounds
  have htrial := hlead.trial_le
  rw [← legDiv_toNat] at hlo hhi htrial
  set q := legDiv A_overflow (mem (A + k + (n - 1))) b with hq
  have hq1 : q.1.toNat ≤ 1 := by
    by_contra h
    have := Nat.mul_le_mul_left (2 ^ build.legBits) (Nat.succ_le_of_lt (Nat.not_le.mp h))
    have := two_le_pow_legBits build
    omega
  obtain ⟨hoff1, hw⟩ := subtractProduct_spec hd q hq1 mem A_overflow
  have hV : number (subtractProduct q (A + k) B n mem A_overflow).1 B n = number mem B n :=
    number_of_sameOff hoff1 (by omega)
  rw [numerator] at hlo hhi
  push_cast at hlo hhi
  obtain ⟨t, mem2, hrun, hoff2, hval, hrem⟩ := @correct_spec _ _ _ _ _ _ q.2 hd 2 _ le_rfl _ hV hw
    (by push_cast; linarith) (by linarith)
  -- the quotient fits a leg
  have hquot : (numerator mem (A + k) n A_overflow : ℤ) =
      ((q.2.toNat + 2 ^ build.legBits * q.1.toNat : ℤ) - t) * number mem B n +
        number mem2 (A + k) n := by
    rw [numerator, hval]
    push_cast
    ring
  have hVpos := hlead.v_pos
  have hlow : (0 : ℤ) ≤ (q.2.toNat + 2 ^ build.legBits * q.1.toNat : ℤ) - t := by
    by_contra hneg
    have hmul : ((q.2.toNat + 2 ^ build.legBits * q.1.toNat : ℤ) - t) * number mem B n ≤
        -1 * number mem B n := mul_le_mul_of_nonneg_right (by omega) (Int.natCast_nonneg _)
    have : (0 : ℤ) ≤ numerator mem (A + k) n A_overflow := Int.natCast_nonneg _
    have : (number mem2 (A + k) n : ℤ) < number mem B n := by exact_mod_cast hrem
    linarith
  have hhigh : (q.2.toNat + 2 ^ build.legBits * q.1.toNat : ℤ) - t < 2 ^ build.legBits := by
    by_contra hge
    have hmul : (2 ^ build.legBits : ℤ) * number mem B n ≤
        ((q.2.toNat + 2 ^ build.legBits * q.1.toNat : ℤ) - t) * number mem B n :=
      mul_le_mul_of_nonneg_right (not_lt.mp hge) (Int.natCast_nonneg _)
    have : (numerator mem (A + k) n A_overflow : ℤ) < 2 ^ build.legBits * number mem B n := by
      exact_mod_cast hlt
    have : (0 : ℤ) ≤ number mem2 (A + k) n := Int.natCast_nonneg _
    linarith
  have hleg : ((q.2 - BitVec.ofNat build.legBits t).toNat : ℤ) =
      (q.2.toNat + 2 ^ build.legBits * q.1.toNat : ℤ) - t := by
    have hmod : ((q.2 - BitVec.ofNat build.legBits t).toNat : ℤ) ≡
        (q.2.toNat + 2 ^ build.legBits * q.1.toNat : ℤ) - t [ZMOD 2 ^ build.legBits] := by
      refine (sub_modEq _ _).trans (Int.ModEq.sub ?_ ?_)
      · exact Int.modEq_iff_dvd.mpr ⟨q.1.toNat, by ring⟩
      · rw [BitVec.toNat_ofNat]
        push_cast
        exact Int.mod_modEq _ _
    have hlt2 : ((q.2 - BitVec.ofNat build.legBits t).toNat : ℤ) < 2 ^ build.legBits := by
      exact_mod_cast (q.2 - BitVec.ofNat build.legBits t).isLt
    rwa [Int.ModEq, Int.emod_eq_of_lt (Int.natCast_nonneg _) hlt2, Int.emod_eq_of_lt hlow hhigh]
      at hmod
  have hoff := hoff1.trans hoff2
  set digit := q.2 - BitVec.ofNat build.legBits t
  have hoff3 : SameOff (Q + k) 1 mem2 (Function.update mem2 (Q + k) digit) :=
    SameOff.update _ le_rfl (by omega) _
  have hA : number (Function.update mem2 (Q + k) digit) (A + k) n = number mem2 (A + k) n :=
    number_of_sameOff hoff3 (by omega)
  refine ⟨Function.update mem2 (Q + k) digit, fun fuel hfuel => ?_, fun j hj hne => ?_, ?_, ?_⟩
  · rw [divideRound, ← hq, hrun fuel (by omega)]
    rfl
  · rw [Function.update_of_ne hne, hoff j hj]
  · rw [Function.update_self, hA]
    zify
    rw [hquot, hleg]
  · rw [hA]
    exact hrem

/-- The places of the three numbers of a division with a quotient of `l + 1` legs. -/
structure Apart (A B Q n l : Nat) : Prop where
  a_b : A + l + n ≤ B ∨ B + n ≤ A
  q_a : Q + l + 1 ≤ A ∨ A + l + n ≤ Q
  q_b : Q + l + 1 ≤ B ∨ B + n ≤ Q

/-- All rounds: the quotient and the remainder. -/
theorem divideRounds_spec {l : Nat} (h : Apart A B Q n l) (hn : Normal mem B n b)
    (hlt : numerator mem (A + l) n A_overflow < 2 ^ build.legBits * number mem B n) :
    ∃ mem', (∀ fuel, 3 ≤ fuel → divideRounds fuel A B n Q b l mem A_overflow = some mem') ∧
      (∀ j, j < A ∨ A + l + n ≤ j → j < Q ∨ Q + l + 1 ≤ j → mem' j = mem j) ∧
      numerator mem A (l + n) A_overflow = number mem' Q (l + 1) * number mem B n + number mem' A n ∧
      number mem' A n < number mem B n := by
  have hab := h.a_b
  have hqa := h.q_a
  have hqb := h.q_b
  have hpos := hn.pos
  induction l generalizing mem A_overflow with
  | zero =>
    obtain ⟨mem', hrun, hoff, hval, hrem⟩ := @divideRound_spec _ A B Q n 0 mem A_overflow b hab
      (by omega) hn hlt
    refine ⟨mem', fun fuel hfuel => ?_, fun j hj hj' => hoff j hj (by omega), ?_, hrem⟩
    · rw [divideRounds, hrun fuel hfuel]
      rfl
    · rw [Nat.zero_add, Nat.zero_add, number_one]
      exact hval
  | succ l ih =>
    obtain ⟨mem1, hrun1, hoff1, hval1, hrem1⟩ := @divideRound_spec _ A B Q n (l + 1) mem A_overflow b
      (by omega) (by omega) hn hlt
    have hB : ∀ i < n, mem1 (B + i) = mem (B + i) := fun i hi => hoff1 _ (by omega) (by omega)
    have hBnum : number mem1 B n = number mem B n := number_congr hB
    have htop : A + (l + 1) + (n - 1) = A + l + n := by omega
    have hover : numerator mem1 (A + l) n (mem1 (A + l + n)) = number mem1 (A + l) (n + 1) :=
      (number_concat mem1 (A + l) n).symm
    -- what is left of a round starts the next
    have hnext : numerator mem1 (A + l) n (mem1 (A + l + n)) =
        (mem1 (A + l)).toNat + 2 ^ build.legBits * number mem1 (A + (l + 1)) n := by
      rw [hover, number_succ, Nat.add_assoc]
    have hlt1 : numerator mem1 (A + l) n (mem1 (A + l + n)) <
        2 ^ build.legBits * number mem1 B n := by
      have hmul := Nat.mul_le_mul_left (2 ^ build.legBits) (Nat.succ_le_of_lt hrem1)
      have hleg := (mem1 (A + l)).isLt
      rw [hnext, hBnum]
      rw [Nat.mul_succ] at hmul
      omega
    obtain ⟨mem', hrun, hoff, hval, hrem⟩ := ih ⟨by omega, by omega, by omega⟩ (hn.congr hB) hlt1
      (by omega) (by omega) (by omega)
    refine ⟨mem', fun fuel hfuel => ?_, fun j hj hj' => ?_, ?_, ?_⟩
    · rw [divideRounds, hrun1 fuel hfuel, Option.bind_eq_bind, Option.bind_some, htop]
      exact hrun fuel hfuel
    · rw [hoff j (by omega) (by omega), hoff1 j (by omega) (by omega)]
    · have hQ : mem' (Q + (l + 1)) = mem1 (Q + (l + 1)) := hoff _ (by omega) (by omega)
      have hlow : number mem1 A (l + 1) = number mem A (l + 1) :=
        number_congr fun i hi => hoff1 _ (by omega) (by omega)
      have hsplit : numerator mem A (l + 1 + n) A_overflow = number mem A (l + 1) +
          (2 ^ build.legBits) ^ (l + 1) * numerator mem (A + (l + 1)) n A_overflow := by
        rw [numerator, numerator, number_add, Nat.pow_add]
        ring
      have hsplit1 : numerator mem1 A (l + n) (mem1 (A + l + n)) = number mem1 A (l + 1) +
          (2 ^ build.legBits) ^ (l + 1) * number mem1 (A + (l + 1)) n := by
        rw [numerator, Nat.add_assoc A l n, ← number_concat, ← number_add]
        congr 1
        omega
      rw [hsplit, hval1, number_concat mem' Q (l + 1), hQ, ← hlow]
      rw [hsplit1, hBnum] at hval
      linear_combination hval
    · rw [← hBnum]
      exact hrem

theorem Normal.numerator_lt (hn : Normal mem B n b) (hlt : A_overflow < b) :
    numerator mem A n A_overflow < 2 ^ build.legBits * number mem B n := by
  obtain ⟨m, rfl⟩ : ∃ m, n = m + 1 := ⟨n - 1, by have := hn.pos; omega⟩
  have hhigh := hn.high
  rw [Nat.add_sub_cancel] at hhigh
  have hA := number_lt mem A (m + 1)
  have hle : (2 ^ build.legBits) ^ (m + 1) * (A_overflow.toNat + 1) ≤
      2 ^ build.legBits * number mem B (m + 1) := by
    rw [pow_succ', Nat.mul_assoc, number_concat, hhigh]
    refine Nat.mul_le_mul_left _ ((Nat.mul_le_mul_left _ ?_).trans (Nat.le_add_left _ _))
    exact BitVec.lt_def.mp hlt
  rw [Nat.mul_succ] at hle
  rw [numerator]
  omega

/-- Long division of `l + n` legs and an overflow below the divisor's top leg; the leg above the
quotient is zeroed. -/
theorem divideCore_spec {l : Nat} (h : Apart A B Q n l)
    (hqa : Q + l + 1 < A ∨ A + l + n ≤ Q + l + 1) (hqb : Q + l + 1 < B ∨ B + n ≤ Q + l + 1)
    (hn : Normal mem B n b) (hlt : A_overflow < b) :
    ∃ mem', (∀ fuel, 3 ≤ fuel → divideCore fuel (l + n) A_overflow A n B Q mem = some mem') ∧
      (∀ j, j < A ∨ A + l + n ≤ j → j < Q ∨ Q + l + 2 ≤ j → mem' j = mem j) ∧
      mem' (Q + l + 1) = 0 ∧
      numerator mem A (l + n) A_overflow = number mem' Q (l + 1) * number mem B n + number mem' A n ∧
      number mem' A n < number mem B n := by
  have hab := h.a_b
  have hqa' := h.q_a
  have hqb' := h.q_b
  have hoff1 : SameOff (Q + l + 1) 1 mem (Function.update mem (Q + l + 1) (flag false)) :=
    SameOff.update _ le_rfl (by omega) _
  set mem1 := Function.update mem (Q + l + 1) (flag false) with hmem1
  have hn1 := hn.congr fun i hi => hoff1 (B + i) (by omega)
  have hB : number mem1 B n = number mem B n := number_of_sameOff hoff1 (by omega)
  have hA : number mem1 A (l + n) = number mem A (l + n) := number_of_sameOff hoff1 (by omega)
  obtain ⟨mem', hrun, hoff, hval, hrem⟩ := divideRounds_spec h hn1 (hn1.numerator_lt hlt)
  refine ⟨mem', fun fuel hfuel => ?_, fun j hj hj' => ?_, ?_, ?_, hB ▸ hrem⟩
  · have hq : quotientHigh mem (A + l) B n A_overflow b = false := by rw [quotientHigh, if_pos hlt]
    rw [divideCore]
    simp only [Nat.add_sub_cancel, hn.high, hq]
    exact hrun fuel hfuel
  · rw [hoff j hj (by omega), hoff1 j (by omega)]
  · rw [hoff _ (by omega) (by omega), hmem1, Function.update_self]
    rfl
  · rw [← hB, ← hval, numerator, numerator, hA]

end Round

end Libcat.Math.Division
