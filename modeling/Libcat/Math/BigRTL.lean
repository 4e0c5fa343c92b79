import Libcat.Math.BitMath
import Libcat.Math.Legs

/-!
# Big integer registers

`BigRTL`: sums, differences and products of registers. A register is the list of its legs, lowest
first, and `library_legs` is its length. The loops over the legs are `chain`s; the lemma of each
function gives the `value` of what it returns. Products are in `Multiply.lean`.
-/

namespace Libcat.Math.BigRTL

open Radix

variable {build : Build}

section Model

/-- One leg of `Add`. -/
def addPairStep (sum : LegPair build) (x : Leg build × Leg build) : Leg build × LegPair build :=
  let sum := ((sum >>> build.legBits) + toPair x.1) + toPair x.2
  (sum.setWidth build.legBits, sum)

/-- One leg of `Add` without pairs of legs. -/
def addFlagStep (c : Bool) (x : Leg build × Leg build) : Leg build × Bool :=
  let sum := x.1 + x.2 + flag c
  (sum, if c then decide (sum ≤ x.1) else decide (sum < x.1))

/-- `Add`: the carry and the sum. -/
def add (a b : List (Leg build)) : u8 × List (Leg build) :=
  match a.zip b with
  | [] => (0, [])
  | (a0, b0) :: rest =>
    if build.legPair then
      let sum := toPair a0 + toPair b0
      let r := chain addPairStep sum rest
      ((r.2 >>> build.legBits).setWidth 8, sum.setWidth build.legBits :: r.1)
    else
      let s := a0 + b0
      let r := chain addFlagStep (decide (s < a0)) rest
      (if r.2 then 1 else 0, s :: r.1)

/-- The loop of `AddX`: the carry runs up until a leg takes it. -/
def rippleCarry : List (Leg build) → u8 × List (Leg build)
  | [] => (1, [])
  | x :: l =>
    if x + 1 ≠ 0 then (0, (x + 1) :: l)
    else
      let r := rippleCarry l
      (r.1, (x + 1) :: r.2)

/-- `AddX`. -/
def addX (inout : List (Leg build)) (x : Leg build) : u8 × List (Leg build) :=
  match inout with
  | [] => (0, [])
  | t :: l =>
    if x ≤ t + x then (0, (t + x) :: l)
    else
      let r := rippleCarry l
      (r.1, (t + x) :: r.2)

/-- One leg of `Double`. -/
def doubleStep (last next : Leg build) : Leg build × Leg build :=
  ((next <<< 1) ||| (last >>> (build.legBits - 1)), next)

/-- `Double`. -/
def double (input : List (Leg build)) : u8 × List (Leg build) :=
  match input with
  | [] => (0, [])
  | last :: l =>
    let r := chain doubleStep last l
    ((r.2 >>> (build.legBits - 1)).setWidth 8, (last <<< 1) :: r.1)

/-- One leg of `DoubleAdd`: two of the first, one of the second. -/
def doubleAddPairStep (x : LegPair build) (y : Leg build × Leg build) :
    Leg build × LegPair build :=
  let x := (x >>> build.legBits) + (toPair y.1 <<< 1) + toPair y.2
  (x.setWidth build.legBits, x)

/-- One leg of the loops with a product; `b` is the factor of all legs. -/
def mulAddStep (b hi : Leg build) (x : Leg build × Leg build) : Leg build × Leg build :=
  let p := legMulAdd2 x.1 b x.2 hi
  (p.2, p.1)

/-- `DoubleAdd`. -/
def doubleAdd (a b : List (Leg build)) : Leg build × List (Leg build) :=
  match a.zip b with
  | [] => (0, [])
  | (a0, b0) :: rest =>
    if build.legPair then
      let x := (toPair a0 <<< 1) + toPair b0
      let r := chain doubleAddPairStep x rest
      ((r.2 >>> build.legBits).setWidth build.legBits, x.setWidth build.legBits :: r.1)
    else
      let p := legMulAdd a0 2 b0
      let r := chain (mulAddStep 2) p.1 rest
      (r.2, p.2 :: r.1)

/-- One leg of `Subtract`; the shift keeps the sign. -/
def subPairStep (diff : LegPair build) (x : Leg build × Leg build) : Leg build × LegPair build :=
  let diff := (diff.sshiftRight build.legBits + toPair x.1) - toPair x.2
  (diff.setWidth build.legBits, diff)

/-- One leg of `Subtract` without pairs of legs. -/
def subFlagStep (c : Bool) (x : Leg build × Leg build) : Leg build × Bool :=
  let d := x.1 - x.2 - flag c
  (d, if c then decide (x.1 < d) || decide (x.2 = ~~~0) else decide (x.1 < x.2))

/-- `Subtract`: the borrow and the difference. -/
def subtract (a b : List (Leg build)) : u8 × List (Leg build) :=
  match a.zip b with
  | [] => (0, [])
  | (a0, b0) :: rest =>
    if build.legPair then
      let diff := toPair a0 - toPair b0
      let r := chain subPairStep diff rest
      ((r.2.sshiftRight build.legBits).setWidth 8 &&& 1, diff.setWidth build.legBits :: r.1)
    else
      let r := chain subFlagStep (decide (a0 < b0)) rest
      (if r.2 then 1 else 0, (a0 - b0) :: r.1)

/-- The loop of `SubtractX`. -/
def rippleBorrow : List (Leg build) → u8 × List (Leg build)
  | [] => (1, [])
  | x :: l =>
    if x ≠ 0 then (0, (x - 1) :: l)
    else
      let r := rippleBorrow l
      (r.1, (x - 1) :: r.2)

/-- `SubtractX`. -/
def subtractX (inout : List (Leg build)) (x : Leg build) : u8 × List (Leg build) :=
  match inout with
  | [] => (0, [])
  | t :: l =>
    if x ≤ t then (0, (t - x) :: l)
    else
      let r := rippleBorrow l
      (r.1, (t - x) :: r.2)

/-- One leg of `MultiplyX`. -/
def mulStep (b hi x : Leg build) : Leg build × Leg build :=
  let p := legMulAdd x b hi
  (p.2, p.1)

/-- `MultiplyX`: the overflow and the product. -/
def multiplyX (a : List (Leg build)) (b : Leg build) : Leg build × List (Leg build) :=
  match a with
  | [] => (0, [])
  | a0 :: l =>
    let p := legMul a0 b
    let r := chain (mulStep b) p.1 l
    (r.2, p.2 :: r.1)

/-- `MultiplyXAdd`: `A * B + C`. -/
def multiplyXAdd (a : List (Leg build)) (b : Leg build) (c : List (Leg build)) :
    Leg build × List (Leg build) :=
  match a.zip c with
  | [] => (0, [])
  | (a0, c0) :: rest =>
    let p := legMulAdd a0 b c0
    let r := chain (mulAddStep b) p.1 rest
    (r.2, p.2 :: r.1)

/-- `IsZero`. -/
def isZero (input : List (Leg build)) : Bool := input.all fun x => x == 0

end Model

/-! ## Carries -/

theorem value_lt_pow (l : List (Leg build)) :
    (value l : ℤ) < 2 ^ (build.legBits * l.length) := by
  rw [pow_mul]
  exact_mod_cast value_lt l

/-- What a loop leaves, with a carry out. -/
structure CarryOut (out : u8 × List (Leg build)) (legs : Nat) (n : ℤ) : Prop where
  length : out.2.length = legs
  carry : out.1 = 0 ∨ out.1 = 1
  value : (value out.2 : ℤ) + 2 ^ (build.legBits * legs) * out.1.toNat = n

/-- A carry out of a number below twice the size is a bit. -/
theorem carry_bit {l : List (Leg build)} {k n : ℤ}
    (h : (value l : ℤ) + 2 ^ (build.legBits * l.length) * k = n) (hn : 0 ≤ n)
    (hlt : n < 2 * 2 ^ (build.legBits * l.length)) : k = 0 ∨ k = 1 := by
  have hv := value_lt_pow l
  have hpos : (0 : ℤ) < 2 ^ (build.legBits * l.length) := by positivity
  have h0 : 0 ≤ k := by
    by_contra hk
    nlinarith
  have h2 : k < 2 := by
    by_contra hk
    nlinarith
  omega

theorem carryOut_of_value {l : List (Leg build)} {legs : Nat} {k n : ℤ} {carry : u8}
    (hlen : l.length = legs) (hval : (Radix.value l : ℤ) + 2 ^ (build.legBits * legs) * k = n)
    (hn : 0 ≤ n) (hlt : n < 2 * 2 ^ (build.legBits * legs))
    (hcarry : k = 0 ∨ k = 1 → (carry.toNat : ℤ) = k) : CarryOut (carry, l) legs n := by
  subst hlen
  have hbit := carry_bit hval hn hlt
  have hk := hcarry hbit
  refine ⟨rfl, ?_, ?_⟩
  · rcases hbit with h | h
    · exact .inl (BitVec.eq_of_toNat_eq (by simp; omega))
    · exact .inr (BitVec.eq_of_toNat_eq (by simp; omega))
  · rw [hk]
    exact hval

/-- The carry in a pair of legs. -/
def pairCarry (t : LegPair build) : ℤ := (t >>> build.legBits).toNat

/-- The carry in a flag. -/
def bit (c : Bool) : ℤ := if c then 1 else 0

theorem pair_toNat (t : LegPair build) :
    ((t.setWidth build.legBits).toNat : ℤ) + 2 ^ build.legBits * pairCarry t = t.toNat := by
  rw [pairCarry, BitVec.toNat_setWidth, BitVec.toNat_ushiftRight, Nat.shiftRight_eq_div_pow]
  exact_mod_cast Nat.mod_add_div _ _

theorem pairCarry_lt (t : LegPair build) :
    (t >>> build.legBits).toNat < 2 ^ build.legBits := by
  rw [BitVec.toNat_ushiftRight, Nat.shiftRight_eq_div_pow]
  apply Nat.div_lt_of_lt_mul
  rw [← Nat.pow_add]
  exact t.isLt

/-- Four legs fit a pair. -/
theorem four_legs_lt (build : Build) :
    4 * 2 ^ build.legBits < 2 ^ (build.legBits + build.legBits) := by
  have := two_le_pow_legBits build
  rw [Nat.pow_add]
  exact Nat.mul_lt_mul_of_pos_right (by omega) (by omega)

theorem pairCarry_u8 {t : LegPair build} (h : pairCarry t = 0 ∨ pairCarry t = 1) :
    (((t >>> build.legBits).setWidth 8).toNat : ℤ) = pairCarry t := by
  unfold pairCarry at h ⊢
  rw [BitVec.toNat_setWidth, Nat.mod_eq_of_lt (by omega)]

theorem bit_u8 (c : Bool) : ((if c then 1 else 0 : u8).toNat : ℤ) = bit c := by
  cases c <;> rfl

theorem bit_decide (p : Prop) [Decidable p] : bit (decide p) = if p then 1 else 0 := by
  simp [bit]

theorem mod_cases {n B : Nat} (h : n < 2 * B) : n < B ∧ n % B = n ∨ B ≤ n ∧ n % B = n - B := by
  rcases Nat.lt_or_ge n B with hlt | hge
  · exact .inl ⟨hlt, Nat.mod_eq_of_lt hlt⟩
  · refine .inr ⟨hge, ?_⟩
    rw [Nat.mod_eq_sub_mod hge, Nat.mod_eq_of_lt (by omega)]

/-- Registers of equal length: empty ones, or a first leg of each. -/
theorem zip_cases {a b : List (Leg build)} (h : a.length = b.length) :
    a = [] ∧ b = [] ∨ ∃ a0 a' b0 b', a = a0 :: a' ∧ b = b0 :: b' ∧ a'.length = b'.length := by
  cases a with
  | nil => exact .inl ⟨rfl, List.length_eq_zero_iff.mp h.symm⟩
  | cons a0 a =>
    cases b with
    | nil => simp at h
    | cons b0 b => exact .inr ⟨a0, a, b0, b, rfl, rfl, by simpa using h⟩

/-- The inputs of a loop over two registers, with the first legs. -/
theorem weight_zip_cons (j k : ℤ) {a b : List (Leg build)} (h : a.length = b.length)
    (a0 b0 : Leg build) :
    (j * (a0.toNat : ℤ) + k * (b0.toNat : ℤ)) + 2 ^ build.legBits *
        weight build.legBits (fun x => j * (x.1.toNat : ℤ) + k * (x.2.toNat : ℤ)) (a.zip b) =
      j * value (a0 :: a) + k * value (b0 :: b) := by
  rw [weight_zip j k h, value_cons, value_cons]
  push_cast
  ring

/-! ## Sums -/

theorem addPairStep_spec (c : LegPair build) (x : Leg build × Leg build) :
    ((addPairStep c x).1.toNat : ℤ) + 2 ^ build.legBits * pairCarry (addPairStep c x).2 =
      (1 * (x.1.toNat : ℤ) + 1 * (x.2.toNat : ℤ)) + pairCarry c := by
  have h1 := pairCarry_lt c
  have h2 := x.1.isLt
  have h3 := x.2.isLt
  have h4 := four_legs_lt build
  simp only [addPairStep]
  rw [pair_toNat, BitVec.toNat_add, BitVec.toNat_add, toPair_toNat, toPair_toNat, Nat.mod_add_mod,
    Nat.mod_eq_of_lt (by omega), pairCarry]
  push_cast
  ring

/-- The carry of a sum with a carry in, by comparison with a summand. -/
theorem addFlagStep_spec (c : Bool) (x : Leg build × Leg build) :
    ((addFlagStep c x).1.toNat : ℤ) + 2 ^ build.legBits * bit (addFlagStep c x).2 =
      (1 * (x.1.toNat : ℤ) + 1 * (x.2.toNat : ℤ)) + bit c := by
  obtain ⟨a, b⟩ := x
  have ha := a.isLt
  have hb := b.isLt
  have hpow : ((2 ^ build.legBits : Nat) : ℤ) = 2 ^ build.legBits := by push_cast; rfl
  have hsum : (a + b + flag c).toNat =
      (a.toNat + b.toNat + if c then 1 else 0) % 2 ^ build.legBits := by
    rw [BitVec.toNat_add, BitVec.toNat_add, flag_toNat, Nat.mod_add_mod]
  have hlt : (a.toNat + b.toNat + if c then 1 else 0) < 2 * 2 ^ build.legBits := by
    split <;> omega
  simp only [addFlagStep]
  rw [apply_ite bit, bit_decide, bit_decide]
  simp only [BitVec.le_def, BitVec.lt_def]
  rcases mod_cases hlt with ⟨h1, h2⟩ | ⟨h1, h2⟩ <;> rw [h2] at hsum <;> rw [hsum, ← hpow]
  · cases c
    · simp [bit] at h1 ⊢
    · simp only [if_true, bit] at h1 ⊢
      rw [if_neg (by omega)]
      push_cast
      ring
  · cases c
    · simp only [Bool.false_eq_true, if_false, bit] at h1 ⊢
      rw [if_pos (by omega)]
      push_cast [Nat.cast_sub h1]
      ring
    · simp only [if_true, bit] at h1 ⊢
      rw [if_pos (by omega)]
      push_cast [Nat.cast_sub h1]
      ring

theorem add_spec {a b : List (Leg build)} (h : a.length = b.length) :
    CarryOut (add a b) a.length (value a + value b) := by
  rcases zip_cases h with ⟨rfl, rfl⟩ | ⟨a0, a, b0, b, rfl, rfl, hlen⟩
  · exact ⟨rfl, .inl rfl, by simp [add]⟩
  have hzip : (a.zip b).length = a.length := by simp [hlen]
  have ha := value_lt_pow (a0 :: a)
  have hb := value_lt_pow (b0 :: b)
  have hsum := weight_zip_cons 1 1 hlen a0 b0
  rw [← h] at hb
  unfold add
  simp only [List.zip_cons_cons]
  split
  · have hfirst : (((toPair a0 + toPair b0).setWidth build.legBits).toNat : ℤ) +
        2 ^ build.legBits * pairCarry (toPair a0 + toPair b0) =
          1 * (a0.toNat : ℤ) + 1 * (b0.toNat : ℤ) := by
      have h4 := four_legs_lt build
      rw [pair_toNat, BitVec.toNat_add, toPair_toNat, toPair_toNat, Nat.mod_eq_of_lt (by omega)]
      push_cast
      ring
    have hval := value_cons_chain addPairStep_spec hfirst (a.zip b)
    rw [hsum, hzip, one_mul, one_mul] at hval
    exact carryOut_of_value (by simp [length_chain, hzip]) hval (by positivity)
      (by linarith) pairCarry_u8
  · have hfirst : ((a0 + b0).toNat : ℤ) + 2 ^ build.legBits * bit (decide (a0 + b0 < a0)) =
        1 * (a0.toNat : ℤ) + 1 * (b0.toNat : ℤ) := by
      have := addFlagStep_spec false (a0, b0)
      simpa [addFlagStep, flag, bit] using this
    have hval := value_cons_chain addFlagStep_spec hfirst (a.zip b)
    rw [hsum, hzip, one_mul, one_mul] at hval
    exact carryOut_of_value (by simp [length_chain, hzip]) hval (by positivity)
      (by linarith) fun _ => bit_u8 _

theorem rippleCarry_spec (l : List (Leg build)) :
    CarryOut (rippleCarry l) l.length (value l + 1) := by
  induction l with
  | nil => exact ⟨rfl, .inr rfl, by simp [rippleCarry]⟩
  | cons x l ih =>
    have hx := x.isLt
    have hone : (x + 1).toNat = (x.toNat + 1) % 2 ^ build.legBits := by simp
    unfold rippleCarry
    split
    · next hne =>
      refine ⟨rfl, .inl rfl, ?_⟩
      have hlt : x.toNat + 1 < 2 ^ build.legBits := by
        by_contra hge
        refine hne (BitVec.eq_of_toNat_eq ?_)
        rw [hone, show x.toNat + 1 = 2 ^ build.legBits by omega]
        simp
      rw [Nat.mod_eq_of_lt hlt] at hone
      simp only [value_cons, hone]
      push_cast
      ring
    · next hz =>
      rw [not_not] at hz
      have hfull : x.toNat + 1 = 2 ^ build.legBits := by
        by_contra hne
        rw [Nat.mod_eq_of_lt (by omega), hz] at hone
        simp at hone
      refine ⟨by simp [ih.length], ih.carry, ?_⟩
      have hv := ih.value
      have hfull' : (x.toNat : ℤ) + 1 = 2 ^ build.legBits := by exact_mod_cast hfull
      simp only [value_cons, hz, List.length_cons, Nat.mul_add, Nat.mul_one, pow_add]
      push_cast
      simp only [BitVec.ofNat_eq_ofNat, BitVec.toNat_ofNat, Nat.zero_mod, Nat.cast_zero]
      linear_combination 2 ^ build.legBits * hv - hfull'

theorem addX_spec {l : List (Leg build)} (h : l ≠ []) (x : Leg build) :
    CarryOut (addX l x) l.length (value l + x.toNat) := by
  obtain ⟨t, l, rfl⟩ := List.exists_cons_of_ne_nil h
  have ht := t.isLt
  have hx := x.isLt
  have hsum : (t + x).toNat = (t.toNat + x.toNat) % 2 ^ build.legBits := BitVec.toNat_add _ _
  unfold addX
  simp only [BitVec.le_def]
  rcases mod_cases (n := t.toNat + x.toNat) (B := 2 ^ build.legBits) (by omega) with
    ⟨h1, h2⟩ | ⟨h1, h2⟩ <;> rw [h2] at hsum
  · rw [if_pos (by omega)]
    refine ⟨rfl, .inl rfl, ?_⟩
    simp only [value_cons, hsum]
    push_cast
    ring
  · rw [if_neg (by omega)]
    have hr := rippleCarry_spec l
    refine ⟨by simp [hr.length], hr.carry, ?_⟩
    have hv := hr.value
    simp only [value_cons, hsum, List.length_cons, Nat.mul_add, Nat.mul_one, pow_add]
    push_cast [Nat.cast_sub h1]
    linear_combination 2 ^ build.legBits * hv

/-- The top bit of a leg. -/
def topBit (x : Leg build) : ℤ := (x >>> (build.legBits - 1)).toNat

theorem topBit_eq (x : Leg build) : topBit x = (x.toNat / 2 ^ (build.legBits - 1) : Nat) := by
  rw [topBit, BitVec.toNat_ushiftRight, Nat.shiftRight_eq_div_pow]

theorem pow_legBits (build : Build) : 2 ^ build.legBits = 2 * 2 ^ (build.legBits - 1) := by
  have := build.legBits_ge
  rw [← Nat.pow_succ']
  congr 1
  omega

/-- Twice a leg, without its top bit. -/
theorem shl_one_toNat (x : Leg build) :
    (x <<< 1).toNat = 2 * (x.toNat % 2 ^ (build.legBits - 1)) := by
  rw [BitVec.toNat_shiftLeft, Nat.shiftLeft_eq, pow_legBits, Nat.mul_comm _ (2 ^ 1), Nat.pow_one,
    Nat.mul_mod_mul_left]

theorem shl_one_topBit (x : Leg build) :
    ((x <<< 1).toNat : ℤ) + 2 ^ build.legBits * topBit x = 2 * (x.toNat : ℤ) := by
  have h := Nat.mod_add_div x.toNat (2 ^ (build.legBits - 1))
  have hp : (2 : ℤ) ^ build.legBits = 2 * 2 ^ (build.legBits - 1) := by
    exact_mod_cast pow_legBits build
  have h' : ((x.toNat % 2 ^ (build.legBits - 1) : Nat) : ℤ) +
      2 ^ (build.legBits - 1) * ((x.toNat / 2 ^ (build.legBits - 1) : Nat) : ℤ) = x.toNat := by
    exact_mod_cast h
  rw [shl_one_toNat, topBit_eq, hp]
  push_cast at h' ⊢
  linear_combination 2 * h'

theorem topBit_lt (x : Leg build) : (x >>> (build.legBits - 1)).toNat < 2 := by
  have hx := x.isLt
  rw [pow_legBits] at hx
  rw [BitVec.toNat_ushiftRight, Nat.shiftRight_eq_div_pow]
  apply Nat.div_lt_of_lt_mul
  omega

theorem doubleStep_spec (last next : Leg build) :
    ((doubleStep last next).1.toNat : ℤ) + 2 ^ build.legBits * topBit (doubleStep last next).2 =
      2 * (next.toNat : ℤ) + topBit last := by
  have hor : (next <<< 1 ||| last >>> (build.legBits - 1)).toNat =
      (next <<< 1).toNat + (last >>> (build.legBits - 1)).toNat := by
    rw [BitVec.toNat_or, shl_one_toNat]
    exact (Nat.two_pow_add_eq_or_of_lt (i := 1) (topBit_lt last) _).symm
  have := shl_one_topBit next
  simp only [doubleStep, hor]
  push_cast
  rw [← topBit]
  linear_combination this

theorem double_spec {l : List (Leg build)} (h : l ≠ []) :
    CarryOut (double l) l.length (2 * value l) := by
  obtain ⟨x, l, rfl⟩ := List.exists_cons_of_ne_nil h
  have hlt := value_lt_pow (x :: l)
  have hval := value_cons_chain doubleStep_spec (shl_one_topBit x) l
  rw [weight_word 2 l] at hval
  refine carryOut_of_value (k := topBit (chain doubleStep x l).2) (by simp [length_chain]) ?_
    (by positivity) (by linarith) fun hk => ?_
  · rw [List.length_cons]
    rw [hval, value_cons]
    push_cast
    ring
  · have := topBit_lt (chain doubleStep x l).2
    rw [topBit, BitVec.toNat_setWidth, Nat.mod_eq_of_lt (by omega)]

/-! ## Differences -/

/-- The borrow in a signed pair of legs. -/
def pairBorrow (t : LegPair build) : ℤ := (t.sshiftRight build.legBits).toInt

theorem pairBorrow_eq (t : LegPair build) : pairBorrow t = t.toInt / 2 ^ build.legBits := by
  rw [pairBorrow, BitVec.toInt_sshiftRight, Int.shiftRight_eq_div_pow]
  rfl

theorem pair_toInt (t : LegPair build) :
    ((t.setWidth build.legBits).toNat : ℤ) + 2 ^ build.legBits * pairBorrow t = t.toInt := by
  have hdvd : ((2 : ℤ) ^ build.legBits) ∣ ((2 ^ (build.legBits + build.legBits) : Nat) : ℤ) := by
    push_cast
    exact pow_dvd_pow 2 (by omega)
  have hmod : ((t.setWidth build.legBits).toNat : ℤ) = t.toInt % 2 ^ build.legBits := by
    rw [BitVec.toInt_eq_toNat_bmod, ← Int.emod_emod_of_dvd _ hdvd, Int.bmod_emod,
      Int.emod_emod_of_dvd _ hdvd, BitVec.toNat_setWidth]
    push_cast
    rfl
  rw [hmod, pairBorrow_eq]
  exact Int.emod_add_mul_ediv _ _

theorem pairBorrow_bounds (t : LegPair build) :
    -2 ^ build.legBits ≤ pairBorrow t ∧ pairBorrow t < 2 ^ build.legBits := by
  have hpos : (0 : ℤ) < 2 ^ build.legBits := by positivity
  have hlo := BitVec.le_toInt t
  have hhi := BitVec.two_mul_toInt_lt (x := t)
  have hlo' : -2 ^ (build.legBits + build.legBits) ≤ 2 * t.toInt := BitVec.le_two_mul_toInt
  rw [pow_add] at hhi hlo'
  rw [pairBorrow_eq]
  constructor
  · rw [Int.le_ediv_iff_mul_le hpos]
    nlinarith
  · rw [Int.ediv_lt_iff_lt_mul hpos]
    nlinarith

/-- Numbers of a few legs are not cut by a signed pair. -/
theorem bmod_pair {n : ℤ} (h : -(2 * 2 ^ build.legBits) ≤ n) (h' : n < 2 * 2 ^ build.legBits) :
    n.bmod (2 ^ (build.legBits + build.legBits)) = n := by
  have h4 : (4 : ℤ) * 2 ^ build.legBits < ((2 ^ (build.legBits + build.legBits) : Nat) : ℤ) := by
    exact_mod_cast four_legs_lt build
  exact Int.bmod_eq_of_le_mul_two (by linarith) (by linarith)

theorem toPair_toInt (x : Leg build) : (toPair x).toInt = x.toNat := by
  have hx : (x.toNat : ℤ) < 2 ^ build.legBits := by exact_mod_cast x.isLt
  rw [BitVec.toInt_eq_toNat_bmod, toPair_toNat]
  exact bmod_pair (by linarith [Int.natCast_nonneg x.toNat]) (by linarith)

theorem subPairStep_spec (c : LegPair build) (x : Leg build × Leg build) :
    ((subPairStep c x).1.toNat : ℤ) + 2 ^ build.legBits * pairBorrow (subPairStep c x).2 =
      (1 * (x.1.toNat : ℤ) + (-1) * (x.2.toNat : ℤ)) + pairBorrow c := by
  have h1 : (x.1.toNat : ℤ) < 2 ^ build.legBits := by exact_mod_cast x.1.isLt
  have h2 : (x.2.toNat : ℤ) < 2 ^ build.legBits := by exact_mod_cast x.2.isLt
  obtain ⟨h3, h4⟩ := pairBorrow_bounds c
  simp only [subPairStep]
  rw [pair_toInt, BitVec.toInt_sub, BitVec.toInt_add, toPair_toInt, toPair_toInt, ← pairBorrow,
    bmod_pair (n := _ + _) (by linarith) (by linarith), bmod_pair (by linarith) (by linarith)]
  ring

/-- A difference of legs, with what it borrows. -/
theorem sub_toNat (x y : Leg build) :
    y.toNat ≤ x.toNat ∧ (x - y).toNat = x.toNat - y.toNat ∨
      x.toNat < y.toNat ∧ (x - y).toNat = x.toNat + 2 ^ build.legBits - y.toNat := by
  have hx := x.isLt
  have hy := y.isLt
  rw [BitVec.toNat_sub]
  rcases mod_cases (n := 2 ^ build.legBits - y.toNat + x.toNat) (B := 2 ^ build.legBits) (by omega)
    with ⟨h1, h2⟩ | ⟨h1, h2⟩
  · exact .inr ⟨by omega, by omega⟩
  · exact .inl ⟨by omega, by omega⟩

/-- The borrow of a difference with a borrow in, by comparison. -/
theorem subFlagStep_spec (c : Bool) (x : Leg build × Leg build) :
    ((subFlagStep c x).1.toNat : ℤ) + 2 ^ build.legBits * (-bit (subFlagStep c x).2) =
      (1 * (x.1.toNat : ℤ) + (-1) * (x.2.toNat : ℤ)) + (-bit c) := by
  obtain ⟨a, b⟩ := x
  have ha := a.isLt
  have hb := b.isLt
  have hbig := two_le_pow_legBits build
  have hpow : ((2 ^ build.legBits : Nat) : ℤ) = 2 ^ build.legBits := by push_cast; rfl
  have hones : b = ~~~0 ↔ b.toNat + 1 = 2 ^ build.legBits := by
    rw [← BitVec.toNat_inj, BitVec.toNat_not]
    simp only [BitVec.ofNat_eq_ofNat, BitVec.toNat_ofNat, Nat.zero_mod]
    omega
  have h1 := sub_toNat a b
  have h2 := sub_toNat (a - b) (flag c)
  rw [flag_toNat] at h2
  simp only [subFlagStep, ← hpow]
  cases c with
  | false =>
    simp only [Bool.false_eq_true, if_false, bit_decide, BitVec.lt_def] at h2 ⊢
    split <;> simp only [bit] <;> push_cast <;> omega
  | true =>
    simp only [if_true, ← Bool.decide_or, bit_decide, BitVec.lt_def, hones] at h2 ⊢
    split <;> simp only [bit] <;> push_cast <;> omega

/-- What a loop leaves, with a borrow. -/
structure BorrowOut (out : u8 × List (Leg build)) (legs : Nat) (n : ℤ) : Prop where
  length : out.2.length = legs
  borrow : out.1 = 0 ∨ out.1 = 1
  value : (value out.2 : ℤ) - 2 ^ (build.legBits * legs) * out.1.toNat = n

theorem borrowOut_of_value {l : List (Leg build)} {legs : Nat} {k n : ℤ} {borrow : u8}
    (hlen : l.length = legs) (hval : (Radix.value l : ℤ) + 2 ^ (build.legBits * legs) * k = n)
    (hn : -2 ^ (build.legBits * legs) ≤ n) (hlt : n < 2 ^ (build.legBits * legs))
    (hborrow : k = 0 ∨ k = -1 → (borrow.toNat : ℤ) = -k) : BorrowOut (borrow, l) legs n := by
  subst hlen
  have hbit : k + 1 = 0 ∨ k + 1 = 1 :=
    carry_bit (n := n + 2 ^ (build.legBits * l.length)) (by linarith) (by linarith) (by linarith)
  have hk := hborrow (by omega)
  refine ⟨rfl, ?_, ?_⟩
  · rcases hbit with h | h
    · exact .inr (BitVec.eq_of_toNat_eq (by simp; omega))
    · exact .inl (BitVec.eq_of_toNat_eq (by simp; omega))
  · rw [hk]
    linarith

theorem pairBorrow_u8 {t : LegPair build} (h : pairBorrow t = 0 ∨ pairBorrow t = -1) :
    ((((t.sshiftRight build.legBits).setWidth 8 &&& 1 : u8)).toNat : ℤ) = -pairBorrow t := by
  have hmod : ((t.sshiftRight build.legBits).setWidth 8 &&& 1 : u8).toNat =
      (t.sshiftRight build.legBits).toNat % 2 := by
    rw [BitVec.toNat_and, BitVec.toNat_setWidth]
    show _ &&& 1 = _
    rw [Nat.and_one_is_mod]
    omega
  have heven : 2 ^ (build.legBits + build.legBits) = 2 * 2 ^ (build.legBits + build.legBits - 1) := by
    have := build.legBits_ge
    rw [← Nat.pow_succ']
    congr 1
    omega
  have hlt := (t.sshiftRight build.legBits).isLt
  rw [hmod]
  unfold pairBorrow at h ⊢
  rw [BitVec.toInt_eq_toNat_cond] at h ⊢
  split at h <;> split <;> omega

theorem subtract_spec {a b : List (Leg build)} (h : a.length = b.length) :
    BorrowOut (subtract a b) a.length (value a - value b) := by
  rcases zip_cases h with ⟨rfl, rfl⟩ | ⟨a0, a, b0, b, rfl, rfl, hlen⟩
  · exact ⟨rfl, .inl rfl, by simp [subtract]⟩
  have hzip : (a.zip b).length = a.length := by simp [hlen]
  have ha := value_lt_pow (a0 :: a)
  have hb := value_lt_pow (b0 :: b)
  have hsum := weight_zip_cons 1 (-1) hlen a0 b0
  have hsub : (1 : ℤ) * value (a0 :: a) + -1 * value (b0 :: b) =
      value (a0 :: a) - value (b0 :: b) := by ring
  rw [← h] at hb
  rw [hsub] at hsum
  unfold subtract
  simp only [List.zip_cons_cons]
  split
  · have hfirst : (((toPair a0 - toPair b0).setWidth build.legBits).toNat : ℤ) +
        2 ^ build.legBits * pairBorrow (toPair a0 - toPair b0) =
          1 * (a0.toNat : ℤ) + (-1) * (b0.toNat : ℤ) := by
      have h1 : (a0.toNat : ℤ) < 2 ^ build.legBits := by exact_mod_cast a0.isLt
      have h2 : (b0.toNat : ℤ) < 2 ^ build.legBits := by exact_mod_cast b0.isLt
      rw [pair_toInt, BitVec.toInt_sub, toPair_toInt, toPair_toInt,
        bmod_pair (by linarith) (by linarith)]
      ring
    have hval := value_cons_chain subPairStep_spec hfirst (a.zip b)
    rw [hsum, hzip] at hval
    exact borrowOut_of_value (by simp [length_chain, hzip]) hval (by linarith)
      (by linarith) pairBorrow_u8
  · have hfirst : ((a0 - b0).toNat : ℤ) + 2 ^ build.legBits * (-bit (decide (a0 < b0))) =
        1 * (a0.toNat : ℤ) + (-1) * (b0.toNat : ℤ) := by
      have := subFlagStep_spec false (a0, b0)
      simpa [subFlagStep, flag, bit] using this
    have hval := value_cons_chain (g := fun c => -bit c) subFlagStep_spec hfirst (a.zip b)
    rw [hsum, hzip] at hval
    exact borrowOut_of_value (by simp [length_chain, hzip]) hval (by linarith)
      (by linarith) fun _ => by rw [bit_u8]; ring

theorem rippleBorrow_spec (l : List (Leg build)) :
    BorrowOut (rippleBorrow l) l.length (value l - 1) := by
  induction l with
  | nil => exact ⟨rfl, .inr rfl, by simp [rippleBorrow]⟩
  | cons x l ih =>
    have hsub := sub_toNat x 1
    rw [one_toNat] at hsub
    unfold rippleBorrow
    split
    · next hne =>
      refine ⟨rfl, .inl rfl, ?_⟩
      have hpos : x.toNat ≠ 0 := fun hz => hne (BitVec.eq_of_toNat_eq (by simpa using hz))
      have hx : ((x - 1).toNat : ℤ) = x.toNat - 1 := by omega
      rw [value_cons, value_cons]
      push_cast
      rw [hx]
      ring
    · next hz =>
      rw [not_not] at hz
      refine ⟨by simp [ih.length], ih.borrow, ?_⟩
      have hv := ih.value
      have hzero : x.toNat = 0 := by simp [hz]
      have hx : ((x - 1).toNat : ℤ) = 2 ^ build.legBits - 1 := by
        have hpow : ((2 ^ build.legBits : Nat) : ℤ) = 2 ^ build.legBits := by push_cast; rfl
        rw [← hpow]
        omega
      simp only [value_cons, List.length_cons, Nat.mul_add, Nat.mul_one, pow_add, hzero]
      push_cast
      rw [hx]
      linear_combination 2 ^ build.legBits * hv

theorem subtractX_spec {l : List (Leg build)} (h : l ≠ []) (x : Leg build) :
    BorrowOut (subtractX l x) l.length (value l - x.toNat) := by
  obtain ⟨t, l, rfl⟩ := List.exists_cons_of_ne_nil h
  have hpow : ((2 ^ build.legBits : Nat) : ℤ) = 2 ^ build.legBits := by push_cast; rfl
  have hx := x.isLt
  unfold subtractX
  simp only [BitVec.le_def]
  rcases sub_toNat t x with ⟨h1, h2⟩ | ⟨h1, h2⟩
  · rw [if_pos h1]
    refine ⟨rfl, .inl rfl, ?_⟩
    simp only [value_cons, h2]
    push_cast [Nat.cast_sub h1]
    simp
    ring
  · rw [if_neg (by omega)]
    have hr := rippleBorrow_spec l
    refine ⟨by simp [hr.length], hr.borrow, ?_⟩
    have hv := hr.value
    simp only [value_cons, h2, List.length_cons, Nat.mul_add, Nat.mul_one, pow_add]
    push_cast [Nat.cast_sub (show x.toNat ≤ t.toNat + 2 ^ build.legBits by omega)]
    linear_combination 2 ^ build.legBits * hv

/-! ## Products with a leg -/

/-- What a loop leaves, with a leg of overflow. -/
structure OverflowOut (out : Leg build × List (Leg build)) (legs : Nat) (n : ℤ) : Prop where
  length : out.2.length = legs
  value : (value out.2 : ℤ) + 2 ^ (build.legBits * legs) * out.1.toNat = n

theorem mulStep_spec (b hi x : Leg build) :
    ((mulStep b hi x).1.toNat : ℤ) + 2 ^ build.legBits * ((mulStep b hi x).2.toNat : ℤ) =
      b.toNat * (x.toNat : ℤ) + hi.toNat := by
  have := legMulAdd_toNat x b hi
  rw [Nat.mul_comm x.toNat] at this
  exact_mod_cast this

theorem mulAddStep_spec (b hi : Leg build) (x : Leg build × Leg build) :
    ((mulAddStep b hi x).1.toNat : ℤ) + 2 ^ build.legBits * ((mulAddStep b hi x).2.toNat : ℤ) =
      (b.toNat * (x.1.toNat : ℤ) + 1 * (x.2.toNat : ℤ)) + hi.toNat := by
  have := legMulAdd2_toNat x.1 b x.2 hi
  rw [Nat.mul_comm x.1.toNat] at this
  rw [one_mul]
  exact_mod_cast this

theorem multiplyX_spec {a : List (Leg build)} (h : a ≠ []) (b : Leg build) :
    OverflowOut (multiplyX a b) a.length (value a * b.toNat) := by
  obtain ⟨a0, l, rfl⟩ := List.exists_cons_of_ne_nil h
  have hfirst : ((legMul a0 b).2.toNat : ℤ) + 2 ^ build.legBits * ((legMul a0 b).1.toNat : ℤ) =
      a0.toNat * b.toNat := by
    exact_mod_cast legMul_toNat a0 b
  have hval := value_cons_chain (g := fun hi : Leg build => (hi.toNat : ℤ)) (mulStep_spec b)
    hfirst l
  rw [weight_word] at hval
  refine ⟨by simp [multiplyX, length_chain], ?_⟩
  rw [List.length_cons]
  refine Eq.trans hval ?_
  rw [value_cons]
  push_cast
  ring

theorem multiplyXAdd_spec {a c : List (Leg build)} (h : a.length = c.length) (hne : a ≠ [])
    (b : Leg build) :
    OverflowOut (multiplyXAdd a b c) a.length (value a * b.toNat + value c) := by
  rcases zip_cases h with ⟨rfl, rfl⟩ | ⟨a0, a, c0, c, rfl, rfl, hlen⟩
  · exact absurd rfl hne
  have hzip : (a.zip c).length = a.length := by simp [hlen]
  have hsum := weight_zip_cons b.toNat 1 hlen a0 c0
  have hfirst : ((legMulAdd a0 b c0).2.toNat : ℤ) +
      2 ^ build.legBits * ((legMulAdd a0 b c0).1.toNat : ℤ) =
        b.toNat * (a0.toNat : ℤ) + 1 * (c0.toNat : ℤ) := by
    have := legMulAdd_toNat a0 b c0
    rw [Nat.mul_comm a0.toNat] at this
    rw [one_mul]
    exact_mod_cast this
  have hval := value_cons_chain (g := fun hi : Leg build => (hi.toNat : ℤ)) (mulAddStep_spec b)
    hfirst (a.zip c)
  rw [hsum, hzip] at hval
  refine ⟨by simp [multiplyXAdd, length_chain, hlen], ?_⟩
  rw [List.length_cons]
  refine Eq.trans hval ?_
  ring

theorem doubleAddPairStep_spec (x : LegPair build) (y : Leg build × Leg build) :
    ((doubleAddPairStep x y).1.toNat : ℤ) + 2 ^ build.legBits * pairCarry (doubleAddPairStep x y).2 =
      (2 * (y.1.toNat : ℤ) + 1 * (y.2.toNat : ℤ)) + pairCarry x := by
  have h1 := pairCarry_lt x
  have h2 := y.1.isLt
  have h3 := y.2.isLt
  have h4 := four_legs_lt build
  simp only [doubleAddPairStep]
  rw [pair_toNat, BitVec.toNat_add, BitVec.toNat_add, BitVec.toNat_shiftLeft, toPair_toNat,
    toPair_toNat, Nat.shiftLeft_eq, Nat.mod_eq_of_lt (a := _ * 2 ^ 1) (by omega), Nat.mod_add_mod,
    Nat.mod_eq_of_lt (by omega), pairCarry]
  push_cast
  ring

theorem doubleAdd_spec {a b : List (Leg build)} (h : a.length = b.length) (hne : a ≠ []) :
    OverflowOut (doubleAdd a b) a.length (2 * value a + value b) := by
  rcases zip_cases h with ⟨rfl, rfl⟩ | ⟨a0, a, b0, b, rfl, rfl, hlen⟩
  · exact absurd rfl hne
  have hzip : (a.zip b).length = a.length := by simp [hlen]
  have hsum := weight_zip_cons 2 1 hlen a0 b0
  have htwo : (2 : Leg build).toNat = 2 := by
    have := two_le_pow_legBits build
    show 2 % 2 ^ build.legBits = 2
    exact Nat.mod_eq_of_lt (by omega)
  rw [one_mul (value (b0 :: b) : ℤ)] at hsum
  unfold doubleAdd
  simp only [List.zip_cons_cons]
  split
  · have hfirst : ((((toPair a0 <<< 1) + toPair b0).setWidth build.legBits).toNat : ℤ) +
        2 ^ build.legBits * pairCarry ((toPair a0 <<< 1) + toPair b0) =
          2 * (a0.toNat : ℤ) + 1 * (b0.toNat : ℤ) := by
      have := doubleAddPairStep_spec 0 (a0, b0)
      simpa [doubleAddPairStep, pairCarry] using this
    have hval := value_cons_chain doubleAddPairStep_spec hfirst (a.zip b)
    rw [hsum, hzip] at hval
    refine ⟨by simp [length_chain, hlen], ?_⟩
    rw [BitVec.toNat_setWidth, Nat.mod_eq_of_lt (pairCarry_lt _)]
    exact hval
  · have hfirst : ((legMulAdd a0 2 b0).2.toNat : ℤ) +
        2 ^ build.legBits * ((legMulAdd a0 2 b0).1.toNat : ℤ) =
          2 * (a0.toNat : ℤ) + 1 * (b0.toNat : ℤ) := by
      have := legMulAdd_toNat a0 2 b0
      rw [Nat.mul_comm a0.toNat, htwo] at this
      rw [one_mul]
      exact_mod_cast this
    have hstep : ∀ (hi : Leg build) (x : Leg build × Leg build), ((mulAddStep 2 hi x).1.toNat : ℤ) +
        2 ^ build.legBits * ((mulAddStep 2 hi x).2.toNat : ℤ) =
          (2 * (x.1.toNat : ℤ) + 1 * (x.2.toNat : ℤ)) + hi.toNat := by
      intro hi x
      have := mulAddStep_spec 2 hi x
      rwa [htwo] at this
    have hval := value_cons_chain (g := fun hi : Leg build => (hi.toNat : ℤ)) hstep hfirst
      (a.zip b)
    rw [hsum, hzip] at hval
    exact ⟨by simp [length_chain, hlen], hval⟩

end Libcat.Math.BigRTL
