import Libcat.Lib.Radix

/-!
# Legs

`Legs.hpp`: the words of big integers, and the products of two of them with up to three words added.
A build has legs of 32 or 64 bits; compilers without a type of twice the width take carries from
comparisons instead. Each macro has a lemma that gives the number its output words stand for.
-/

namespace Libcat.Math

open Radix

/-- What the preprocessor decides: `CAT_WORD_64`, the absence of `CAT_NO_LEGPAIR`, and
`CAT_UNROLL_OVER_256_BITS`. -/
structure Build where
  word64 : Bool
  legPair : Bool
  unrollOver256Bits : Bool

namespace Build

/-- `CAT_LEG_BITS`. -/
def legBits (build : Build) : Nat := if build.word64 then 64 else 32

theorem legBits_ge (build : Build) : 32 ≤ build.legBits := by
  unfold legBits
  split <;> omega

end Build

abbrev Leg (build : Build) := BitVec build.legBits

abbrev LegPair (build : Build) := BitVec (build.legBits + build.legBits)

variable {build : Build}

/-- `(LegPair)x`. -/
def toPair (x : Leg build) : LegPair build := x.setWidth _

/-- A comparison as a number. -/
def flag (p : Prop) [Decidable p] : Leg build := if p then 1 else 0

/-- `CAT_LEG_MUL`: high and low word of `A * B`. -/
def legMul (a b : Leg build) : Leg build × Leg build := halves (toPair a * toPair b)

/-- `CAT_LEG_MULADD`: `A * B + C`. -/
def legMulAdd (a b c : Leg build) : Leg build × Leg build :=
  if build.legPair then halves (toPair a * toPair b + toPair c)
  else
    let p := legMul a b
    let lo := p.2 + c
    (p.1 + flag (lo < c), lo)

/-- `CAT_LEG_MULADD2`: `A * B + C + D`. -/
def legMulAdd2 (a b c d : Leg build) : Leg build × Leg build :=
  if build.legPair then halves (toPair a * toPair b + toPair c + toPair d)
  else
    let p := legMul a b
    let lo := p.2 + c
    let hi := p.1 + flag (lo < c)
    let lo := lo + d
    (hi + flag (lo < d), lo)

/-- `CAT_LEG_COMBA2`: `A * B + (C1:C0)` in three words. -/
def legComba2 (a b c0 c1 : Leg build) : Leg build × Leg build × Leg build :=
  if build.legPair then
    let p := halves (toPair a * toPair b + toPair c0)
    let q := halves (toPair p.1 + toPair c1)
    (p.2, q.2, q.1)
  else
    let p := legMul a b
    let c0 := c0 + p.2
    let hi := p.1 + flag (c0 < p.2)
    let c1 := c1 + hi
    (c0, c1, flag (c1 < hi))

/-- `CAT_LEG_COMBA3`: `A * B + (C2:C1:C0)`. -/
def legComba3 (a b : Leg build) (c : Leg build × Leg build × Leg build) :
    Leg build × Leg build × Leg build :=
  if build.legPair then
    let p := halves (toPair a * toPair b + toPair c.1)
    let q := halves (toPair p.1 + toPair c.2.1)
    (p.2, q.2, c.2.2 + q.1)
  else
    let p := legMul a b
    let c0 := c.1 + p.2
    let hi := p.1 + flag (c0 < p.2)
    let c1 := c.2.1 + hi
    (c0, c1, c.2.2 + flag (c1 < hi))

/-! ## Values -/

@[simp] theorem toPair_toNat (x : Leg build) : (toPair x).toNat = x.toNat :=
  setWidth_double_toNat x

theorem two_le_pow_legBits (build : Build) : 2 ^ 32 ≤ 2 ^ build.legBits :=
  Nat.pow_le_pow_right (by omega) build.legBits_ge

theorem one_toNat (build : Build) : (1 : Leg build).toNat = 1 := by
  have := two_le_pow_legBits build
  show 1 % 2 ^ build.legBits = 1
  exact Nat.mod_eq_of_lt (by omega)

theorem flag_toNat (p : Prop) [Decidable p] :
    (flag p : Leg build).toNat = if p then 1 else 0 := by
  unfold flag
  split
  · exact one_toNat build
  · rfl

/-- One bit of a leg. -/
theorem bit_test {k : Nat} (hk : k < build.legBits) (x : Leg build) :
    x &&& ((1 : Leg build) <<< k) ≠ 0 ↔ x.toNat / 2 ^ k % 2 = 1 := by
  have htest : x.getLsbD k = decide (x.toNat / 2 ^ k % 2 = 1) := by
    rw [BitVec.getLsbD, Nat.testBit_eq_decide_div_mod_eq]
  have hmask : x &&& ((1 : Leg build) <<< k) = if x.getLsbD k then BitVec.twoPow _ k else 0 := by
    exact BitVec.and_twoPow x k
  rw [hmask, htest]
  split
  · rename_i h
    refine iff_of_true (fun h0 => ?_) (of_decide_eq_true h)
    have := congrArg BitVec.toNat h0
    rw [BitVec.toNat_twoPow, Nat.mod_eq_of_lt (Nat.pow_lt_pow_right (by omega) hk)] at this
    exact absurd this (Nat.two_pow_pos k).ne'
  · rename_i h
    exact iff_of_false (fun h0 => h0 rfl) fun h1 => h (decide_eq_true h1)

/-- The carry of a sum, by comparison with a summand. -/
theorem add_flag (x c : Leg build) :
    (x + c).toNat + 2 ^ build.legBits * (flag (x + c < c) : Leg build).toNat =
      x.toNat + c.toNat := by
  have hx := x.isLt
  have hc := c.isLt
  simp only [flag_toNat, BitVec.lt_def, BitVec.toNat_add]
  by_cases h : x.toNat + c.toNat < 2 ^ build.legBits
  · rw [Nat.mod_eq_of_lt h, if_neg (by omega)]
    omega
  · rw [Nat.mod_eq_sub_mod (by omega), Nat.mod_eq_of_lt (by omega), if_pos (by omega)]
    omega

section

variable (a b c d : Leg build)

theorem pair_mul_add_toNat {x : Nat} (hx : x ≤ 2 * (2 ^ build.legBits - 1)) :
    (a.toNat * b.toNat + x) % 2 ^ (build.legBits + build.legBits) = a.toNat * b.toNat + x := by
  have := mul_add_lt a.isLt b.isLt
  have hpos := two_le_pow_legBits build
  rw [Nat.pow_add]
  exact Nat.mod_eq_of_lt (by omega)

theorem legMul_toNat :
    (legMul a b).2.toNat + 2 ^ build.legBits * (legMul a b).1.toNat = a.toNat * b.toNat := by
  rw [legMul, halves_toNat, BitVec.toNat_mul, toPair_toNat, toPair_toNat]
  exact pair_mul_add_toNat a b (Nat.zero_le _)

/-- A sum whose carry, taken by comparison, goes to a word that has room for it. -/
theorem add_carry_toNat {hi x y : Leg build}
    (h : x.toNat + y.toNat + 2 ^ build.legBits * hi.toNat < 2 ^ build.legBits * 2 ^ build.legBits) :
    (x + y).toNat + 2 ^ build.legBits * (hi + flag (x + y < y)).toNat =
      x.toNat + y.toNat + 2 ^ build.legBits * hi.toNat := by
  have hsum := add_flag x y
  have hfit : hi.toNat + (flag (x + y < y) : Leg build).toNat < 2 ^ build.legBits := by
    rw [← hsum] at h
    have h' : 2 ^ build.legBits * (hi.toNat + (flag (x + y < y) : Leg build).toNat) <
        2 ^ build.legBits * 2 ^ build.legBits := by
      rw [Nat.mul_add]
      omega
    exact Nat.lt_of_mul_lt_mul_left h'
  rw [BitVec.toNat_add hi, Nat.mod_eq_of_lt hfit, Nat.mul_add]
  omega

theorem legMulAdd_toNat :
    (legMulAdd a b c).2.toNat + 2 ^ build.legBits * (legMulAdd a b c).1.toNat =
      a.toNat * b.toNat + c.toNat := by
  have hc := c.isLt
  have hm := mul_add_lt a.isLt b.isLt
  have hmul := legMul_toNat a b
  unfold legMulAdd
  split
  · rw [halves_toNat, BitVec.toNat_add, BitVec.toNat_mul]
    simp only [toPair_toNat, Nat.mod_add_mod]
    exact pair_mul_add_toNat a b (by omega)
  · simp only
    rw [add_carry_toNat (by omega)]
    omega

theorem legMulAdd2_toNat :
    (legMulAdd2 a b c d).2.toNat + 2 ^ build.legBits * (legMulAdd2 a b c d).1.toNat =
      a.toNat * b.toNat + c.toNat + d.toNat := by
  have hc := c.isLt
  have hd := d.isLt
  have hm := mul_add_lt a.isLt b.isLt
  have hmul := legMul_toNat a b
  unfold legMulAdd2
  split
  · rw [halves_toNat, BitVec.toNat_add, BitVec.toNat_add, BitVec.toNat_mul]
    simp only [toPair_toNat, Nat.mod_add_mod]
    rw [Nat.add_assoc]
    exact pair_mul_add_toNat a b (by omega)
  · simp only
    have hfirst := @add_carry_toNat build (legMul a b).1 (legMul a b).2 c (by omega)
    rw [add_carry_toNat (by omega)]
    omega

end

/-- The number in three words. -/
def combaValue (c : Leg build × Leg build × Leg build) : Nat :=
  c.1.toNat + 2 ^ build.legBits * c.2.1.toNat +
    2 ^ build.legBits * (2 ^ build.legBits * c.2.2.toNat)

/-- The two sums of the `COMBA` macros with a pair of legs. -/
theorem pair_comba_toNat (a b c0 c1 : Leg build) :
    let p := halves (toPair a * toPair b + toPair c0)
    let q := halves (toPair p.1 + toPair c1)
    p.2.toNat + 2 ^ build.legBits * q.2.toNat + 2 ^ build.legBits * (2 ^ build.legBits * q.1.toNat) =
      a.toNat * b.toNat + c0.toNat + 2 ^ build.legBits * c1.toNat := by
  intro p q
  have hp : p.2.toNat + 2 ^ build.legBits * p.1.toNat = a.toNat * b.toNat + c0.toNat := by
    rw [halves_toNat, BitVec.toNat_add, BitVec.toNat_mul]
    simp only [toPair_toNat, Nat.mod_add_mod]
    exact pair_mul_add_toNat a b (by have := c0.isLt; omega)
  have hq : q.2.toNat + 2 ^ build.legBits * q.1.toNat = p.1.toNat + c1.toNat := by
    rw [halves_toNat, BitVec.toNat_add, toPair_toNat, toPair_toNat, Nat.pow_add]
    apply Nat.mod_eq_of_lt
    have h1 := p.1.isLt
    have h2 := c1.isLt
    have h3 : 2 * 2 ^ build.legBits ≤ 2 ^ build.legBits * 2 ^ build.legBits :=
      Nat.mul_le_mul_right _ (by have := two_le_pow_legBits build; omega)
    omega
  have := congrArg (2 ^ build.legBits * ·) hq
  simp only [Nat.mul_add] at this
  omega

/-- The two sums with carries taken by comparison. -/
theorem flag_comba_toNat (a b c0 c1 : Leg build) :
    let p := legMul a b
    let lo := c0 + p.2
    let hi := p.1 + flag (lo < p.2)
    lo.toNat + 2 ^ build.legBits * (c1 + hi).toNat +
        2 ^ build.legBits * (2 ^ build.legBits * (flag (c1 + hi < hi) : Leg build).toNat) =
      a.toNat * b.toNat + c0.toNat + 2 ^ build.legBits * c1.toNat := by
  have hm := mul_add_lt a.isLt b.isLt
  have hc0 := c0.isLt
  have hmul := legMul_toNat a b
  have hlo := @add_carry_toNat build (legMul a b).1 c0 (legMul a b).2 (by omega)
  intro p lo hi
  have hc := congrArg (2 ^ build.legBits * ·) (add_flag c1 hi)
  simp only [Nat.mul_add] at hc
  change lo.toNat + 2 ^ build.legBits * hi.toNat = _ at hlo
  omega

theorem legComba2_value (a b c0 c1 : Leg build) :
    combaValue (legComba2 a b c0 c1) =
      a.toNat * b.toNat + c0.toNat + 2 ^ build.legBits * c1.toNat := by
  unfold legComba2 combaValue
  split
  · exact pair_comba_toNat a b c0 c1
  · exact flag_comba_toNat a b c0 c1

/-- No carry out of the third word as long as the sum fits. -/
theorem legComba3_value {a b : Leg build} {c : Leg build × Leg build × Leg build}
    (h : a.toNat * b.toNat + combaValue c < (2 ^ build.legBits) ^ 3) :
    combaValue (legComba3 a b c) = a.toNat * b.toNat + combaValue c := by
  obtain ⟨c0, c1, c2⟩ := c
  have key : ∀ x y z : Leg build,
      x.toNat + 2 ^ build.legBits * y.toNat + 2 ^ build.legBits * (2 ^ build.legBits * z.toNat) =
        a.toNat * b.toNat + c0.toNat + 2 ^ build.legBits * c1.toNat →
      combaValue (x, y, c2 + z) = a.toNat * b.toNat + combaValue (c0, c1, c2) := by
    intro x y z hxyz
    have hfit : c2.toNat + z.toNat < 2 ^ build.legBits := by
      by_contra hge
      have h1 : 2 ^ build.legBits * (2 ^ build.legBits * 2 ^ build.legBits) ≤
          2 ^ build.legBits * (2 ^ build.legBits * (c2.toNat + z.toNat)) :=
        Nat.mul_le_mul_left _ (Nat.mul_le_mul_left _ (by omega))
      simp only [combaValue, Nat.pow_succ, Nat.pow_zero, Nat.one_mul, Nat.mul_assoc] at h
      simp only [Nat.mul_add] at h1
      omega
    simp only [combaValue, BitVec.toNat_add, Nat.mod_eq_of_lt hfit, Nat.mul_add]
    omega
  unfold legComba3
  split
  · exact key _ _ _ (pair_comba_toNat a b c0 c1)
  · exact key _ _ _ (flag_comba_toNat a b c0 c1)

end Libcat.Math
