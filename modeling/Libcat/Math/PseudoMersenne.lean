import Libcat.Math.Multiply

/-!
# Arithmetic modulo a pseudo-Mersenne number

`BigPseudoMersenne`: the modulus is the size of a register less a small `modulus_c`. Results are any
register value that is congruent; only `MrReduce` makes them unique. The loops `while (AddX(..));` and
`while (SubtractX(..));` have fuel, and `Reduces` says that two rounds are enough.
-/

namespace Libcat.Math.PseudoMersenne

open Radix BigRTL

variable {build : Build}

section Model

variable (fuel : Nat) (modulusC : Leg build)

/-- `while (AddX(inout, modulus_c));` -/
def addXWhile : Nat → List (Leg build) → Option (List (Leg build))
  | 0, _ => none
  | fuel + 1, inout =>
    let r := addX inout modulusC
    if r.1 ≠ 0 then addXWhile fuel r.2 else some r.2

/-- `while (SubtractX(inout, modulus_c));` -/
def subtractXWhile : Nat → List (Leg build) → Option (List (Leg build))
  | 0, _ => none
  | fuel + 1, inout =>
    let r := subtractX inout modulusC
    if r.1 ≠ 0 then subtractXWhile fuel r.2 else some r.2

/-- If an addition overflowed, add C. -/
def addOverflow (r : u8 × List (Leg build)) : Option (List (Leg build)) :=
  if r.1 ≠ 0 then addXWhile modulusC fuel r.2 else some r.2

/-- If a subtraction overflowed, subtract C. -/
def subtractOverflow (r : u8 × List (Leg build)) : Option (List (Leg build)) :=
  if r.1 ≠ 0 then subtractXWhile modulusC fuel r.2 else some r.2

/-- `MrAddX`. -/
def mrAddX (inout : List (Leg build)) (x : Leg build) : Option (List (Leg build)) :=
  addOverflow fuel modulusC (addX inout x)

/-- `MrAdd`. -/
def mrAdd (a b : List (Leg build)) : Option (List (Leg build)) :=
  addOverflow fuel modulusC (add a b)

/-- `MrDouble`. -/
def mrDouble (input : List (Leg build)) : Option (List (Leg build)) :=
  addOverflow fuel modulusC (double input)

/-- `MrSubtractX`. -/
def mrSubtractX (inout : List (Leg build)) (x : Leg build) : Option (List (Leg build)) :=
  subtractOverflow fuel modulusC (subtractX inout x)

/-- `MrSubtract`. -/
def mrSubtract (a b : List (Leg build)) : Option (List (Leg build)) :=
  subtractOverflow fuel modulusC (subtract a b)

/-- `MrReduceProductX`; a register has two legs at least. -/
def mrReduceProductX (overflow : Leg build) (inout : List (Leg build)) :
    Option (List (Leg build)) :=
  match inout with
  | t0 :: t1 :: rest =>
    let p := legMulAdd overflow modulusC t0
    let s := t1 + p.1
    if s < p.1 then
      let r := rippleCarry rest
      addOverflow fuel modulusC (r.1, p.2 :: s :: r.2)
    else some (p.2 :: s :: rest)
  | _ => none

/-- `MrReduceProduct`. -/
def mrReduceProduct (hi lo : List (Leg build)) : Option (List (Leg build)) :=
  let r := multiplyXAdd hi modulusC lo
  mrReduceProductX fuel modulusC r.1 r.2

/-- `MrMultiply`. -/
def mrMultiply (a b : List (Leg build)) : Option (List (Leg build)) :=
  let t := multiply a b
  mrReduceProduct fuel modulusC (t.drop a.length) (t.take a.length)

/-- `MrMultiplyX`. -/
def mrMultiplyX (a : List (Leg build)) (b : Leg build) : Option (List (Leg build)) :=
  let r := multiplyX a b
  mrReduceProductX fuel modulusC r.1 r.2

/-- `MrSquare`. -/
def mrSquare (input : List (Leg build)) : Option (List (Leg build)) :=
  let t := square input
  mrReduceProduct fuel modulusC (t.drop input.length) (t.take input.length)

/-- `MrReduce`. -/
def mrReduce (inout : List (Leg build)) : List (Leg build) :=
  match inout with
  | [] => []
  | t :: l =>
    if l.any fun x => ~~~x ≠ 0 then inout
    else if 0 - modulusC ≤ t then (addX inout modulusC).2 else inout

end Model

/-- The modulus of registers of so many legs. -/
def modulus (modulusC : Leg build) (legs : Nat) : ℤ :=
  2 ^ (build.legBits * legs) - modulusC.toNat

/-- From two rounds of fuel on a function returns a register that is congruent to `n`. -/
def Reduces (modulusC : Leg build) (legs : Nat) (f : Nat → Option (List (Leg build))) (n : ℤ) :
    Prop :=
  ∃ out, (∀ fuel, 2 ≤ fuel → f fuel = some out) ∧ out.length = legs ∧
    (value out : ℤ) ≡ n [ZMOD modulus modulusC legs]

section Spec

variable {modulusC : Leg build} {legs : Nat}

theorem Reduces.congr {f : Nat → Option (List (Leg build))} {m n : ℤ}
    (h : Reduces modulusC legs f m) (hmn : m ≡ n [ZMOD modulus modulusC legs]) :
    Reduces modulusC legs f n := by
  obtain ⟨out, hf, hlen, hv⟩ := h
  exact ⟨out, hf, hlen, hv.trans hmn⟩

theorem reduces_some {out : List (Leg build)} {n : ℤ} (hlen : out.length = legs)
    (hv : (value out : ℤ) = n) : Reduces modulusC legs (fun _ => some out) n :=
  ⟨out, fun _ _ => rfl, hlen, by rw [hv]⟩

/-- The size of a register is `modulus_c` modulo the modulus. -/
theorem size_modEq (modulusC : Leg build) (legs : Nat) :
    (2 : ℤ) ^ (build.legBits * legs) ≡ modulusC.toNat [ZMOD modulus modulusC legs] :=
  (Int.modEq_iff_dvd.mpr ⟨1, by rw [modulus]; ring⟩ : (modulusC.toNat : ℤ) ≡ _ [ZMOD _]).symm

/-- Registers of two legs have room for `modulus_c` many times over. -/
theorem two_mul_modulusC_lt (hc : modulusC.toNat < 2 ^ 16) (hlegs : 2 ≤ legs) :
    (2 : ℤ) * modulusC.toNat < 2 ^ (build.legBits * legs) := by
  have hbits := build.legBits_ge
  have h64 : 32 * 2 ≤ build.legBits * legs := Nat.mul_le_mul hbits hlegs
  have hpow : (2 : ℤ) ^ 64 ≤ 2 ^ (build.legBits * legs) := pow_le_pow_right₀ (by norm_num) h64
  have hc' : (modulusC.toNat : ℤ) < 2 ^ 16 := by exact_mod_cast hc
  linarith

theorem one_u8_toNat : ((1 : u8).toNat : ℤ) = 1 := rfl

theorem zero_u8_toNat : ((0 : u8).toNat : ℤ) = 0 := rfl

theorem addXWhile_spec (hc : modulusC.toNat < 2 ^ 16) (hlegs : 2 ≤ legs) {l : List (Leg build)}
    (hl : l.length = legs) :
    Reduces modulusC legs (fun fuel => addXWhile modulusC fuel l) (value l + modulusC.toNat) := by
  have h2c := two_mul_modulusC_lt hc hlegs
  have hne : l ≠ [] := List.ne_nil_of_length_pos (by omega)
  have hlt := value_lt_pow l
  obtain ⟨hlen, hcarry, hval⟩ := addX_spec hne modulusC
  rw [hl] at hlen hval hlt
  rcases hcarry with h0 | h1
  · refine ⟨(addX l modulusC).2, fun fuel hfuel => ?_, hlen, ?_⟩
    · obtain ⟨k, rfl⟩ : ∃ k, fuel = k + 1 := ⟨fuel - 1, by omega⟩
      simp [addXWhile, h0]
    · rw [h0, zero_u8_toNat, mul_zero, add_zero] at hval
      rw [hval]
  · rw [h1, one_u8_toNat, mul_one] at hval
    have hne' : (addX l modulusC).2 ≠ [] := List.ne_nil_of_length_pos (by omega)
    obtain ⟨hlen2, hcarry2, hval2⟩ := addX_spec hne' modulusC
    rw [hlen] at hlen2 hval2
    have hsecond : (addX (addX l modulusC).2 modulusC).1 = 0 := by
      refine hcarry2.resolve_right fun h => ?_
      rw [h, one_u8_toNat, mul_one] at hval2
      have : (0 : ℤ) ≤ value (addX (addX l modulusC).2 modulusC).2 := Int.natCast_nonneg _
      linarith
    refine ⟨(addX (addX l modulusC).2 modulusC).2, fun fuel hfuel => ?_, hlen2, ?_⟩
    · obtain ⟨k, rfl⟩ : ∃ k, fuel = k + 2 := ⟨fuel - 2, by omega⟩
      simp [addXWhile, h1, hsecond]
    · rw [hsecond, zero_u8_toNat, mul_zero, add_zero] at hval2
      rw [hval2]
      exact Int.modEq_iff_dvd.mpr ⟨1, by rw [modulus]; linarith⟩

theorem subtractXWhile_spec (hc : modulusC.toNat < 2 ^ 16) (hlegs : 2 ≤ legs)
    {l : List (Leg build)} (hl : l.length = legs) :
    Reduces modulusC legs (fun fuel => subtractXWhile modulusC fuel l)
      (value l - modulusC.toNat) := by
  have h2c := two_mul_modulusC_lt hc hlegs
  have hne : l ≠ [] := List.ne_nil_of_length_pos (by omega)
  have hnn : (0 : ℤ) ≤ value l := Int.natCast_nonneg _
  obtain ⟨hlen, hborrow, hval⟩ := subtractX_spec hne modulusC
  rw [hl] at hlen hval
  rcases hborrow with h0 | h1
  · refine ⟨(subtractX l modulusC).2, fun fuel hfuel => ?_, hlen, ?_⟩
    · obtain ⟨k, rfl⟩ : ∃ k, fuel = k + 1 := ⟨fuel - 1, by omega⟩
      simp [subtractXWhile, h0]
    · rw [h0, zero_u8_toNat, mul_zero, sub_zero] at hval
      rw [hval]
  · rw [h1, one_u8_toNat, mul_one] at hval
    have hne' : (subtractX l modulusC).2 ≠ [] := List.ne_nil_of_length_pos (by omega)
    obtain ⟨hlen2, hborrow2, hval2⟩ := subtractX_spec hne' modulusC
    rw [hlen] at hlen2 hval2
    have hsecond : (subtractX (subtractX l modulusC).2 modulusC).1 = 0 := by
      refine hborrow2.resolve_right fun h => ?_
      rw [h, one_u8_toNat, mul_one] at hval2
      have := value_lt_pow (subtractX (subtractX l modulusC).2 modulusC).2
      rw [hlen2] at this
      linarith
    refine ⟨(subtractX (subtractX l modulusC).2 modulusC).2, fun fuel hfuel => ?_, hlen2, ?_⟩
    · obtain ⟨k, rfl⟩ : ∃ k, fuel = k + 2 := ⟨fuel - 2, by omega⟩
      simp [subtractXWhile, h1, hsecond]
    · rw [hsecond, zero_u8_toNat, mul_zero, sub_zero] at hval2
      rw [hval2]
      exact Int.modEq_iff_dvd.mpr ⟨-1, by rw [modulus]; linarith⟩

theorem addOverflow_spec (hc : modulusC.toNat < 2 ^ 16) (hlegs : 2 ≤ legs)
    {r : u8 × List (Leg build)} {n : ℤ} (h : CarryOut r legs n) :
    Reduces modulusC legs (fun fuel => addOverflow fuel modulusC r) n := by
  obtain ⟨hlen, hcarry, hval⟩ := h
  unfold addOverflow
  rcases hcarry with h0 | h1
  · simp only [h0, ne_eq, not_true_eq_false, if_false]
    rw [h0, zero_u8_toNat, mul_zero, add_zero] at hval
    exact reduces_some hlen hval
  · simp only [h1]
    rw [h1, one_u8_toNat, mul_one] at hval
    refine (addXWhile_spec hc hlegs hlen).congr ?_
    exact Int.modEq_iff_dvd.mpr ⟨1, by rw [modulus]; linarith⟩

theorem subtractOverflow_spec (hc : modulusC.toNat < 2 ^ 16) (hlegs : 2 ≤ legs)
    {r : u8 × List (Leg build)} {n : ℤ} (h : BorrowOut r legs n) :
    Reduces modulusC legs (fun fuel => subtractOverflow fuel modulusC r) n := by
  obtain ⟨hlen, hborrow, hval⟩ := h
  unfold subtractOverflow
  rcases hborrow with h0 | h1
  · simp only [h0, ne_eq, not_true_eq_false, if_false]
    rw [h0, zero_u8_toNat, mul_zero, sub_zero] at hval
    exact reduces_some hlen hval
  · simp only [h1]
    rw [h1, one_u8_toNat, mul_one] at hval
    refine (subtractXWhile_spec hc hlegs hlen).congr ?_
    exact Int.modEq_iff_dvd.mpr ⟨-1, by rw [modulus]; linarith⟩

/-- The overflow of a product, times the size of a register, is added modulo the modulus. -/
theorem mrReduceProductX_spec (hc : modulusC.toNat < 2 ^ 16) (hlegs : 2 ≤ legs)
    {r : Leg build × List (Leg build)} {n : ℤ} (h : OverflowOut r legs n) :
    Reduces modulusC legs (fun fuel => mrReduceProductX fuel modulusC r.1 r.2) n := by
  obtain ⟨overflow, l⟩ := r
  obtain ⟨hlen, hval⟩ := h
  simp only at hlen hval
  match l, hlen with
  | t0 :: t1 :: rest, hlen =>
    have hp : ((legMulAdd overflow modulusC t0).2.toNat : ℤ) + 2 ^ build.legBits *
        ((legMulAdd overflow modulusC t0).1.toNat : ℤ) =
          overflow.toNat * modulusC.toNat + t0.toNat := by
      exact_mod_cast legMulAdd_toNat overflow modulusC t0
    have hs := add_flag t1 (legMulAdd overflow modulusC t0).1
    have hrest : rest.length + 2 = legs := hlen
    have hmod : (value (t0 :: t1 :: rest) : ℤ) + overflow.toNat * modulusC.toNat ≡ n
        [ZMOD modulus modulusC legs] := by
      rw [← hval]
      have := (size_modEq modulusC legs).mul_right (overflow.toNat : ℤ)
      rw [mul_comm (modulusC.toNat : ℤ)] at this
      exact (this.add_left _).symm
    refine Reduces.congr ?_ hmod
    simp only [mrReduceProductX]
    generalize legMulAdd overflow modulusC t0 = p at *
    rw [flag_toNat] at hs
    by_cases hlt : t1 + p.1 < p.1
    · simp only [hlt, if_true] at hs ⊢
      have hr := rippleCarry_spec rest
      have hsum : ((t1 + p.1).toNat : ℤ) + 2 ^ build.legBits = t1.toNat + p.1.toNat := by
        rw [Nat.mul_one] at hs
        exact_mod_cast hs
      refine addOverflow_spec hc hlegs ⟨by simp [hr.length, hrest], hr.carry, ?_⟩
      have hrv := hr.value
      rw [← hrest, Nat.mul_add, pow_add]
      simp only [value_cons, pow_mul] at hrv ⊢
      push_cast
      rw [pow_two]
      linear_combination hp + 2 ^ build.legBits * hsum + 2 ^ build.legBits * 2 ^ build.legBits * hrv
    · simp only [hlt, if_false, Nat.mul_zero, Nat.add_zero] at hs ⊢
      refine reduces_some hrest ?_
      have hsum : ((t1 + p.1).toNat : ℤ) = t1.toNat + p.1.toNat := by exact_mod_cast hs
      simp only [value_cons]
      push_cast
      rw [hsum]
      linear_combination hp
  | [], hlen => simp at hlen; omega
  | [_], hlen => simp at hlen; omega

/-- A product of two registers, in twice as many legs. -/
theorem mrReduceProduct_spec (hc : modulusC.toNat < 2 ^ 16) (hlegs : 2 ≤ legs)
    {t : List (Leg build)} (ht : t.length = 2 * legs) :
    Reduces modulusC legs
      (fun fuel => mrReduceProduct fuel modulusC (t.drop legs) (t.take legs)) (value t) := by
  have hdrop : (t.drop legs).length = legs := by simp [ht]; omega
  have htake : (t.take legs).length = legs := by simp [ht]; omega
  have hr := multiplyXAdd_spec (hdrop.trans htake.symm)
    (List.ne_nil_of_length_pos (by omega)) modulusC
  rw [hdrop] at hr
  refine (mrReduceProductX_spec hc hlegs hr).congr ?_
  have hsplit : (value t : ℤ) =
      2 ^ (build.legBits * legs) * value (t.drop legs) + value (t.take legs) := by
    have := value_append (t.take legs) (t.drop legs)
    rw [List.take_append_drop, htake] at this
    rw [this, pow_mul]
    push_cast
    ring
  rw [hsplit, mul_comm (value (t.drop legs) : ℤ)]
  exact (((size_modEq modulusC legs).mul_right _).add_right _).symm

theorem mrMultiply_spec (hc : modulusC.toNat < 2 ^ 16) (hlegs : 2 ≤ legs) {a b : List (Leg build)}
    (ha : a.length = legs) (hb : b.length = legs) :
    Reduces modulusC legs (fun fuel => mrMultiply fuel modulusC a b) (value a * value b) := by
  obtain ⟨hlen, hval⟩ := multiply_spec ha hb (by omega)
  unfold mrMultiply
  rw [ha, ← hval]
  exact mrReduceProduct_spec hc hlegs hlen

theorem mrMultiplyX_spec (hc : modulusC.toNat < 2 ^ 16) (hlegs : 2 ≤ legs) {a : List (Leg build)}
    (ha : a.length = legs) (x : Leg build) :
    Reduces modulusC legs (fun fuel => mrMultiplyX fuel modulusC a x) (value a * x.toNat) :=
  mrReduceProductX_spec hc hlegs
    (ha ▸ multiplyX_spec (List.ne_nil_of_length_pos (by omega)) x)

theorem mrSquare_spec (hc : modulusC.toNat < 2 ^ 16) (hlegs : 2 ≤ legs) {a : List (Leg build)}
    (ha : a.length = legs) :
    Reduces modulusC legs (fun fuel => mrSquare fuel modulusC a) (value a * value a) := by
  obtain ⟨hlen, hval⟩ := square_spec ha hlegs
  unfold mrSquare
  rw [ha, ← hval]
  exact mrReduceProduct_spec hc hlegs hlen

/-- The test of `MrReduce` compares with the modulus. -/
theorem mrReduce_test (hc : 0 < modulusC.toNat) (t : Leg build) (l : List (Leg build)) :
    ((¬ l.any fun x => ~~~x ≠ 0) ∧ 0 - modulusC ≤ t) ↔
      modulus modulusC (l.length + 1) ≤ value (t :: l) := by
  have ht := t.isLt
  have hclt := modulusC.isLt
  have hneg : (0 - modulusC).toNat = 2 ^ build.legBits - modulusC.toNat := by
    rw [BitVec.toNat_sub]
    simp only [BitVec.ofNat_eq_ofNat, BitVec.toNat_ofNat, Nat.zero_mod, Nat.add_zero]
    exact Nat.mod_eq_of_lt (by omega)
  have hmod : modulus modulusC (l.length + 1) ≤ value (t :: l) ↔
      2 ^ build.legBits * (2 ^ build.legBits) ^ l.length ≤
        t.toNat + 2 ^ build.legBits * value l + modulusC.toNat := by
    rw [modulus, value_cons, sub_le_iff_le_add, Nat.mul_add, Nat.mul_one, pow_add, pow_mul,
      mul_comm ((2 ^ build.legBits) ^ l.length : ℤ)]
    exact_mod_cast Iff.rfl
  rw [hmod, BitVec.le_def, hneg]
  by_cases hones : ∀ x ∈ l, ~~~x = 0
  · have hl := value_ones hones
    have hany : ¬ l.any fun x => ~~~x ≠ 0 := by simpa using hones
    rw [← hl, Nat.mul_add, Nat.mul_one]
    constructor
    · rintro ⟨-, h⟩
      omega
    · intro h
      exact ⟨hany, by omega⟩
  · push Not at hones
    obtain ⟨x, hx, hne⟩ := hones
    have hl := value_lt_of_not_ones hx hne
    have hany : l.any fun x => ~~~x ≠ 0 := List.any_eq_true.mpr ⟨x, hx, by simpa using hne⟩
    have : 2 ^ build.legBits * (value l + 1 + 1) ≤ 2 ^ build.legBits * (2 ^ build.legBits) ^ l.length :=
      Nat.mul_le_mul_left _ hl
    rw [Nat.mul_add, Nat.mul_add, Nat.mul_one] at this
    constructor
    · rintro ⟨h, -⟩
      exact absurd hany h
    · intro h
      omega

theorem mrReduce_spec (hc : 0 < modulusC.toNat) (hc' : modulusC.toNat < 2 ^ 16) (hlegs : 2 ≤ legs)
    {a : List (Leg build)} (ha : a.length = legs) :
    (mrReduce modulusC a).length = legs ∧
      (value (mrReduce modulusC a) : ℤ) = value a % modulus modulusC legs := by
  have h2c := two_mul_modulusC_lt hc' hlegs
  have hnn : (0 : ℤ) ≤ value a := Int.natCast_nonneg _
  have hlt := value_lt_pow a
  rw [ha] at hlt
  cases a with
  | nil => simp at ha; omega
  | cons t l =>
    have htest := mrReduce_test hc t l
    rw [List.length_cons] at ha
    rw [ha] at htest
    by_cases hge : modulus modulusC legs ≤ value (t :: l)
    · have hif : mrReduce modulusC (t :: l) = (addX (t :: l) modulusC).2 := by
        obtain ⟨h1, h2⟩ := htest.mpr hge
        simp only [mrReduce]
        rw [if_neg h1, if_pos h2]
      obtain ⟨hlen, hcarry, hval⟩ := addX_spec (l := t :: l) (by simp) modulusC
      rw [hif]
      rw [List.length_cons, ha] at hlen hval
      refine ⟨hlen, ?_⟩
      have hone : (addX (t :: l) modulusC).1 = 1 := by
        refine hcarry.resolve_left fun h => ?_
        rw [h, zero_u8_toNat, mul_zero, add_zero] at hval
        have := value_lt_pow (addX (t :: l) modulusC).2
        rw [hlen] at this
        rw [modulus] at hge
        linarith
      rw [hone, one_u8_toNat, mul_one] at hval
      have hsub : (value (addX (t :: l) modulusC).2 : ℤ) =
          value (t :: l) - modulus modulusC legs := by
        rw [modulus]
        linarith
      rw [hsub, ← Int.sub_emod_right, Int.emod_eq_of_lt (by linarith)]
      rw [modulus] at *
      linarith
    · have hif : mrReduce modulusC (t :: l) = t :: l := by
        simp only [mrReduce]
        by_cases h1 : l.any fun x => ~~~x ≠ 0
        · rw [if_pos h1]
        · rw [if_neg h1, if_neg fun h2 => hge (htest.mp ⟨h1, h2⟩)]
      rw [hif]
      exact ⟨ha, (Int.emod_eq_of_lt hnn (by linarith)).symm⟩

/-- **Pseudo-Mersenne arithmetic.** For all registers of two legs at least every operation returns a
register that is congruent to the exact result, and `MrReduce` the one below the modulus. -/
theorem mr_operations_spec (hc : 0 < modulusC.toNat) (hc' : modulusC.toNat < 2 ^ 14)
    (hlegs : 2 ≤ legs) {a b : List (Leg build)} (ha : a.length = legs) (hb : b.length = legs)
    (x : Leg build) :
    Reduces modulusC legs (fun fuel => mrAdd fuel modulusC a b) (value a + value b) ∧
    Reduces modulusC legs (fun fuel => mrAddX fuel modulusC a x) (value a + x.toNat) ∧
    Reduces modulusC legs (fun fuel => mrDouble fuel modulusC a) (2 * value a) ∧
    Reduces modulusC legs (fun fuel => mrSubtract fuel modulusC a b) (value a - value b) ∧
    Reduces modulusC legs (fun fuel => mrSubtractX fuel modulusC a x) (value a - x.toNat) ∧
    Reduces modulusC legs (fun fuel => mrMultiply fuel modulusC a b) (value a * value b) ∧
    Reduces modulusC legs (fun fuel => mrMultiplyX fuel modulusC a x) (value a * x.toNat) ∧
    Reduces modulusC legs (fun fuel => mrSquare fuel modulusC a) (value a * value a) ∧
    (mrReduce modulusC a).length = legs ∧
      (value (mrReduce modulusC a) : ℤ) = value a % modulus modulusC legs := by
  have hne : a ≠ [] := List.ne_nil_of_length_pos (by omega)
  have hab : a.length = b.length := ha.trans hb.symm
  have hc'' : modulusC.toNat < 2 ^ 16 := hc'.trans (by norm_num)
  exact ⟨addOverflow_spec hc'' hlegs (ha ▸ add_spec hab),
    addOverflow_spec hc'' hlegs (ha ▸ addX_spec hne x),
    addOverflow_spec hc'' hlegs (ha ▸ double_spec hne),
    subtractOverflow_spec hc'' hlegs (ha ▸ subtract_spec hab),
    subtractOverflow_spec hc'' hlegs (ha ▸ subtractX_spec hne x),
    mrMultiply_spec hc'' hlegs ha hb, mrMultiplyX_spec hc'' hlegs ha x, mrSquare_spec hc'' hlegs ha,
    mrReduce_spec hc hc'' hlegs ha⟩

/-- All ones in 256 bits, modulo `2 ^ 256 - 435`. -/
theorem mrReduce_ones :
    (value (@mrReduce ⟨true, true, false⟩ 435
      [0xffffffffffffffff, 0xffffffffffffffff, 0xffffffffffffffff, 0xffffffffffffffff]) : ℤ) =
        434 := by
  have h := (@mr_operations_spec ⟨true, true, false⟩ 435 4 (by decide) (by decide) (by decide)
    [0xffffffffffffffff, 0xffffffffffffffff, 0xffffffffffffffff, 0xffffffffffffffff] [0, 0, 0, 0]
    rfl rfl 0).2.2.2.2.2.2.2.2.2
  rw [h]
  decide

end Spec

end Libcat.Math.PseudoMersenne
