import Libcat.Lib.PrimeRoots
import Libcat.Math.PseudoMersenne

/-!
# Inverses and square roots of registers

`MrInvert` and `MrSquareRoot` of `BigPseudoMersenne`: the exponents are all ones but for the last 16
bits, so they are raised by a window of ones and then bit by bit with the low leg of the exponent.
`Power` says which power of the base a register holds.
-/

namespace Libcat.Math.MrPower

open Radix BigRTL PseudoMersenne PrimeRoots

variable {build : Build}

/-- The constant window size. -/
def w : Nat := 16

section Model

variable (fuel : Nat) (modulusC : Leg build)

/-- `MrSquare(S, S); MrMultiply(S, in, S);` for each of so many bits. -/
def onesLoop (base : List (Leg build)) : Nat → List (Leg build) → Option (List (Leg build))
  | 0, S => some S
  | ctr + 1, S => do
    let S ← mrSquare fuel modulusC S
    let S ← mrMultiply fuel modulusC S base
    onesLoop base ctr S

/-- So many squares in a row. -/
def squares : Nat → List (Leg build) → Option (List (Leg build))
  | 0, S => some S
  | n + 1, S => do
    let S ← mrSquare fuel modulusC S
    squares n S

/-- Just multiply once re-using the first result, every 16 bits. -/
def framesLoop (T : List (Leg build)) : Nat → List (Leg build) → Option (List (Leg build))
  | 0, S => some S
  | oneFrames + 1, S => do
    let S ← squares fuel modulusC w S
    let S ← mrMultiply fuel modulusC S T
    framesLoop T oneFrames S

/-- `if (m_low & bit) MrMultiply(S, in, S);` -/
def bitMultiply (base : List (Leg build)) (mLow : Leg build) (bit : Nat) (S : List (Leg build)) :
    Option (List (Leg build)) :=
  if mLow &&& ((1 : Leg build) <<< bit) ≠ 0 then mrMultiply fuel modulusC S base else some S

/-- Bitwise exponentiation with the bits of `m_low` from `last + n - 1` down to `last`. -/
def bitLoop (base : List (Leg build)) (mLow : Leg build) (last : Nat) :
    Nat → List (Leg build) → Option (List (Leg build))
  | 0, S => some S
  | n + 1, S => do
    let S ← mrSquare fuel modulusC S
    let S ← bitMultiply fuel modulusC base mLow (last + n) S
    bitLoop base mLow last n S

/-- `one_frames` of registers of so many legs. -/
def oneFrames (build : Build) (legs : Nat) : Nat := (build.legBits * legs - w * 2) / w

/-- The frames after the first 16 bits, with a copy of these. -/
def frames (S : List (Leg build)) : Option (List (Leg build)) :=
  let T := S
  framesLoop fuel modulusC T (oneFrames build S.length) S

/-- `MrInvert`. -/
def mrInvert (input : List (Leg build)) : Option (List (Leg build)) := do
  let S ← onesLoop fuel modulusC input (w - 1) input
  let S ← frames fuel modulusC S
  bitLoop fuel modulusC input (0 - (modulusC + 2)) 0 w S

/-- `MrSquareRoot` for a modulus 3 mod 4. -/
def mrSquareRoot3 (input : List (Leg build)) : Option (List (Leg build)) := do
  let S ← onesLoop fuel modulusC input (w - 1) input
  let S ← frames fuel modulusC S
  bitLoop fuel modulusC input (1 - modulusC) 2 (w - 2) S

/-- `MrSquareRoot` for a modulus 5 mod 8, with Atkin's method. -/
def mrSquareRoot5 (input : List (Leg build)) : Option (List (Leg build)) := do
  let D ← mrDouble fuel modulusC input
  let S ← mrSquare fuel modulusC D
  let S ← mrMultiply fuel modulusC S D
  let S ← onesLoop fuel modulusC D (w - 2) S
  let S ← frames fuel modulusC S
  let S ← bitLoop fuel modulusC D (0 - modulusC) 3 (w - 3) S
  let T ← mrSquare fuel modulusC S
  let T ← mrMultiply fuel modulusC T D
  let T ← mrSubtractX fuel modulusC T 1
  let out ← mrMultiply fuel modulusC input S
  mrMultiply fuel modulusC out T

/-- `MrSquareRoot`; `out` keeps what it held for other moduli. -/
def mrSquareRoot (input out : List (Leg build)) : Option (List (Leg build)) :=
  -- `CachedModulus[0]`
  let m0 := 0 - modulusC
  if m0 &&& 3 = 3 then mrSquareRoot3 fuel modulusC input
  else if m0 &&& 7 = 5 then mrSquareRoot5 fuel modulusC input
  else some out

end Model

/-! ## Powers -/

section Power

variable {fuel legs e f : Nat} {modulusC : Leg build} {a : ℤ} {S T : List (Leg build)}

/-- The register holds a power of `a`. -/
structure Power (modulusC : Leg build) (legs : Nat) (a : ℤ) (e : Nat) (S : List (Leg build)) :
    Prop where
  length : S.length = legs
  modEq : (value S : ℤ) ≡ a ^ e [ZMOD modulus modulusC legs]

/-- The bounds under which the arithmetic of registers returns. -/
structure Bounds (modulusC : Leg build) (legs fuel : Nat) : Prop where
  c_lt : modulusC.toNat < 2 ^ 16
  legs_ge : 2 ≤ legs
  fuel_ge : 2 ≤ fuel

theorem Power.square (hb : Bounds modulusC legs fuel) (hS : Power modulusC legs a e S) :
    ∃ S', mrSquare fuel modulusC S = some S' ∧ Power modulusC legs a (2 * e) S' := by
  obtain ⟨S', hrun, hlen, hval⟩ := mrSquare_spec hb.c_lt hb.legs_ge hS.length
  refine ⟨S', hrun fuel hb.fuel_ge, hlen, hval.trans ?_⟩
  rw [two_mul, pow_add]
  exact hS.modEq.mul hS.modEq

theorem Power.mul (hb : Bounds modulusC legs fuel) (hS : Power modulusC legs a e S)
    (hT : Power modulusC legs a f T) :
    ∃ S', mrMultiply fuel modulusC S T = some S' ∧ Power modulusC legs a (e + f) S' := by
  obtain ⟨S', hrun, hlen, hval⟩ := mrMultiply_spec hb.c_lt hb.legs_ge hS.length hT.length
  refine ⟨S', hrun fuel hb.fuel_ge, hlen, hval.trans ?_⟩
  rw [pow_add]
  exact hS.modEq.mul hT.modEq

/-- Each round adds a one to the exponent. -/
theorem Power.onesLoop (hb : Bounds modulusC legs fuel) {base : List (Leg build)}
    (hbase : Power modulusC legs a 1 base) (ctr : Nat) {k : Nat}
    (hS : Power modulusC legs a (2 ^ k - 1) S) :
    ∃ S', onesLoop fuel modulusC base ctr S = some S' ∧
      Power modulusC legs a (2 ^ (k + ctr) - 1) S' := by
  induction ctr generalizing k S with
  | zero => exact ⟨S, rfl, hS⟩
  | succ ctr ih =>
    obtain ⟨S1, hsquare, hS1⟩ := hS.square hb
    obtain ⟨S2, hmul, hS2⟩ := hS1.mul hb hbase
    have hpos := Nat.two_pow_pos k
    rw [show 2 * (2 ^ k - 1) + 1 = 2 ^ (k + 1) - 1 by rw [pow_succ]; omega] at hS2
    obtain ⟨S', hloop, hS'⟩ := ih hS2
    refine ⟨S', ?_, by rwa [show k + (ctr + 1) = k + 1 + ctr by omega]⟩
    simp only [MrPower.onesLoop, hsquare, hmul, hloop, Option.bind_eq_bind, Option.bind_some]

theorem Power.squares (hb : Bounds modulusC legs fuel) (n : Nat) (hS : Power modulusC legs a e S) :
    ∃ S', squares fuel modulusC n S = some S' ∧ Power modulusC legs a (2 ^ n * e) S' := by
  induction n generalizing e S with
  | zero => exact ⟨S, rfl, by rwa [pow_zero, one_mul]⟩
  | succ n ih =>
    obtain ⟨S1, hsquare, hS1⟩ := hS.square hb
    obtain ⟨S', hloop, hS'⟩ := ih hS1
    refine ⟨S', ?_, by rwa [pow_succ, mul_assoc]⟩
    simp only [MrPower.squares, hsquare, hloop, Option.bind_eq_bind, Option.bind_some]

/-- Each frame adds a window of ones. -/
theorem Power.framesLoop (hb : Bounds modulusC legs fuel)
    (hT : Power modulusC legs a (2 ^ w - 1) T) (n : Nat) {k : Nat}
    (hS : Power modulusC legs a (2 ^ k - 1) S) :
    ∃ S', framesLoop fuel modulusC T n S = some S' ∧
      Power modulusC legs a (2 ^ (k + w * n) - 1) S' := by
  induction n generalizing k S with
  | zero => exact ⟨S, rfl, hS⟩
  | succ n ih =>
    obtain ⟨S1, hsquares, hS1⟩ := hS.squares hb w
    obtain ⟨S2, hmul, hS2⟩ := hS1.mul hb hT
    have hpos := Nat.two_pow_pos k
    have hsum : 2 ^ w * (2 ^ k - 1) + (2 ^ w - 1) = 2 ^ (k + w) - 1 := by
      have h1 : 2 ^ w * 1 ≤ 2 ^ w * 2 ^ k := Nat.mul_le_mul_left _ hpos
      have h2 := Nat.two_pow_pos w
      rw [Nat.mul_sub, Nat.mul_one, pow_add, Nat.mul_comm (2 ^ k)]
      omega
    rw [hsum] at hS2
    obtain ⟨S', hloop, hS'⟩ := ih hS2
    refine ⟨S', ?_, by rwa [show k + w * (n + 1) = k + w + w * n by ring]⟩
    simp only [MrPower.framesLoop, hsquares, hmul, hloop, Option.bind_eq_bind, Option.bind_some]

/-- The exponent takes on the bits, from the top. -/
theorem Power.bitLoop (hb : Bounds modulusC legs fuel) {base : List (Leg build)}
    (hbase : Power modulusC legs a 1 base) (mLow : Leg build) (last n : Nat)
    (hn : last + n ≤ build.legBits) (hS : Power modulusC legs a e S) :
    ∃ S', bitLoop fuel modulusC base mLow last n S = some S' ∧
      Power modulusC legs a (2 ^ n * e + mLow.toNat / 2 ^ last % 2 ^ n) S' := by
  induction n generalizing e S with
  | zero => exact ⟨S, rfl, by rwa [pow_zero, one_mul, Nat.mod_one, Nat.add_zero]⟩
  | succ n ih =>
    obtain ⟨S1, hsquare, hS1⟩ := hS.square hb
    have hbit : ∃ S2, bitMultiply fuel modulusC base mLow (last + n) S1 = some S2 ∧
        Power modulusC legs a (2 * e + mLow.toNat / 2 ^ (last + n) % 2) S2 := by
      have htest := bit_test (show last + n < build.legBits by omega) mLow
      unfold bitMultiply
      split
      · rename_i hset
        rw [htest.mp hset]
        exact hS1.mul hb hbase
      · rename_i hclear
        have h0 : mLow.toNat / 2 ^ (last + n) % 2 = 0 := by
          have := mt htest.mpr hclear
          omega
        rw [h0]
        exact ⟨S1, rfl, hS1⟩
    obtain ⟨S2, hmul, hS2⟩ := hbit
    obtain ⟨S', hloop, hS'⟩ := ih (by omega) hS2
    refine ⟨S', ?_, ?_⟩
    · simp only [MrPower.bitLoop, hsquare, hmul, hloop, Option.bind_eq_bind, Option.bind_some]
    · have hexp : 2 ^ (n + 1) * e + mLow.toNat / 2 ^ last % 2 ^ (n + 1) =
          2 ^ n * (2 * e + mLow.toNat / 2 ^ (last + n) % 2) + mLow.toNat / 2 ^ last % 2 ^ n := by
        rw [Nat.mod_pow_succ, Nat.div_div_eq_div_mul, ← pow_add, pow_succ]
        ring
      rwa [hexp]

/-- The first 16 bits. -/
theorem Power.first (hb : Bounds modulusC legs fuel) {base : List (Leg build)}
    (hbase : Power modulusC legs a 1 base) :
    ∃ S', MrPower.onesLoop fuel modulusC base (w - 1) base = some S' ∧
      Power modulusC legs a (2 ^ w - 1) S' := by
  have hone : Power modulusC legs a (2 ^ 1 - 1) base := by simpa using hbase
  obtain ⟨S', hrun, hS'⟩ := Power.onesLoop hb hbase (w - 1) hone
  rw [show 1 + (w - 1) = w from rfl] at hS'
  exact ⟨S', hrun, hS'⟩

/-- The frames after them. -/
theorem Power.ones (hb : Bounds modulusC legs fuel) (hS : Power modulusC legs a (2 ^ w - 1) S) :
    ∃ S', frames fuel modulusC S = some S' ∧
      Power modulusC legs a (2 ^ (build.legBits * legs - w) - 1) S' := by
  obtain ⟨S', hrun, hS'⟩ := hS.framesLoop hb (oneFrames build legs) hS
  refine ⟨S', by rwa [frames, hS.length], ?_⟩
  have hbits : w + w * oneFrames build legs = build.legBits * legs - w := by
    have hlegs := hb.legs_ge
    have hdvd : build.legBits = 32 ∨ build.legBits = 64 := by
      unfold Build.legBits
      split <;> simp
    rw [oneFrames, show w = 16 from rfl]
    obtain h | h := hdvd <;> rw [h] <;> omega
  rwa [← hbits]

/-- The low bits of a short difference. -/
theorem sub_toNat_mod {x k : Leg build} (hlt : x.toNat < k.toNat) (hk : k.toNat < x.toNat + 2 ^ 16) :
    (x - k).toNat % 2 ^ 16 = x.toNat + 2 ^ 16 - k.toNat := by
  have hkw : k.toNat < 2 ^ build.legBits := k.isLt
  have hsub : (x - k).toNat = (2 ^ build.legBits - k.toNat + x.toNat) % 2 ^ build.legBits :=
    BitVec.toNat_sub x k
  obtain ⟨q, hq⟩ : ∃ q, 2 ^ build.legBits = 2 ^ 16 * q :=
    ⟨2 ^ (build.legBits - 16), by
      rw [← pow_add]
      congr 1
      have := build.legBits_ge
      omega⟩
  generalize 2 ^ build.legBits = size at hkw hq hsub
  have hless : size - k.toNat + x.toNat < size := by omega
  rw [hsub, Nat.mod_eq_of_lt hless]
  omega

theorem window_le (build : Build) : 0 + w ≤ build.legBits := by
  have := build.legBits_ge
  rw [show w = 16 from rfl]
  omega

/-- The modulus as a number. -/
theorem modulus_eq {p : ℕ} (hp : (p : ℤ) = modulus modulusC legs) :
    p + modulusC.toNat = 2 ^ (build.legBits * legs) := by
  rw [modulus] at hp
  have : (p : ℤ) + modulusC.toNat = 2 ^ (build.legBits * legs) := by rw [hp]; ring
  exact_mod_cast this

theorem size_split (hb : Bounds modulusC legs fuel) :
    2 ^ (build.legBits * legs) = 2 ^ w * 2 ^ (build.legBits * legs - w) := by
  rw [← pow_add, Nat.add_sub_cancel']
  have h64 := Nat.mul_le_mul build.legBits_ge hb.legs_ge
  rw [show w = 16 from rfl]
  omega

theorem small_toNat (build : Build) {n : Nat} (hn : n < 2 ^ 16) :
    (BitVec.ofNat build.legBits n).toNat = n := by
  rw [BitVec.toNat_ofNat]
  refine Nat.mod_eq_of_lt (hn.trans_le (Nat.pow_le_pow_right (by omega) ?_))
  have := build.legBits_ge
  omega

/-- The low bits of `p - 2`. -/
theorem low_two (hc : modulusC.toNat < 65534) :
    (0 - (modulusC + 2)).toNat % 2 ^ w = 2 ^ w - (modulusC.toNat + 2) := by
  have hzero : (0 : Leg build).toNat = 0 := small_toNat build (by norm_num)
  have htwo : (modulusC + 2).toNat = modulusC.toNat + 2 := by
    have h2 : (2 : Leg build).toNat = 2 := small_toNat build (by norm_num)
    have h16 : 2 ^ 16 ≤ 2 ^ build.legBits :=
      Nat.pow_le_pow_right (by omega) (by have := build.legBits_ge; omega)
    rw [BitVec.toNat_add, h2]
    exact Nat.mod_eq_of_lt (by omega)
  have hlow := @sub_toNat_mod build 0 (modulusC + 2) (by omega) (by omega)
  rw [hzero, htwo, Nat.zero_add] at hlow
  exact hlow

/-- All ones and the low bits of `2 ^ n - r` are the bits of it above the last ones. -/
theorem exponent_eq {size x r last : Nat} (hsize : 0 < size) (hlast : last ≤ w)
    (hx : x % 2 ^ w = 2 ^ w - r) (hr : r ≤ 2 ^ w) :
    2 ^ (w - last) * (size - 1) + x / 2 ^ last % 2 ^ (w - last) = (2 ^ w * size - r) / 2 ^ last := by
  have hw : 2 ^ w = 2 ^ last * 2 ^ (w - last) := by rw [← pow_add, Nat.add_sub_cancel' hlast]
  have hbits : x / 2 ^ last % 2 ^ (w - last) = (2 ^ w - r) / 2 ^ last := by
    rw [← Nat.mod_mul_right_div_self, ← hw, hx]
  have hsplit : 2 ^ w * size - r = 2 ^ last * (2 ^ (w - last) * (size - 1)) + (2 ^ w - r) := by
    obtain ⟨m, rfl⟩ : ∃ m, size = m + 1 := ⟨size - 1, by omega⟩
    rw [← mul_assoc, ← hw, Nat.add_sub_cancel, Nat.mul_add, Nat.mul_one]
    omega
  rw [hbits, hsplit, Nat.mul_add_div (Nat.two_pow_pos last)]

/-- The power `p - 2`. -/
theorem mrInvert_power {p : ℕ} (hp : (p : ℤ) = modulus modulusC legs) (hlegs : 2 ≤ legs)
    (hfuel : 2 ≤ fuel) (hc : modulusC.toNat < 65534) (hS : S.length = legs) :
    ∃ out, mrInvert fuel modulusC S = some out ∧ Power modulusC legs (value S) (p - 2) out := by
  have hb : Bounds modulusC legs fuel := ⟨by omega, hlegs, hfuel⟩
  have hbase : Power modulusC legs (value S) 1 S := ⟨hS, by rw [pow_one]⟩
  obtain ⟨S1, h1, hS1⟩ := Power.first hb hbase
  obtain ⟨S2, h2, hS2⟩ := hS1.ones hb
  obtain ⟨out, h3, hout⟩ := Power.bitLoop hb hbase (0 - (modulusC + 2)) 0 w
    (window_le build) hS2
  refine ⟨out, ?_, ?_⟩
  · rw [mrInvert, h1, Option.bind_eq_bind, Option.bind_some, h2, Option.bind_some, h3]
  · have hexp := exponent_eq (Nat.two_pow_pos (build.legBits * legs - w)) (Nat.zero_le w)
      (low_two hc) (by rw [show w = 16 from rfl]; omega)
    rw [Nat.sub_zero, ← size_split hb, ← modulus_eq hp, pow_zero, Nat.div_one, Nat.div_one] at hexp
    rw [pow_zero, Nat.div_one, hexp, show p + modulusC.toNat - (modulusC.toNat + 2) = p - 2 by omega]
      at hout
    exact hout

theorem low_one (hc : 1 < modulusC.toNat) (hc' : modulusC.toNat < 2 ^ 16) :
    (1 - modulusC).toNat % 2 ^ w = 2 ^ w - (modulusC.toNat - 1) := by
  have hone : (1 : Leg build).toNat = 1 := one_toNat build
  have hlow := @sub_toNat_mod build 1 modulusC (by omega) (by omega)
  rw [hone] at hlow
  rw [show w = 16 from rfl, hlow]
  omega

theorem low_zero (hc : 0 < modulusC.toNat) (hc' : modulusC.toNat < 2 ^ 16) :
    (0 - modulusC).toNat % 2 ^ w = 2 ^ w - modulusC.toNat := by
  have hzero : (0 : Leg build).toNat = 0 := small_toNat build (by norm_num)
  have hlow := @sub_toNat_mod build 0 modulusC (by omega) (by omega)
  rw [hzero, Nat.zero_add] at hlow
  exact hlow

/-- The power `(p + 1) / 4`. -/
theorem mrSquareRoot3_power {p : ℕ} (hp : (p : ℤ) = modulus modulusC legs) (hlegs : 2 ≤ legs)
    (hfuel : 2 ≤ fuel) (hc : 1 < modulusC.toNat) (hc' : modulusC.toNat < 16384)
    (hS : S.length = legs) :
    ∃ out, mrSquareRoot3 fuel modulusC S = some out ∧
      Power modulusC legs (value S) ((p + 1) / 4) out := by
  have hc16 : modulusC.toNat < 2 ^ 16 := hc'.trans (by norm_num)
  have hb : Bounds modulusC legs fuel := ⟨hc16, hlegs, hfuel⟩
  have hbase : Power modulusC legs (value S) 1 S := ⟨hS, by rw [pow_one]⟩
  obtain ⟨S1, h1, hS1⟩ := Power.first hb hbase
  obtain ⟨S2, h2, hS2⟩ := hS1.ones hb
  obtain ⟨out, h3, hout⟩ := Power.bitLoop hb hbase (1 - modulusC) 2 (w - 2) (window_le build) hS2
  refine ⟨out, ?_, ?_⟩
  · rw [mrSquareRoot3, h1, Option.bind_eq_bind, Option.bind_some, h2, Option.bind_some, h3]
  · have hexp := exponent_eq (Nat.two_pow_pos (build.legBits * legs - w)) (show 2 ≤ w by decide)
      (low_one hc hc16) (by rw [show w = 16 from rfl]; omega)
    rw [← size_split hb, ← modulus_eq hp,
      show p + modulusC.toNat - (modulusC.toNat - 1) = p + 1 by omega] at hexp
    rw [hexp] at hout
    exact hout

/-- The power `(p - 5) / 8` of twice the number, and Atkin's formula. -/
theorem mrSquareRoot5_spec {p : ℕ} (hp : (p : ℤ) = modulus modulusC legs) (hlegs : 2 ≤ legs)
    (hfuel : 2 ≤ fuel) (hc : 0 < modulusC.toNat) (hc' : modulusC.toNat < 8192)
    (hS : S.length = legs) :
    ∃ (out : List (Leg build)) (s : ℤ), mrSquareRoot5 fuel modulusC S = some out ∧
      out.length = legs ∧ s ≡ (2 * value S) ^ (p / 8) [ZMOD modulus modulusC legs] ∧
      (value out : ℤ) ≡ value S * s * (s ^ 2 * (2 * value S) - 1) [ZMOD modulus modulusC legs] := by
  have hc16 : modulusC.toNat < 2 ^ 16 := hc'.trans (by norm_num)
  have hb : Bounds modulusC legs fuel := ⟨hc16, hlegs, hfuel⟩
  have hne : S ≠ [] := List.ne_nil_of_length_pos (by omega)
  obtain ⟨D, hD, hDlen, hDval⟩ := addOverflow_spec hc16 hlegs (hS ▸ double_spec hne)
  have hD' : mrDouble fuel modulusC S = some D := hD fuel hfuel
  have hbase : Power modulusC legs (2 * value S) 1 D := ⟨hDlen, by rwa [pow_one]⟩
  obtain ⟨S1, h1, hS1⟩ := hbase.square hb
  obtain ⟨S2, h2, hS2⟩ := hS1.mul hb hbase
  obtain ⟨S3, h3, hS3⟩ := Power.onesLoop hb hbase (w - 2) (k := 2) hS2
  obtain ⟨S4, h4, hS4⟩ := Power.ones hb hS3
  obtain ⟨S5, h5, hS5⟩ := Power.bitLoop hb hbase (0 - modulusC) 3 (w - 3) (window_le build) hS4
  have hexp := exponent_eq (Nat.two_pow_pos (build.legBits * legs - w)) (show 3 ≤ w by decide)
    (low_zero hc hc16) (by rw [show w = 16 from rfl]; omega)
  rw [← size_split hb, ← modulus_eq hp, Nat.add_sub_cancel] at hexp
  rw [hexp] at hS5
  obtain ⟨T1, h6, hT1len, hT1⟩ := mrSquare_spec hc16 hlegs hS5.length
  obtain ⟨T2, h7, hT2len, hT2⟩ := mrMultiply_spec hc16 hlegs hT1len hDlen
  have hne2 : T2 ≠ [] := List.ne_nil_of_length_pos (by omega)
  obtain ⟨T3, h8, hT3len, hT3⟩ := subtractOverflow_spec hc16 hlegs (hT2len ▸ subtractX_spec hne2 1)
  obtain ⟨O1, h9, hO1len, hO1⟩ := mrMultiply_spec hc16 hlegs hS hS5.length
  obtain ⟨out, h10, hlen, hout⟩ := mrMultiply_spec hc16 hlegs hO1len hT3len
  refine ⟨out, value S5, ?_, hlen, hS5.modEq, ?_⟩
  · have h6' : mrSquare fuel modulusC S5 = some T1 := h6 fuel hfuel
    have h7' : mrMultiply fuel modulusC T1 D = some T2 := h7 fuel hfuel
    have h8' : mrSubtractX fuel modulusC T2 1 = some T3 := h8 fuel hfuel
    have h9' : mrMultiply fuel modulusC S S5 = some O1 := h9 fuel hfuel
    have h10' : mrMultiply fuel modulusC O1 T3 = some out := h10 fuel hfuel
    rw [mrSquareRoot5, hD', Option.bind_eq_bind, Option.bind_some, h1, Option.bind_some, h2,
      Option.bind_some, h3, Option.bind_some, h4, Option.bind_some, h5, Option.bind_some, h6',
      Option.bind_some, h7', Option.bind_some, h8', Option.bind_some, h9', Option.bind_some, h10']
  · rw [one_toNat] at hT3
    have hT : (value T3 : ℤ) ≡ (value S5 : ℤ) ^ 2 * (2 * value S) - 1
        [ZMOD modulus modulusC legs] := by
      refine hT3.trans (Int.ModEq.sub_right 1 (hT2.trans ?_))
      rw [pow_two]
      exact hT1.mul hDval
    exact hout.trans (hO1.mul hT)

/-! ## Inverses and roots -/

theorem and_mask_toNat (x : Leg build) {n : Nat} (hn : n ≤ 8) :
    (x &&& BitVec.ofNat build.legBits (2 ^ n - 1)).toNat = x.toNat % 2 ^ n := by
  have hlt : 2 ^ n ≤ 2 ^ 8 := Nat.pow_le_pow_right (by omega) hn
  have hmask := small_toNat build (show 2 ^ n - 1 < 2 ^ 16 by omega)
  rw [BitVec.toNat_and, hmask, Nat.and_two_pow_sub_one_eq_mod]

/-- The tests of the cached modulus. -/
theorem cachedModulus_test {p : ℕ} (hb : Bounds modulusC legs fuel)
    (hp : (p : ℤ) = modulus modulusC legs) (hc : 0 < modulusC.toNat) :
    ((0 - modulusC) &&& 3 = 3 ↔ p % 4 = 3) ∧ ((0 - modulusC) &&& 7 = 5 ↔ p % 8 = 5) := by
  have hlow := low_zero hc hb.c_lt
  have hsize := modulus_eq hp
  have hc' := hb.c_lt
  rw [size_split hb] at hsize
  rw [show w = 16 from rfl] at hlow hsize
  have h3 := @and_mask_toNat build (0 - modulusC) 2 (by omega)
  have h7 := @and_mask_toNat build (0 - modulusC) 3 (by omega)
  rw [← BitVec.toNat_inj, ← BitVec.toNat_inj]
  have three : (3 : Leg build).toNat = 3 := small_toNat build (by norm_num)
  have five : (5 : Leg build).toNat = 5 := small_toNat build (by norm_num)
  constructor
  · rw [three, show (0 - modulusC) &&& 3 = (0 - modulusC) &&& BitVec.ofNat build.legBits (2 ^ 2 - 1)
      from rfl, h3]
    omega
  · rw [five, show (0 - modulusC) &&& 7 = (0 - modulusC) &&& BitVec.ofNat build.legBits (2 ^ 3 - 1)
      from rfl, h7]
    omega

/-- There is no prime of registers of all ones. -/
theorem not_prime_ones {p : ℕ} (hb : Bounds modulusC legs fuel)
    (hp : (p : ℤ) = modulus modulusC legs) (hc : modulusC.toNat = 1) : ¬p.Prime := by
  intro hprime
  have hsize := modulus_eq hp
  rw [size_split hb, hc, show w = 16 from rfl] at hsize
  have heven : ∃ k, build.legBits * legs - 16 = 2 * k := by
    have hbits : build.legBits = 32 ∨ build.legBits = 64 := by
      unfold Build.legBits
      split <;> simp
    obtain h | h := hbits <;> rw [h]
    · exact ⟨16 * legs - 8, by omega⟩
    · exact ⟨32 * legs - 8, by omega⟩
  obtain ⟨k, hk⟩ := heven
  have hmod : 2 ^ (build.legBits * legs - 16) % 3 = 1 := by
    rw [hk, pow_mul, Nat.pow_mod]
    simp
  have hpos := Nat.two_pow_pos (build.legBits * legs - 16)
  generalize 2 ^ (build.legBits * legs - 16) = size at hsize hmod hpos
  have hdvd : 3 ∣ p := by omega
  have := (Nat.prime_dvd_prime_iff_eq Nat.prime_three hprime).mp hdvd
  omega

/-- Fermat's power, and with it the inverse. -/
theorem mrInvert_spec {p : ℕ} (hprime : p.Prime) (hp : (p : ℤ) = modulus modulusC legs)
    (hlegs : 2 ≤ legs) (hfuel : 2 ≤ fuel) (hc : modulusC.toNat < 65534) {x : List (Leg build)}
    (hx : x.length = legs) : ∃ r, mrInvert fuel modulusC x = some r ∧ r.length = legs ∧
      (value r : ℤ) ≡ value x ^ (p - 2) [ZMOD p] ∧
      (¬(p : ℤ) ∣ value x → (value x : ℤ) * value r ≡ 1 [ZMOD p]) := by
  have : Fact p.Prime := ⟨hprime⟩
  obtain ⟨r, hr, hlen, hval⟩ := mrInvert_power hp hlegs hfuel hc hx
  rw [← hp] at hval
  refine ⟨r, hr, hlen, hval, fun hdvd => ?_⟩
  have hne : ((value x : ℤ) : ZMod p) ≠ 0 := fun h0 =>
    hdvd ((ZMod.intCast_zmod_eq_zero_iff_dvd _ _).mp h0)
  have hr := (ZMod.intCast_eq_intCast_iff _ _ p).mpr hval
  refine (ZMod.intCast_eq_intCast_iff _ _ p).mp ?_
  push_cast at hr hne ⊢
  rw [hr, mul_pow_sub_two hne]

/-- A root of every square, for both kinds of moduli. -/
theorem mrSquareRoot_spec {p : ℕ} (hprime : p.Prime) (hp : (p : ℤ) = modulus modulusC legs)
    (hlegs : 2 ≤ legs) (hfuel : 2 ≤ fuel) {x out : List (Leg build)} (hx : x.length = legs)
    (hmod : p % 4 = 3 ∧ modulusC.toNat < 16384 ∨ p % 8 = 5 ∧ modulusC.toNat < 8192)
    (hy : ∃ y : ℤ, y ^ 2 ≡ value x [ZMOD p]) :
    ∃ r, mrSquareRoot fuel modulusC x out = some r ∧ r.length = legs ∧
      (value r : ℤ) ^ 2 ≡ value x [ZMOD p] := by
  have : Fact p.Prime := ⟨hprime⟩
  have hsquare : IsSquare ((value x : ℤ) : ZMod p) := by
    obtain ⟨y, hy⟩ := hy
    refine ⟨(y : ZMod p), ?_⟩
    rw [← pow_two, ← (ZMod.intCast_eq_intCast_iff _ _ p).mpr hy]
    push_cast
    rfl
  have hc16 : modulusC.toNat < 2 ^ 16 := by omega
  have hb : Bounds modulusC legs fuel := ⟨hc16, hlegs, hfuel⟩
  have hpos : 0 < modulusC.toNat := by
    have hsize := modulus_eq hp
    rw [size_split hb, show w = 16 from rfl] at hsize
    omega
  obtain ⟨htest3, htest5⟩ := cachedModulus_test hb hp hpos
  unfold mrSquareRoot
  obtain ⟨h3, hc⟩ | ⟨h5, hc⟩ := hmod
  · have hone : modulusC.toNat ≠ 1 := fun h1 => not_prime_ones hb hp h1 hprime
    obtain ⟨r, hr, hlen, hval⟩ := mrSquareRoot3_power hp hlegs hfuel (by omega) hc hx
    rw [← hp] at hval
    refine ⟨r, by rw [if_pos (htest3.mpr h3), hr], hlen, ?_⟩
    have hr := (ZMod.intCast_eq_intCast_iff _ _ p).mpr hval
    refine (ZMod.intCast_eq_intCast_iff _ _ p).mp ?_
    push_cast at hr hsquare ⊢
    rw [hr, root_of_three_mod_four h3 hsquare]
  · obtain ⟨r, s, hr, hlen, hs, hval⟩ := mrSquareRoot5_spec hp hlegs hfuel hpos hc hx
    rw [← hp] at hs hval
    have hnot : ¬(0 - modulusC) &&& 3 = 3 := fun h => by
      have := htest3.mp h
      omega
    refine ⟨r, by rw [if_neg hnot, if_pos (htest5.mpr h5), hr], hlen, ?_⟩
    have hr := (ZMod.intCast_eq_intCast_iff _ _ p).mpr hval
    have hs' := (ZMod.intCast_eq_intCast_iff _ _ p).mpr hs
    refine (ZMod.intCast_eq_intCast_iff _ _ p).mp ?_
    push_cast at hr hs' hsquare ⊢
    rw [hr]
    exact atkin_root h5 hsquare (by rw [hs', show (p - 5) / 8 = p / 8 by omega])

end Power

end Libcat.Math.MrPower
