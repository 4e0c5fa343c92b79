import Libcat.Lib.Bytes
import Libcat.Math.PseudoMersenne

/-!
# Points received from a peer

`BigTwistedEdwards::LoadVerifyAffineXY` and `IsAffineIdentity`: the coordinates are loaded as they
come, without a test against the modulus, and checked on the curve `y^2 - x^2 = 1 + d x^2 y^2`.
`pointChecked_iff` says which encodings get through although `x` is zero in the field.
-/

namespace Libcat.Math.TwistedEdwards

open Radix BigRTL PseudoMersenne

variable {build : Build}

section Model

/-- `sizeof(Leg)`. -/
def legBytes (build : Build) : Nat := build.legBits / 8

/-- `Load` of `bytes` bytes into a register. -/
def load (libraryLegs : Nat) (input : List u8) (bytes : Nat) : List (Leg build) :=
  let legs := min (bytes / legBytes build) libraryLegs
  ((List.range legs).map fun ii =>
      Bytes.ofBytes ((input.drop (ii * legBytes build)).take (legBytes build))) ++
    List.replicate (libraryLegs - legs) 0

/-- `EqualX`. -/
def equalX (input : List (Leg build)) (x : Leg build) : Bool :=
  match input with
  | [] => false
  | t :: l => decide (t = x) && l.all fun y => y == 0

/-- `PtValidAffine`: `0 = 1 + d x^2 y^2 + x^2 - y^2`. -/
def ptValidAffine (fuel : Nat) (modulusC curveD : Leg build) (x y : List (Leg build)) :
    Option Bool := do
  let a ← mrSquare fuel modulusC x
  let b ← mrSquare fuel modulusC y
  let c ← mrMultiply fuel modulusC a b
  let c ← mrMultiplyX fuel modulusC c curveD
  let c ← mrAddX fuel modulusC c 1
  let c ← mrAdd fuel modulusC c a
  let c ← mrSubtract fuel modulusC c b
  return isZero (mrReduce modulusC c)

/-- The affine part of a point. -/
structure AffinePoint (build : Build) where
  x : List (Leg build)
  y : List (Leg build)

/-- `LoadVerifyAffineXY`. -/
def loadVerifyAffineXY (fuel libraryLegs : Nat) (modulusC curveD : Leg build) (inX inY : List u8) :
    Option (Bool × AffinePoint build) := do
  let regBytes := libraryLegs * legBytes build
  let out : AffinePoint build := ⟨load libraryLegs inX regBytes, load libraryLegs inY regBytes⟩
  let valid ← ptValidAffine fuel modulusC curveD out.x out.y
  return (valid, out)

/-- `IsAffineIdentity`. -/
def isAffineIdentity (input : AffinePoint build) : Bool := equalX input.x 0

end Model

/-- The curve equation modulo `p`. -/
def OnCurve (p d x y : ℤ) : Prop := y ^ 2 - x ^ 2 ≡ 1 + d * x ^ 2 * y ^ 2 [ZMOD p]

instance (p d x y : ℤ) : Decidable (OnCurve p d x y) :=
  inferInstanceAs (Decidable (_ ≡ _ [ZMOD p]))

/-- What the check of a received point is for: one that passes has a nonzero `x` in the field and is
on the curve. -/
def PointChecked (fuel libraryLegs : Nat) (modulusC curveD : Leg build) (inX inY : List u8) : Prop :=
  ∃ valid out, loadVerifyAffineXY fuel libraryLegs modulusC curveD inX inY = some (valid, out) ∧
    (valid = true → isAffineIdentity out = false →
      ¬ (value inX : ℤ) ≡ 0 [ZMOD modulus modulusC libraryLegs] ∧
        OnCurve (modulus modulusC libraryLegs) curveD.toNat (value inX) (value inY))

/-! ## Loading -/

theorem legBits_eq (build : Build) : build.legBits = 8 * legBytes build := by
  unfold legBytes Build.legBits
  split <;> rfl

theorem legBytes_pos (build : Build) : 0 < legBytes build := by
  unfold legBytes Build.legBits
  split <;> decide

theorem ofBytes_toNat {w : Nat} {bs : List u8} (h : 8 * bs.length ≤ w) :
    (Bytes.ofBytes bs : BitVec w).toNat = value bs := by
  induction bs with
  | nil => simp [Bytes.ofBytes]
  | cons b bs ih =>
    rw [List.length_cons] at h
    have hb := b.isLt
    have hv := value_lt bs
    have hpow : 2 ^ 8 * (2 ^ 8) ^ bs.length ≤ 2 ^ w := by
      rw [← Nat.pow_succ', ← pow_mul]
      exact Nat.pow_le_pow_right (by omega) (by omega)
    have hbw : b.toNat < 2 ^ w := Nat.lt_of_lt_of_le hb (Nat.pow_le_pow_right (by omega) (by omega))
    have hshift : 2 ^ 8 * value bs < 2 ^ w :=
      Nat.lt_of_lt_of_le (Nat.mul_lt_mul_of_pos_left hv (by omega)) hpow
    rw [Bytes.ofBytes, BitVec.toNat_or, BitVec.toNat_setWidth, BitVec.toNat_shiftLeft,
      ih (by omega), Nat.shiftLeft_eq, Nat.mod_eq_of_lt hbw, Nat.mul_comm, Nat.mod_eq_of_lt hshift,
      value_cons, Nat.or_comm, ← Nat.two_pow_add_eq_or_of_lt hb, Nat.add_comm]

/-- The legs of so many bytes, from a place on. -/
theorem value_legs (n : Nat) : ∀ {input : List u8} {k : Nat},
    input.length = (k + n) * legBytes build →
      value ((List.range n).map fun ii => (Bytes.ofBytes
        ((input.drop ((k + ii) * legBytes build)).take (legBytes build)) : Leg build)) =
          value (input.drop (k * legBytes build)) := by
  induction n with
  | zero =>
    intro input k h
    rw [Nat.add_zero] at h
    rw [List.range_zero, List.map_nil, ← h, List.drop_length]
    rfl
  | succ n ih =>
    intro input k h
    have hlen : (k + (n + 1)) * legBytes build =
        k * legBytes build + legBytes build + n * legBytes build := by ring
    have htake : ((input.drop (k * legBytes build)).take (legBytes build)).length =
        legBytes build := by
      rw [List.length_take, List.length_drop]
      omega
    have hrest := ih (k := k + 1) (by rw [h]; ring)
    have hsplit := value_append ((input.drop (k * legBytes build)).take (legBytes build))
      ((input.drop (k * legBytes build)).drop (legBytes build))
    rw [List.take_append_drop, htake, List.drop_drop,
      show k * legBytes build + legBytes build = (k + 1) * legBytes build by ring] at hsplit
    rw [List.range_succ_eq_map, List.map_cons, List.map_map, value_cons, Nat.add_zero,
      ofBytes_toNat (by rw [htake, legBits_eq]), hsplit, ← hrest]
    congr 2
    · rw [legBits_eq, pow_mul]
    · refine congrArg value (List.map_congr_left fun ii _ => ?_)
      show Bytes.ofBytes ((input.drop ((k + (ii + 1)) * legBytes build)).take (legBytes build)) = _
      rw [show k + (ii + 1) = k + 1 + ii by omega]

theorem load_spec {libraryLegs : Nat} {input : List u8}
    (h : input.length = libraryLegs * legBytes build) :
    (load libraryLegs input (libraryLegs * legBytes build) : List (Leg build)).length = libraryLegs ∧
      value (load libraryLegs input (libraryLegs * legBytes build) : List (Leg build)) =
        value input := by
  have hlegs : min (libraryLegs * legBytes build / legBytes build) libraryLegs = libraryLegs := by
    rw [Nat.mul_div_cancel _ (legBytes_pos build), Nat.min_self]
  have hv := value_legs libraryLegs (k := 0) (by simpa using h)
  simp only [Nat.zero_add, Nat.zero_mul, List.drop_zero] at hv
  unfold load
  simp only [hlegs, Nat.sub_self, List.replicate_zero, List.append_nil]
  exact ⟨by simp, hv⟩

theorem equalX_zero {l : List (Leg build)} (h : l ≠ []) : equalX l 0 = true ↔ value l = 0 := by
  obtain ⟨t, l, rfl⟩ := List.exists_cons_of_ne_nil h
  rw [value_eq_zero, List.forall_mem_cons]
  simp [equalX]

theorem isZero_iff {l : List (Leg build)} : isZero l = true ↔ value l = 0 := by
  rw [value_eq_zero]
  simp [isZero]

/-! ## Validation -/

section Validation

variable {modulusC curveD : Leg build} {legs fuel : Nat} {x y : List (Leg build)}

theorem ptValidAffine_spec (hc : 0 < modulusC.toNat) (hc' : modulusC.toNat < 2 ^ 16)
    (hlegs : 2 ≤ legs) (hfuel : 2 ≤ fuel) (hx : x.length = legs) (hy : y.length = legs) :
    ∃ valid, ptValidAffine fuel modulusC curveD x y = some valid ∧
      (valid = true ↔ OnCurve (modulus modulusC legs) curveD.toNat (value x) (value y)) := by
  obtain ⟨a, ha, hla, hva⟩ := mrSquare_spec hc' hlegs hx
  obtain ⟨b, hb, hlb, hvb⟩ := mrSquare_spec hc' hlegs hy
  obtain ⟨c1, h1, hl1, hv1⟩ := mrMultiply_spec hc' hlegs hla hlb
  obtain ⟨c2, h2, hl2, hv2⟩ := mrMultiplyX_spec hc' hlegs hl1 curveD
  have hne2 : c2 ≠ [] := List.ne_nil_of_length_pos (by omega)
  obtain ⟨c3, h3, hl3, hv3⟩ := addOverflow_spec hc' hlegs
    (hl2 ▸ addX_spec hne2 1)
  obtain ⟨c4, h4, hl4, hv4⟩ := addOverflow_spec hc' hlegs
    (hl3 ▸ add_spec (hl3.trans hla.symm))
  obtain ⟨c5, h5, hl5, hv5⟩ := subtractOverflow_spec hc' hlegs
    (hl4 ▸ subtract_spec (hl4.trans hlb.symm))
  obtain ⟨-, hred⟩ := mrReduce_spec hc hc' hlegs hl5
  refine ⟨isZero (mrReduce modulusC c5), ?_, ?_⟩
  · have ea : mrSquare fuel modulusC x = some a := ha fuel hfuel
    have eb : mrSquare fuel modulusC y = some b := hb fuel hfuel
    have e1 : mrMultiply fuel modulusC a b = some c1 := h1 fuel hfuel
    have e2 : mrMultiplyX fuel modulusC c1 curveD = some c2 := h2 fuel hfuel
    have e3 : mrAddX fuel modulusC c2 1 = some c3 := h3 fuel hfuel
    have e4 : mrAdd fuel modulusC c3 a = some c4 := h4 fuel hfuel
    have e5 : mrSubtract fuel modulusC c4 b = some c5 := h5 fuel hfuel
    simp only [ptValidAffine, ea, eb, e1, e2, e3, e4, e5, Option.bind_eq_bind, Option.bind_some]
    rfl
  · have hc1 : (value c1 : ℤ) ≡ value x * value x * (value y * value y)
        [ZMOD modulus modulusC legs] := hv1.trans (hva.mul hvb)
    have hc3 : (value c3 : ℤ) ≡ value x * value x * (value y * value y) * curveD.toNat + 1
        [ZMOD modulus modulusC legs] := by
      refine hv3.trans ?_
      rw [one_toNat]
      exact (hv2.trans (hc1.mul_right _)).add_right _
    have hsum : (value c5 : ℤ) ≡ value x * value x * (value y * value y) * curveD.toNat + 1 +
        value x * value x - value y * value y [ZMOD modulus modulusC legs] :=
      hv5.trans ((hv4.trans (hc3.add hva)).sub hvb)
    have hzero : isZero (mrReduce modulusC c5) = true ↔
        (value c5 : ℤ) ≡ 0 [ZMOD modulus modulusC legs] := by
      rw [isZero_iff, Int.ModEq, Int.zero_emod, ← hred]
      exact_mod_cast Iff.rfl
    have hcurve : OnCurve (modulus modulusC legs) curveD.toNat (value x) (value y) ↔
        value x * value x * (value y * value y) * (curveD.toNat : ℤ) + 1 +
          value x * value x - value y * value y ≡ 0 [ZMOD modulus modulusC legs] := by
      rw [OnCurve, Int.modEq_iff_dvd, Int.modEq_comm, Int.modEq_iff_dvd]
      have : 1 + (curveD.toNat : ℤ) * value x ^ 2 * value y ^ 2 - (value y ^ 2 - value x ^ 2) =
          value x * value x * (value y * value y) * curveD.toNat + 1 + value x * value x -
            value y * value y - 0 := by ring
      rw [this]
    rw [hzero, hcurve]
    exact ⟨fun h => hsum.symm.trans h, fun h => hsum.trans h⟩

theorem onCurve_of_dvd {p d x y : ℤ} (hx : p ∣ x) : OnCurve p d x y ↔ y ^ 2 ≡ 1 [ZMOD p] := by
  have h0 : x ^ 2 ≡ 0 [ZMOD p] := Int.modEq_zero_iff_dvd.mpr (hx.trans (dvd_pow_self x (by omega)))
  have hl : y ^ 2 - x ^ 2 ≡ y ^ 2 [ZMOD p] := by
    simpa using (Int.ModEq.refl (y ^ 2)).sub h0
  have hr : 1 + d * x ^ 2 * y ^ 2 ≡ 1 [ZMOD p] := by
    simpa using (Int.ModEq.refl 1).add ((h0.mul_left d).mul_right (y ^ 2))
  exact ⟨fun h => hl.symm.trans (h.trans hr), fun h => hl.trans (h.trans hr.symm)⟩

theorem modulus_pos (hc' : modulusC.toNat < 2 ^ 16) (hlegs : 2 ≤ legs) :
    0 < modulus modulusC legs := by
  have := two_mul_modulusC_lt hc' hlegs
  rw [modulus]
  linarith [Int.natCast_nonneg modulusC.toNat]

/-- A register that is zero in the field holds zero or the modulus. -/
theorem eq_zero_or_modulus (hc' : modulusC.toNat < 2 ^ 16) (hlegs : 2 ≤ legs)
    (hx : x.length = legs) (h : (value x : ℤ) ≡ 0 [ZMOD modulus modulusC legs]) :
    value x = 0 ∨ (value x : ℤ) = modulus modulusC legs := by
  have h2c := two_mul_modulusC_lt hc' hlegs
  have hlt := value_lt_pow x
  have hpos := modulus_pos hc' hlegs
  obtain ⟨k, hk⟩ := Int.modEq_zero_iff_dvd.mp h
  have hnn : (0 : ℤ) ≤ value x := Int.natCast_nonneg _
  rw [hx] at hlt
  have hk0 : 0 ≤ k := by
    by_contra hneg
    nlinarith
  have hk2 : k < 2 := by
    by_contra hge
    have : 2 * modulus modulusC legs ≤ modulus modulusC legs * k := by nlinarith
    rw [modulus] at *
    linarith
  obtain rfl | rfl : k = 0 ∨ k = 1 := by omega
  · rw [mul_zero] at hk
    exact .inl (by exact_mod_cast hk)
  · exact .inr (by rw [hk, mul_one])

variable {inX inY : List u8}

/-- What `LoadVerifyAffineXY` and `IsAffineIdentity` say, in terms of the bytes. -/
theorem loadVerifyAffineXY_spec (hc : 0 < modulusC.toNat) (hc' : modulusC.toNat < 2 ^ 16)
    (hlegs : 2 ≤ legs) (hfuel : 2 ≤ fuel) (hx : inX.length = legs * legBytes build)
    (hy : inY.length = legs * legBytes build) :
    ∃ valid out, loadVerifyAffineXY fuel legs modulusC curveD inX inY = some (valid, out) ∧
      (valid = true ↔ OnCurve (modulus modulusC legs) curveD.toNat (value inX) (value inY)) ∧
      (isAffineIdentity out = true ↔ value inX = 0) ∧
      ((value inX : ℤ) ≡ 0 [ZMOD modulus modulusC legs] →
        value inX = 0 ∨ (value inX : ℤ) = modulus modulusC legs) := by
  obtain ⟨hlx, hvx⟩ := load_spec hx
  obtain ⟨hly, hvy⟩ := load_spec hy
  obtain ⟨valid, hrun, hvalid⟩ := ptValidAffine_spec hc hc' hlegs hfuel hlx hly
  have hzero := eq_zero_or_modulus hc' hlegs hlx
  rw [hvx] at hzero
  rw [hvx, hvy] at hvalid
  refine ⟨valid, ⟨load legs inX (legs * legBytes build), load legs inY (legs * legBytes build)⟩, ?_,
    hvalid, ?_, hzero⟩
  · simp only [loadVerifyAffineXY, hrun, Option.bind_eq_bind, Option.bind_some]
    rfl
  · rw [isAffineIdentity, equalX_zero (List.ne_nil_of_length_pos (by rw [hlx]; omega)), hvx]

theorem not_pointChecked (hc : 0 < modulusC.toNat) (hc' : modulusC.toNat < 2 ^ 16)
    (hlegs : 2 ≤ legs) (hfuel : 2 ≤ fuel) (hx : inX.length = legs * legBytes build)
    (hy : inY.length = legs * legBytes build) (hp : (value inX : ℤ) = modulus modulusC legs)
    (hone : (value inY : ℤ) ^ 2 ≡ 1 [ZMOD modulus modulusC legs]) :
    ¬ PointChecked fuel legs modulusC curveD inX inY := by
  rintro ⟨valid', out', hrun', hchecked⟩
  obtain ⟨valid, out, hrun, hvalid, hident, -⟩ :=
    loadVerifyAffineXY_spec hc hc' hlegs hfuel hx hy
  rw [hrun] at hrun'
  obtain ⟨rfl, rfl⟩ := Prod.mk.inj (Option.some.inj hrun')
  have hdvd : modulus modulusC legs ∣ value inX := by rw [hp]
  have hident' : isAffineIdentity out = false := by
    rw [← Bool.not_eq_true, hident]
    intro h0
    have := modulus_pos hc' hlegs
    rw [h0] at hp
    simp at hp
    omega
  exact (hchecked (hvalid.mpr ((onCurve_of_dvd hdvd).mpr hone)) hident').1
    (Int.modEq_zero_iff_dvd.mpr hdvd)

/-- **Validation of points.** The check does what it is for unless `x` is given as the modulus itself,
with a `y` whose square is one. -/
theorem pointChecked_iff (hc : 0 < modulusC.toNat) (hc' : modulusC.toNat < 2 ^ 14)
    (hlegs : 2 ≤ legs) (hfuel : 2 ≤ fuel) (hx : inX.length = legs * legBytes build)
    (hy : inY.length = legs * legBytes build) :
    PointChecked fuel legs modulusC curveD inX inY ↔
      ¬ ((value inX : ℤ) = modulus modulusC legs ∧
        (value inY : ℤ) ^ 2 ≡ 1 [ZMOD modulus modulusC legs]) := by
  have hc'' : modulusC.toNat < 2 ^ 16 := hc'.trans (by norm_num)
  constructor
  · rintro hchecked ⟨hp, hone⟩
    exact not_pointChecked hc hc'' hlegs hfuel hx hy hp hone hchecked
  · intro hnot
    obtain ⟨valid, out, hrun, hvalid, hident, hzero⟩ :=
      loadVerifyAffineXY_spec hc hc'' hlegs hfuel hx hy
    refine ⟨valid, out, hrun, fun hv hi => ?_⟩
    have hcurve := hvalid.mp hv
    refine ⟨fun h0 => ?_, hcurve⟩
    rcases hzero h0 with h | h
    · rw [hident.mpr h] at hi
      simp at hi
    · have hdvd : modulus modulusC legs ∣ value inX := by rw [h]
      exact hnot ⟨h, (onCurve_of_dvd hdvd).mp hcurve⟩

end Validation

/-- The 256-bit curve, with legs of 64 bits. -/
def build64 : Build := ⟨true, true, false⟩

/-- The coordinates of `GeneratorPoint_256`. -/
def generatorX : List u8 :=
  [199, 172, 100, 86, 21, 9, 105, 52, 27, 54, 112, 27, 130, 66, 212, 206,
    2, 201, 233, 157, 146, 53, 115, 139, 157, 11, 140, 127, 85, 208, 200, 234]

@[inherit_doc generatorX]
def generatorY : List u8 :=
  [89, 166, 146, 6, 210, 52, 127, 185, 80, 155, 102, 54, 140, 112, 165, 133,
    28, 79, 155, 87, 57, 23, 8, 77, 36, 126, 56, 208, 44, 204, 44, 122]

/-- The generator point is on the curve, and checked. -/
theorem pointChecked_generator :
    OnCurve (@modulus build64 435 4) 31720 (value generatorX) (value generatorY) ∧
      @PointChecked build64 2 4 435 31720 generatorX generatorY := by
  refine ⟨by decide, (pointChecked_iff (by decide) (by decide) (by decide) (by decide) (by decide)
    (by decide)).mpr ?_⟩
  rintro ⟨h, -⟩
  revert h
  decide

/-- The modulus and one, an encoding of the identity, gets through. -/
theorem not_pointChecked_modulus :
    ¬ @PointChecked build64 2 4 435 31720 (0x4d :: 0xfe :: List.replicate 30 0xff)
      (1 :: List.replicate 31 0) :=
  not_pointChecked (by decide) (by decide) (by decide) (by decide) (by decide) (by decide)
    (by decide) (by decide)

end Libcat.Math.TwistedEdwards
