import Libcat.Math.MrPower
import Libcat.Math.PointFormulas

/-!
# Negation of registers

`MrNegate` of `BigPseudoMersenne`, and what `BigTwistedEdwards` does with it. The complement less
`modulus_c - 1` is the modulus less the register, taken modulo the size of the register. Nothing adds
the modulus back when that is negative, so the registers above the modulus come out wrong by
`modulus_c`.
-/

namespace Libcat.Math.MrNegate

open Radix BigRTL PseudoMersenne MrPower PointFormulas Edwards

variable {build : Build}

section Model

/-- Ripple the borrow in as far as needed, then invert the remaining bits. -/
def rippleInverted : List (Leg build) → List (Leg build)
  | [] => []
  | x :: l =>
    let t := ~~~x
    if t ≠ 0 then (t - 1) :: l.map fun x => ~~~x
    else (t - 1) :: rippleInverted l

/-- `MrNegate`. -/
def mrNegate (modulusC : Leg build) (input : List (Leg build)) : List (Leg build) :=
  match input with
  | [] => []
  | in0 :: l =>
    let t := ~~~in0
    let x := modulusC - 1
    if t < x then (t - x) :: rippleInverted l
    else (t - x) :: l.map fun x => ~~~x

variable (fuel : Nat) (modulusC : Leg build)

/-- The arithmetic of registers under the point formulas. -/
def registers : Arith (List (Leg build)) (Leg build) where
  add := mrAdd fuel modulusC
  sub := mrSubtract fuel modulusC
  mul := mrMultiply fuel modulusC
  mulX := mrMultiplyX fuel modulusC
  subX := mrSubtractX fuel modulusC
  double := mrDouble fuel modulusC
  square := mrSquare fuel modulusC
  negate x := some (mrNegate modulusC x)

/-- `PtSolveAffineY`. -/
def ptSolveAffineY (curveD : Leg build) (inout : Extended (List (Leg build))) :
    Option (Extended (List (Leg build))) := do
  -- B = x^2
  let B ← mrSquare fuel modulusC inout.X
  -- A = 1/(1 - d*B)
  let A ← mrMultiplyX fuel modulusC B curveD
  let A := mrNegate modulusC A
  let A ← mrAddX fuel modulusC A 1
  let A ← mrInvert fuel modulusC A
  -- y = sqrt(A*(B+1))
  let B ← mrAddX fuel modulusC B 1
  let y ← mrMultiply fuel modulusC A B
  let y ← mrSquareRoot fuel modulusC y y
  return { inout with Y := mrReduce modulusC y }

end Model

/-! ## The negative -/

section Negate

variable {modulusC : Leg build} {legs : Nat}

theorem rippleInverted_eq (l : List (Leg build)) :
    rippleInverted l = (rippleBorrow (l.map fun x => ~~~x)).2 := by
  induction l with
  | nil => rfl
  | cons x l ih =>
    rw [rippleInverted, List.map_cons, rippleBorrow]
    by_cases h : ~~~x ≠ 0
    · rw [if_pos h, if_pos h]
    · rw [if_neg h, if_neg h, ih]

/-- It is like `SubtractX`. -/
theorem mrNegate_eq (l : List (Leg build)) :
    mrNegate modulusC l = (subtractX (l.map fun x => ~~~x) (modulusC - 1)).2 := by
  cases l with
  | nil => rfl
  | cons x l =>
    rw [mrNegate, List.map_cons, subtractX]
    by_cases h : ~~~x < modulusC - 1
    · rw [if_pos h, if_neg (BitVec.not_le.mpr h), rippleInverted_eq]
    · rw [if_neg h, if_pos (BitVec.not_lt.mp h)]

/-- The modulus less the register, modulo the size of the register. -/
theorem mrNegate_spec (hc : 0 < modulusC.toNat) (hc' : modulusC.toNat < 2 ^ 16) (hlegs : 2 ≤ legs)
    {x : List (Leg build)} (hx : x.length = legs) :
    (mrNegate modulusC x).length = legs ∧
      (value (mrNegate modulusC x) : ℤ) = modulus modulusC legs - value x +
        (if (value x : ℤ) ≤ modulus modulusC legs then 0 else 2 ^ (build.legBits * legs)) := by
  have hne : (x.map fun x => ~~~x) ≠ [] := List.ne_nil_of_length_pos (by rw [List.length_map]; omega)
  obtain ⟨hlen, hborrow, hval⟩ := subtractX_spec hne (modulusC - 1)
  have hnot : (value (x.map fun x => ~~~x) : ℤ) + value x + 1 = 2 ^ (build.legBits * legs) := by
    rw [pow_mul, ← hx]
    exact_mod_cast value_not x
  have hone : ((modulusC - 1).toNat : ℤ) = modulusC.toNat - 1 := by
    have h1 : (1 : Leg build).toNat = 1 := small_toNat build (by norm_num)
    have hle : 1 ≤ modulusC := by rwa [BitVec.le_def, h1]
    rw [BitVec.toNat_sub_of_le hle, h1]
    omega
  rw [List.length_map, hx] at hlen hval
  rw [hone] at hval
  rw [← mrNegate_eq] at hlen hval
  have h2c := two_mul_modulusC_lt hc' hlegs
  have hlt := value_lt_pow (mrNegate modulusC x)
  have hnn : (0 : ℤ) ≤ value (mrNegate modulusC x) := Int.natCast_nonneg _
  rw [hlen] at hlt
  refine ⟨hlen, ?_⟩
  unfold modulus
  rcases hborrow with h0 | h1
  · rw [h0, zero_u8_toNat, mul_zero, sub_zero] at hval
    rw [if_pos (by linarith)]
    linarith
  · rw [h1, one_u8_toNat, mul_one] at hval
    rw [if_neg (by linarith)]
    linarith

theorem mrNegate_modEq (hc : 0 < modulusC.toNat) (hc' : modulusC.toNat < 2 ^ 16) (hlegs : 2 ≤ legs)
    {x : List (Leg build)} (hx : x.length = legs) :
    (value (mrNegate modulusC x) : ℤ) ≡ -value x [ZMOD modulus modulusC legs] ↔
      (value x : ℤ) ≤ modulus modulusC legs := by
  have h2c := two_mul_modulusC_lt hc' hlegs
  rw [(mrNegate_spec hc hc' hlegs hx).2]
  have hmod : modulus modulusC legs - value x ≡ -value x [ZMOD modulus modulusC legs] :=
    Int.modEq_iff_dvd.mpr ⟨-1, by ring⟩
  by_cases h : (value x : ℤ) ≤ modulus modulusC legs
  · rw [if_pos h, add_zero]
    exact iff_of_true hmod h
  · rw [if_neg h]
    refine iff_of_false (fun hmod' => ?_) h
    -- the size would be a multiple of the modulus, and `modulus_c` with it
    have hsize : (2 : ℤ) ^ (build.legBits * legs) ≡ 0 [ZMOD modulus modulusC legs] :=
      Int.ModEq.add_left_cancel hmod (by rw [add_zero]; exact hmod')
    have hc0 := (size_modEq modulusC legs).symm.trans hsize
    have hdvd := (Int.modEq_zero_iff_dvd.mp hc0)
    have hle := Int.le_of_dvd (by exact_mod_cast hc) hdvd
    unfold modulus at hle
    linarith

end Negate

/-! ## Field elements -/

section Field

variable {modulusC : Leg build} {fuel legs p : Nat} {r s : List (Leg build)} {a b : ZMod p}

/-- A register stands for a number modulo `p`. -/
structure Holds (legs : Nat) {p : Nat} (r : List (Leg build)) (a : ZMod p) : Prop where
  length : r.length = legs
  cast : ((value r : ℤ) : ZMod p) = a

theorem Holds.of_modEq {n : ℤ} (hp : (p : ℤ) = modulus modulusC legs) (hlen : r.length = legs)
    (h : (value r : ℤ) ≡ n [ZMOD modulus modulusC legs]) : Holds legs r (n : ZMod p) :=
  ⟨hlen, (ZMod.intCast_eq_intCast_iff _ _ p).mpr (hp ▸ h)⟩

/-- Registers with a modulus of their size. -/
structure Setup (modulusC : Leg build) (legs fuel p : Nat) : Prop where
  c_pos : 0 < modulusC.toNat
  c_lt : modulusC.toNat < 2 ^ 16
  legs_ge : 2 ≤ legs
  fuel_ge : 2 ≤ fuel
  modulus : (p : ℤ) = modulus modulusC legs

/-- How far the negative is off. -/
def slip (modulusC : Leg build) (p : Nat) (r : List (Leg build)) : ZMod p :=
  if value r ≤ p then 0 else modulusC.toNat

theorem slip_eq_zero (h : Setup modulusC legs fuel p) : slip modulusC p r = 0 ↔ value r ≤ p := by
  have hlt : modulusC.toNat < p := by
    have h2c := two_mul_modulusC_lt h.c_lt h.legs_ge
    have hp := h.modulus
    rw [PseudoMersenne.modulus] at hp
    have : (modulusC.toNat : ℤ) < p := by linarith
    exact_mod_cast this
  have hne : ((modulusC.toNat : ℕ) : ZMod p) ≠ 0 := fun h0 =>
    Nat.not_le.mpr hlt (Nat.le_of_dvd h.c_pos ((ZMod.natCast_eq_zero_iff _ p).mp h0))
  unfold slip
  by_cases hle : value r ≤ p
  · exact iff_of_true (if_pos hle) hle
  · exact iff_of_false (by rwa [if_neg hle]) hle

namespace Holds

theorem congr (hr : Holds legs r a) (hab : a = b) : Holds legs r b := hab ▸ hr

theorem unique (hr : Holds legs r a) (hr' : Holds legs r b) : a = b := hr.cast.symm.trans hr'.cast

section

variable (h : Setup modulusC legs fuel p)
include h

theorem of_reduces {f : Nat → Option (List (Leg build))} {n : ℤ}
    (hf : Reduces modulusC legs f n) : ∃ t, f fuel = some t ∧ Holds legs t (n : ZMod p) := by
  obtain ⟨t, hrun, hlen, hval⟩ := hf
  exact ⟨t, hrun fuel h.fuel_ge, of_modEq h.modulus hlen hval⟩

theorem ne_nil (hr : Holds legs r a) : r ≠ [] := by
  have := h.legs_ge
  exact List.ne_nil_of_length_pos (by rw [hr.length]; omega)

theorem add (hr : Holds legs r a) (hs : Holds legs s b) :
    ∃ t, mrAdd fuel modulusC r s = some t ∧ Holds legs t (a + b) := by
  have hsum := add_spec (hr.length.trans hs.length.symm)
  have := of_reduces h (addOverflow_spec h.c_lt h.legs_ge (hr.length ▸ hsum))
  rwa [Int.cast_add, hr.cast, hs.cast] at this

theorem addX (hr : Holds legs r a) (x : Leg build) :
    ∃ t, mrAddX fuel modulusC r x = some t ∧ Holds legs t (a + (x.toNat : ZMod p)) := by
  have := of_reduces h (addOverflow_spec h.c_lt h.legs_ge (hr.length ▸ addX_spec (ne_nil h hr) x))
  rwa [Int.cast_add, hr.cast, Int.cast_natCast] at this

theorem double (hr : Holds legs r a) :
    ∃ t, mrDouble fuel modulusC r = some t ∧ Holds legs t (2 * a) := by
  have := of_reduces h (addOverflow_spec h.c_lt h.legs_ge (hr.length ▸ double_spec (ne_nil h hr)))
  rwa [Int.cast_mul, hr.cast, Int.cast_ofNat] at this

theorem sub (hr : Holds legs r a) (hs : Holds legs s b) :
    ∃ t, mrSubtract fuel modulusC r s = some t ∧ Holds legs t (a - b) := by
  have hdiff := subtract_spec (hr.length.trans hs.length.symm)
  have := of_reduces h (subtractOverflow_spec h.c_lt h.legs_ge (hr.length ▸ hdiff))
  rwa [Int.cast_sub, hr.cast, hs.cast] at this

theorem subX (hr : Holds legs r a) (x : Leg build) :
    ∃ t, mrSubtractX fuel modulusC r x = some t ∧ Holds legs t (a - (x.toNat : ZMod p)) := by
  have := of_reduces h (subtractOverflow_spec h.c_lt h.legs_ge (hr.length ▸ subtractX_spec (ne_nil h hr) x))
  rwa [Int.cast_sub, hr.cast, Int.cast_natCast] at this

theorem mul (hr : Holds legs r a) (hs : Holds legs s b) :
    ∃ t, mrMultiply fuel modulusC r s = some t ∧ Holds legs t (a * b) := by
  have := of_reduces h (mrMultiply_spec h.c_lt h.legs_ge hr.length hs.length)
  rwa [Int.cast_mul, hr.cast, hs.cast] at this

theorem mulX (hr : Holds legs r a) (x : Leg build) :
    ∃ t, mrMultiplyX fuel modulusC r x = some t ∧ Holds legs t (a * (x.toNat : ZMod p)) := by
  have := of_reduces h (mrMultiplyX_spec h.c_lt h.legs_ge hr.length x)
  rwa [Int.cast_mul, hr.cast, Int.cast_natCast] at this

theorem square (hr : Holds legs r a) :
    ∃ t, mrSquare fuel modulusC r = some t ∧ Holds legs t (a * a) := by
  have := of_reduces h (mrSquare_spec h.c_lt h.legs_ge hr.length)
  rwa [Int.cast_mul, hr.cast] at this

theorem negate (hr : Holds legs r a) :
    Holds legs (mrNegate modulusC r) (-a + slip modulusC p r) := by
  obtain ⟨hlen, hval⟩ := mrNegate_spec h.c_pos h.c_lt h.legs_ge hr.length
  refine ⟨hlen, ?_⟩
  have hsize := (ZMod.intCast_eq_intCast_iff _ _ p).mpr (h.modulus ▸ size_modEq modulusC legs)
  rw [hval, ← h.modulus, slip]
  by_cases hle : value r ≤ p
  · rw [if_pos (by exact_mod_cast hle), if_pos hle]
    push_cast at hr ⊢
    rw [← hr.cast]
    simp
  · rw [if_neg (by exact_mod_cast hle), if_neg hle, Int.cast_add, hsize, ← hr.cast]
    simp

/-- The negative is right in the field just for the registers up to the modulus. -/
theorem negate_iff (hr : Holds legs r a) :
    Holds legs (mrNegate modulusC r) (-a) ↔ value r ≤ p := by
  rw [← slip_eq_zero h]
  have hn := hr.negate h
  refine ⟨fun h' => ?_, fun h0 => ?_⟩
  · exact add_eq_left.mp (hn.unique h')
  · rwa [h0, add_zero] at hn

end

end Holds

/-- A point in registers; only the extended versions of the formulas write `T`. -/
structure HoldsPoint (legs : Nat) {p : Nat} (extended : Bool) (pt : Extended (List (Leg build)))
    (a : Extended (ZMod p)) : Prop where
  X : Holds legs pt.X a.X
  Y : Holds legs pt.Y a.Y
  T : extended = true → Holds legs pt.T a.T
  Z : Holds legs pt.Z a.Z

section Formulas

variable {P : Type} [DecidableEq P] [Fact p.Prime] {mem : P → Extended (List (Leg build))}
  {pt : Extended (ZMod p)} {inp out : P}

theorem ptNegate_iff (h : Setup modulusC legs fuel p) (hin : HoldsPoint legs true (mem inp) pt) :
    ∃ mem', ptNegate (registers fuel modulusC) mem inp out = some mem' ∧
      (HoldsPoint legs true (mem' out) pt.neg ↔ value (mem inp).X ≤ p ∧ value (mem inp).T ≤ p) := by
  refine ⟨_, ptNegate_of_total (fun _ => rfl) mem inp out, ?_⟩
  rw [← hin.X.negate_iff h, ← (hin.T rfl).negate_iff h, Function.update_self]
  exact ⟨fun h => ⟨h.X, h.T rfl⟩, fun h => ⟨h.1, hin.Y, fun _ => h.2, hin.Z⟩⟩

/-- A double with the slip of its negative in every factor. -/
theorem ptDoubleFn_holds (h : Setup modulusC legs fuel p) (extended : Bool)
    (hin : HoldsPoint legs true (mem inp) pt) :
    ∃ A mem', mrSquare fuel modulusC (mem inp).X = some A ∧
      ptDoubleFn (registers fuel modulusC) extended mem inp out = some mem' ∧
      HoldsPoint legs extended (mem' out) ((doubleFactors pt).shift (slip modulusC p A)).point := by
  obtain ⟨A, hA, hA'⟩ := hin.X.square h
  have hN := hA'.negate h
  obtain ⟨E1, hE1, hE1'⟩ := hin.X.add h hin.Y
  obtain ⟨B, hB, hB'⟩ := hin.Y.square h
  obtain ⟨C1, hC1, hC1'⟩ := hin.Z.square h
  obtain ⟨E2, hE2, hE2'⟩ := hE1'.square h
  obtain ⟨C, hC, hC'⟩ := hC1'.double h
  obtain ⟨H, hH, hH'⟩ := hN.sub h hB'
  have hH' := hH'.congr (show _ = (doubleFactors pt).H + slip modulusC p A by
    simp only [doubleFactors]
    ring)
  obtain ⟨G, hG, hG'⟩ := hN.add h hB'
  have hG' := hG'.congr (show _ = (doubleFactors pt).G + slip modulusC p A by
    simp only [doubleFactors]
    ring)
  obtain ⟨E, hE, hE'⟩ := hE2'.add h hH'
  have hE' := hE'.congr (show _ = (doubleFactors pt).E + slip modulusC p A by
    simp only [doubleFactors]
    ring)
  obtain ⟨F, hF, hF'⟩ := hG'.sub h hC'
  have hF' := hF'.congr (show _ = (doubleFactors pt).F + slip modulusC p A by
    simp only [doubleFactors]
    ring)
  obtain ⟨Y, hY, hY'⟩ := hG'.mul h hH'
  obtain ⟨T, hT, hT'⟩ := hE'.mul h hH'
  obtain ⟨X, hX, hX'⟩ := hE'.mul h hF'
  obtain ⟨Z, hZ, hZ'⟩ := hF'.mul h hG'
  cases extended with
  | true =>
    refine ⟨A, setZ (setX (setT (setY mem out Y) out T) out X) out Z, hA, ?_, ?_⟩
    · simp only [ptDoubleFn, registers, mulT, hE1, hA, hB, hC1, hE2, hC, hH, hG, hE, hF, hY, hT, hX,
        hZ, Option.bind_eq_bind, Option.bind_some, if_true, Option.map_some, Option.pure_def]
    · simp only [setX, setY, setT, setZ, Function.update_self]
      exact ⟨hX', hY', fun _ => hT', hZ'⟩
  | false =>
    refine ⟨A, setZ (setX (setY mem out Y) out X) out Z, hA, ?_, ?_⟩
    · simp only [ptDoubleFn, registers, mulT, hE1, hA, hB, hC1, hE2, hC, hH, hG, hE, hF, hY, hX, hZ,
        Option.bind_eq_bind, Option.bind_some, Bool.false_eq_true, if_false, Option.pure_def]
    · simp only [setX, setY, setZ, Function.update_self]
      exact ⟨hX', hY', fun h => (Bool.false_ne_true h).elim, hZ'⟩

theorem ptDoubleZ1Fn_holds (h : Setup modulusC legs fuel p) (extended : Bool)
    (hin : HoldsPoint legs true (mem inp) pt) (hZ1 : pt.Z = 1) :
    ∃ A mem', mrSquare fuel modulusC (mem inp).X = some A ∧
      ptDoubleZ1Fn (registers fuel modulusC) extended mem inp out = some mem' ∧
      HoldsPoint legs extended (mem' out) ((doubleFactors pt).shift (slip modulusC p A)).point := by
  have two : (2 : Leg build).toNat = 2 := small_toNat build (by norm_num)
  obtain ⟨A, hA, hA'⟩ := hin.X.square h
  have hN := hA'.negate h
  obtain ⟨B, hB, hB'⟩ := hin.Y.square h
  obtain ⟨G, hG, hG'⟩ := hN.add h hB'
  have hG' := hG'.congr (show _ = (doubleFactors pt).G + slip modulusC p A by
    simp only [doubleFactors]
    ring)
  obtain ⟨F, hF, hF'⟩ := hG'.subX h 2
  have hF' := hF'.congr (show _ = (doubleFactors pt).F + slip modulusC p A by
    simp only [doubleFactors, two, hZ1]
    push_cast
    ring)
  obtain ⟨H, hH, hH'⟩ := hN.sub h hB'
  have hH' := hH'.congr (show _ = (doubleFactors pt).H + slip modulusC p A by
    simp only [doubleFactors]
    ring)
  obtain ⟨E1, hE1, hE1'⟩ := hin.X.add h hin.Y
  obtain ⟨E2, hE2, hE2'⟩ := hE1'.square h
  obtain ⟨E, hE, hE'⟩ := hE2'.add h hH'
  have hE' := hE'.congr (show _ = (doubleFactors pt).E + slip modulusC p A by
    simp only [doubleFactors]
    ring)
  obtain ⟨X, hX, hX'⟩ := hE'.mul h hF'
  obtain ⟨Y, hY, hY'⟩ := hG'.mul h hH'
  obtain ⟨T, hT, hT'⟩ := hE'.mul h hH'
  obtain ⟨Z, hZ, hZ'⟩ := hF'.mul h hG'
  cases extended with
  | true =>
    refine ⟨A, setZ (setT (setY (setX mem out X) out Y) out T) out Z, hA, ?_, ?_⟩
    · simp only [ptDoubleZ1Fn, registers, mulT, hA, hB, hG, hF, hH, hE1, hE2, hE, hX, hY, hT, hZ,
        Option.bind_eq_bind, Option.bind_some, if_true, Option.map_some, Option.pure_def]
    · simp only [setX, setY, setT, setZ, Function.update_self]
      exact ⟨hX', hY', fun _ => hT', hZ'⟩
  | false =>
    refine ⟨A, setZ (setY (setX mem out X) out Y) out Z, hA, ?_, ?_⟩
    · simp only [ptDoubleZ1Fn, registers, mulT, hA, hB, hG, hF, hH, hE1, hE2, hE, hX, hY, hZ,
        Option.bind_eq_bind, Option.bind_some, Bool.false_eq_true, if_false, Option.pure_def]
    · simp only [setX, setY, setZ, Function.update_self]
      exact ⟨hX', hY', fun h => (Bool.false_ne_true h).elim, hZ'⟩

/-- On a curve but that of `d = -1` a double with a slip is not the double. -/
theorem doubleFactors_shift {d c : ZMod p} {Q : ZMod p × ZMod p} (hd : d ≠ -1) (hcurve : OnCurve d Q)
    (hrep : pt.Represents Q) (hY : ((doubleFactors pt).shift c).point.Y = (doubleFactors pt).point.Y)
    (hZ : ((doubleFactors pt).shift c).point.Z = (doubleFactors pt).point.Z) : c = 0 := by
  by_contra hc
  simp only [Factors.shift, Factors.point, doubleFactors] at hY hZ
  -- the sums of two factors that each product leaves
  have hX : c = 2 * pt.X ^ 2 := mul_left_cancel₀ hc (by linear_combination hY)
  have hXZ : 2 * pt.Y ^ 2 = 2 * pt.Z ^ 2 := mul_left_cancel₀ hc (by linear_combination hZ - hY)
  have h2 : (2 : ZMod p) ≠ 0 := fun h => hc (by rw [hX, h, zero_mul])
  have hsq : pt.Y ^ 2 = pt.Z ^ 2 := mul_left_cancel₀ h2 hXZ
  have hy : Q.2 ^ 2 = 1 := by
    refine mul_right_cancel₀ (pow_ne_zero 2 hrep.ne_zero) ?_
    rw [hrep.y_eq] at hsq
    linear_combination hsq
  have hx : Q.1 ^ 2 * (d + 1) = 0 := by
    rw [OnCurve, hy] at hcurve
    linear_combination -hcurve
  have hx0 : Q.1 ^ 2 = 0 := (mul_eq_zero.mp hx).resolve_right fun h => hd (by linear_combination h)
  refine hc (hX.trans ?_)
  rw [hrep.x_eq, mul_pow, hx0, zero_mul, mul_zero]

/-- A double is right just when the square is not above the modulus. -/
theorem double_iff (h : Setup modulusC legs fuel p) {extended : Bool} {A : List (Leg build)}
    {pt' : Extended (List (Leg build))} {d : ZMod p} {Q : ZMod p × ZMod p} (hd : d ≠ -1)
    (hcurve : OnCurve d Q) (hrep : pt.Represents Q)
    (hout : HoldsPoint legs extended pt' ((doubleFactors pt).shift (slip modulusC p A)).point) :
    HoldsPoint legs extended pt' (doubleFactors pt).point ↔ value A ≤ p := by
  rw [← slip_eq_zero h]
  refine ⟨fun h' => doubleFactors_shift hd hcurve hrep (hout.Y.unique h'.Y)
    (hout.Z.unique h'.Z), fun h0 => ?_⟩
  simpa only [h0, Factors.shift, add_zero] using hout

/-- The point of the curve over `x`, when there is one. -/
theorem ptSolveAffineY_holds (h : Setup modulusC legs fuel p) (hp : p % 4 = 3 ∧
    modulusC.toNat < 16384 ∨ p % 8 = 5 ∧ modulusC.toNat < 8192) (curveD : Leg build)
    {inout : Extended (List (Leg build))} {x : ZMod p} (hx : Holds legs inout.X x) :
    ∃ B A, mrSquare fuel modulusC inout.X = some B ∧ mrMultiplyX fuel modulusC B curveD = some A ∧
      (value A ≤ p → ∀ y : ZMod p, 1 - (curveD.toNat : ZMod p) * x ^ 2 ≠ 0 →
        OnCurve (curveD.toNat : ZMod p) (x, y) →
        ∃ out, ptSolveAffineY fuel modulusC curveD inout = some out ∧ out.X = inout.X ∧
          value out.Y < p ∧ OnCurve (curveD.toNat : ZMod p) (x, (value out.Y : ZMod p))) := by
  have hprime : p.Prime := Fact.out
  have one : (1 : Leg build).toNat = 1 := small_toNat build (by norm_num)
  obtain ⟨B, hB, hB'⟩ := hx.square h
  obtain ⟨A, hA, hA'⟩ := hB'.mulX h curveD
  refine ⟨B, A, hB, hA, fun hle y hne hcurve => ?_⟩
  have hN := (hA'.negate_iff h).mpr hle
  obtain ⟨D, hD, hD'⟩ := hN.addX h 1
  obtain ⟨I, hI, hIlen, -, hIinv⟩ := mrInvert_spec hprime h.modulus h.legs_ge h.fuel_ge
    (show modulusC.toNat < 65534 by omega) hD'.length
  obtain ⟨N, hN1, hN'⟩ := hB'.addX h 1
  have hI' : Holds legs I ((value I : ℤ) : ZMod p) := ⟨hIlen, rfl⟩
  obtain ⟨Q, hQ, hQ'⟩ := hI'.mul h hN'
  simp only [one, Nat.cast_one] at hD' hN' hQ'
  -- the quotient is the square of the root that is there
  have hinv : (1 - (curveD.toNat : ZMod p) * x ^ 2) * ((value I : ℤ) : ZMod p) = 1 := by
    have hdvd : ¬(p : ℤ) ∣ value D := fun hdvd => hne (by
      have h0 := (ZMod.intCast_zmod_eq_zero_iff_dvd _ p).mpr hdvd
      rw [hD'.cast] at h0
      linear_combination h0)
    have h1 := (ZMod.intCast_eq_intCast_iff _ _ p).mpr (hIinv hdvd)
    rw [Int.cast_mul, hD'.cast, Int.cast_one] at h1
    linear_combination h1
  rw [OnCurve] at hcurve
  have hroot : y ^ 2 = ((value Q : ℤ) : ZMod p) := by
    rw [hQ'.cast]
    linear_combination ((value I : ℤ) : ZMod p) * hcurve - y ^ 2 * hinv
  obtain ⟨S, hS, hSlen, hSval⟩ := @mrSquareRoot_spec _ fuel legs modulusC p hprime h.modulus
    h.legs_ge h.fuel_ge Q Q hQ'.length hp ⟨(y.val : ℤ), by
      refine (ZMod.intCast_eq_intCast_iff _ _ p).mp ?_
      rw [← hroot]
      simp⟩
  have hSval := (ZMod.intCast_eq_intCast_iff _ _ p).mpr hSval
  obtain ⟨-, hR⟩ := mrReduce_spec h.c_pos h.c_lt h.legs_ge hSlen
  rw [← h.modulus] at hR
  have hppos : (0 : ℤ) < p := by exact_mod_cast hprime.pos
  have hRcast : ((value (mrReduce modulusC S) : ℤ) : ZMod p) = ((value S : ℤ) : ZMod p) := by
    rw [hR]
    exact (ZMod.intCast_eq_intCast_iff _ _ p).mpr (Int.mod_modEq _ _)
  refine ⟨{ inout with Y := mrReduce modulusC S }, ?_, rfl, ?_, ?_⟩
  · simp [-BitVec.ofNat_eq_ofNat, ptSolveAffineY, hB, hA, hD, hI, hN1, hQ, hS]
  · have := Int.emod_lt_of_pos (value S : ℤ) hppos
    rw [← hR] at this
    exact_mod_cast this
  · rw [OnCurve]
    rw [Int.cast_natCast] at hRcast
    rw [hRcast]
    rw [Int.cast_pow, ← hroot] at hSval
    linear_combination hcurve + (1 - (curveD.toNat : ZMod p) * x ^ 2) * hSval

end Formulas

/-- **Negation.** `MrNegate` is right just for the registers that are not above the modulus, and so are
the negative and the double of a point with what they negate; `PtSolveAffineY` finds the point of the
curve where it negates no such register. -/
theorem negate_right_iff (hc : 0 < modulusC.toNat) (hc' : modulusC.toNat < 2 ^ 14)
    (hlegs : 2 ≤ legs) :
    (∀ x : List (Leg build), x.length = legs →
      ((value (mrNegate modulusC x) : ℤ) ≡ -value x [ZMOD modulus modulusC legs] ↔
        (value x : ℤ) ≤ modulus modulusC legs)) ∧
    ∀ (p : ℕ) [Fact p.Prime], (p : ℤ) = modulus modulusC legs → ∀ fuel, 2 ≤ fuel →
      ∀ (P : Type) [DecidableEq P] (mem : P → Extended (List (Leg build))) (inp out : P)
        (pt : Extended (ZMod p)), HoldsPoint legs true (mem inp) pt →
        (∃ mem', ptNegate (registers fuel modulusC) mem inp out = some mem' ∧
          (HoldsPoint legs true (mem' out) pt.neg ↔
            value (mem inp).X ≤ p ∧ value (mem inp).T ≤ p)) ∧
        (∀ (extended : Bool) (d : ZMod p) (Q : ZMod p × ZMod p), d ≠ -1 → OnCurve d Q →
          pt.Represents Q → ∃ A mem', mrSquare fuel modulusC (mem inp).X = some A ∧
            ptDoubleFn (registers fuel modulusC) extended mem inp out = some mem' ∧
            (HoldsPoint legs extended (mem' out) (doubleFactors pt).point ↔ value A ≤ p) ∧
            (pt.Z = 1 → ∃ mem1,
              ptDoubleZ1Fn (registers fuel modulusC) extended mem inp out = some mem1 ∧
              (HoldsPoint legs extended (mem1 out) (doubleFactors pt).point ↔ value A ≤ p))) ∧
        (p % 4 = 3 ∨ p % 8 = 5 ∧ modulusC.toNat < 8192 → ∀ curveD : Leg build,
          ∃ B A, mrSquare fuel modulusC (mem inp).X = some B ∧
            mrMultiplyX fuel modulusC B curveD = some A ∧
            (value A ≤ p → ∀ y : ZMod p, 1 - (curveD.toNat : ZMod p) * pt.X ^ 2 ≠ 0 →
              OnCurve (curveD.toNat : ZMod p) (pt.X, y) →
              ∃ solved, ptSolveAffineY fuel modulusC curveD (mem inp) = some solved ∧
                solved.X = (mem inp).X ∧ value solved.Y < p ∧
                OnCurve (curveD.toNat : ZMod p) (pt.X, (value solved.Y : ZMod p)))) := by
  have hc16 : modulusC.toNat < 2 ^ 16 := hc'.trans (by norm_num)
  refine ⟨fun x hx => mrNegate_modEq hc hc16 hlegs hx, ?_⟩
  intro p _ hp fuel hfuel P _ mem inp out pt hin
  have h : Setup modulusC legs fuel p := ⟨hc, hc16, hlegs, hfuel, hp⟩
  refine ⟨ptNegate_iff h hin, ?_, ?_⟩
  · intro extended d Q hd hcurve hrep
    obtain ⟨A, mem', hA, hrun, hout⟩ := @ptDoubleFn_holds _ _ _ _ _ _ _ _ mem pt inp out h extended hin
    refine ⟨A, mem', hA, hrun, double_iff h hd hcurve hrep hout, fun hZ1 => ?_⟩
    obtain ⟨A1, mem1, hA1, hrun1, hout1⟩ :=
      @ptDoubleZ1Fn_holds _ _ _ _ _ _ _ _ mem pt inp out h extended hin hZ1
    obtain rfl : A = A1 := Option.some_inj.mp (hA.symm.trans hA1)
    exact ⟨mem1, hrun1, double_iff h hd hcurve hrep hout1⟩
  · intro hroot curveD
    exact ptSolveAffineY_holds h (hroot.imp_left fun h3 => ⟨h3, hc'⟩) curveD hin.X

/-- The negative of a register up to the modulus, in two legs of 32 bits. -/
theorem negate_right_example :
    (value (@mrNegate ⟨false, true, false⟩ 5 [4294967291, 4294967295]) : ℤ) ≡
      -value [(4294967291 : Leg ⟨false, true, false⟩), 4294967295]
      [ZMOD @modulus ⟨false, true, false⟩ 5 2] :=
  ((@negate_right_iff ⟨false, true, false⟩ 5 2 (by decide) (by decide) le_rfl).1 _ rfl).mpr
    (by decide)

/-- The sum of two registers below the modulus may be above it. -/
theorem not_negates : ¬∀ x y z : List (Leg ⟨false, true, false⟩),
    value x < 2 ^ 64 - 5 → value y < 2 ^ 64 - 5 → mrAdd 2 5 x y = some z →
      (value (mrNegate 5 z) : ℤ) ≡ -value z [ZMOD @modulus ⟨false, true, false⟩ 5 2] := by
  intro h
  have hz := h [4294967290, 4294967295] [2, 0] [4294967292, 4294967295] (by decide) (by decide)
    (by decide)
  revert hz
  decide

end Field

end Libcat.Math.MrNegate
