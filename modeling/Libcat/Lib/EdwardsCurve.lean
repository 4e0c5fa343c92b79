import Mathlib.Algebra.Field.Basic
import Mathlib.Tactic

/-!
# Twisted Edwards curves

The affine law of the curve `-x^2 + y^2 = 1 + d x^2 y^2` over a field and its extended projective
coordinates `(X, Y, T, Z)`.

- `Defined d P Q`: the denominators of `P + Q` do not vanish.
- `Extended.Represents`: the coordinates stand for an affine point.
- `Represents.of_ratios`: the coordinates that come of numerators and denominators, each pair with a
  factor of its own, represent the point of the quotients.
-/

namespace Libcat.Edwards

variable {K : Type*} [Field K]

/-- Extended projective coordinates. -/
structure Extended (R : Type*) where
  X : R
  Y : R
  T : R
  Z : R
deriving DecidableEq

section Affine

variable (d : K) (P Q : K × K)

def OnCurve : Prop := -P.1 ^ 2 + P.2 ^ 2 = 1 + d * P.1 ^ 2 * P.2 ^ 2

def denominator : K := d * P.1 * Q.1 * P.2 * Q.2

/-- The denominators of a sum. -/
def Defined : Prop := 1 + denominator d P Q ≠ 0 ∧ 1 - denominator d P Q ≠ 0

def add : K × K :=
  ((P.1 * Q.2 + P.2 * Q.1) / (1 + denominator d P Q),
    (P.2 * Q.2 + P.1 * Q.1) / (1 - denominator d P Q))

def neg : K × K := (-P.1, P.2)

instance [DecidableEq K] : Decidable (OnCurve d P) :=
  inferInstanceAs (Decidable (_ = _))

instance [DecidableEq K] : Decidable (Defined d P Q) :=
  inferInstanceAs (Decidable (_ ∧ _))

theorem denominator_neg : denominator d P (neg Q) = -denominator d P Q := by
  simp only [denominator, neg]
  ring

/-- The denominators of a difference are those of the sum. -/
theorem defined_neg : Defined d P (neg Q) ↔ Defined d P Q := by
  rw [Defined, Defined, denominator_neg, sub_neg_eq_add, ← sub_eq_add_neg]
  exact and_comm

end Affine

/-- The coordinates of `-P`. -/
def Extended.neg (pt : Extended K) : Extended K := ⟨-pt.X, pt.Y, -pt.T, pt.Z⟩

/-- The coordinates stand for an affine point. -/
structure Extended.Represents (pt : Extended K) (P : K × K) : Prop where
  ne_zero : pt.Z ≠ 0
  x_eq : pt.X = P.1 * pt.Z
  y_eq : pt.Y = P.2 * pt.Z
  extended : pt.T * pt.Z = pt.X * pt.Y

namespace Extended.Represents

variable {pt : Extended K} {P : K × K}

theorem t_eq (h : pt.Represents P) : pt.T = P.1 * P.2 * pt.Z := by
  refine mul_right_cancel₀ h.ne_zero ?_
  rw [h.extended, h.x_eq, h.y_eq]
  ring

theorem neg (h : pt.Represents P) : pt.neg.Represents (Edwards.neg P) where
  ne_zero := h.ne_zero
  x_eq := by
    rw [Extended.neg, h.x_eq]
    exact (neg_mul P.1 pt.Z).symm
  y_eq := h.y_eq
  extended := by
    show -pt.T * pt.Z = -pt.X * pt.Y
    rw [neg_mul, neg_mul, h.extended]

/-- Two quotients brought to extended coordinates. -/
theorem of_ratios {E F G H k l nx dx ny dy : K} (hk : k ≠ 0) (hl : l ≠ 0) (hdx : dx ≠ 0)
    (hdy : dy ≠ 0) (hE : E = k * nx) (hG : G = k * dx) (hH : H = l * ny) (hF : F = l * dy) :
    (⟨E * F, G * H, E * H, F * G⟩ : Extended K).Represents (nx / dx, ny / dy) where
  ne_zero := by
    rw [hF, hG]
    exact mul_ne_zero (mul_ne_zero hl hdy) (mul_ne_zero hk hdx)
  x_eq := by
    simp only [hE, hF, hG]
    field_simp
  y_eq := by
    simp only [hH, hF, hG]
    field_simp
  extended := by
    show E * H * (F * G) = E * F * (G * H)
    ring

end Extended.Represents

end Libcat.Edwards
