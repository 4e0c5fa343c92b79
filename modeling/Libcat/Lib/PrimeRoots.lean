import Mathlib.NumberTheory.LegendreSymbol.QuadraticReciprocity
import Mathlib.NumberTheory.LucasPrimality
import Mathlib.Tactic

/-!
# Inverses and square roots modulo a prime

As powers: `a ^ (p - 2)` is the inverse of `a`, `a ^ ((p + 1) / 4)` a root of a square for `p = 3 mod 4`,
and for `p = 5 mod 8` the root is Atkin's, with the power `(p - 5) / 8` of `2 * a`.
-/

namespace Libcat.PrimeRoots

variable {p : ℕ} [Fact p.Prime] {a : ZMod p}

theorem mul_pow_sub_two (ha : a ≠ 0) : a * a ^ (p - 2) = 1 := by
  have htwo := (Fact.out : p.Prime).two_le
  rw [← pow_succ', show p - 2 + 1 = p - 1 by omega]
  exact ZMod.pow_card_sub_one_eq_one ha

/-- Euler's criterion for the number itself. -/
theorem pow_half_mul (ha : IsSquare a) : a ^ (p / 2) * a = a := by
  by_cases h0 : a = 0
  · rw [h0, mul_zero]
  · rw [(ZMod.euler_criterion p h0).mp ha, one_mul]

theorem root_of_three_mod_four (hp : p % 4 = 3) (ha : IsSquare a) : (a ^ ((p + 1) / 4)) ^ 2 = a := by
  rw [← pow_mul, show (p + 1) / 4 * 2 = p / 2 + 1 by omega, pow_succ, pow_half_mul ha]

/-- Two is no square for `p = 5 mod 8`. -/
theorem two_pow_half (hp : p % 8 = 5) : (2 : ZMod p) ^ (p / 2) = -1 := by
  have hne2 : p ≠ 2 := by omega
  have h2 : (2 : ZMod p) ≠ 0 := Ring.two_ne_zero (by rwa [ZMod.ringChar_zmod_n])
  have hsquare : ¬IsSquare (2 : ZMod p) := by
    rw [ZMod.exists_sq_eq_two_iff hne2]
    omega
  exact (ZMod.pow_div_two_eq_neg_one_or_one p h2).resolve_left fun h =>
    hsquare ((ZMod.euler_criterion p h2).mpr h)

theorem atkin_root (hp : p % 8 = 5) (ha : IsSquare a) {s : ZMod p}
    (hs : s = (2 * a) ^ ((p - 5) / 8)) : (a * s * (s ^ 2 * (2 * a) - 1)) ^ 2 = a := by
  by_cases h0 : a = 0
  · rw [h0]
    ring
  · -- twice the square of `s` times `a` is a root of minus one
    have hi : (s ^ 2 * (2 * a)) ^ 2 = -1 := by
      rw [hs, mul_pow, ← pow_mul, ← pow_mul, ← pow_add,
        show (p - 5) / 8 * (2 * 2) + 2 = p / 2 by omega, mul_pow, two_pow_half hp,
        (ZMod.euler_criterion p h0).mp ha, mul_one]
    linear_combination (a * a * s ^ 2 - a) * hi

end Libcat.PrimeRoots
