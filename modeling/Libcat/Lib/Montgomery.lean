import Mathlib.Data.ZMod.Basic
import Mathlib.Tactic.LinearCombination
import Mathlib.Tactic.Ring

/-!
# Montgomery residues

The arithmetic of a reduction by multiples of the modulus, the Newton step for an inverse modulo a power
of two, and powers of residues that carry the radix as a factor.
-/

namespace Libcat.Montgomery

/-! ## Reductions -/

section Reduce

variable {R M T Q N : ℕ}

theorem reduced_lt (h : R * N = T + M * Q) (hT : T < R * R) (hQ : Q < R) : N < R + M := by
  have hmul := Nat.mul_le_mul_left M hQ.le
  refine Nat.lt_of_mul_lt_mul_left (a := R) ?_
  rw [h, Nat.mul_add, Nat.mul_comm R M]
  omega

/-- A value below the radix leaves at most the modulus. -/
theorem reduced_le (h : R * N = T + M * Q) (hT : T < R) (hQ : Q < R) : N ≤ M := by
  have hmul := Nat.mul_le_mul_left M hQ.le
  refine Nat.le_of_lt_succ (Nat.lt_of_mul_lt_mul_left (a := R) ?_)
  rw [h, Nat.mul_succ, Nat.mul_comm R M]
  omega

theorem reduced_eq (hcop : R.Coprime M) (h : R * N = T + M * Q) :
    (N : ZMod M) = T * (R : ZMod M)⁻¹ := by
  have hcast : (R : ZMod M) * N = T := by
    have := congrArg (Nat.cast : ℕ → ZMod M) h
    push_cast at this
    rwa [ZMod.natCast_self, zero_mul, add_zero] at this
  rw [← hcast, mul_comm (R : ZMod M), mul_assoc, ZMod.coe_mul_inv_eq_one R hcop, mul_one]

end Reduce

/-! ## Inverses modulo powers of two -/

section Newton

variable {n x x' : ℤ} {i j : ℕ}

/-- An odd number is its own inverse for three bits. -/
theorem eight_dvd_square (hn : Odd n) : 2 ^ 3 ∣ n * n - 1 := by
  obtain ⟨k, rfl⟩ := hn
  obtain ⟨c, hc⟩ := Int.even_mul_succ_self k
  exact ⟨c, by linear_combination 4 * hc⟩

/-- The bits that are right double. -/
theorem newton_dvd (hx : 2 ^ i ∣ n * x - 1) (hj : j ≤ 2 * i) (hx' : x' ≡ x * (2 - n * x) [ZMOD 2 ^ j]) :
    2 ^ j ∣ n * x' - 1 := by
  have hsquare : (2 : ℤ) ^ j ∣ (n * x - 1) * (n * x - 1) := by
    refine (pow_dvd_pow 2 hj).trans ?_
    rw [two_mul, pow_add]
    exact mul_dvd_mul hx hx
  have hdiff : (2 : ℤ) ^ j ∣ n * (x' - x * (2 - n * x)) := (hx'.symm.dvd).mul_left n
  have hsplit : n * x' - 1 = n * (x' - x * (2 - n * x)) - (n * x - 1) * (n * x - 1) := by ring
  rw [hsplit]
  exact dvd_sub hdiff hsquare

end Newton

/-! ## Powers -/

section Powers

variable {α : Type*} [CommMonoid α] {R R' : α} (h : R * R' = 1) (b : α) (E : ℕ)

include h

theorem power_square : b ^ E * R * (b ^ E * R) * R' = b ^ (2 * E) * R := by
  rw [two_mul, pow_add, mul_assoc, mul_assoc (b ^ E) R R', h, mul_one, mul_right_comm]

theorem power_mul : b ^ E * R * (b * R) * R' = b ^ (E + 1) * R := by
  rw [pow_succ, mul_assoc, mul_assoc b R R', h, mul_one, mul_right_comm]

end Powers

end Libcat.Montgomery
