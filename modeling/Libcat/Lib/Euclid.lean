import Mathlib.Data.Int.ModEq
import Mathlib.Tactic

/-!
# The division algorithm with unsigned cofactors

Two remainders `u > v` of a division algorithm on `m` and `x`, and two cofactors `s` and `t` that are
never negative: the signs they would have alternate, so one sign is enough for both. The weighted sum
of the cofactors is `m` at every step, and this bounds them.
-/

namespace Libcat.Euclid

variable {m x u v s t : ℕ} {ε : ℤ}

/-- The remainders `u` and `v` with their cofactors: `x * t` is `ε * u` and `x * s` is `- ε * v`. -/
structure Cofactors (m x : ℕ) (ε : ℤ) (u v s t : ℕ) : Prop where
  pos : 0 < v
  lt : v < u
  coprime : Nat.Coprime u v
  weight : u * s + v * t = m
  s_pos : 0 < s
  t_pos : 0 < t
  upper : x * t ≡ ε * u [ZMOD m]
  lower : x * s ≡ -ε * v [ZMOD m]

/-- The first division, of the modulus by a smaller number. -/
theorem Cofactors.first (hx : 1 < x) (hlt : x < m) (hc : Nat.Coprime x m) :
    Cofactors m x 1 x (m % x) (m / x) 1 where
  pos := Nat.pos_of_ne_zero fun h0 => by
    have := Nat.Coprime.eq_one_of_dvd hc (Nat.dvd_of_mod_eq_zero h0)
    omega
  lt := Nat.mod_lt _ (by omega)
  coprime := by
    rw [Nat.Coprime, Nat.gcd_comm, ← Nat.gcd_rec]
    exact hc
  weight := by rw [Nat.mul_one, Nat.div_add_mod]
  s_pos := Nat.div_pos hlt.le (by omega)
  t_pos := Nat.one_pos
  upper := by
    rw [Nat.cast_one, mul_one, one_mul]
  lower := by
    refine (Int.modEq_iff_dvd).mpr ⟨-1, ?_⟩
    have : (x : ℤ) * (m / x : ℕ) + (m % x : ℕ) = m := by exact_mod_cast Nat.div_add_mod m x
    linear_combination -this

/-- A division of the larger remainder by the smaller one, which is not 1 yet. -/
theorem Cofactors.step (h : Cofactors m x ε u v s t) (hv : v ≠ 1) :
    Cofactors m x (-ε) v (u % v) (t + u / v * s) s where
  pos := Nat.pos_of_ne_zero fun h0 =>
    hv (Nat.Coprime.eq_one_of_dvd h.coprime.symm (Nat.dvd_of_mod_eq_zero h0))
  lt := Nat.mod_lt _ h.pos
  coprime := by
    rw [Nat.Coprime, Nat.gcd_comm, ← Nat.gcd_rec, Nat.gcd_comm]
    exact h.coprime
  weight := by
    have hdiv := Nat.div_add_mod u v
    calc v * (t + u / v * s) + u % v * s = (v * (u / v) + u % v) * s + v * t := by ring
      _ = m := by rw [hdiv, h.weight]
  s_pos := Nat.lt_of_lt_of_le h.t_pos (Nat.le_add_right _ _)
  t_pos := h.s_pos
  upper := h.lower
  lower := by
    have hdiv : (v : ℤ) * (u / v : ℕ) + (u % v : ℕ) = u := by exact_mod_cast Nat.div_add_mod u v
    have hsum : (x : ℤ) * (t + (u / v : ℕ) * s) ≡ ε * u + (u / v : ℕ) * (-ε * v) [ZMOD m] := by
      rw [mul_add, mul_left_comm]
      exact h.upper.add (h.lower.mul_left _)
    push_cast
    rw [neg_neg]
    have : ε * (u : ℤ) + (u / v : ℕ) * (-ε * v) = ε * (u % v : ℕ) := by linear_combination -ε * hdiv
    rwa [this] at hsum

/-- The cofactors stay below the modulus: the product of a step and its sum too. -/
theorem Cofactors.sum_le (h : Cofactors m x ε u v s t) : t + u / v * s ≤ m := by
  have hdiv := Nat.mul_div_le u v
  have hmul := Nat.mul_le_mul_right s hdiv
  have hpos := h.pos
  calc t + u / v * s ≤ v * t + v * (u / v * s) := by
        have h1 := Nat.le_mul_of_pos_left t hpos
        have h2 := Nat.le_mul_of_pos_left (u / v * s) hpos
        omega
    _ ≤ v * t + u * s := by
        rw [← Nat.mul_assoc]
        omega
    _ = m := by rw [Nat.add_comm, h.weight]

theorem Cofactors.lt_modulus (h : Cofactors m x ε u v s t) : s < m := by
  have hweight := h.weight
  have hmul := Nat.le_mul_of_pos_left s (Nat.lt_of_le_of_lt (Nat.zero_le _) h.lt)
  have := Nat.mul_pos h.pos h.t_pos
  omega

/-- At remainder 1, `x * s` is one up to the sign. -/
theorem Cofactors.final (h : Cofactors m x ε u 1 s t) : (x : ℤ) * s ≡ -ε [ZMOD m] := by
  simpa using h.lower

end Libcat.Euclid
