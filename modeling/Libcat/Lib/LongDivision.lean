import Mathlib.Data.Int.ModEq
import Mathlib.Tactic

/-!
# Long division

A round of long division in base `β` divides `w` by `v`, with `v` normalized and the quotient a single
digit. The trial quotient is that of the two leading digits of `w` and the leading one of `v`; it is
the quotient or up to two more. What is left, when negative, is known by its top digit alone.
-/

namespace Libcat.LongDivision

section Trial

variable {β p top next b v w : ℕ}

/-- The leading digits of a round: `p` is the place of that of `v`. -/
structure Leading (β p top next b v w : ℕ) : Prop where
  normal : β ≤ 2 * b
  pos : 0 < b
  next_lt : next < β
  v_ge : b * p ≤ v
  v_lt : v < (b + 1) * p
  w_ge : (top * β + next) * p ≤ w
  w_lt : w < (top * β + next + 1) * p
  quotient_lt : w < β * v

namespace Leading

theorem place_pos (h : Leading β p top next b v w) : 0 < p := by
  rcases Nat.eq_zero_or_pos p with rfl | hp
  · have := h.v_lt
    omega
  · exact hp

theorem v_pos (h : Leading β p top next b v w) : 0 < v :=
  lt_of_lt_of_le (Nat.mul_pos h.pos h.place_pos) h.v_ge

/-- The top digit is the leading one of the divisor at most. -/
theorem top_le (h : Leading β p top next b v w) : top ≤ b := by
  by_contra hlt
  have hle : (b + 1) * β * p ≤ (top * β + next) * p :=
    Nat.mul_le_mul_right p ((Nat.mul_le_mul_right β (Nat.not_le.mp hlt)).trans (Nat.le_add_right _ _))
  have hbound : β * v ≤ β * ((b + 1) * p) := Nat.mul_le_mul_left β h.v_lt.le
  have hcomm : (b + 1) * β * p = β * ((b + 1) * p) := by ring
  have := h.w_ge
  have := h.quotient_lt
  omega

theorem trial_le (h : Leading β p top next b v w) : (top * β + next) / b ≤ β + 1 := by
  refine Nat.lt_succ_iff.mp ((Nat.div_lt_iff_lt_mul h.pos).mpr ?_)
  have htop := Nat.mul_le_mul_right β h.top_le
  have hnext := h.next_lt
  have hnormal := h.normal
  calc top * β + next < b * β + β := by omega
    _ ≤ b * β + 2 * b := by omega
    _ = (β + 1 + 1) * b := by ring

/-- The trial quotient is not too small. -/
theorem lt_trial (h : Leading β p top next b v w) : w < ((top * β + next) / b + 1) * v := by
  have hdiv : top * β + next + 1 ≤ ((top * β + next) / b + 1) * b := by
    rw [Nat.add_mul, Nat.one_mul]
    exact Nat.lt_div_mul_add h.pos
  calc w < (top * β + next + 1) * p := h.w_lt
    _ ≤ ((top * β + next) / b + 1) * b * p := Nat.mul_le_mul_right p hdiv
    _ = ((top * β + next) / b + 1) * (b * p) := by ring
    _ ≤ ((top * β + next) / b + 1) * v := Nat.mul_le_mul_left _ h.v_ge

/-- The trial quotient is two too large at most. -/
theorem trial_mul_le (h : Leading β p top next b v w) :
    (top * β + next) / b * v ≤ w + 2 * v := by
  have hle := h.trial_le
  have hmul : (top * β + next) / b * b ≤ top * β + next := Nat.div_mul_le_self _ _
  have hnormal := h.normal
  generalize (top * β + next) / b = q at hle hmul
  rcases Nat.le_total q 2 with hq | hq
  · exact (Nat.mul_le_mul_right v hq).trans (Nat.le_add_left _ _)
  · obtain ⟨k, rfl⟩ := Nat.exists_eq_add_of_le hq
    have hk : k * (b + 1) ≤ (2 + k) * b := by
      have : k * (b + 1) = k * b + k := by ring
      have : (2 + k) * b = k * b + 2 * b := by ring
      omega
    have : k * v ≤ w :=
      calc k * v ≤ k * ((b + 1) * p) := Nat.mul_le_mul_left k h.v_lt.le
        _ = k * (b + 1) * p := by ring
        _ ≤ (2 + k) * b * p := Nat.mul_le_mul_right p hk
        _ ≤ (top * β + next) * p := Nat.mul_le_mul_right p hmul
        _ ≤ w := h.w_ge
    rw [Nat.add_mul]
    omega

/-- What a trial leaves. -/
theorem remainder_bounds (h : Leading β p top next b v w) :
    -(2 * (v : ℤ)) ≤ w - ((top * β + next) / b : ℕ) * (v : ℤ) ∧
      (w : ℤ) - ((top * β + next) / b : ℕ) * (v : ℤ) < v := by
  have h1 := h.trial_mul_le
  have h2 := h.lt_trial
  rw [Nat.add_mul] at h2
  generalize (top * β + next) / b = q at h1 h2
  zify at h1 h2
  constructor <;> linarith

end Leading

end Trial

section Wrapped

variable {β p top low : ℕ} {x : ℤ}

/-- A small number as a digit on top of a number below the place `p`, both modulo `β * p`. -/
structure Wrapped (β p top low : ℕ) (x : ℤ) : Prop where
  top_lt : top < β
  low_lt : low < p
  modEq : (top * p + low : ℤ) ≡ x [ZMOD β * p]

/-- The top digit of a number is zero just when the number is not negative. -/
theorem Wrapped.cases (h : Wrapped β p top low x) (hβ : 3 ≤ β) (hx : -(2 * (p : ℤ)) ≤ x)
    (hx' : x < p) : top = 0 ∧ (low : ℤ) = x ∨ top ≠ 0 ∧ x < 0 := by
  have hp : (0 : ℤ) < p := by have := h.low_lt; omega
  have hlow : (low : ℤ) < p := by exact_mod_cast h.low_lt
  have htop : (top : ℤ) + 1 ≤ β := by exact_mod_cast h.top_lt
  have hβ' : (3 : ℤ) ≤ β := by exact_mod_cast hβ
  have htop0 : (0 : ℤ) ≤ top := Int.natCast_nonneg _
  have hlow0 : (0 : ℤ) ≤ low := Int.natCast_nonneg _
  obtain ⟨k, hk⟩ := h.modEq.dvd
  have hsum : (top : ℤ) * p + low < β * p := by nlinarith
  have hsum0 : (0 : ℤ) ≤ top * p + low := by positivity
  rcases lt_or_ge x 0 with hneg | hnn
  · refine .inr ⟨?_, hneg⟩
    rintro rfl
    -- a whole turn below zero the top digit is at least `β - 2`
    have hk1 : k < 0 := by
      by_contra hk0
      have : (0 : ℤ) ≤ β * p * k := by
        have := not_lt.mp hk0
        positivity
      push_cast at hk hsum0
      linarith
    have : (β : ℤ) * p * k ≤ β * p * (-1) :=
      mul_le_mul_of_nonneg_left (by omega) (by positivity)
    have : 3 * (p : ℤ) ≤ β * p := mul_le_mul_of_nonneg_right hβ' hp.le
    push_cast at hk
    linarith
  · refine .inl ?_
    have hk0 : k = 0 := by
      have hβp : (p : ℤ) ≤ β * p := by nlinarith
      have h1 : -1 < k := by
        by_contra h'
        have : (β : ℤ) * p * k ≤ β * p * (-1) :=
          mul_le_mul_of_nonneg_left (by omega) (by positivity)
        linarith
      have h2 : k < 1 := by
        by_contra h'
        have : (β : ℤ) * p * 1 ≤ β * p * k :=
          mul_le_mul_of_nonneg_left (by omega) (by positivity)
        linarith
      omega
    rw [hk0, mul_zero] at hk
    have htop1 : (top : ℤ) = 0 := by
      by_contra hne
      have : (1 : ℤ) * p ≤ top * p := mul_le_mul_of_nonneg_right (by omega) hp.le
      linarith
    have : top = 0 := by exact_mod_cast htop1
    refine ⟨this, ?_⟩
    rw [htop1, zero_mul] at hk
    linarith

end Wrapped

end Libcat.LongDivision
