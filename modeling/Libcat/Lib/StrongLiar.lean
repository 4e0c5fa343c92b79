import Mathlib.FieldTheory.Finite.Basic
import Mathlib.Tactic

/-!
# Strong liars

The base `a` of a strong test with `n - 1 = 2 ^ s * d`: a power of `a` is one, or its squares reach minus
one. Modulo a prime, one has no other square roots, and every base passes.
-/

namespace Libcat.StrongLiar

section Ring

variable {R : Type*} [CommRing R] {a y : R} {s d k : ℕ}

/-- What a base passes with: the power `d` of it, and the squares of this power. -/
def Passes (s d : ℕ) (a : R) : Prop := a ^ d = 1 ∨ ∃ r < s, a ^ (2 ^ r * d) = -1

/-- The squares reach minus one in the first of so many rounds, or in those after it. -/
theorem exists_square_succ (h : y * y ≠ -1) :
    (∃ r < k + 1, y ^ 2 ^ (r + 1) = -1) ↔ ∃ r < k, (y * y) ^ 2 ^ (r + 1) = -1 := by
  have hsquare (r : ℕ) : y ^ 2 ^ (r + 1 + 1) = (y * y) ^ 2 ^ (r + 1) := by
    rw [← pow_two, ← pow_mul, ← pow_succ']
  constructor
  · rintro ⟨r, hr, hpow⟩
    cases r with
    | zero =>
      rw [pow_one, pow_two] at hpow
      exact absurd hpow h
    | succ r => exact ⟨r, by omega, hsquare r ▸ hpow⟩
  · rintro ⟨r, hr, hpow⟩
    exact ⟨r + 1, by omega, (hsquare r).trans hpow⟩

/-- One has no square that is minus one. -/
theorem one_ne_square (hne : (1 : R) ≠ -1) (r : ℕ) : (1 : R) ^ 2 ^ r ≠ -1 := by
  rwa [one_pow]

/-- The power itself, and its squares after it. -/
theorem passes_iff (hs : 0 < s) :
    Passes s d a ↔ a ^ d = 1 ∨ a ^ d = -1 ∨ ∃ r < s - 1, (a ^ d) ^ 2 ^ (r + 1) = -1 := by
  have hpow (r : ℕ) : a ^ (2 ^ r * d) = (a ^ d) ^ 2 ^ r := by rw [← pow_mul, Nat.mul_comm]
  unfold Passes
  simp only [hpow]
  refine or_congr_right ⟨?_, ?_⟩
  · rintro ⟨r, hr, h⟩
    cases r with
    | zero => exact .inl (by rwa [pow_zero, pow_one] at h)
    | succ r => exact .inr ⟨r, by omega, h⟩
  · rintro (h | ⟨r, hr, h⟩)
    · exact ⟨0, hs, by rwa [pow_zero, pow_one]⟩
    · exact ⟨r + 1, by omega, h⟩

/-- Without divisors of zero, one has two square roots. -/
theorem passes_of_pow_eq_one [NoZeroDivisors R] (h : a ^ (2 ^ s * d) = 1) : Passes s d a := by
  induction s with
  | zero =>
    rw [pow_zero, Nat.one_mul] at h
    exact .inl h
  | succ s ih =>
    have hsquare : a ^ (2 ^ s * d) * a ^ (2 ^ s * d) = 1 := by
      rw [← pow_add, ← Nat.two_mul, ← Nat.mul_assoc, ← pow_succ', h]
    rcases mul_self_eq_one_iff.mp hsquare with hone | hneg
    · exact (ih hone).imp id fun ⟨r, hr, hpow⟩ => ⟨r, by omega, hpow⟩
    · exact .inr ⟨s, by omega, hneg⟩

end Ring

/-- The base `a` passes the strong test of `n`. For a composite `n` it is a strong liar. -/
def IsStrongLiar (n a : ℕ) : Prop :=
  ∃ s d, Odd d ∧ n - 1 = 2 ^ s * d ∧ (a ^ d ≡ 1 [MOD n] ∨ ∃ r < s, a ^ (2 ^ r * d) ≡ n - 1 [MOD n])

variable {n a s d : ℕ}

theorem cast_pred (hn : 0 < n) : ((n - 1 : ℕ) : ZMod n) = -1 := by
  rw [Nat.cast_sub hn, ZMod.natCast_self, Nat.cast_one, zero_sub]

theorem isStrongLiar_of_passes (hn : 0 < n) (hd : Odd d) (hsplit : n - 1 = 2 ^ s * d)
    (h : Passes s d (a : ZMod n)) : IsStrongLiar n a := by
  refine ⟨s, d, hd, hsplit, h.imp (fun hone => ?_) fun ⟨r, hr, hneg⟩ => ⟨r, hr, ?_⟩⟩
  · refine (ZMod.natCast_eq_natCast_iff _ _ _).mp ?_
    rw [Nat.cast_pow, hone, Nat.cast_one]
  · refine (ZMod.natCast_eq_natCast_iff _ _ _).mp ?_
    rw [Nat.cast_pow, hneg, cast_pred hn]

/-- **Primes pass** with every base that they do not divide. -/
theorem passes_of_prime (hp : n.Prime) (hpos : 0 < a) (hlt : a < n) (hsplit : n - 1 = 2 ^ s * d) :
    Passes s d (a : ZMod n) := by
  have hfact : Fact n.Prime := ⟨hp⟩
  refine passes_of_pow_eq_one ?_
  rw [← hsplit]
  refine ZMod.pow_card_sub_one_eq_one fun h0 => ?_
  have := Nat.le_of_dvd hpos ((ZMod.natCast_eq_zero_iff a n).mp h0)
  omega

/-- One and minus one are different modulo more than two. -/
theorem one_ne_neg_one (hn : 2 < n) : (1 : ZMod n) ≠ -1 := by
  intro h
  rw [← cast_pred (by omega : 0 < n), ← Nat.cast_one, ZMod.natCast_eq_natCast_iff] at h
  have := Nat.ModEq.eq_of_lt_of_lt h (by omega) (by omega)
  omega

end Libcat.StrongLiar
