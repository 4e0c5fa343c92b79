import Mathlib.Tactic
import Mathlib.Algebra.Ring.GeomSum

/-!
# Linear congruential walks

`step a c m` is the walk `x ↦ (x * a + c) % m`. For `m` a power of two, `a % 4 = 1` and `c` odd, it
visits every place below `m` before it comes back: `exists_iterate_eq`.

Two steps `i < j` of one walk meet only if `m` divides the geometric sum of `a` over `j - i` terms,
and `two_pow_dvd_of_geom_sum` says that then it divides `j - i`.
-/

namespace Libcat.Lcg

open Finset

def step (a c m x : Nat) : Nat := (x * a + c) % m

theorem geom_sum_even (a : ℤ) (e : Nat) :
    ∑ i ∈ range (2 * e), a ^ i = (1 + a) * ∑ i ∈ range e, (a ^ 2) ^ i := by
  induction e with
  | zero => simp
  | succ e ih =>
    rw [Nat.mul_succ, sum_range_succ, sum_range_succ, ih, sum_range_succ, mul_add, ← pow_mul]
    ring

theorem geom_sum_emod_two {a : ℤ} (ha : a % 4 = 1) (d : Nat) :
    (∑ i ∈ range d, a ^ i) % 2 = d % 2 := by
  induction d with
  | zero => simp
  | succ d ih =>
    have hodd : a ≡ 1 [ZMOD 2] := by
      unfold Int.ModEq
      omega
    have hpow : a ^ d % 2 = 1 := by
      have := hodd.pow d
      rwa [one_pow] at this
    rw [sum_range_succ]
    push_cast
    omega

/-- A power of two that divides the geometric sum divides the number of its terms. -/
theorem two_pow_dvd_of_geom_sum (k : Nat) : ∀ (a : ℤ) (d : Nat), a % 4 = 1 →
    (2 : ℤ) ^ k ∣ ∑ i ∈ range d, a ^ i → 2 ^ k ∣ d := by
  induction k with
  | zero =>
    intro a d _ _
    simp
  | succ k ih =>
    intro a d ha hdvd
    have heven : d % 2 = 0 := by
      have hmod := geom_sum_emod_two ha d
      have htwo : (2 : ℤ) ∣ ∑ i ∈ range d, a ^ i := (dvd_pow_self 2 k.succ_ne_zero).trans hdvd
      omega
    obtain ⟨e, rfl⟩ := Nat.dvd_of_mod_eq_zero heven
    obtain ⟨t, ht⟩ : ∃ t, 1 + a = 2 * (2 * t + 1) := ⟨a / 4, by omega⟩
    rw [geom_sum_even, ht, mul_assoc, pow_succ', mul_dvd_mul_iff_left two_ne_zero] at hdvd
    have hcop : IsCoprime ((2 : ℤ) ^ k) (2 * t + 1) := by
      apply IsCoprime.pow_left
      exact ⟨-t, 1, by ring⟩
    have ha2 : a ^ 2 % 4 = 1 := by
      rw [pow_two, Int.mul_emod, ha]
      norm_num
    rw [pow_succ']
    exact mul_dvd_mul_left 2 (ih (a ^ 2) e ha2 (hcop.dvd_of_dvd_mul_left hdvd))

theorem step_lt {a c m : Nat} (hm : 0 < m) (x : Nat) : step a c m x < m := Nat.mod_lt _ hm

theorem iterate_lt {a c m : Nat} (hm : 0 < m) {x : Nat} (hx : x < m) (n : Nat) :
    (step a c m)^[n] x < m := by
  cases n with
  | zero => exact hx
  | succ n =>
    rw [Function.iterate_succ_apply']
    exact step_lt hm _

/-- `n` steps at once. -/
theorem iterate_modEq (a c m x n : Nat) :
    (((step a c m)^[n] x : Nat) : ℤ) ≡ x * a ^ n + c * ∑ i ∈ range n, (a : ℤ) ^ i [ZMOD m] := by
  induction n with
  | zero => simp
  | succ n ih =>
    rw [Function.iterate_succ_apply', step]
    push_cast
    calc ((((step a c m)^[n] x : Nat) : ℤ) * a + c) % m
        ≡ ((step a c m)^[n] x : Nat) * a + c [ZMOD m] := Int.mod_modEq _ _
      _ ≡ (x * a ^ n + c * ∑ i ∈ range n, (a : ℤ) ^ i) * a + c [ZMOD m] :=
          (ih.mul_right _).add_right _
      _ = x * a ^ (n + 1) + c * ∑ i ∈ range (n + 1), (a : ℤ) ^ i := by
          rw [geom_sum_succ]
          ring

/-- A walk that comes back after `d` steps has `2 ^ k ∣ d`. -/
theorem dvd_of_iterate_eq {a c k : Nat} (ha : a % 4 = 1) (hc : c % 2 = 1) {x d : Nat}
    (h : (step a c (2 ^ k))^[d] x = x) : 2 ^ k ∣ d := by
  have hmod := iterate_modEq a c (2 ^ k) x d
  rw [h] at hmod
  have hpow : (a : ℤ) ^ d = (∑ i ∈ range d, (a : ℤ) ^ i) * (a - 1) + 1 := by
    rw [geom_sum_mul]
    ring
  have hdvd := hmod.dvd
  have hval : (x : ℤ) * a ^ d + c * ∑ i ∈ range d, (a : ℤ) ^ i - x =
      (x * (a - 1) + c) * ∑ i ∈ range d, (a : ℤ) ^ i := by
    rw [hpow]
    ring
  rw [hval] at hdvd
  push_cast at hdvd
  -- the first factor is odd
  obtain ⟨t, ht⟩ : ∃ t, (x : ℤ) * (a - 1) + c = 2 * t + 1 := by
    obtain ⟨r, hr⟩ : ∃ r, a = 4 * r + 1 := ⟨a / 4, by omega⟩
    obtain ⟨q, hq⟩ : ∃ q, c = 2 * q + 1 := ⟨c / 2, by omega⟩
    refine ⟨2 * x * r + q, ?_⟩
    rw [hr, hq]
    push_cast
    ring
  have hcop : IsCoprime ((2 : ℤ) ^ k) (2 * t + 1) := by
    apply IsCoprime.pow_left
    exact ⟨-t, 1, by ring⟩
  rw [ht] at hdvd
  exact two_pow_dvd_of_geom_sum k a d (by omega) (hcop.dvd_of_dvd_mul_left hdvd)

/-- No place is met twice on the way around. -/
theorem eq_of_iterate_eq {a c k : Nat} (ha : a % 4 = 1) (hc : c % 2 = 1) {x i j : Nat}
    (hi : i < 2 ^ k) (hj : j < 2 ^ k)
    (h : (step a c (2 ^ k))^[i] x = (step a c (2 ^ k))^[j] x) : i = j := by
  wlog hij : i ≤ j generalizing i j
  · exact (this hj hi h.symm (by omega)).symm
  -- the later of two equal steps is a whole number of turns behind the other
  have hsplit : j = (j - i) + i := by omega
  rw [hsplit, Function.iterate_add_apply] at h
  have hturn := dvd_of_iterate_eq ha hc h.symm
  have hzero := Nat.eq_zero_of_dvd_of_lt hturn (by omega)
  omega

/-- From any place below the power of two, every other is reached. -/
theorem exists_iterate_eq {a c k : Nat} (ha : a % 4 = 1) (hc : c % 2 = 1) {x y : Nat}
    (hx : x < 2 ^ k) (hy : y < 2 ^ k) : ∃ n < 2 ^ k, (step a c (2 ^ k))^[n] x = y := by
  have hm := Nat.two_pow_pos k
  let walk : Fin (2 ^ k) → Fin (2 ^ k) := fun n => ⟨(step a c (2 ^ k))^[n] x, iterate_lt hm hx n⟩
  have hinj : Function.Injective walk := fun i j heq =>
    Fin.ext (eq_of_iterate_eq ha hc i.isLt j.isLt (congrArg Fin.val heq))
  obtain ⟨n, hn⟩ := (Finite.injective_iff_surjective.mp hinj) ⟨y, hy⟩
  exact ⟨n, n.isLt, congrArg Fin.val hn⟩

/-- The walk is one cycle. -/
theorem iterate_two_pow {a c k : Nat} (ha : a % 4 = 1) (hc : c % 2 = 1) {x : Nat}
    (hx : x < 2 ^ k) : (step a c (2 ^ k))^[2 ^ k] x = x := by
  obtain ⟨n, hn, hback⟩ := exists_iterate_eq ha hc (step_lt (a := a) (c := c) (by omega) x) hx
  rw [← Function.iterate_succ_apply] at hback
  have hturn := Nat.le_of_dvd n.succ_pos (dvd_of_iterate_eq ha hc hback)
  have hall : n + 1 = 2 ^ k := by omega
  rwa [Nat.succ_eq_add_one, hall] at hback

end Libcat.Lcg
