import Mathlib.Data.Nat.ModEq
import Mathlib.Data.Int.GCD
import Mathlib.Tactic

/-!
# Weyl walks that return to a range

A Weyl walk adds a constant `a` modulo `p`. A function `f` on the numbers below `b` that leads to the
next point of the walk below `b` visits all of them when `a` and `p` have no common factor, and each of
its first `b` points is a new one.

- `iterate_cover`: an iteration that meets itself visits no more points than before that.
- `FirstReturn.visits`: the points of the walk below `b` are all visited.
- `FirstReturn.injective`: the first `b` points differ.
-/

namespace Libcat.Weyl

section Iterate

variable {α : Type*} {f : α → α} {x : α}

/-- Once it meets itself, an iteration has no new points. -/
theorem iterate_cover {k l : ℕ} (hkl : k < l) (h : f^[k] x = f^[l] x) (i : ℕ) :
    ∃ j < l, f^[i] x = f^[j] x := by
  induction i with
  | zero => exact ⟨0, Nat.zero_lt_of_lt hkl, rfl⟩
  | succ i ih =>
    obtain ⟨j, hj, hi⟩ := ih
    have hstep : f^[i + 1] x = f^[j + 1] x := by
      rw [Function.iterate_succ_apply', Function.iterate_succ_apply', hi]
    by_cases hlast : j + 1 = l
    · exact ⟨k, hkl, by rw [hstep, hlast, h]⟩
    · exact ⟨j + 1, by omega, hstep⟩

end Iterate

section FirstReturn

variable {f : ℕ → ℕ} {b p a x : ℕ}

/-- `f` leads to the next point of the walk that is below `b`. -/
def FirstReturn (f : ℕ → ℕ) (b p a : ℕ) : Prop :=
  ∀ x < b, ∃ j, 0 < j ∧ f x = (x + j * a) % p ∧ f x < b ∧ ∀ i, 0 < i → i < j → b ≤ (x + i * a) % p

theorem FirstReturn.iterate_lt (h : FirstReturn f b p a) (hx : x < b) (k : ℕ) : f^[k] x < b := by
  induction k with
  | zero => exact hx
  | succ k ih =>
    rw [Function.iterate_succ_apply']
    obtain ⟨-, -, -, hlt, -⟩ := h _ ih
    exact hlt

/-- By strong induction on the place in the walk: the first return is not behind it. -/
theorem FirstReturn.visits (h : FirstReturn f b p a) (hbp : b ≤ p) (i : ℕ) (hx : x < b)
    (hi : (x + i * a) % p < b) : ∃ k, f^[k] x = (x + i * a) % p := by
  induction i using Nat.strong_induction_on generalizing x with
  | _ i ih =>
    rcases Nat.eq_zero_or_pos i with rfl | hpos
    · exact ⟨0, by rw [Function.iterate_zero_apply, Nat.zero_mul, Nat.add_zero,
        Nat.mod_eq_of_lt (hx.trans_le hbp)]⟩
    · obtain ⟨j, hj, hf, hlt, hskip⟩ := h x hx
      have hji : j ≤ i := by
        by_contra hij
        have := hskip i hpos (by omega)
        omega
      have hrest : (f x + (i - j) * a) % p = (x + i * a) % p := by
        rw [hf, Nat.mod_add_mod, Nat.add_assoc, ← Nat.add_mul, Nat.add_sub_cancel' hji]
      obtain ⟨k, hk⟩ := ih (i - j) (by omega) hlt (by rw [hrest]; exact hi)
      exact ⟨k + 1, by rw [Function.iterate_succ_apply, hk, hrest]⟩

/-- A constant without a common factor with the modulus leads everywhere. -/
theorem exists_step (ha : Nat.Coprime a p) (hx : x < p) {y : ℕ} (hy : y < p) :
    ∃ i, (x + i * a) % p = y := by
  obtain ⟨m, -, hm⟩ := Nat.exists_mul_mod_eq_of_coprime (y + (p - x)) ha (by omega)
  refine ⟨m, ?_⟩
  have hcong : x + m * a ≡ x + (y + (p - x)) [MOD p] := by
    rw [Nat.mul_comm]
    exact Nat.ModEq.add_left x hm
  rw [hcong, show x + (y + (p - x)) = y + p by omega, Nat.add_mod_right, Nat.mod_eq_of_lt hy]

/-- The first `b` points differ: all `b` numbers are visited. -/
theorem FirstReturn.injective (h : FirstReturn f b p a) (hbp : b ≤ p) (ha : Nat.Coprime a p)
    (hx : x < b) : Set.InjOn (fun k => f^[k] x) (Set.Iio b) := by
  -- of two equal points the later one would bound the number of points
  have hlt : ∀ k l, k < l → l < b → f^[k] x ≠ f^[l] x := by
    intro k l hkl hl heq
    have hsub : Finset.range b ⊆ (Finset.range l).image fun j => f^[j] x := by
      intro y hy
      have hy := Finset.mem_range.mp hy
      obtain ⟨i, hi⟩ := exists_step ha (hx.trans_le hbp) (hy.trans_le hbp)
      obtain ⟨k', hk'⟩ := h.visits hbp i hx (by rw [hi]; exact hy)
      obtain ⟨j, hj, hj'⟩ := iterate_cover hkl heq k'
      exact Finset.mem_image.mpr ⟨j, Finset.mem_range.mpr hj, by rw [← hj', hk', hi]⟩
    have hcard := (Finset.card_le_card hsub).trans Finset.card_image_le
    rw [Finset.card_range, Finset.card_range] at hcard
    omega
  intro k hk l hl heq
  rcases Nat.lt_trichotomy k l with hkl | hkl | hkl
  · exact absurd heq (hlt k l hkl hl)
  · exact hkl
  · exact absurd heq.symm (hlt l k hkl hk)

end FirstReturn

end Libcat.Weyl
