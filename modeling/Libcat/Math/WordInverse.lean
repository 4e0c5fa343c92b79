import Libcat.Lib.Montgomery

/-!
# Inverses of words

`MultiplicativeInverseX` for words of any width. The loop has no counter, and `newton_returns` says
how many rounds it takes: the low bits that are right are three at first and double in each round.
-/

namespace Libcat.Math.WordInverse

variable {w : Nat}

/-- The loop of `MultiplicativeInverseX`. -/
def newton (n : BitVec w) : Nat → BitVec w → Option (BitVec w)
  | 0, _ => none
  | fuel + 1, xn =>
    let t := n * xn
    if t = 1 then some xn else newton n fuel (xn * (2 - t))

/-- `MultiplicativeInverseX`. -/
def multiplicativeInverseX (fuel : Nat) (n : BitVec w) : Option (BitVec w) :=
  if n &&& 1 ≠ 0 then newton n fuel n else some 0

theorem mul_modEq (x y : BitVec w) : ((x * y).toNat : ℤ) ≡ x.toNat * y.toNat [ZMOD 2 ^ w] := by
  rw [BitVec.toNat_mul]
  push_cast
  exact Int.mod_modEq _ _

theorem sub_modEq (x y : BitVec w) : ((x - y).toNat : ℤ) ≡ x.toNat - y.toNat [ZMOD 2 ^ w] := by
  have h : ((x - y + y).toNat : ℤ) ≡ (x - y).toNat + y.toNat [ZMOD 2 ^ w] := by
    rw [BitVec.toNat_add]
    push_cast
    exact Int.mod_modEq _ _
  have h' := h.sub_right (y.toNat : ℤ)
  rw [BitVec.sub_add_cancel, add_sub_cancel_right] at h'
  exact h'.symm

theorem two_sub_modEq (t : BitVec w) : ((2 - t).toNat : ℤ) ≡ 2 - t.toNat [ZMOD 2 ^ w] := by
  have htwo : ((2 : BitVec w).toNat : ℤ) ≡ 2 [ZMOD 2 ^ w] := by
    rw [show (2 : BitVec w) = BitVec.ofNat w 2 from rfl, BitVec.toNat_ofNat]
    push_cast
    exact Int.mod_modEq _ _
  exact (sub_modEq 2 t).trans (htwo.sub_right _)

/-- A word is one if all of its bits are right. -/
theorem eq_one_of_dvd {t : BitVec w} (h : (2 : ℤ) ^ w ∣ t.toNat - 1) : t = 1 := by
  have hmod : t.toNat ≡ 1 [MOD 2 ^ w] := by
    have hint : (t.toNat : ℤ) ≡ (1 : Nat) [ZMOD 2 ^ w] :=
      Int.ModEq.symm (Int.modEq_iff_dvd.mpr (by exact_mod_cast h))
    exact_mod_cast hint
  refine BitVec.eq_of_toNat_eq ?_
  rw [show (1 : BitVec w) = BitVec.ofNat w 1 from rfl, BitVec.toNat_ofNat]
  exact (Nat.mod_eq_of_lt t.isLt).symm.trans hmod

theorem newton_step (n xn : BitVec w) :
    ((xn * (2 - n * xn)).toNat : ℤ) ≡ xn.toNat * (2 - n.toNat * xn.toNat) [ZMOD 2 ^ w] := by
  refine (mul_modEq _ _).trans (Int.ModEq.mul_left _ ((two_sub_modEq _).trans ?_))
  exact Int.ModEq.sub_left _ (mul_modEq n xn)

/-- Each round doubles the bits that are right. -/
theorem newton_returns {n xn : BitVec w} {i rounds : Nat} (hx : (2 : ℤ) ^ i ∣ n.toNat * xn.toNat - 1)
    (hrounds : w ≤ i * 2 ^ rounds) :
    ∃ x, n * x = 1 ∧ ∀ more, newton n (rounds + 1 + more) xn = some x := by
  induction rounds generalizing xn i with
  | zero =>
    rw [pow_zero, Nat.mul_one] at hrounds
    have ht : n * xn = 1 := by
      refine eq_one_of_dvd ?_
      have hall : (2 : ℤ) ^ w ∣ n.toNat * xn.toNat - 1 := (pow_dvd_pow 2 hrounds).trans hx
      have hsame := (mul_modEq n xn).symm.dvd
      have hsplit : ((n * xn).toNat : ℤ) - 1 =
          ((n * xn).toNat - n.toNat * xn.toNat) + (n.toNat * xn.toNat - 1) := by ring
      rw [hsplit]
      exact dvd_add hsame hall
    refine ⟨xn, ht, fun more => ?_⟩
    rw [Nat.add_right_comm, newton, if_pos ht]
  | succ rounds ih =>
    by_cases ht : n * xn = 1
    · refine ⟨xn, ht, fun more => ?_⟩
      rw [Nat.add_right_comm, newton, if_pos ht]
    · have hnext := Montgomery.newton_dvd hx (min_le_right w (2 * i))
        ((newton_step n xn).of_dvd (pow_dvd_pow 2 (min_le_left _ _)))
      obtain ⟨x, hinv, hrun⟩ := ih hnext (by
        rw [pow_succ, Nat.mul_comm (2 ^ rounds), ← Nat.mul_assoc, Nat.mul_comm i] at hrounds
        have := Nat.le_mul_of_pos_right w (Nat.two_pow_pos rounds)
        rcases min_choice w (2 * i) with h | h <;> rw [h] <;> assumption)
      refine ⟨x, hinv, fun more => ?_⟩
      rw [Nat.add_right_comm, newton, if_neg ht]
      exact hrun more

theorem and_one_ne_zero_iff (n : BitVec w) : n &&& 1 ≠ 0 ↔ Odd n.toNat := by
  rw [Nat.odd_iff, ne_eq, ← BitVec.toNat_inj, BitVec.toNat_and,
    show (1 : BitVec w) = BitVec.ofNat w 1 from rfl, show (0 : BitVec w) = BitVec.ofNat w 0 from rfl,
    BitVec.toNat_ofNat, BitVec.toNat_ofNat]
  have hn := n.isLt
  rcases Nat.eq_zero_or_pos w with rfl | hw
  · rw [Nat.pow_zero, Nat.mod_one, Nat.and_zero]
    omega
  · have hone : 1 < 2 ^ w := Nat.one_lt_two_pow (by omega)
    rw [Nat.mod_eq_of_lt hone, Nat.zero_mod, Nat.and_one_is_mod]
    omega

/-- **`MultiplicativeInverseX`** of an odd word of any width returns its inverse, in the round after
the one that makes the last bit right. -/
theorem multiplicativeInverseX_inverse (n : BitVec w) (hn : Odd n.toNat) :
    ∃ x, n * x = 1 ∧
      ∀ rounds, w ≤ 3 * 2 ^ rounds → multiplicativeInverseX (rounds + 1) n = some x := by
  have hodd : Odd (n.toNat : ℤ) := (Int.odd_coe_nat _).mpr hn
  have henough : w ≤ 3 * 2 ^ w := by
    have := Nat.lt_two_pow_self (n := w)
    omega
  obtain ⟨x, hinv, hrun⟩ := newton_returns (Montgomery.eight_dvd_square hodd) henough
  refine ⟨x, hinv, fun rounds hrounds => ?_⟩
  obtain ⟨x', hinv', hrun'⟩ := newton_returns (Montgomery.eight_dvd_square hodd) hrounds
  have hsame : some x = some x' := by
    rw [← hrun rounds, ← hrun' w, show w + 1 + rounds = rounds + 1 + w by omega]
  rw [multiplicativeInverseX, if_pos ((and_one_ne_zero_iff n).mpr hn), hsame]
  exact hrun' 0

/-- The word three, of nine bits. -/
theorem multiplicativeInverseX_inverse_three :
    ∃ x : BitVec 9, 3 * x = 1 ∧
      ∀ rounds, 9 ≤ 3 * 2 ^ rounds → multiplicativeInverseX (rounds + 1) 3 = some x :=
  multiplicativeInverseX_inverse 3 (by decide)

end Libcat.Math.WordInverse
