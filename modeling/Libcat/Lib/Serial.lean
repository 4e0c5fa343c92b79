import Mathlib.Data.BitVec
import Mathlib.Data.Nat.Bitwise
import Mathlib.Tactic

/-!
# Serial numbers

Counters that wrap at `2 ^ w`, as bit vectors. `ahead a b` is how far `a` is in front of `b`,
counting upwards from `b`; the signed distance `(a - b).toInt` is what a C cast to a signed
type gives. `InWindow bits center target` is the half-open window of `2 ^ bits` values around
`center` in which the low `bits` bits determine a counter value.
-/

namespace Libcat.Serial

variable {w : Nat}

/-- The distance from `b` up to `a`. -/
def ahead (a b : BitVec w) : Nat := (a - b).toNat

theorem ahead_lt (a b : BitVec w) : ahead a b < 2 ^ w := (a - b).isLt

@[simp] theorem ahead_self (a : BitVec w) : ahead a a = 0 := by simp [ahead]

theorem add_ahead (a b : BitVec w) : b + BitVec.ofNat w (ahead a b) = a := by
  rw [ahead, BitVec.ofNat_toNat, BitVec.setWidth_eq]; ring

theorem ahead_add_ofNat (a : BitVec w) {n : Nat} (h : n < 2 ^ w) :
    ahead (a + BitVec.ofNat w n) a = n := by
  rw [ahead, show a + BitVec.ofNat w n - a = BitVec.ofNat w n by ring, BitVec.toNat_ofNat,
    Nat.mod_eq_of_lt h]

theorem ahead_inj {a b c : BitVec w} (h : ahead a c = ahead b c) : a = b := by
  rw [← add_ahead a c, h, add_ahead]

theorem add_ofNat_succ (a : BitVec w) (n : Nat) :
    a + BitVec.ofNat w (n + 1) = a + BitVec.ofNat w n + 1 := by
  rw [BitVec.ofNat_add, ← add_assoc]; rfl

theorem add_ofNat_add (a : BitVec w) (m n : Nat) :
    a + BitVec.ofNat w (m + n) = a + BitVec.ofNat w m + BitVec.ofNat w n := by
  rw [BitVec.ofNat_add, ← add_assoc]

theorem add_one_ofNat (a : BitVec w) (n : Nat) :
    a + 1 + BitVec.ofNat w n = a + BitVec.ofNat w (n + 1) := by
  rw [add_ofNat_succ]; ring

/-- Moving the reference up brings a value ahead of it closer. -/
theorem ahead_add_left {a b : BitVec w} {m : Nat} (h : m ≤ ahead a b) :
    ahead a (b + BitVec.ofNat w m) = ahead a b - m := by
  have hlt := ahead_lt a b
  have e : a = b + BitVec.ofNat w m + BitVec.ofNat w (ahead a b - m) := by
    rw [add_assoc, ← BitVec.ofNat_add, Nat.add_sub_cancel' h, add_ahead]
  rw [e, ahead_add_ofNat _ (by omega), ← e]

/-- The window of `2 ^ bits` values that the low `bits` bits tell apart around `center`. -/
def InWindow (bits : Nat) (center target : BitVec w) : Prop :=
  -(2 : Int) ^ (bits - 1) < (target - center).toInt ∧ (target - center).toInt ≤ 2 ^ (bits - 1)

instance (bits : Nat) (center target : BitVec w) : Decidable (InWindow bits center target) :=
  inferInstanceAs (Decidable (_ ∧ _))

/-! ## Low bits -/

/-- A residue determines the offset from a known value. -/
theorem sub_mod_of_add {M W c d t : Nat} (hW : M ∣ W) (hM : 0 < M) (ht : t = (c + d) % W) :
    (t % M + M - c % M) % M = d % M := by
  have h1 : t % M = (c + d) % M := by rw [ht, Nat.mod_mod_of_dvd _ hW]
  have hc := Nat.mod_lt c hM
  rw [h1, Nat.add_mod c d M]
  generalize c % M = x at *
  have hd := Nat.mod_lt d hM
  generalize d % M = y at *
  rcases Nat.lt_or_ge (x + y) M with h | h
  · rw [Nat.mod_eq_of_lt h, show x + y + M - x = y + M by omega, Nat.add_mod_right,
      Nat.mod_eq_of_lt hd]
  · rw [Nat.mod_eq_sub_mod h, Nat.mod_eq_of_lt (by omega : x + y - M < M),
      show x + y - M + M - x = y by omega, Nat.mod_eq_of_lt hd]

/-- The bit of weight `M` and the bits below it of a wrapped difference. -/
theorem sub_bits {M K p c : Nat} (hM : 0 < M) (hK : 0 < K) (hp : p < M) (hc : c < M) :
    (2 * K * M - c + p) % (2 * K * M) % M = (p + M - c) % M ∧
    (2 * K * M - c + p) % (2 * K * M) / M % 2 = if p < c then 1 else 0 := by
  have hMK : 2 * M ≤ 2 * K * M := Nat.mul_le_mul_right M (by omega)
  split
  · next h =>
    have hlt : 2 * K * M - c + p < 2 * K * M := by omega
    obtain ⟨k, rfl⟩ : ∃ k, K = k + 1 := ⟨K - 1, by omega⟩
    have e : 2 * (k + 1) * M - c + p = (p + M - c) + M * (2 * k + 1) := by
      have : 2 * (k + 1) * M = M * (2 * k + 1) + M := by ring
      omega
    rw [Nat.mod_eq_of_lt hlt, e, Nat.add_mul_mod_self_left, Nat.add_mul_div_left _ _ hM,
      Nat.div_eq_of_lt (by omega : p + M - c < M)]
    omega
  · next h =>
    have e : 2 * K * M - c + p = (p - c) + 2 * K * M := by omega
    rw [e, Nat.add_mod_right, Nat.mod_eq_of_lt (by omega : p - c < 2 * K * M),
      Nat.div_eq_of_lt (by omega : p - c < M), Nat.mod_eq_of_lt (by omega : p - c < M),
      show p + M - c = p - c + M by omega, Nat.add_mod_right,
      Nat.mod_eq_of_lt (by omega : p - c < M)]
    simp

/-- Masking off low bits and putting others in their place is a subtraction and an addition. -/
theorem replace_low {x y m : BitVec w} (hy : y &&& m = y) :
    (x &&& ~~~ m) ||| y = x - (x &&& m) + y := by
  have h : (x &&& ~~~ m) + (x &&& m) = x := by
    rw [BitVec.add_eq_or_of_and_eq_zero]
    · ext i hi; simp; grind
    · ext i hi; simp; grind
  have hx : x &&& ~~~ m = x - (x &&& m) := by rw [eq_comm, BitVec.sub_eq_iff_eq_add, h]
  rw [← BitVec.add_eq_or_of_and_eq_zero, hx]
  rw [← hy]
  ext i hi; simp; grind

end Libcat.Serial
