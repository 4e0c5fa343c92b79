import Libcat.Math.MonExpMod

/-!
# Sums of Montgomery residues

`MonAdd`, `MonDouble`, `MonSubtract` and `MonNegate`. A result that left the register is repaired by a
loop that goes on as long as the repair carries, so past the carry that makes up for the one before.
The loops end at the first value that does not carry, and `stop_above` and `stop_below` say when that
is the right one.
-/

namespace Libcat.Math.BigMontgomery

open Radix Window BigRTL Registers DivideProduct

variable {build : Build}

section Model

variable (o : BigMontgomery build)

/-- `while (Subtract(out, CachedModulus, out));` -/
def subtractWhile (out : Nat) : Nat → Mem build → Option (Mem build)
  | 0, _ => none
  | fuel + 1, mem =>
    let diff := subtract (window mem out o.library_legs) (window mem o.CachedModulus o.library_legs)
    let mem := store diff.2 out mem
    if diff.1 ≠ 0 then subtractWhile out fuel mem else some mem

/-- `Add(out, CachedModulus, out)`. -/
def addModulus (out : Nat) (mem : Mem build) : Mem build :=
  store (add (window mem out o.library_legs) (window mem o.CachedModulus o.library_legs)).2 out mem

/-- `while (Add(out, CachedModulus, out));` -/
def addWhile (out : Nat) : Nat → Mem build → Option (Mem build)
  | 0, _ => none
  | fuel + 1, mem =>
    let sum := add (window mem out o.library_legs) (window mem o.CachedModulus o.library_legs)
    let mem := store sum.2 out mem
    if sum.1 ≠ 0 then addWhile out fuel mem else some mem

/-- `MonAdd`. -/
def monAdd (fuel in_a in_b out : Nat) (mem : Mem build) : Option (Mem build) :=
  let sum := add (window mem in_a o.library_legs) (window mem in_b o.library_legs)
  let mem := store sum.2 out mem
  -- if the addition overflowed, subtract modulus
  if sum.1 ≠ 0 then o.subtractWhile out fuel mem else some mem

/-- `MonDouble`. -/
def monDouble (fuel inp out : Nat) (mem : Mem build) : Option (Mem build) :=
  let twice := double (window mem inp o.library_legs)
  let mem := store twice.2 out mem
  if twice.1 ≠ 0 then o.subtractWhile out fuel mem else some mem

/-- `MonSubtract`. -/
def monSubtract (fuel in_a in_b out : Nat) (mem : Mem build) : Option (Mem build) :=
  let diff := subtract (window mem in_a o.library_legs) (window mem in_b o.library_legs)
  let mem := store diff.2 out mem
  -- if the subtraction overflowed, add modulus
  if diff.1 ≠ 0 then o.addWhile out fuel mem else some mem

/-- `MonNegate`. -/
def monNegate (fuel inp out : Nat) (mem : Mem build) : Option (Mem build) :=
  let diff := subtract (window mem o.CachedModulus o.library_legs) (window mem inp o.library_legs)
  let mem := store diff.2 out mem
  if diff.1 ≠ 0 then o.addWhile out fuel mem else some mem

end Model

/-! ## Where the loops stop -/

section Stops

variable {R m v k : ℕ}

/-- Multiples of the radix and residues of an odd modulus have no factor in common. -/
theorem radix_modEq (hm : m.Coprime R) {x : ℕ} (hx : x * R ≡ 0 [MOD m]) (hlt : x < m) : x = 0 := by
  have hdvd : m ∣ x := hm.dvd_of_dvd_mul_right ((Nat.modEq_zero_iff_dvd).mp hx)
  exact Nat.eq_zero_of_dvd_of_lt hdvd hlt

/-- The loop that subtracts, from `v` with one carry to make up for: `k` borrows, of which only one is
wanted. -/
theorem stop_above {w : ℕ} (hm : m.Coprime R) (hk : 0 < k) (hbelow : v + (k - 1) * (R - m) < m)
    (hmR : m < R) (hw : w + m = v + k * (R - m)) : w ≡ v + R [MOD m] ↔ k = 1 := by
  obtain ⟨k, rfl⟩ : ∃ i, k = i + 1 := ⟨k - 1, by omega⟩
  obtain ⟨d, rfl⟩ : ∃ d, R = m + d := ⟨R - m, by omega⟩
  rw [Nat.add_sub_cancel_left] at *
  rw [Nat.add_sub_cancel] at hbelow
  have hkm : k < m := by
    have := Nat.le_mul_of_pos_right k (show 0 < d by omega)
    omega
  have hstep : v + (m + d) + k * (m + d) = w + m + (k + 1) * m := by
    rw [hw]
    ring
  have hiff : w ≡ v + (m + d) [MOD m] ↔ k * (m + d) ≡ 0 [MOD m] := by
    have hcong : v + (m + d) + k * (m + d) ≡ w [MOD m] := by
      rw [hstep, show w + m + (k + 1) * m = w + (k + 2) * m by ring]
      exact Nat.add_mul_modulus_modEq_iff.mpr rfl
    constructor
    · intro h
      refine Nat.ModEq.add_left_cancel' (v + (m + d)) ?_
      rw [Nat.add_zero]
      exact hcong.trans h
    · intro h
      exact hcong.symm.trans (by simpa using h.add_left (v + (m + d)))
  rw [hiff]
  constructor
  · intro h
    rw [radix_modEq hm h hkm]
  · intro h
    rw [show k = 0 by omega, Nat.zero_mul]

/-- The loop that adds, from `v` with one borrow to make up for. -/
theorem stop_below {w t : ℕ} (hm : m.Coprime R) (hk : 0 < k) (hle : k * (R - m) ≤ v) (hv : v < R)
    (hmR : m < R) (ht : t + R = v + m) (hw : w + k * (R - m) = v + m) :
    w ≡ t [MOD m] ↔ k = 1 := by
  obtain ⟨k, rfl⟩ : ∃ i, k = i + 1 := ⟨k - 1, by omega⟩
  obtain ⟨d, rfl⟩ : ∃ d, R = m + d := ⟨R - m, by omega⟩
  rw [Nat.add_sub_cancel_left] at *
  have hkm : k < m := by
    have := Nat.le_mul_of_pos_right k (show 0 < d by omega)
    rw [Nat.succ_mul] at hle
    omega
  have hstep : w + k * (m + d) = t + (k + 1) * m := by
    have hsplit : w + k * (m + d) + d = w + (k + 1) * d + k * m := by ring
    have : t + (k + 1) * m + d = t + (m + d) + k * m := by ring
    omega
  have hcong : w + k * (m + d) ≡ t [MOD m] := by
    rw [hstep]
    exact Nat.add_mul_modulus_modEq_iff.mpr rfl
  constructor
  · intro h
    have h0 : k * (m + d) ≡ 0 [MOD m] := by
      refine Nat.ModEq.add_left_cancel' w ?_
      rw [Nat.add_zero]
      exact hcong.trans h.symm
    rw [radix_modEq hm h0 hkm]
  · intro h
    rw [show k = 0 by omega, Nat.zero_mul, Nat.add_zero] at hcong
    exact hcong

end Stops

/-! ## The loops -/

section Loops

variable {o : BigMontgomery build} {mem : Mem build} {out : Nat}

theorem modulus_of_sameOff (hout : o.Clear out o.library_legs) {mem' : Mem build}
    (h : SameOff out o.library_legs mem mem') : o.modulus mem' = o.modulus mem :=
  number_of_sameOff h hout.symm

theorem subtractWhile_stop (h : (subtract (window mem out o.library_legs)
      (window mem o.CachedModulus o.library_legs)).1 = 0) (fuel : Nat) (hfuel : 1 ≤ fuel) :
    o.subtractWhile out fuel mem = some (o.subtractModulus out mem) := by
  obtain ⟨fuel, rfl⟩ : ∃ f, fuel = f + 1 := ⟨fuel - 1, by omega⟩
  unfold subtractWhile
  exact if_neg (not_not.mpr h)

theorem subtractWhile_next (h : (subtract (window mem out o.library_legs)
      (window mem o.CachedModulus o.library_legs)).1 = 1) (fuel : Nat) (hfuel : 1 ≤ fuel) :
    o.subtractWhile out fuel mem = o.subtractWhile out (fuel - 1) (o.subtractModulus out mem) := by
  obtain ⟨fuel, rfl⟩ : ∃ f, fuel = f + 1 := ⟨fuel - 1, by omega⟩
  rw [subtractWhile, Nat.add_sub_cancel]
  exact if_pos (h ▸ by decide)

/-- One more borrow each round until the value is not below the modulus. -/
theorem subtractWhile_spec (hout : o.Clear out o.library_legs) {n : Nat}
    (hn : o.modulus mem ≤ number mem out o.library_legs + n) :
    ∃ k rounds mem', (∀ fuel, rounds ≤ fuel → o.subtractWhile out fuel mem = some mem') ∧
      (∀ i < k, number mem out o.library_legs + i * (o.radix - o.modulus mem) < o.modulus mem) ∧
      number mem' out o.library_legs + o.modulus mem =
        number mem out o.library_legs + k * (o.radix - o.modulus mem) := by
  have hm : o.modulus mem < o.radix := number_lt _ _ _
  induction n generalizing mem with
  | zero =>
    obtain ⟨-, ⟨hflag, -, hval⟩ | ⟨-, hlt, -⟩⟩ :=
      subtract_registers mem out o.CachedModulus out o.library_legs
    · refine ⟨0, 1, _, subtractWhile_stop hflag, fun i hi => absurd hi (Nat.not_lt_zero i), ?_⟩
      rw [Nat.zero_mul, Nat.add_zero]
      exact hval
    · exact absurd hlt (Nat.not_lt.mpr hn)
  | succ n ih =>
    obtain ⟨hoff, ⟨hflag, -, hval⟩ | ⟨hflag, hlt, hval⟩⟩ :=
      subtract_registers mem out o.CachedModulus out o.library_legs
    · refine ⟨0, 1, _, subtractWhile_stop hflag, fun i hi => absurd hi (Nat.not_lt_zero i), ?_⟩
      rw [Nat.zero_mul, Nat.add_zero]
      exact hval
    · have hkeep : o.modulus (o.subtractModulus out mem) = o.modulus mem := modulus_of_sameOff hout hoff
      have hstep : number (o.subtractModulus out mem) out o.library_legs =
          number mem out o.library_legs + (o.radix - o.modulus mem) := by
        have hval : number (o.subtractModulus out mem) out o.library_legs + o.modulus mem =
          number mem out o.library_legs + o.radix := hval
        omega
      obtain ⟨k, rounds, mem', hrun, hbelow, hsum⟩ := @ih (o.subtractModulus out mem)
        (by rw [hkeep, hstep]; omega) (by rw [hkeep]; exact hm)
      rw [hkeep, hstep] at hbelow hsum
      refine ⟨k + 1, rounds + 1, mem', fun fuel hfuel => ?_, fun i hi => ?_, ?_⟩
      · rw [subtractWhile_next hflag fuel (by omega)]
        exact hrun _ (by omega)
      · rcases i with _ | i
        · rw [Nat.zero_mul, Nat.add_zero]
          exact hlt
        · have := hbelow i (by omega)
          rw [Nat.succ_mul]
          omega
      · rw [Nat.succ_mul]
        omega

theorem addWhile_stop (h : (add (window mem out o.library_legs)
      (window mem o.CachedModulus o.library_legs)).1 = 0) (fuel : Nat) (hfuel : 1 ≤ fuel) :
    o.addWhile out fuel mem = some (o.addModulus out mem) := by
  obtain ⟨fuel, rfl⟩ : ∃ f, fuel = f + 1 := ⟨fuel - 1, by omega⟩
  unfold addWhile
  exact if_neg (not_not.mpr h)

theorem addWhile_next (h : (add (window mem out o.library_legs)
      (window mem o.CachedModulus o.library_legs)).1 = 1) (fuel : Nat) (hfuel : 1 ≤ fuel) :
    o.addWhile out fuel mem = o.addWhile out (fuel - 1) (o.addModulus out mem) := by
  obtain ⟨fuel, rfl⟩ : ∃ f, fuel = f + 1 := ⟨fuel - 1, by omega⟩
  rw [addWhile, Nat.add_sub_cancel]
  exact if_pos (h ▸ by decide)

/-- One more carry each round until the value is below what the modulus leaves of the register. -/
theorem addWhile_spec (hout : o.Clear out o.library_legs) {n : Nat}
    (hn : number mem out o.library_legs ≤ n) :
    ∃ k rounds mem', (∀ fuel, rounds ≤ fuel → o.addWhile out fuel mem = some mem') ∧
      k * (o.radix - o.modulus mem) ≤ number mem out o.library_legs ∧
      number mem out o.library_legs < (k + 1) * (o.radix - o.modulus mem) ∧
      number mem' out o.library_legs + k * (o.radix - o.modulus mem) =
        number mem out o.library_legs + o.modulus mem := by
  have hm : o.modulus mem < o.radix := number_lt _ _ _
  induction n using Nat.strong_induction_on generalizing mem with
  | _ n ih =>
    obtain ⟨hoff, ⟨hflag, hlt, hval⟩ | ⟨hflag, hle, hval⟩⟩ :=
      add_registers mem out o.CachedModulus out o.library_legs
    · refine ⟨0, 1, _, addWhile_stop hflag, by omega, ?_, ?_⟩
      · have hlt : number mem out o.library_legs + o.modulus mem < o.radix := hlt
        omega
      · rw [Nat.zero_mul, Nat.add_zero]
        exact hval
    · have hkeep : o.modulus (o.addModulus out mem) = o.modulus mem := modulus_of_sameOff hout hoff
      have hstep : number (o.addModulus out mem) out o.library_legs + (o.radix - o.modulus mem) =
          number mem out o.library_legs := by
        have hval : number (o.addModulus out mem) out o.library_legs + o.radix =
          number mem out o.library_legs + o.modulus mem := hval
        omega
      obtain ⟨k, rounds, mem', hrun, hle', hlt', hsum⟩ :=
        ih (number (o.addModulus out mem) out o.library_legs) (by omega) le_rfl
          (by rw [hkeep]; exact hm)
      rw [hkeep] at hle' hlt' hsum
      refine ⟨k + 1, rounds + 1, mem', fun fuel hfuel => ?_, ?_, ?_, ?_⟩
      · rw [addWhile_next hflag fuel (by omega)]
        exact hrun _ (by omega)
      · rw [Nat.succ_mul]
        omega
      · rw [Nat.succ_mul]
        omega
      · rw [Nat.succ_mul]
        omega

/-- The value that is left, modulo `m`, when the run ends. -/
def Yields (o : BigMontgomery build) (out : Nat) (run : Nat → Option (Mem build)) (m : Nat) (n : ℤ) :
    Prop :=
  ∃ rounds mem', (∀ fuel, rounds ≤ fuel → run fuel = some mem') ∧
    (number mem' out o.library_legs : ℤ) ≡ n [ZMOD m]

theorem yields_iff {run : Nat → Option (Mem build)} {rounds m : Nat} {mem' : Mem build} {n : ℤ}
    (hrun : ∀ fuel, rounds ≤ fuel → run fuel = some mem') :
    o.Yields out run m n ↔ (number mem' out o.library_legs : ℤ) ≡ n [ZMOD m] := by
  constructor
  · rintro ⟨rounds1, mem1, hrun1, hval⟩
    rwa [returns_unique hrun hrun1]
  · intro hval
    exact ⟨rounds, mem', hrun, hval⟩

end Loops

/-! ## The operations -/

section Operations

variable {o : BigMontgomery build} {mem : Mem build} {a b out : Nat}

theorem coprime_radix (o : BigMontgomery build) {m : Nat} (h : Odd m) : m.Coprime o.radix :=
  ((Nat.coprime_two_right.mpr h).pow_right _).pow_right _

/-- The carry of the sum is made up for by the first borrow, and the loop goes on. -/
theorem subtractWhile_wrong (hout : o.Clear out o.library_legs) (hodd : Odd (o.modulus mem)) {sum : Nat}
    (hsum : number mem out o.library_legs + o.radix = sum) (hlt : sum < 2 * o.modulus mem) :
    ¬ o.Yields out (o.subtractWhile out · mem) (o.modulus mem) sum := by
  have hm : o.modulus mem < o.radix := number_lt _ _ _
  obtain ⟨k, rounds, mem', hrun, hbelow, hval⟩ :=
    subtractWhile_spec hout (Nat.le_add_left (o.modulus mem) (number mem out o.library_legs))
  have hk : 2 ≤ k := by
    by_contra hk
    have hle : k * (o.radix - o.modulus mem) ≤ 1 * (o.radix - o.modulus mem) :=
      Nat.mul_le_mul_right _ (by omega)
    omega
  have hstop := stop_above (o.coprime_radix hodd) (by omega) (hbelow (k - 1) (by omega)) hm hval
  rw [yields_iff hrun, ← hsum, Int.natCast_modEq_iff, hstop]
  omega

theorem monAdd_yields (hout : o.Clear out o.library_legs) (hodd : Odd (o.modulus mem))
    (ha : number mem a o.library_legs < o.modulus mem)
    (hb : number mem b o.library_legs < o.modulus mem) :
    o.Yields out (o.monAdd · a b out mem) (o.modulus mem)
        (number mem a o.library_legs + number mem b o.library_legs) ↔
      number mem a o.library_legs + number mem b o.library_legs < o.radix := by
  obtain ⟨hoff, ⟨hflag, hlt, hval⟩ | ⟨hflag, hle, hval⟩⟩ := add_registers mem a b out o.library_legs
  · refine iff_of_true ⟨0, _, fun fuel _ => if_neg (not_not.mpr hflag), ?_⟩ hlt
    rw [hval, Nat.cast_add]
  · refine iff_of_false ?_ (Nat.not_lt.mpr hle)
    have hkeep := modulus_of_sameOff hout hoff
    have hrun : (o.monAdd · a b out mem) = (o.subtractWhile out ·
        (store (add (window mem a o.library_legs) (window mem b o.library_legs)).2 out mem)) :=
      funext fun fuel => if_pos (hflag ▸ by decide)
    have hwrong := subtractWhile_wrong hout (hkeep ▸ hodd) hval (by omega)
    rw [hkeep, Nat.cast_add] at hwrong
    rwa [hrun]

theorem monDouble_yields (hL : 0 < o.library_legs) (hout : o.Clear out o.library_legs)
    (hodd : Odd (o.modulus mem)) (ha : number mem a o.library_legs < o.modulus mem) :
    o.Yields out (o.monDouble · a out mem) (o.modulus mem) (2 * number mem a o.library_legs) ↔
      2 * number mem a o.library_legs < o.radix := by
  obtain ⟨hoff, ⟨hflag, hlt, hval⟩ | ⟨hflag, hle, hval⟩⟩ := double_registers hL mem a out
  · refine iff_of_true ⟨0, _, fun fuel _ => if_neg (not_not.mpr hflag), ?_⟩ hlt
    rw [hval, Nat.cast_mul, Nat.cast_ofNat]
  · refine iff_of_false ?_ (Nat.not_lt.mpr hle)
    have hkeep := modulus_of_sameOff hout hoff
    have hrun : (o.monDouble · a out mem) =
        (o.subtractWhile out · (store (double (window mem a o.library_legs)).2 out mem)) :=
      funext fun fuel => if_pos (hflag ▸ by decide)
    have hwrong := subtractWhile_wrong hout (hkeep ▸ hodd) hval (by omega)
    rw [hkeep, Nat.cast_mul, Nat.cast_ofNat] at hwrong
    rwa [hrun]

theorem monSubtract_yields (hout : o.Clear out o.library_legs) (hodd : Odd (o.modulus mem))
    (hb : number mem b o.library_legs < o.modulus mem) :
    o.Yields out (o.monSubtract · a b out mem) (o.modulus mem)
        (number mem a o.library_legs - number mem b o.library_legs) ↔
      number mem b o.library_legs ≤ number mem a o.library_legs ∨
        number mem a o.library_legs + 2 * o.modulus mem <
          o.radix + number mem b o.library_legs := by
  obtain ⟨hoff, ⟨hflag, hle, hval⟩ | ⟨hflag, hlt, hval⟩⟩ :=
    subtract_registers mem a b out o.library_legs
  · refine iff_of_true ⟨0, _, fun fuel _ => if_neg (not_not.mpr hflag), ?_⟩ (.inl hle)
    rw [← hval, Nat.cast_add, Int.add_sub_cancel]
  · set stored := store (subtract (window mem a o.library_legs)
      (window mem b o.library_legs)).2 out mem with hstored
    have hkeep := modulus_of_sameOff hout hoff
    have hm : o.modulus mem < o.radix := number_lt _ _ _
    have hval : number stored out o.library_legs + number mem b o.library_legs =
      number mem a o.library_legs + o.radix := hval
    have hrun : (o.monSubtract · a b out mem) = (o.addWhile out · stored) :=
      funext fun fuel => if_pos (hflag ▸ by decide)
    obtain ⟨k, rounds, mem', hend, hle, habove, hsum⟩ := addWhile_spec hout
      (le_refl (number stored out o.library_legs))
    rw [hkeep] at hle habove hsum
    have hv : number stored out o.library_legs < o.radix := number_lt _ _ _
    have hk : 0 < k := by
      rcases Nat.eq_zero_or_pos k with rfl | hk
      · omega
      · exact hk
    obtain ⟨t, ht⟩ : ∃ t, t + o.radix = number stored out o.library_legs + o.modulus mem :=
      ⟨number mem a o.library_legs + o.modulus mem - number mem b o.library_legs, by omega⟩
    have hstop := stop_below (o.coprime_radix hodd) hk hle hv hm ht hsum
    have htarget : (number mem a o.library_legs - number mem b o.library_legs : ℤ) ≡ t
        [ZMOD o.modulus mem] := by
      refine Int.modEq_iff_dvd.mpr ⟨1, ?_⟩
      omega
    have hone : k = 1 ↔ number stored out o.library_legs < 2 * (o.radix - o.modulus mem) := by
      constructor
      · rintro rfl
        exact habove
      · intro hlt
        by_contra hne
        have := Nat.mul_le_mul_right (o.radix - o.modulus mem) (show 2 ≤ k by omega)
        omega
    have hsame : o.Yields out (o.addWhile out · stored) (o.modulus mem)
        (number mem a o.library_legs - number mem b o.library_legs) ↔ k = 1 := by
      rw [yields_iff hend, ← hstop, ← Int.natCast_modEq_iff]
      exact ⟨fun h => h.trans htarget, fun h => h.trans htarget.symm⟩
    rw [hrun, hsame, hone]
    omega

/-- No borrow for a value below the modulus. -/
theorem monNegate_yields (ha : number mem a o.library_legs < o.modulus mem) :
    o.Yields out (o.monNegate · a out mem) (o.modulus mem) (-number mem a o.library_legs) := by
  obtain ⟨-, ⟨hflag, -, hval⟩ | ⟨-, hlt, -⟩⟩ :=
    subtract_registers mem o.CachedModulus a out o.library_legs
  · refine ⟨0, _, fun fuel _ => if_neg (not_not.mpr hflag), ?_⟩
    refine Int.modEq_iff_dvd.mpr ⟨-1, ?_⟩
    have hval : number (store (subtract (window mem o.CachedModulus o.library_legs)
        (window mem a o.library_legs)).2 out mem) out o.library_legs + number mem a o.library_legs =
      o.modulus mem := hval
    omega
  · exact absurd ha (Nat.not_lt_of_gt hlt)

/-- **Sums of residues.** The loops end, with the right residue as long as no sum leaves the register,
and no difference lets the modulus be added more than once. -/
theorem residue_sums (o : BigMontgomery build) (mem : Mem build) {a b out : Nat}
    (hout : out ≠ o.mon_regs - 1) (hodd : Odd (o.modulus mem))
    (ha : number mem (o.lib.get a) o.library_legs < o.modulus mem)
    (hb : number mem (o.lib.get b) o.library_legs < o.modulus mem) :
    (o.Yields (o.lib.get out) (o.monAdd · (o.lib.get a) (o.lib.get b) (o.lib.get out) mem)
        (o.modulus mem) (number mem (o.lib.get a) o.library_legs +
          number mem (o.lib.get b) o.library_legs) ↔
      number mem (o.lib.get a) o.library_legs + number mem (o.lib.get b) o.library_legs < o.radix) ∧
    (o.Yields (o.lib.get out) (o.monDouble · (o.lib.get a) (o.lib.get out) mem) (o.modulus mem)
        (2 * number mem (o.lib.get a) o.library_legs) ↔
      2 * number mem (o.lib.get a) o.library_legs < o.radix) ∧
    (o.Yields (o.lib.get out) (o.monSubtract · (o.lib.get a) (o.lib.get b) (o.lib.get out) mem)
        (o.modulus mem) (number mem (o.lib.get a) o.library_legs -
          number mem (o.lib.get b) o.library_legs) ↔
      number mem (o.lib.get b) o.library_legs ≤ number mem (o.lib.get a) o.library_legs ∨
        number mem (o.lib.get a) o.library_legs + 2 * o.modulus mem <
          o.radix + number mem (o.lib.get b) o.library_legs) ∧
    o.Yields (o.lib.get out) (o.monNegate · (o.lib.get a) (o.lib.get out) mem) (o.modulus mem)
      (-number mem (o.lib.get a) o.library_legs) := by
  have hL : 0 < o.library_legs := Nat.pos_of_ne_zero fun h0 => by
    rw [modulus, h0, number_zero] at hodd
    exact absurd hodd (by decide)
  have hclear := o.clear_register hout
  exact ⟨monAdd_yields hclear hodd ha hb, monDouble_yields hL hclear hodd ha,
    monSubtract_yields hclear hodd hb, monNegate_yields ha⟩

/-- `4 + 2` modulo `7`. -/
theorem residue_sums_example :
    let mem : Mem ⟨false, true, false⟩ := fun i => [4, 2, 0, 0, 0, 0, 7].getD i 0
    (⟨1, 0, 0⟩ : BigMontgomery _).Yields 2 ((⟨1, 0, 0⟩ : BigMontgomery _).monAdd · 0 1 2 mem) 7 6 := by
  intro mem
  have hm : (⟨1, 0, 0⟩ : BigMontgomery _).modulus mem = 7 := by decide
  have ha : number mem 0 1 = 4 := by decide
  have hb : number mem 1 1 = 2 := by decide
  have hsums := @residue_sums _ ⟨1, 0, 0⟩ mem 0 1 2 (by decide) (by rw [hm]; decide)
    (by rw [hm]; exact ha.trans_lt (by decide)) (by rw [hm]; exact hb.trans_lt (by decide))
  have hadd := hsums.1.mpr (show number mem 0 1 + number mem 1 1 < _ by
    rw [ha, hb]
    decide)
  rw [hm] at hadd
  exact hadd

/-- `(2 ^ 32 - 2) + (2 ^ 32 - 2)` modulo `2 ^ 32 - 1`: the first borrow gives `2 ^ 32 - 3`, and the loop
goes on until it is left with `0`. -/
theorem sum_not_residue :
    let mem : Mem ⟨false, true, false⟩ := fun i => [-2, -2, 0, 0, 0, 0, -1].getD i 0
    let o : BigMontgomery ⟨false, true, false⟩ := ⟨1, 0, 0⟩
    Odd (o.modulus mem) ∧ 1 < o.modulus mem ∧
      number mem (o.lib.get 0) o.library_legs < o.modulus mem ∧
      number mem (o.lib.get 1) o.library_legs < o.modulus mem ∧
      ¬ o.Yields (o.lib.get 2) (o.monAdd · (o.lib.get 0) (o.lib.get 1) (o.lib.get 2) mem) (o.modulus mem)
        (number mem (o.lib.get 0) o.library_legs + number mem (o.lib.get 1) o.library_legs) := by
  intro mem o
  have hodd : Odd (o.modulus mem) := by decide
  have ha : number mem (o.lib.get 0) o.library_legs < o.modulus mem := by decide
  have hb : number mem (o.lib.get 1) o.library_legs < o.modulus mem := by decide
  refine ⟨hodd, by decide, ha, hb, fun h => ?_⟩
  exact absurd ((monAdd_yields (o.clear_register (by decide)) hodd ha hb).mp h) (by decide)

end Operations

end Libcat.Math.BigMontgomery
