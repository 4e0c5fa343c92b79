import Libcat.Math.Registers

/-!
# Negation of plain registers

`Negate` of `BigRTL`. The `break` of the first loop leaves `ii` at the leg it has just written, and the
second loop writes that leg again: `negates_iff` says that no number but zero is negated.
-/

namespace Libcat.Math.Negate

open Radix Window Registers

variable {build : Build}

section Model

/-- Ripple the borrow in as far as needed: the loop from leg `ii` on with `n` legs left, and the leg it
stops at. -/
def rippleBorrow (inp out : Nat) : Nat → Nat → Mem build → Mem build × Nat
  | 0, ii, mem => (mem, ii)
  | n + 1, ii, mem =>
    let temp := ~~~(mem (inp + ii)) + 1
    let mem := Function.update mem (out + ii) temp
    if temp ≠ 0 then (mem, ii) else rippleBorrow inp out n (ii + 1) mem

/-- Invert remaining bits. -/
def invert (inp out : Nat) : Nat → Nat → Mem build → Mem build
  | 0, _, mem => mem
  | n + 1, ii, mem =>
    invert inp out n (ii + 1) (Function.update mem (out + ii) (~~~(mem (inp + ii))))

/-- `Negate`. -/
def negate (library_legs inp out : Nat) (mem : Mem build) : Mem build :=
  let r := rippleBorrow inp out library_legs 0 mem
  invert inp out (library_legs - r.2) r.2 r.1

end Model

section Spec

variable {mem : Mem build} {inp out j n L : Nat}

theorem fill_succ (x : Leg build) (n dst : Nat) (mem : Mem build) :
    Function.update (fill x n dst mem) (dst + n) x = fill x (n + 1) dst mem := by
  funext i
  rw [Function.update_apply]
  unfold fill
  grind

theorem not_add_one (x : Leg build) : ~~~x + 1 = -x := (BitVec.neg_eq_not_add x).symm

theorem not_neg (x : Leg build) : ~~~(-x) = x - 1 := BitVec.not_neg x

/-- The legs that are zero stay so, and the borrow goes on. -/
theorem rippleBorrow_zeros (hd : out ≤ inp ∨ inp + (j + n) ≤ out)
    (hz : ∀ i < j, mem (inp + i) = 0) :
    rippleBorrow inp out (j + n) 0 mem = rippleBorrow inp out n j (fill 0 j out mem) := by
  induction j generalizing n with
  | zero =>
    have hnone : fill 0 0 out mem = mem := funext fun i => if_neg (by omega)
    rw [Nat.zero_add, hnone]
  | succ j ih =>
    have hleg : fill 0 j out mem (inp + j) = 0 := by
      rw [sameOff_fill 0 j out mem (inp + j) (by omega)]
      exact hz j (Nat.lt_succ_self j)
    have htemp : ~~~(0 : Leg build) + 1 = 0 := (not_add_one 0).trans (BitVec.neg_zero _)
    rw [Nat.add_assoc, ih (by omega) fun i hi => hz i (by omega), Nat.add_comm 1 n, rippleBorrow]
    simp only [hleg, htemp, ne_eq, not_true_eq_false, if_false, fill_succ]

theorem rippleBorrow_stops (hd : out ≤ inp ∨ inp + (j + (n + 1)) ≤ out)
    (hz : ∀ i < j, mem (inp + i) = 0) (hj : mem (inp + j) ≠ 0) :
    rippleBorrow inp out (j + (n + 1)) 0 mem =
      (Function.update (fill 0 j out mem) (out + j) (-mem (inp + j)), j) := by
  have hleg : fill 0 j out mem (inp + j) = mem (inp + j) :=
    sameOff_fill 0 j out mem (inp + j) (by omega)
  have hne : -mem (inp + j) ≠ 0 := fun h => hj (BitVec.neg_eq_zero_iff.mp h)
  rw [rippleBorrow_zeros hd hz, rippleBorrow]
  simp only [hleg, not_add_one, hne, ne_eq, not_false_eq_true, if_true]

theorem sameOff_invert (inp out n j : Nat) (mem : Mem build) :
    SameOff (out + j) n mem (invert inp out n j mem) := by
  induction n generalizing j mem with
  | zero => exact SameOff.refl _ _ _
  | succ n ih =>
    exact (SameOff.update mem le_rfl (by omega) _).trans ((ih _ _).mono (by omega) (by omega))

theorem invert_first (inp out n j : Nat) (mem : Mem build) :
    invert inp out (n + 1) j mem (out + j) = ~~~(mem (inp + j)) := by
  rw [invert, sameOff_invert inp out n (j + 1) _ (out + j) (by omega), Function.update_self]

/-- The leg of the `break` is the complement, one less than the negative, or in place one less than
what it was. -/
theorem negate_leg (hd : out ≤ inp ∨ inp + (j + (n + 1)) ≤ out)
    (hz : ∀ i < j, mem (inp + i) = 0) (hj : mem (inp + j) ≠ 0) :
    number (negate (j + (n + 1)) inp out mem) out j = 0 ∧
      negate (j + (n + 1)) inp out mem (out + j) =
        if inp = out then mem (inp + j) - 1 else ~~~(mem (inp + j)) := by
  have heq : negate (j + (n + 1)) inp out mem = invert inp out (n + 1) j
      (Function.update (fill 0 j out mem) (out + j) (-mem (inp + j))) := by
    unfold negate
    simp only [rippleBorrow_stops hd hz hj, Nat.add_sub_cancel_left]
  rw [heq]
  constructor
  · rw [number_of_sameOff (sameOff_invert inp out (n + 1) j _) (.inl le_rfl),
      number_of_sameOff (SameOff.update (p := out + j) (n := 1) _ le_rfl (by omega) _)
        (.inl le_rfl), number_fill_zero]
  · rw [invert_first]
    by_cases h : inp = out
    · subst h
      rw [if_pos rfl, Function.update_self, not_neg]
    · rw [if_neg h, Function.update_of_ne (by omega), sameOff_fill 0 j out mem _ (by omega)]

/-- Two numbers that are zero below a leg add up to a power above it only if the sum of the legs is
zero. -/
theorem leg_add_of_number_add {mem' : Mem build} (hz : number mem inp j = 0)
    (hz' : number mem' out j = 0)
    (h : number mem' out (j + (n + 1)) + number mem inp (j + (n + 1)) =
      (2 ^ build.legBits) ^ (j + (n + 1))) :
    2 ^ build.legBits ∣ (mem' (out + j)).toNat + (mem (inp + j)).toNat := by
  rw [number_add mem' out j, number_add mem inp j, hz, hz', Nat.zero_add, Nat.zero_add, ← Nat.mul_add, pow_add,
    Nat.mul_right_inj (by positivity), number_succ, number_succ, pow_succ'] at h
  set B := 2 ^ build.legBits with hB
  refine (Nat.dvd_add_left (Dvd.intro (number mem' (out + j + 1) n + number mem (inp + j + 1) n)
    rfl)).mp (?_ : B ∣ _ + B * _)
  refine ⟨B ^ n, ?_⟩
  rw [← h]
  ring

/-- The lowest leg that is not zero. -/
theorem exists_lowest (h : number mem inp L ≠ 0) :
    ∃ j n, L = j + (n + 1) ∧ (∀ i < j, mem (inp + i) = 0) ∧ mem (inp + j) ≠ 0 := by
  induction L with
  | zero => exact absurd (number_zero mem inp) h
  | succ L ih =>
    by_cases hlow : number mem inp L = 0
    · refine ⟨L, 0, rfl, ?_, ?_⟩
      · intro i hi
        exact value_eq_zero.mp hlow _ (List.mem_map.mpr ⟨i, List.mem_range.mpr hi, rfl⟩)
      · intro hzero
        rw [number_concat, hlow, hzero] at h
        exact h rfl
    · obtain ⟨j, n, rfl, hz, hj⟩ := ih hlow
      exact ⟨j, n + 1, rfl, hz, hj⟩

theorem not_dvd_leg (x : Leg build) :
    ¬ 2 ^ build.legBits ∣ (~~~x).toNat + x.toNat ∧
      (x ≠ 0 → ¬ 2 ^ build.legBits ∣ (x - 1).toNat + x.toNat) := by
  have hx := x.isLt
  have hbits := two_le_pow_legBits build
  refine ⟨fun h => ?_, fun hne h => ?_⟩
  · -- the sum is all ones
    rw [BitVec.toNat_not, Nat.sub_add_cancel (by omega)] at h
    have := Nat.le_of_dvd (by omega) h
    omega
  · -- the sum is odd
    have heven : 2 ∣ 2 ^ build.legBits :=
      dvd_pow_self 2 (by have := build.legBits_ge; omega)
    have hpos : x.toNat ≠ 0 := fun h0 => hne (BitVec.eq_of_toNat_eq h0)
    have hle : (1 : Leg build) ≤ x := by
      rw [BitVec.le_def, one_toNat]
      omega
    rw [BitVec.toNat_sub_of_le hle, one_toNat] at h
    have := heven.trans h
    omega

/-- **`Negate`** to the register itself or to another writes the negative exactly of zero. -/
theorem negates_iff (hd : out ≤ inp ∨ inp + L ≤ out) (mem : Mem build) :
    number (negate L inp out mem) out L =
        ((2 ^ build.legBits) ^ L - number mem inp L) % (2 ^ build.legBits) ^ L ↔
      number mem inp L = 0 := by
  constructor
  · intro h
    by_contra hne
    have hlt := number_lt mem inp L
    rw [Nat.mod_eq_of_lt (by omega)] at h
    obtain ⟨j, n, rfl, hz, hj⟩ := exists_lowest hne
    obtain ⟨hlow, hleg⟩ := negate_leg hd hz hj
    have hzero : number mem inp j = 0 :=
      value_eq_zero.mpr fun x hx => by
        obtain ⟨i, hi, rfl⟩ := List.mem_map.mp hx
        exact hz i (List.mem_range.mp hi)
    have hdvd := leg_add_of_number_add (n := n) hzero hlow (by omega)
    rw [hleg] at hdvd
    by_cases hsame : inp = out
    · rw [if_pos hsame] at hdvd
      exact (not_dvd_leg _).2 hj hdvd
    · rw [if_neg hsame] at hdvd
      exact (not_dvd_leg _).1 hdvd
  · intro h
    have hz : ∀ i < L, mem (inp + i) = 0 := fun i hi =>
      value_eq_zero.mp h _ (List.mem_map.mpr ⟨i, List.mem_range.mpr hi, rfl⟩)
    have hripple := rippleBorrow_zeros (n := 0) (j := L) hd hz
    rw [Nat.add_zero] at hripple
    rw [h, Nat.sub_zero, Nat.mod_self, negate, hripple, rippleBorrow, Nat.sub_self, invert,
      number_fill_zero]

/-- Zero in place. -/
theorem negates_iff_zero :
    number (negate 8 0 0 fun _ => (0 : Leg ⟨true, true, true⟩)) 0 8 =
      ((2 ^ 64) ^ 8 - number (fun _ => (0 : Leg ⟨true, true, true⟩)) 0 8) % (2 ^ 64) ^ 8 :=
  (negates_iff (.inl le_rfl) _).mpr (by decide)

/-- One, to the register after it and in place. -/
theorem not_negate :
    let mem : Mem ⟨false, true, false⟩ := fun i => if i = 0 then 1 else 0
    (2 ^ 64 - number mem 0 2) % 2 ^ 64 = 2 ^ 64 - 1 ∧
      number (negate 2 0 2 mem) 2 2 = 2 ^ 64 - 2 ∧
      number (negate 2 0 0 mem) 0 2 = 2 ^ 64 - 2 ^ 32 := by
  decide

end Spec

end Libcat.Math.Negate
