import Libcat.Math.BigMontgomery

/-!
# Powers of Montgomery residues

`MonInput`, and `MonExpMod`: squares and products from the top bit of the exponent down, the first bit
seen only copies the base.
-/

namespace Libcat.Math.BigMontgomery

open Radix Window BigRTL Registers DivideProduct

variable {build : Build}

section Model

variable (o : BigMontgomery build)

/-- One bit of the exponent; the state has `seen_high_bit`. -/
def expBit (in_base out : Nat) (e_i mask : Leg build) (s : Bool × Mem build) : Bool × Mem build :=
  if s.1 then
    -- out = out*out (mod p)
    let mem := o.monSquare out out s.2
    if e_i &&& mask ≠ 0 then (true, o.monMultiply out in_base out mem) else (true, mem)
  else if e_i &&& mask ≠ 0 then (true, copy o.library_legs in_base out s.2)
  else s

/-- The masks from so many bits down. -/
def expBits (in_base out : Nat) (e_i : Leg build) : Nat → Bool × Mem build → Bool × Mem build
  | 0, s => s
  | n + 1, s => expBits in_base out e_i n (o.expBit in_base out e_i ((1 : Leg build) <<< n) s)

/-- The legs of the exponent from so many down. -/
def expLegs (in_base in_exp out : Nat) : Nat → Bool × Mem build → Bool × Mem build
  | 0, s => s
  | ii + 1, s =>
    expLegs in_base in_exp out ii (o.expBits in_base out (s.2 (in_exp + ii)) build.legBits s)

/-- `MonExpMod`. -/
def monExpMod (in_base in_exp out : Nat) (mem : Mem build) : Mem build :=
  let s := o.expLegs in_base in_exp out o.library_legs (false, mem)
  -- 0^e = 0
  if s.1 then s.2 else copyX o.library_legs 0 out s.2

end Model

/-! ## Into the residues -/

section Input

variable {o : BigMontgomery build} {mem : Mem build} {b x : Nat}

/-- A register below those of the object itself. -/
def User (o : BigMontgomery build) (i : Nat) : Prop := i + 3 < o.mon_regs

theorem User.le (h : o.User b) : o.lib.get b + o.library_legs ≤ o.TempProduct :=
  o.lib.get_add_le (show b < o.mon_regs - 3 by unfold User at h; omega)

theorem User.clear (h : o.User b) : o.Clear (o.lib.get b) o.library_legs := by
  have := h.le
  have := o.cachedModulus_eq
  exact .inl (by omega)

theorem User.operands (h : o.User x) :
    Operands o.lib (o.mon_regs - 3) (o.mon_regs - 1) (o.mon_regs - 3) x := by
  have hregs : o.lib.library_regs = o.mon_regs + 7 := rfl
  unfold User at h
  refine ⟨?_, ?_, ?_, ?_, ?_, ?_⟩ <;> omega

/-- The numerator of `MonInput`: the radix times the input. -/
theorem numerator_spec (hL : 0 < o.library_legs) (hb : o.User b) (mem : Mem build) :
    ∃ mem', copy o.library_legs (o.lib.get b) o.TempProductHi
        (copyX o.library_legs 0 o.TempProduct mem) = mem' ∧
      SameOff o.TempProduct (o.library_legs * 2) mem mem' ∧
      number mem' o.TempProduct (o.library_legs * 2) =
        o.radix * number mem (o.lib.get b) o.library_legs := by
  have hHi : o.TempProductHi = o.TempProduct + o.library_legs := rfl
  set zeroed := copyX o.library_legs 0 o.TempProduct mem with hzeroed
  have hoff := sameOff_copyX hL 0 o.TempProduct mem
  have hoff' := sameOff_copy o.library_legs (o.lib.get b) o.TempProductHi zeroed
  refine ⟨_, rfl, (hoff.mono le_rfl (by omega)).trans (hoff'.mono (by omega) (by omega)), ?_⟩
  rw [Nat.mul_two, number_add, ← hHi, number_copy, number_of_sameOff hoff' (by omega), hzeroed,
    number_copyX hL, Division.zero_toNat, Nat.zero_add, number_of_sameOff hoff (.inl hb.le)]
  rfl

/-- With two legs or more, the quotient of a residue's numerator does not fill its registers. -/
theorem not_fills {u m c : Nat} (hL : 2 ≤ o.library_legs) (hu : u < m) (hc : c = o.radix * u)
    (hm : m < 2 ^ build.legBits) : c < (2 ^ build.legBits) ^ (o.library_legs * 2 - 1) := by
  have hpos : 0 < o.radix := Nat.pow_pos (Nat.two_pow_pos _)
  calc c = o.radix * u := hc
    _ < o.radix * 2 ^ build.legBits := Nat.mul_lt_mul_of_pos_left (hu.trans hm) hpos
    _ = (2 ^ build.legBits) ^ (o.library_legs + 1) := (pow_succ _ _).symm
    _ ≤ _ := Nat.pow_le_pow_right (Nat.two_pow_pos _) (by omega)

/-- `MonInput` multiplies by the radix. With two legs or more the quotient leaves the modulus alone. -/
theorem monInput_spec (hL : 2 ≤ o.library_legs) (hb : o.User b) (hx : o.User x)
    (hlt : number mem (o.lib.get b) o.library_legs < o.modulus mem) :
    ∃ mem', (∀ fuel, 3 ≤ fuel →
        o.monInput fuel (o.lib.get b) (o.lib.get x) mem = some mem') ∧
      o.Kept (o.lib.get x) mem mem' ∧
      number mem' (o.lib.get x) o.library_legs =
        o.radix * number mem (o.lib.get b) o.library_legs % o.modulus mem := by
  obtain ⟨mem1, hmem1, hsame, hval⟩ := @numerator_spec _ o b (by omega) hb mem
  have hops := hx.operands
  have hcached := o.cachedModulus_eq
  have hmod : number mem1 o.CachedModulus o.library_legs = o.modulus mem :=
    number_of_sameOff hsame (by omega)
  have hm0 : number mem1 o.CachedModulus o.library_legs ≠ 0 := by omega
  have hrun (fuel : Nat) : o.monInput fuel (o.lib.get b) (o.lib.get x) mem =
      (divideProduct fuel o.lib (o.lib.get (o.mon_regs - 3)) (o.lib.get (o.mon_regs - 1))
        (o.lib.get (o.mon_regs - 3)) (o.lib.get x) mem1).map Prod.snd := by
    unfold monInput
    dsimp only
    rw [hmem1]
    rfl
  have hfills := fun hm => not_fills hL hlt hval hm
  rw [← hmod] at hfills
  rw [← hmod, ← hval]
  rcases Nat.lt_or_ge (number mem1 o.TempProduct (o.library_legs * 2))
    (number mem1 o.CachedModulus o.library_legs) with hless | hle
  · refine ⟨_, fun fuel _ => ?_, fun j _ hj hj' => ?_,
      (exit_remainder hops hless).trans (Nat.mod_eq_of_lt hless).symm⟩
    · have hless' : number mem1 (o.lib.get (o.mon_regs - 3)) (o.lib.library_legs * 2) <
          number mem1 (o.lib.get (o.mon_regs - 1)) o.lib.library_legs := hless
      rw [hrun, divideProduct_eq _ _ _ _ _ _ _ hm0, if_pos hless', Option.map_some]
    · exact (sameOff_memset_legs o.library_legs o.TempProduct _ j hj).trans
        ((sameOff_copy _ _ _ _ j hj').trans (hsame j hj))
  · obtain ⟨mem', hdivide, -, hrem, hframe, -⟩ := divideProduct_long hops hm0 hle fun hclobbers => by
      have := hclobbers.2.2
      have : o.lib.library_regs = o.mon_regs + 7 := rfl
      omega
    refine ⟨mem', fun fuel hfuel => ?_, fun j hjlt hj hj' => ?_, hrem⟩
    · rw [hrun, hdivide fuel hfuel, Option.map_some]
    · refine (hframe j (.inl ?_) hj hj' fun hone hfull => ?_).trans (hsame j hj)
      · have hscratch := o.lib.get_add_le (show o.mon_regs - 1 < o.lib.library_regs - 3 by
          show _ < o.mon_regs + 7 - 3
          omega)
        have : o.lib.get (o.mon_regs - 1) = o.CachedModulus := rfl
        have : o.lib.library_legs = o.library_legs := rfl
        omega
      · exact absurd ((legsUsed_eq_self (show 0 < o.library_legs * 2 by omega)).mp hfull)
          (Nat.not_le.mpr (hfills ((legsUsed_eq_one hm0).mp hone)))

end Input

/-! ## Powers -/

section Power

variable {o : BigMontgomery build} {start : Mem build} {in_base in_exp out E : Nat}
  {b : ZMod (o.modulus start)} {s : Bool × Mem build}

/-- The bits so far, read as `E`: the output has that power of the base, as a residue, once a bit was
set. -/
structure Powers (o : BigMontgomery build) (start : Mem build) (out : Nat) (b : ZMod (o.modulus start))
    (E : Nat) (s : Bool × Mem build) : Prop where
  kept : o.Kept out start s.2
  seen : s.1 = true ↔ E ≠ 0
  value : E ≠ 0 → (number s.2 out o.library_legs : ZMod (o.modulus start)) =
    b ^ E * (o.radix : ZMod (o.modulus start))

/-- The registers of a power, and the base as a residue. -/
structure Based (o : BigMontgomery build) (start : Mem build) (in_base out : Nat)
    (b : ZMod (o.modulus start)) : Prop where
  ready : o.Ready start
  legs : 2 ≤ o.library_legs
  base_le : in_base + o.library_legs ≤ o.TempProduct
  out_le : out + o.library_legs ≤ o.TempProduct
  apart : in_base + o.library_legs ≤ out ∨ out + o.library_legs ≤ in_base
  base : (number start in_base o.library_legs : ZMod (o.modulus start)) =
    b * (o.radix : ZMod (o.modulus start))

theorem Based.clear (h : o.Based start in_base out b) : o.Clear out o.library_legs := by
  have := h.out_le
  have := o.cachedModulus_eq
  exact .inl (by omega)

theorem Based.radix_mul (h : o.Based start in_base out b) :
    (o.radix : ZMod (o.modulus start)) * (o.radix : ZMod (o.modulus start))⁻¹ = 1 :=
  ZMod.coe_mul_inv_eq_one _ (h.ready.coprime (by have := h.legs; omega))

theorem Powers.square (hs : o.Powers start out b E s) (h : o.Based start in_base out b) (hE : E ≠ 0) :
    o.Powers start out b (2 * E) (true, o.monSquare out out s.2) := by
  have hready := hs.kept.ready h.clear h.ready (by have := h.legs; omega)
  obtain ⟨hkept, hval⟩ := monSquare_spec hready h.legs h.clear out
  rw [hs.kept.modulus h.clear, hs.value hE, Montgomery.power_square h.radix_mul] at hval
  exact ⟨hs.kept.trans hkept, iff_of_true rfl (by omega), fun _ => hval⟩

theorem Powers.multiply (hs : o.Powers start out b E s) (h : o.Based start in_base out b) (hE : E ≠ 0) :
    o.Powers start out b (E + 1) (true, o.monMultiply out in_base out s.2) := by
  have hL : 0 < o.library_legs := by have := h.legs; omega
  have hready := hs.kept.ready h.clear h.ready hL
  obtain ⟨hkept, hval⟩ := monMultiply_spec hready hL h.clear out in_base
  rw [hs.kept.modulus h.clear, hs.value hE, hs.kept.number h.base_le h.apart, h.base,
    Montgomery.power_mul h.radix_mul] at hval
  exact ⟨hs.kept.trans hkept, iff_of_true rfl (by omega), fun _ => hval⟩

/-- The first bit. -/
theorem Powers.copy (hs : o.Powers start out b 0 s) (h : o.Based start in_base out b) :
    o.Powers start out b 1 (true, Window.copy o.library_legs in_base out s.2) := by
  refine ⟨hs.kept.trans fun j _ _ hj => sameOff_copy _ _ _ _ j hj, iff_of_true rfl one_ne_zero,
    fun _ => ?_⟩
  rw [number_copy, hs.kept.number h.base_le h.apart, h.base, pow_one]

/-- A bit of the exponent: two times what was read, and one if the bit is set. -/
theorem expBit_spec (h : o.Based start in_base out b) (hs : o.Powers start out b E s)
    (e_i mask : Leg build) :
    o.Powers start out b (2 * E + if e_i &&& mask ≠ 0 then 1 else 0)
      (o.expBit in_base out e_i mask s) := by
  unfold expBit
  by_cases hseen : s.1 = true
  · have hE := hs.seen.mp hseen
    have hsquare := hs.square h hE
    rw [if_pos hseen]
    by_cases hbit : e_i &&& mask ≠ 0
    · rw [if_pos hbit, if_pos hbit]
      exact hsquare.multiply h (by omega)
    · rw [if_neg hbit, if_neg hbit]
      exact hsquare
  · obtain rfl : E = 0 := by
      by_contra hE
      exact hseen (hs.seen.mpr hE)
    rw [if_neg hseen]
    by_cases hbit : e_i &&& mask ≠ 0
    · rw [if_pos hbit, if_pos hbit]
      exact hs.copy h
    · rw [if_neg hbit, if_neg hbit]
      exact hs

/-- The bits of a leg, from the top. -/
theorem expBits_spec (h : o.Based start in_base out b) (e_i : Leg build) {n : Nat}
    (hn : n ≤ build.legBits) (hs : o.Powers start out b E s) :
    o.Powers start out b (2 ^ n * E + e_i.toNat % 2 ^ n) (o.expBits in_base out e_i n s) := by
  induction n generalizing E s with
  | zero =>
    rw [pow_zero, Nat.one_mul, Nat.mod_one, Nat.add_zero]
    exact hs
  | succ n ih =>
    have hnext := ih (by omega) (expBit_spec h hs e_i ((1 : Leg build) <<< n))
    have htest := bit_test (show n < build.legBits by omega) e_i
    have hbit : (if e_i &&& ((1 : Leg build) <<< n) ≠ 0 then 1 else 0) = e_i.toNat / 2 ^ n % 2 := by
      simp only [htest]
      split <;> omega
    rw [hbit] at hnext
    rw [Nat.mod_pow_succ]
    unfold expBits
    convert hnext using 1
    ring

/-- The legs of the exponent, from the highest. -/
theorem expLegs_spec (h : o.Based start in_base out b)
    (hexp : in_exp + o.library_legs ≤ o.TempProduct)
    (hout : in_exp + o.library_legs ≤ out ∨ out + o.library_legs ≤ in_exp) {ii : Nat}
    (hii : ii ≤ o.library_legs) (hs : o.Powers start out b E s) :
    o.Powers start out b ((2 ^ build.legBits) ^ ii * E + number start in_exp ii)
      (o.expLegs in_base in_exp out ii s) := by
  induction ii generalizing E s with
  | zero =>
    rw [pow_zero, Nat.one_mul, number_zero, Nat.add_zero]
    exact hs
  | succ ii ih =>
    have hleg : s.2 (in_exp + ii) = start (in_exp + ii) := hs.kept _ (by omega) (by omega) (by omega)
    have hbits := expBits_spec h (s.2 (in_exp + ii)) le_rfl hs
    rw [Nat.mod_eq_of_lt (BitVec.isLt _), hleg] at hbits
    have hnext := ih (by omega) hbits
    rw [number_concat]
    unfold expLegs
    rw [hleg]
    convert hnext using 1
    ring

/-- **Powers**: the output has the power of the base, as a residue. -/
theorem monExpMod_spec (h : o.Based start in_base out b)
    (hexp : in_exp + o.library_legs ≤ o.TempProduct)
    (hout : in_exp + o.library_legs ≤ out ∨ out + o.library_legs ≤ in_exp)
    (hE : number start in_exp o.library_legs ≠ 0) :
    o.Kept out start (o.monExpMod in_base in_exp out start) ∧
      (number (o.monExpMod in_base in_exp out start) out o.library_legs : ZMod (o.modulus start)) =
        b ^ number start in_exp o.library_legs * (o.radix : ZMod (o.modulus start)) := by
  have hstart : o.Powers start out b 0 (false, start) :=
    ⟨fun _ _ _ _ => rfl, by simp, fun h0 => absurd rfl h0⟩
  have hs := expLegs_spec h hexp hout le_rfl hstart
  rw [Nat.mul_zero, Nat.zero_add] at hs
  unfold monExpMod
  dsimp only
  rw [if_pos (hs.seen.mpr hE)]
  exact ⟨hs.kept, hs.value hE⟩

end Power

/-! ## The operations of an object -/

section Object

variable {o : BigMontgomery build} {mem : Mem build} {mod b e x y z : Nat}

theorem clear_register (o : BigMontgomery build) {i : Nat} (hi : i ≠ o.mon_regs - 1) :
    o.Clear (o.lib.get i) o.library_legs := o.lib.get_apart hi

end Object

end Libcat.Math.BigMontgomery
