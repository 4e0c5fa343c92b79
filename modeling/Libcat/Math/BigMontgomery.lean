import Libcat.Math.DivideProduct
import Libcat.Math.WordInverse

/-!
# Montgomery residues of registers

`BigMontgomery`: `MonReduceProduct` adds multiples of the modulus to a double register from its lowest
leg up. Each row's carry is kept in the leg the row has cleared, and the carries are added last.
-/

namespace Libcat.Math

open Radix Window BigRTL Registers DivideProduct

variable {build : Build}

/-- The registers the user has asked for, and what `SetModulus` finds for the modulus. -/
structure BigMontgomery (build : Build) where
  library_legs : Nat
  regs : Nat
  mod_inv : Leg build

namespace BigMontgomery

section Model

variable (o : BigMontgomery build)

/-- With `MON_OVERHEAD`. -/
def mon_regs : Nat := o.regs + (3 + 4)

/-- With `BIG_OVERHEAD`. -/
def lib : Library := ⟨o.library_legs, o.mon_regs + 7⟩

def CachedModulus : Nat := o.lib.get (o.mon_regs - 1)

def TempProduct : Nat := o.lib.get (o.mon_regs - 3)

def TempProductHi : Nat := o.TempProduct + o.library_legs

/-- The loop of `MultiplicativeInverseX`. -/
def inverseLoop (n : Leg build) : Nat → Leg build → Option (Leg build)
  | 0, _ => none
  | fuel + 1, xn =>
    let t := n * xn
    if t = 1 then some xn else inverseLoop n fuel (xn * (2 - t))

/-- `MultiplicativeInverseX`. -/
def multiplicativeInverseX (fuel : Nat) (n : Leg build) : Option (Leg build) :=
  if n &&& 1 ≠ 0 then inverseLoop n fuel n else some 0

/-- `SetModulus`. -/
def setModulus (fuel mod : Nat) (mem : Mem build) : Option (BigMontgomery build × Mem build) :=
  let mem := copy o.library_legs mod o.CachedModulus mem
  (multiplicativeInverseX fuel (-mem mod)).map fun mod_inv => ({ o with mod_inv }, mem)

/-- One row of `MonReduceProduct`. -/
def reduceRow (result : Nat) (mem : Mem build) : Mem build :=
  let row := multiplyXAdd (window mem o.CachedModulus o.library_legs) (mem result * o.mod_inv)
    (window mem result o.library_legs)
  Function.update (store row.2 result mem) result row.1

/-- The rows left. -/
def reduceRows : Nat → Nat → Mem build → Mem build
  | 0, _, mem => mem
  | ctr + 1, result, mem => reduceRows ctr (result + 1) (o.reduceRow result mem)

/-- `Subtract(out, CachedModulus, out)`. -/
def subtractModulus (out : Nat) (mem : Mem build) : Mem build :=
  store (subtract (window mem out o.library_legs) (window mem o.CachedModulus o.library_legs)).2 out mem

/-- `MonReduceProduct`. -/
def monReduceProduct (carries out : Nat) (mem : Mem build) : Mem build :=
  let mem := o.reduceRows o.library_legs carries mem
  -- add the saved carries
  let sum := add (window mem (carries + o.library_legs) o.library_legs)
    (window mem carries o.library_legs)
  let mem := store sum.2 out mem
  if sum.1 ≠ 0 then o.subtractModulus out mem else mem

/-- `MonInput`. -/
def monInput (fuel inp out : Nat) (mem : Mem build) : Option (Mem build) :=
  let mem := copyX o.library_legs 0 o.TempProduct mem
  let mem := copy o.library_legs inp o.TempProductHi mem
  (divideProduct fuel o.lib o.TempProduct o.CachedModulus o.TempProduct out mem).map Prod.snd

/-- `MonOutput`. -/
def monOutput (inp out : Nat) (mem : Mem build) : Mem build :=
  let mem := copy o.library_legs inp o.TempProduct mem
  let mem := copyX o.library_legs 0 o.TempProductHi mem
  let mem := o.monReduceProduct o.TempProduct out mem
  if less mem out o.CachedModulus o.library_legs then mem else o.subtractModulus out mem

/-- `MonMultiply`. -/
def monMultiply (in_a in_b out : Nat) (mem : Mem build) : Mem build :=
  let product := multiply (window mem in_a o.library_legs) (window mem in_b o.library_legs)
  o.monReduceProduct o.TempProduct out (store product o.TempProduct mem)

/-- `Square` of one leg: there are no cross products, but `MultiplyX` and `DoubleAdd` still do their first
leg. -/
def squareLeg (cross inp output : Nat) (mem : Mem build) : Mem build :=
  let p := legMul (mem inp) (mem inp)
  let mem := Function.update (Function.update mem (output + 1) p.1) output p.2
  let q := legMul (mem (inp + 1)) (mem inp)
  let mem := Function.update mem (cross + 1) q.1
  let r := doubleAdd [mem (cross + 1)] [mem (output + 1)]
  let mem := store r.2 (output + 1) mem
  Function.update mem (output + 1) (mem (output + 1) + r.1)

/-- `MonSquare`; the cross products are in the last two registers only for `Square` itself. -/
def monSquare (inp out : Nat) (mem : Mem build) : Mem build :=
  o.monReduceProduct o.TempProduct out
    (if o.library_legs = 1 then squareLeg (o.lib.get (o.lib.library_regs - 2)) inp o.TempProduct mem
    else store (square (window mem inp o.library_legs)) o.TempProduct mem)

end Model

/-! ## The inverse of the low leg -/

section Inverse

variable {n : Leg build}

theorem inverseLoop_eq (n : Leg build) (fuel : Nat) (xn : Leg build) :
    inverseLoop n fuel xn = WordInverse.newton n fuel xn := by
  induction fuel generalizing xn with
  | zero => rfl
  | succ fuel ih => rw [inverseLoop, WordInverse.newton, ih]

theorem multiplicativeInverseX_eq (fuel : Nat) (n : Leg build) :
    multiplicativeInverseX fuel n = WordInverse.multiplicativeInverseX fuel n := by
  rw [multiplicativeInverseX, WordInverse.multiplicativeInverseX, inverseLoop_eq]

/-- Six rounds are enough for the words of 64 bits. -/
theorem multiplicativeInverseX_spec (hn : n &&& 1 ≠ 0) :
    ∃ inv, (∀ fuel, 6 ≤ fuel → multiplicativeInverseX fuel n = some inv) ∧ n * inv = 1 := by
  have hodd : Odd (n.toNat : ℤ) := (Int.odd_coe_nat _).mpr ((WordInverse.and_one_ne_zero_iff n).mp hn)
  have henough : build.legBits ≤ 3 * 2 ^ 5 := by
    unfold Build.legBits
    split <;> decide
  obtain ⟨inv, hinv, hrun⟩ :=
    WordInverse.newton_returns (Montgomery.eight_dvd_square hodd) henough
  refine ⟨inv, fun fuel hfuel => ?_, hinv⟩
  obtain ⟨more, rfl⟩ := Nat.exists_eq_add_of_le hfuel
  rw [multiplicativeInverseX_eq, WordInverse.multiplicativeInverseX, if_pos hn]
  exact hrun more

end Inverse

/-! ## Reductions -/

section Reduce

variable {o : BigMontgomery build} {mem : Mem build}

/-- The modulus is in its register, and `mod_inv` is the inverse of its negated low leg. -/
def Ready (o : BigMontgomery build) (mem : Mem build) : Prop :=
  mem o.CachedModulus * o.mod_inv + 1 = 0

/-- The modulus. -/
def modulus (o : BigMontgomery build) (mem : Mem build) : Nat :=
  number mem o.CachedModulus o.library_legs

/-- Away from the modulus. -/
def Clear (o : BigMontgomery build) (p n : Nat) : Prop :=
  p + n ≤ o.CachedModulus ∨ o.CachedModulus + o.library_legs ≤ p

theorem Ready.congr {mem' : Mem build} (h : o.Ready mem)
    (hsame : mem' o.CachedModulus = mem o.CachedModulus) : o.Ready mem' := by
  unfold Ready
  rwa [hsame]

theorem subtractModulus_spec (o : BigMontgomery build) (mem : Mem build) (out : Nat) :
    SameOff out o.library_legs mem (o.subtractModulus out mem) ∧
      number (o.subtractModulus out mem) out o.library_legs =
        if number mem out o.library_legs < o.modulus mem then
          (2 ^ build.legBits) ^ o.library_legs + number mem out o.library_legs - o.modulus mem
        else number mem out o.library_legs - o.modulus mem := by
  obtain ⟨hoff, hcases⟩ := subtract_registers mem out o.CachedModulus out o.library_legs
  refine ⟨hoff, ?_⟩
  unfold subtractModulus modulus
  rcases hcases with ⟨-, hle, hval⟩ | ⟨-, hlt, hval⟩
  · rw [if_neg (Nat.not_lt.mpr hle)]
    omega
  · rw [if_pos hlt]
    omega

/-- A product with a leg and a sum, over the legs of a register. -/
theorem rowOut (o : BigMontgomery build) (hL : 0 < o.library_legs) (mem : Mem build) (result : Nat) :
    OverflowOut (multiplyXAdd (window mem o.CachedModulus o.library_legs) (mem result * o.mod_inv)
      (window mem result o.library_legs)) o.library_legs
      (o.modulus mem * (mem result * o.mod_inv).toNat + number mem result o.library_legs) := by
  have h := multiplyXAdd_spec (a := window mem o.CachedModulus o.library_legs)
    (c := window mem result o.library_legs) (by rw [length_window, length_window])
    (List.ne_nil_of_length_pos (by rwa [length_window])) (mem result * o.mod_inv)
  rwa [length_window] at h

theorem sameOff_reduceRow (hL : 0 < o.library_legs) (result : Nat) (mem : Mem build) :
    SameOff result o.library_legs mem (o.reduceRow result mem) := by
  unfold reduceRow
  have hoff := (number_store (rowOut o hL mem result).length result mem).1
  exact hoff.trans (SameOff.update _ le_rfl (by omega) _)

theorem sameOff_reduceRows (hL : 0 < o.library_legs) (ctr result : Nat) (mem : Mem build) :
    SameOff result (ctr + o.library_legs) mem (o.reduceRows ctr result mem) := by
  induction ctr generalizing result mem with
  | zero => exact SameOff.refl _ _ _
  | succ ctr ih =>
    have hrow := sameOff_reduceRow hL result mem
    exact (hrow.mono le_rfl (by omega)).trans ((ih (result + 1) _).mono (by omega) (by omega))

/-- Nothing is written but the product and the output, whatever the modulus is. -/
theorem monReduceProduct_frame (hL : 0 < o.library_legs) (carries out : Nat) (mem : Mem build) :
    ∀ j, j < carries ∨ carries + o.library_legs * 2 ≤ j → j < out ∨ out + o.library_legs ≤ j →
      o.monReduceProduct carries out mem j = mem j := by
  intro j hj hj'
  have hrows := sameOff_reduceRows hL o.library_legs carries mem
  unfold monReduceProduct
  set reduced := o.reduceRows o.library_legs carries mem with hreduced
  have hsum := (add_registers reduced (carries + o.library_legs) carries out o.library_legs).1
  set mem' := store (add (window reduced (carries + o.library_legs) o.library_legs)
    (window reduced carries o.library_legs)).2 out reduced with hmem'
  have hkeep : mem' j = mem j := (hsum j hj').trans (hrows j (by omega))
  split
  · exact ((o.subtractModulus_spec mem' out).1 j hj').trans hkeep
  · exact hkeep

/-- The inverse for natural numbers. -/
theorem Ready.dvd (h : o.Ready mem) :
    2 ^ build.legBits ∣ (mem o.CachedModulus).toNat * o.mod_inv.toNat + 1 := by
  have h0 := congrArg BitVec.toNat h
  rw [BitVec.toNat_add, BitVec.toNat_mul, Nat.mod_add_mod, one_toNat, Division.zero_toNat] at h0
  exact Nat.dvd_of_mod_eq_zero h0

theorem two_dvd_pow_legBits (build : Build) : 2 ∣ 2 ^ build.legBits :=
  dvd_pow_self 2 (by have := build.legBits_ge; omega)

/-- A modulus with an inverse for its low leg is odd. -/
theorem Ready.coprime (h : o.Ready mem) (hL : 0 < o.library_legs) :
    ((2 ^ build.legBits) ^ o.library_legs).Coprime (o.modulus mem) := by
  obtain ⟨n, hn⟩ : ∃ n, o.library_legs = n + 1 := ⟨o.library_legs - 1, by omega⟩
  have hbits := two_dvd_pow_legBits build
  have hlow : Odd (mem o.CachedModulus).toNat := by
    by_contra heven
    have hmul := (Nat.not_odd_iff_even.mp heven).two_dvd.mul_right o.mod_inv.toNat
    have := (Nat.dvd_add_right hmul).mp (hbits.trans h.dvd)
    omega
  have hodd : Odd (o.modulus mem) := by
    unfold modulus
    rw [hn, number_succ]
    exact hlow.add_even ((even_iff_two_dvd.mpr hbits).mul_right _)
  rw [← pow_mul]
  exact Nat.Coprime.pow_left _ (Nat.coprime_two_left.mpr hodd)

/-- The multiple of a row clears its low leg. -/
theorem Ready.low_eq_zero (h : o.Ready mem) {n result : Nat} {x : Leg build} {rest : Nat}
    (hL : o.library_legs = n + 1)
    (hval : x.toNat + 2 ^ build.legBits * rest =
      o.modulus mem * (mem result * o.mod_inv).toNat + number mem result o.library_legs) : x = 0 := by
  have hprod : (mem o.CachedModulus * (mem result * o.mod_inv) + mem result).toNat = 0 := by
    have hzero : mem o.CachedModulus * (mem result * o.mod_inv) + mem result =
        mem result * (mem o.CachedModulus * o.mod_inv + 1) := by ring
    rw [hzero, show mem o.CachedModulus * o.mod_inv + 1 = 0 from h, mul_zero, Division.zero_toNat]
  rw [BitVec.toNat_add, BitVec.toNat_mul, Nat.mod_add_mod] at hprod
  unfold modulus at hval
  rw [hL, number_succ, number_succ] at hval
  have hmod : x.toNat ≡ (mem o.CachedModulus).toNat * (mem result * o.mod_inv).toNat +
      (mem result).toNat [MOD 2 ^ build.legBits] := by
    have hval' : x.toNat + 2 ^ build.legBits * rest =
        (mem o.CachedModulus).toNat * (mem result * o.mod_inv).toNat + (mem result).toNat +
          2 ^ build.legBits * (number mem (o.CachedModulus + 1) n * (mem result * o.mod_inv).toNat +
            number mem (result + 1) n) := by
      rw [hval]
      ring
    have := congrArg (· % 2 ^ build.legBits) hval'
    simpa only [Nat.ModEq, Nat.add_mul_mod_self_left] using this
  refine BitVec.eq_of_toNat_eq ?_
  rw [Nat.ModEq, hprod, Nat.mod_eq_of_lt x.isLt] at hmod
  rw [hmod, Division.zero_toNat]

/-- A row: the multiple clears the low leg, where the carry goes. -/
theorem reduceRow_spec (h : o.Ready mem) (result : Nat) {n : Nat} (hL : o.library_legs = n + 1) :
    ∃ q < 2 ^ build.legBits,
      2 ^ build.legBits * number (o.reduceRow result mem) (result + 1) n +
          (2 ^ build.legBits) ^ (n + 1) * (o.reduceRow result mem result).toNat =
        o.modulus mem * q + number mem result o.library_legs := by
  obtain ⟨hlen, hval⟩ := rowOut o (by omega) mem result
  refine ⟨_, (mem result * o.mod_inv).isLt, ?_⟩
  unfold reduceRow
  dsimp only
  set row := multiplyXAdd (window mem o.CachedModulus o.library_legs) (mem result * o.mod_inv)
    (window mem result o.library_legs) with hrow
  have hstore := (number_store hlen result mem).2
  set stored := store row.2 result mem with hstored
  have hnat : number stored result o.library_legs +
      (2 ^ build.legBits) ^ o.library_legs * row.1.toNat =
        o.modulus mem * (mem result * o.mod_inv).toNat + number mem result o.library_legs := by
    rw [hstore, ← pow_mul]
    exact_mod_cast hval
  have hsame : number (Function.update stored result row.1) (result + 1) n =
      number stored (result + 1) n :=
    number_congr fun i _ => Function.update_of_ne (by omega) _ _
  have hsplit := number_succ stored result n
  have hlow : stored result = 0 := by
    refine @Ready.low_eq_zero _ o mem h n result (stored result)
      (number stored (result + 1) n + (2 ^ build.legBits) ^ n * row.1.toNat) hL ?_
    rw [← hnat, hL, hsplit, pow_succ]
    ring
  rw [hsame, Function.update_self, ← hnat, hL, hsplit, hlow, Division.zero_toNat, Nat.zero_add]

/-- The legs that are still to be reduced, from their place on, and the carries that are kept below. -/
def pending (o : BigMontgomery build) (carries k : Nat) (mem : Mem build) : Nat :=
  (2 ^ build.legBits) ^ k * number mem (carries + k) (o.library_legs * 2 - k) +
    (2 ^ build.legBits) ^ o.library_legs * number mem carries k

/-- A row adds a multiple of the modulus to what is pending. -/
theorem pending_row (h : o.Ready mem) (carries : Nat) {k : Nat} (hk : k < o.library_legs) :
    ∃ q < 2 ^ build.legBits, o.pending carries (k + 1) (o.reduceRow (carries + k) mem) =
      o.pending carries k mem + (2 ^ build.legBits) ^ k * (o.modulus mem * q) := by
  obtain ⟨n, hn⟩ : ∃ n, o.library_legs = n + 1 := ⟨o.library_legs - 1, by omega⟩
  obtain ⟨q, hq, hval⟩ := reduceRow_spec h (carries + k) hn
  have hoff := sameOff_reduceRow (show 0 < o.library_legs by omega) (carries + k) mem
  refine ⟨q, hq, ?_⟩
  set mem' := o.reduceRow (carries + k) mem with hmem'
  unfold pending
  have hcarries : number mem' carries (k + 1) =
      number mem carries k + (2 ^ build.legBits) ^ k * (mem' (carries + k)).toNat := by
    rw [number_concat, number_of_sameOff hoff (.inl le_rfl)]
  have hbefore : number mem (carries + k) (o.library_legs * 2 - k) =
      number mem (carries + k) o.library_legs + (2 ^ build.legBits) ^ o.library_legs *
        number mem (carries + k + o.library_legs) (o.library_legs - k) := by
    rw [← number_add]
    congr 1
    omega
  have hafter : number mem' (carries + (k + 1)) (o.library_legs * 2 - (k + 1)) =
      number mem' (carries + k + 1) n + (2 ^ build.legBits) ^ n *
        number mem (carries + k + o.library_legs) (o.library_legs - k) := by
    have hrest := number_of_sameOff hoff (q := carries + k + o.library_legs)
      (m := o.library_legs - k) (.inr le_rfl)
    rw [← hrest, hn, ← Nat.add_assoc (carries + k), Nat.add_right_comm (carries + k), ← number_add]
    congr 1
    omega
  rw [hcarries, hbefore, hafter]
  zify at hval ⊢
  rw [hn] at hval ⊢
  linear_combination (2 ^ build.legBits : ℤ) ^ k * hval

/-- The rows that are left, of a double register away from the modulus. -/
theorem reduceRows_spec {carries : Nat} (hclear : o.Clear carries (o.library_legs * 2)) {ctr k : Nat}
    (hk : ctr + k = o.library_legs) (h : o.Ready mem) :
    ∃ Q < (2 ^ build.legBits) ^ ctr,
      o.pending carries o.library_legs (o.reduceRows ctr (carries + k) mem) =
        o.pending carries k mem + (2 ^ build.legBits) ^ k * (o.modulus mem * Q) := by
  induction ctr generalizing k mem with
  | zero =>
    rw [Nat.zero_add] at hk
    exact ⟨0, Nat.one_pos, by rw [hk]; rfl⟩
  | succ ctr ih =>
    have hoff := sameOff_reduceRow (show 0 < o.library_legs by omega) (carries + k) mem
    obtain ⟨q, hq, hrow⟩ := pending_row h carries (show k < o.library_legs by omega)
    unfold Clear at hclear
    have hready := h.congr (hoff o.CachedModulus (by omega))
    have hmod : o.modulus (o.reduceRow (carries + k) mem) = o.modulus mem :=
      number_of_sameOff hoff (by omega)
    obtain ⟨Q, hQ, hrows⟩ := ih (show ctr + (k + 1) = o.library_legs by omega) hready
    refine ⟨q + 2 ^ build.legBits * Q, ?_, ?_⟩
    · have := Nat.mul_le_mul_left (2 ^ build.legBits) (Nat.succ_le_of_lt hQ)
      rw [pow_succ, Nat.mul_comm _ (2 ^ build.legBits)]
      rw [Nat.mul_succ] at this
      omega
    · show o.pending carries o.library_legs (o.reduceRows ctr (carries + (k + 1)) _) = _
      rw [hrows, hrow, hmod]
      ring

/-- **Montgomery reduction**: the rows leave the product with a multiple of the modulus, and the bound
on this sum is why one subtraction is enough. -/
theorem monReduceProduct_spec (h : o.Ready mem) (hL : 0 < o.library_legs) {carries out : Nat}
    (hclear : o.Clear carries (o.library_legs * 2)) (hout : o.Clear out o.library_legs) :
    ∃ N Q, (2 ^ build.legBits) ^ o.library_legs * N =
        number mem carries (o.library_legs * 2) + o.modulus mem * Q ∧
      Q < (2 ^ build.legBits) ^ o.library_legs ∧
      number (o.monReduceProduct carries out mem) out o.library_legs =
        if (2 ^ build.legBits) ^ o.library_legs ≤ N then N - o.modulus mem else N := by
  obtain ⟨Q, hQ, hrows⟩ := reduceRows_spec hclear (Nat.add_zero o.library_legs) h
  have hoff := sameOff_reduceRows hL o.library_legs carries mem
  rw [Nat.add_zero] at hrows
  unfold monReduceProduct
  set reduced := o.reduceRows o.library_legs carries mem with hreduced
  obtain ⟨hoffsum, hsum⟩ :=
    add_registers reduced (carries + o.library_legs) carries out o.library_legs
  set sum := add (window reduced (carries + o.library_legs) o.library_legs)
    (window reduced carries o.library_legs) with hsumDef
  set N := number reduced (carries + o.library_legs) o.library_legs +
    number reduced carries o.library_legs with hN
  have hreduce : (2 ^ build.legBits) ^ o.library_legs * N =
      number mem carries (o.library_legs * 2) + o.modulus mem * Q := by
    unfold pending at hrows
    rw [show o.library_legs * 2 - o.library_legs = o.library_legs by omega, pow_zero, Nat.one_mul,
      Nat.one_mul, Nat.add_zero, number_zero, Nat.mul_zero, Nat.add_zero, Nat.sub_zero] at hrows
    rw [Nat.mul_add]
    exact hrows
  have hbound := Montgomery.reduced_lt hreduce (by
    have := number_lt mem carries (o.library_legs * 2)
    rwa [Nat.mul_two, pow_add, ← Nat.mul_two] at this) hQ
  have hlt := number_lt (store sum.2 out reduced) out o.library_legs
  have hmodulus : o.modulus (store sum.2 out reduced) = o.modulus mem := by
    unfold Clear at hclear hout
    exact (number_of_sameOff hoffsum (by omega)).trans (number_of_sameOff hoff (by omega))
  refine ⟨N, Q, hreduce, hQ, ?_⟩
  rcases hsum with ⟨h0, hless, hval⟩ | ⟨h1, hge, hval⟩
  · rw [if_neg (not_not.mpr h0), if_neg (Nat.not_le.mpr hless), hval]
  · obtain ⟨-, hsub⟩ := o.subtractModulus_spec (store sum.2 out reduced) out
    rw [if_pos (by rw [h1]; decide), hsub, hmodulus, if_pos (by omega), if_pos hge]
    omega

/-- The radix of the residues. -/
def radix (o : BigMontgomery build) : Nat := (2 ^ build.legBits) ^ o.library_legs

/-- The product times the inverse of the radix. -/
theorem monReduceProduct_eq (h : o.Ready mem) (hL : 0 < o.library_legs) {carries out : Nat}
    (hclear : o.Clear carries (o.library_legs * 2)) (hout : o.Clear out o.library_legs) :
    (number (o.monReduceProduct carries out mem) out o.library_legs : ZMod (o.modulus mem)) =
      number mem carries (o.library_legs * 2) * (o.radix : ZMod (o.modulus mem))⁻¹ := by
  obtain ⟨N, Q, hreduce, -, hval⟩ := monReduceProduct_spec h hL hclear hout
  have hlt := number_lt mem o.CachedModulus o.library_legs
  unfold radix
  rw [← Montgomery.reduced_eq (h.coprime hL) hreduce, hval]
  split
  · unfold modulus
    rw [Nat.cast_sub (by omega), ZMod.natCast_self, sub_zero]
  · rfl

end Reduce

/-! ## Operations -/

section Operations

variable {o : BigMontgomery build} {mem : Mem build} {out : Nat}

theorem cachedModulus_eq (o : BigMontgomery build) :
    o.CachedModulus = o.TempProduct + o.library_legs * 2 := by
  have h1 := Library.get_succ o.lib (o.mon_regs - 3)
  have h2 := Library.get_succ o.lib (o.mon_regs - 3 + 1)
  rw [show o.mon_regs - 3 + 1 + 1 = o.mon_regs - 1 by unfold mon_regs; omega] at h2
  unfold CachedModulus TempProduct
  have : o.lib.library_legs = o.library_legs := rfl
  omega

theorem clear_temp (o : BigMontgomery build) : o.Clear o.TempProduct (o.library_legs * 2) :=
  .inl o.cachedModulus_eq.ge

/-- Nothing is written below the scratch registers but the product and the output. -/
def Kept (o : BigMontgomery build) (out : Nat) (mem mem' : Mem build) : Prop :=
  ∀ j < o.TempProduct + o.library_legs * 3, j < o.TempProduct ∨ o.TempProduct + o.library_legs * 2 ≤ j →
    j < out ∨ out + o.library_legs ≤ j → mem' j = mem j

theorem Kept.trans {mem' mem'' : Mem build} (h : o.Kept out mem mem') (h' : o.Kept out mem' mem'') :
    o.Kept out mem mem'' := fun j hlt hj hj' => (h' j hlt hj hj').trans (h j hlt hj hj')

theorem Kept.number {mem' : Mem build} (h : o.Kept out mem mem') {p : Nat}
    (hp : p + o.library_legs ≤ o.TempProduct)
    (hout : p + o.library_legs ≤ out ∨ out + o.library_legs ≤ p) :
    number mem' p o.library_legs = number mem p o.library_legs :=
  number_congr fun i hi => h _ (by omega) (by omega) (by omega)

theorem Kept.modulus {mem' : Mem build} (h : o.Kept out mem mem') (hout : o.Clear out o.library_legs) :
    o.modulus mem' = o.modulus mem := by
  have hcached := o.cachedModulus_eq
  unfold Clear at hout
  exact number_congr fun i hi => h _ (by omega) (by omega) (by omega)

theorem Kept.ready {mem' : Mem build} (h : o.Kept out mem mem') (hout : o.Clear out o.library_legs)
    (hready : o.Ready mem) (hL : 0 < o.library_legs) : o.Ready mem' := by
  have hcached := o.cachedModulus_eq
  unfold Clear at hout
  exact hready.congr (h _ (by omega) (by omega) (by omega))

/-- A product is put in its registers and reduced. -/
theorem kept_reduce (hL : 0 < o.library_legs) {product : Mem build}
    (h : ∀ j < o.TempProduct + o.library_legs * 3,
      j < o.TempProduct ∨ o.TempProduct + o.library_legs * 2 ≤ j → product j = mem j) :
    o.Kept out mem (o.monReduceProduct o.TempProduct out product) := fun j hlt hj hj' =>
  (monReduceProduct_frame hL o.TempProduct out product j hj hj').trans (h j hlt hj)

/-- A product in its registers, reduced. -/
theorem reduce_stored (h : o.Ready mem) (hL : 0 < o.library_legs) (hout : o.Clear out o.library_legs)
    {l : List (Leg build)} (hl : l.length = 2 * o.library_legs) :
    o.Kept out mem (o.monReduceProduct o.TempProduct out (store l o.TempProduct mem)) ∧
      (number (o.monReduceProduct o.TempProduct out (store l o.TempProduct mem)) out o.library_legs :
        ZMod (o.modulus mem)) = value l * (o.radix : ZMod (o.modulus mem))⁻¹ := by
  obtain ⟨hoff, hstore⟩ := number_store hl o.TempProduct mem
  rw [Nat.mul_comm] at hoff hstore
  have hcached := o.cachedModulus_eq
  have hready := h.congr (hoff o.CachedModulus (by omega))
  have hmod : o.modulus (store l o.TempProduct mem) = o.modulus mem :=
    number_of_sameOff hoff (.inr hcached.ge)
  have hval := monReduceProduct_eq hready hL o.clear_temp hout
  rw [hmod, hstore] at hval
  exact ⟨kept_reduce hL fun j _ hj => hoff j hj, hval⟩

theorem monMultiply_spec (h : o.Ready mem) (hL : 0 < o.library_legs)
    (hout : o.Clear out o.library_legs) (in_a in_b : Nat) :
    o.Kept out mem (o.monMultiply in_a in_b out mem) ∧
      (number (o.monMultiply in_a in_b out mem) out o.library_legs : ZMod (o.modulus mem)) =
        number mem in_a o.library_legs * number mem in_b o.library_legs *
          (o.radix : ZMod (o.modulus mem))⁻¹ := by
  obtain ⟨hlen, hval⟩ := multiply_spec (length_window mem in_a o.library_legs)
    (length_window mem in_b o.library_legs) hL
  obtain ⟨hkept, hreduced⟩ := reduce_stored h hL hout hlen
  refine ⟨hkept, hreduced.trans ?_⟩
  have hnat : value (multiply (window mem in_a o.library_legs) (window mem in_b o.library_legs)) =
      number mem in_a o.library_legs * number mem in_b o.library_legs := by
    exact_mod_cast hval
  rw [hnat, Nat.cast_mul]

theorem monSquare_spec (h : o.Ready mem) (hL : 2 ≤ o.library_legs)
    (hout : o.Clear out o.library_legs) (inp : Nat) :
    o.Kept out mem (o.monSquare inp out mem) ∧
      (number (o.monSquare inp out mem) out o.library_legs : ZMod (o.modulus mem)) =
        number mem inp o.library_legs * number mem inp o.library_legs *
          (o.radix : ZMod (o.modulus mem))⁻¹ := by
  obtain ⟨hlen, hval⟩ := square_spec (length_window mem inp o.library_legs) hL
  obtain ⟨hkept, hreduced⟩ := reduce_stored h (by omega) hout hlen
  unfold monSquare
  rw [if_neg (by omega)]
  refine ⟨hkept, hreduced.trans ?_⟩
  have hnat : value (square (window mem inp o.library_legs)) =
      number mem inp o.library_legs * number mem inp o.library_legs := by
    exact_mod_cast hval
  rw [hnat, Nat.cast_mul]

/-- The product of `MonOutput`: the input, below a half that is zero. -/
theorem outputProduct_spec (hL : 0 < o.library_legs) (inp : Nat) (mem : Mem build) :
    ∃ product, copyX o.library_legs 0 o.TempProductHi
        (copy o.library_legs inp o.TempProduct mem) = product ∧
      SameOff o.TempProduct (o.library_legs * 2) mem product ∧
      number product o.TempProduct o.library_legs = number mem inp o.library_legs ∧
      number product o.TempProductHi o.library_legs = 0 := by
  have hHi : o.TempProductHi = o.TempProduct + o.library_legs := rfl
  have hoff := sameOff_copy o.library_legs inp o.TempProduct mem
  have hoff' := sameOff_copyX hL 0 o.TempProductHi (copy o.library_legs inp o.TempProduct mem)
  refine ⟨_, rfl, (hoff.mono le_rfl (by omega)).trans (hoff'.mono (by omega) (by omega)), ?_, ?_⟩
  · rw [number_of_sameOff hoff' (by omega), number_copy]
  · rw [number_copyX hL]
    rfl

/-- One modulus at most is left over. -/
theorem monOutput_spec (h : o.Ready mem) (hL : 0 < o.library_legs) (hout : o.Clear out o.library_legs)
    (inp : Nat) :
    number (o.monOutput inp out mem) out o.library_legs < o.modulus mem ∧
      (number (o.monOutput inp out mem) out o.library_legs : ZMod (o.modulus mem)) =
        number mem inp o.library_legs * (o.radix : ZMod (o.modulus mem))⁻¹ := by
  obtain ⟨product, hproduct, hsame, hlo, hhi⟩ := outputProduct_spec hL inp mem
  have hcached := o.cachedModulus_eq
  have hready := h.congr (hsame o.CachedModulus (by omega))
  have hmod : o.modulus product = o.modulus mem := number_of_sameOff hsame (by omega)
  have hval : number product o.TempProduct (o.library_legs * 2) = number mem inp o.library_legs := by
    rw [Nat.mul_two, number_add, show o.TempProduct + o.library_legs = o.TempProductHi from rfl, hhi,
      Nat.mul_zero, Nat.add_zero, hlo]
  have hkept : o.Kept out product (o.monReduceProduct o.TempProduct out product) :=
    kept_reduce hL fun _ _ _ => rfl
  obtain ⟨N, Q, hreduce, hQ, hnum⟩ := monReduceProduct_spec hready hL o.clear_temp hout
  have hcong := monReduceProduct_eq hready hL o.clear_temp hout
  have hmod' := (hkept.modulus hout).trans hmod
  unfold monOutput
  dsimp only
  rw [hproduct]
  set reduced := o.monReduceProduct o.TempProduct out product with hreduced
  rw [hval, hmod] at hreduce hcong
  have hle := Montgomery.reduced_le hreduce (number_lt mem inp o.library_legs) hQ
  have hlt := number_lt mem o.CachedModulus o.library_legs
  have hN : number reduced out o.library_legs = N := by
    unfold modulus at hle
    rw [hnum, if_neg (by omega)]
  by_cases hless : less reduced out o.CachedModulus o.library_legs
  · rw [if_pos hless]
    rw [less_eq] at hless
    exact ⟨hmod' ▸ hless, hcong⟩
  · rw [if_neg hless]
    rw [less_eq, show number reduced o.CachedModulus o.library_legs = o.modulus mem from hmod'] at hless
    obtain ⟨-, hsub⟩ := o.subtractModulus_spec reduced out
    rw [hmod', if_neg hless] at hsub
    have hzero : number reduced out o.library_legs = o.modulus mem := by omega
    rw [hsub, hzero, Nat.sub_self]
    rw [hzero, ZMod.natCast_self] at hcong
    refine ⟨Nat.pos_of_ne_zero fun h0 => ?_, by rw [Nat.cast_zero]; exact hcong⟩
    have := h.coprime hL
    rw [h0, Nat.coprime_zero_right] at this
    have hbits := Nat.one_lt_two_pow (n := build.legBits) (by have := build.legBits_ge; omega)
    have := Nat.one_lt_pow hL.ne' hbits
    omega

/-- An odd register has an odd low leg. -/
theorem odd_low {x rest : Nat} (h : Odd (x + 2 ^ build.legBits * rest)) : Odd x :=
  (Nat.odd_add.mp h).mpr (even_iff_two_dvd.mpr ((two_dvd_pow_legBits build).mul_right rest))

theorem negated_odd {x : Leg build} (h : Odd x.toNat) : -x &&& 1 ≠ 0 := by
  intro h0
  have heven := congrArg BitVec.toNat h0
  rw [BitVec.toNat_and, one_toNat, Nat.and_one_is_mod, Division.zero_toNat] at heven
  have hsum := congrArg BitVec.toNat (neg_add_cancel x)
  rw [BitVec.toNat_add, Division.zero_toNat] at hsum
  have htwo := (two_dvd_pow_legBits build).trans (Nat.dvd_of_mod_eq_zero hsum)
  obtain ⟨k, hk⟩ := h
  omega

/-- `SetModulus` leaves an odd modulus ready. -/
theorem setModulus_spec (o : BigMontgomery build) (mem : Mem build) (mod : Nat)
    (hodd : Odd (number mem (o.lib.get mod) o.library_legs)) :
    ∃ mod_inv mem', (∀ fuel, 6 ≤ fuel →
        o.setModulus fuel (o.lib.get mod) mem = some ({ o with mod_inv }, mem')) ∧
      { o with mod_inv }.Ready mem' ∧
      { o with mod_inv }.modulus mem' = number mem (o.lib.get mod) o.library_legs := by
  have hL : 0 < o.library_legs := Nat.pos_of_ne_zero fun h0 => by
    rw [h0, number_zero] at hodd
    exact absurd hodd (by decide)
  obtain ⟨n, hn⟩ : ∃ n, o.library_legs = n + 1 := ⟨o.library_legs - 1, by omega⟩
  set copied := copy o.library_legs (o.lib.get mod) o.CachedModulus mem with hcopied
  have hcopy : number copied o.CachedModulus o.library_legs =
      number mem (o.lib.get mod) o.library_legs := number_copy _ _ _ _
  -- the modulus may be in its register already
  have hlow : copied (o.lib.get mod) = copied o.CachedModulus := by
    by_cases hmod : mod = o.mon_regs - 1
    · rw [hmod]
      rfl
    · have hapart : o.lib.get mod + o.library_legs ≤ o.CachedModulus ∨
          o.CachedModulus + o.library_legs ≤ o.lib.get mod := o.lib.get_apart hmod
      have hfirst : copied o.CachedModulus = mem (o.lib.get mod) := by
        rw [hcopied, copy, if_pos (by omega), Nat.sub_self, Nat.add_zero]
      rw [hfirst]
      exact sameOff_copy _ _ _ _ _ (by omega)
  have hbit : -copied o.CachedModulus &&& 1 ≠ 0 := by
    rw [← hcopy, hn, number_succ] at hodd
    exact negated_odd (odd_low hodd)
  obtain ⟨mod_inv, hrun, hinv⟩ := multiplicativeInverseX_spec hbit
  refine ⟨mod_inv, copied, fun fuel hfuel => ?_, ?_, hcopy⟩
  · unfold setModulus
    dsimp only
    rw [← hcopied, hlow, hrun fuel hfuel, Option.map_some]
  · show copied o.CachedModulus * mod_inv + 1 = 0
    rw [← hinv]
    ring

end Operations


end BigMontgomery

end Libcat.Math
