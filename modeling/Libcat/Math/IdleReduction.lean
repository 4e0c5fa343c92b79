import Libcat.Math.MonExpMod

/-!
# Reductions without a multiple

What the operations on residues write, whatever the modulus is. An even modulus has no inverse, and the
modulus can be zero: the rows of `MonReduceProduct` then add nothing and only clear the legs they go
over, and what `MonOutput` gives is zero.
-/

namespace Libcat.Math.BigMontgomery

open Radix Window BigRTL Registers DivideProduct

variable {build : Build}

/-! ## What is written -/

section Written

variable {o : BigMontgomery build} {mem : Mem build} {in_base in_exp out : Nat}

theorem kept_monMultiply (hL : 0 < o.library_legs) (in_a in_b : Nat) :
    o.Kept out mem (o.monMultiply in_a in_b out mem) := by
  obtain ⟨hlen, -⟩ := multiply_spec (length_window mem in_a o.library_legs)
    (length_window mem in_b o.library_legs) hL
  have hoff := (number_store hlen o.TempProduct mem).1
  exact kept_reduce hL fun j _ hj => hoff j (by omega)

theorem kept_monSquare (hL : 0 < o.library_legs) (inp : Nat) :
    o.Kept out mem (o.monSquare inp out mem) := by
  unfold monSquare
  refine kept_reduce hL fun j hlt hj => ?_
  by_cases hone : o.library_legs = 1
  · -- the cross products are above the registers of the object
    have hcross : o.TempProduct + o.library_legs * 3 ≤ o.lib.get (o.lib.library_regs - 2) + 1 := by
      have hle := o.lib.get_add_le (show o.mon_regs - 1 < o.lib.library_regs - 2 by
        show _ < o.mon_regs + 7 - 2
        omega)
      have hcached := o.cachedModulus_eq
      have : o.lib.get (o.mon_regs - 1) = o.CachedModulus := rfl
      have : o.lib.library_legs = o.library_legs := rfl
      omega
    rw [if_pos hone]
    unfold squareLeg
    rw [Function.update_of_ne (by omega)]
    have hlen := fun a b : Leg build => (@doubleAdd_spec build [a] [b] rfl (by simp)).length
    rw [sameOff_store _ _ _ _ (by rw [hlen, List.length_singleton]; omega),
      Function.update_of_ne (by omega), Function.update_of_ne (by omega),
      Function.update_of_ne (by omega)]
  · obtain ⟨hlen, -⟩ := square_spec (length_window mem inp o.library_legs) (by omega)
    rw [if_neg hone]
    exact (number_store hlen o.TempProduct mem).1 j (by omega)

theorem kept_monOutput (hL : 0 < o.library_legs) (inp : Nat) :
    o.Kept out mem (o.monOutput inp out mem) := by
  obtain ⟨product, hproduct, hoff, -, -⟩ := outputProduct_spec hL inp mem
  have hkept : o.Kept out mem (o.monReduceProduct o.TempProduct out product) :=
    kept_reduce hL fun j _ hj => hoff j (by omega)
  unfold monOutput
  dsimp only
  rw [hproduct]
  split
  · exact hkept
  · exact hkept.trans fun j _ _ hj' => (o.subtractModulus_spec _ out).1 j hj'

theorem kept_expBit (hL : 0 < o.library_legs) (e_i mask : Leg build) (s : Bool × Mem build) :
    o.Kept out s.2 (o.expBit in_base out e_i mask s).2 := by
  have hsquare := @kept_monSquare _ o s.2 out hL out
  unfold expBit
  by_cases hseen : s.1 = true
  · rw [if_pos hseen]
    by_cases hbit : e_i &&& mask ≠ 0
    · rw [if_pos hbit]
      exact hsquare.trans (kept_monMultiply hL out in_base)
    · rw [if_neg hbit]
      exact hsquare
  · rw [if_neg hseen]
    by_cases hbit : e_i &&& mask ≠ 0
    · rw [if_pos hbit]
      exact fun j _ _ hj' => sameOff_copy _ _ _ _ j hj'
    · rw [if_neg hbit]
      exact fun _ _ _ _ => rfl

theorem kept_expBits (hL : 0 < o.library_legs) (e_i : Leg build) (n : Nat) (s : Bool × Mem build) :
    o.Kept out s.2 (o.expBits in_base out e_i n s).2 := by
  induction n generalizing s with
  | zero => exact fun _ _ _ _ => rfl
  | succ n ih => exact (kept_expBit hL e_i _ s).trans (ih _)

theorem kept_expLegs (hL : 0 < o.library_legs) (ii : Nat) (s : Bool × Mem build) :
    o.Kept out s.2 (o.expLegs in_base in_exp out ii s).2 := by
  induction ii generalizing s with
  | zero => exact fun _ _ _ _ => rfl
  | succ ii ih => exact (kept_expBits hL _ _ s).trans (ih _)

theorem kept_monExpMod (hL : 0 < o.library_legs) :
    o.Kept out mem (o.monExpMod in_base in_exp out mem) := by
  have hlegs := @kept_expLegs _ o in_base in_exp out hL o.library_legs (false, mem)
  unfold monExpMod
  dsimp only
  split
  · exact hlegs
  · exact hlegs.trans fun j _ _ hj' => sameOff_copyX hL _ _ _ j hj'

end Written

/-! ## Rows that add nothing -/

section Idle

variable {o : BigMontgomery build} {mem : Mem build} {inp out : Nat}

/-- The modulus has no inverse, or it is zero. -/
def Idle (o : BigMontgomery build) (mem : Mem build) : Prop := o.mod_inv = 0 ∨ o.modulus mem = 0

theorem Idle.congr {mem' : Mem build} (h : o.Idle mem) (hmod : o.modulus mem' = o.modulus mem) :
    o.Idle mem' := by
  unfold Idle
  rwa [hmod]

theorem Idle.kept {mem' : Mem build} (h : o.Idle mem) (hk : o.Kept out mem mem')
    (hclear : o.Clear out o.library_legs) : o.Idle mem' := h.congr (hk.modulus hclear)

/-- The row is left as it was, and there is no carry. -/
theorem Idle.reduceRow (h : o.Idle mem) (hL : 0 < o.library_legs) (result : Nat) :
    o.reduceRow result mem = Function.update mem result 0 := by
  obtain ⟨hlen, hval⟩ := rowOut o hL mem result
  have hzero : o.modulus mem * (mem result * o.mod_inv).toNat = 0 := by
    rcases h with h0 | h0
    · rw [h0, mul_zero, Division.zero_toNat, Nat.mul_zero]
    · rw [h0, Nat.zero_mul]
  unfold BigMontgomery.reduceRow
  dsimp only
  set row := multiplyXAdd (window mem o.CachedModulus o.library_legs) (mem result * o.mod_inv)
    (window mem result o.library_legs) with hrow
  have hsum : value row.2 + (2 ^ build.legBits) ^ o.library_legs * row.1.toNat =
      number mem result o.library_legs := by
    rw [← Nat.cast_mul, hzero, Nat.cast_zero, zero_add] at hval
    rw [← pow_mul]
    exact_mod_cast hval
  have hcarry : row.1 = 0 := by
    have hlt := number_lt mem result o.library_legs
    refine BitVec.eq_of_toNat_eq (Nat.eq_zero_of_not_pos fun hpos => ?_)
    have := Nat.le_mul_of_pos_right ((2 ^ build.legBits) ^ o.library_legs) hpos
    omega
  have hsame : row.2 = window mem result o.library_legs := by
    refine value_inj (by rw [hlen, length_window]) ?_
    rw [hcarry, Division.zero_toNat, Nat.mul_zero, Nat.add_zero] at hsum
    exact hsum
  have hstore : store row.2 result mem = mem := by
    funext j
    by_cases hj : j < result ∨ result + o.library_legs ≤ j
    · exact (number_store hlen result mem).1 j hj
    · rw [hsame, store, if_pos (by omega), window, List.getD_eq_getElem _ _ (by simp; omega)]
      simp only [List.getElem_map, List.getElem_range]
      congr 1
      omega
  rw [hstore, hcarry]

theorem Idle.reduceRows (h : o.Idle mem) (hL : 0 < o.library_legs) {ctr result : Nat}
    (hle : result + ctr ≤ o.CachedModulus) :
    o.reduceRows ctr result mem = fill 0 ctr result mem := by
  induction ctr generalizing result mem with
  | zero =>
    funext j
    rw [fill, if_neg (by omega)]
    rfl
  | succ ctr ih =>
    have hmod : o.modulus (Function.update mem result 0) = o.modulus mem :=
      number_of_sameOff (SameOff.update (n := 1) mem le_rfl (by omega) _) (.inr (by omega))
    show o.reduceRows ctr (result + 1) (o.reduceRow result mem) = _
    rw [h.reduceRow hL, ih (h.congr hmod) (by omega)]
    funext j
    unfold fill
    by_cases hj : j = result
    · subst hj
      rw [if_neg (by omega), if_pos (by omega), Function.update_self]
    · rw [Function.update_of_ne hj]
      by_cases hin : result + 1 ≤ j ∧ j < result + 1 + ctr
      · rw [if_pos hin, if_pos (by omega)]
      · rw [if_neg hin, if_neg (by omega)]

/-- `MonOutput` gives the upper half of its product, which is zero. -/
theorem Idle.monOutput (h : o.Idle mem) (hL : 0 < o.library_legs) (inp out : Nat) :
    number (o.monOutput inp out mem) out o.library_legs = 0 := by
  obtain ⟨product, hproduct, hoff, -, hzero⟩ := outputProduct_spec hL inp mem
  have hcached := o.cachedModulus_eq
  have hHi : o.TempProductHi = o.TempProduct + o.library_legs := rfl
  have hidle := h.congr (number_of_sameOff hoff (.inr hcached.ge) : o.modulus product = o.modulus mem)
  have hrows := hidle.reduceRows hL (show o.TempProduct + o.library_legs ≤ o.CachedModulus by omega)
  unfold BigMontgomery.monOutput
  dsimp only
  rw [hproduct]
  set reduced := o.monReduceProduct o.TempProduct out product with hreduced
  have hout : number reduced out o.library_legs = 0 := by
    have hlo : number (fill 0 o.library_legs o.TempProduct product) o.TempProduct o.library_legs = 0 :=
      number_fill_zero _ _ _
    have hhi : number (fill 0 o.library_legs o.TempProduct product)
        (o.TempProduct + o.library_legs) o.library_legs = 0 :=
      (number_of_sameOff (sameOff_fill _ _ _ _) (.inr le_rfl)).trans hzero
    obtain ⟨-, hsum⟩ := add_registers (fill 0 o.library_legs o.TempProduct product)
      (o.TempProduct + o.library_legs) o.TempProduct out o.library_legs
    have hpos := number_lt mem out o.library_legs
    rw [hreduced, monReduceProduct, hrows]
    rcases hsum with ⟨hcarry, -, hval⟩ | ⟨-, hge, -⟩
    · rw [if_neg (not_not.mpr hcarry), hval, hlo, hhi]
    · omega
  split
  · exact hout
  · next hless =>
    have hmod : ¬number reduced out o.library_legs < o.modulus reduced := fun hlt =>
      hless ((less_eq _ _ _ _).mpr hlt)
    rw [(o.subtractModulus_spec reduced out).2, if_neg hmod, hout, Nat.zero_sub]

end Idle

/-! ## One leg -/

section OneLeg

variable {o : BigMontgomery build} {mem : Mem build} {b x : Nat}

/-- With one leg, the quotient of `MonInput` fills its legs, and the leg after them is the modulus. -/
theorem monInput_one_leg (hL : o.library_legs = 1) (hb : o.User b) (hx : o.User x)
    (hpos : 0 < number mem (o.lib.get b) o.library_legs) (hm : o.modulus mem ≠ 0) :
    ∃ mem', (∀ fuel, 3 ≤ fuel →
        o.monInput fuel (o.lib.get b) (o.lib.get x) mem = some mem') ∧
      (∀ j < o.TempProduct, j < o.lib.get x ∨ o.lib.get x + o.library_legs ≤ j → mem' j = mem j) ∧
      o.modulus mem' = 0 := by
  obtain ⟨mem1, hmem1, hsame, hval⟩ := @numerator_spec _ o b (by omega) hb mem
  have hops := hx.operands
  have hcached := o.cachedModulus_eq
  have hmod : number mem1 o.CachedModulus o.library_legs = o.modulus mem :=
    number_of_sameOff hsame (by omega)
  have hlt := number_lt mem1 o.CachedModulus o.library_legs
  have hfull : o.radix ≤ number mem1 o.TempProduct (o.library_legs * 2) := by
    rw [hval]
    exact Nat.le_mul_of_pos_right _ hpos
  unfold radix at hfull
  have hm1 : number mem1 (o.lib.get (o.mon_regs - 1)) o.library_legs ≠ 0 := hmod.symm ▸ hm
  have hone : legsUsed mem1 (o.lib.get (o.mon_regs - 1)) o.library_legs = 1 := by
    have hsize : (2 ^ build.legBits) ^ o.library_legs = 2 ^ build.legBits := by rw [hL, pow_one]
    exact (legsUsed_eq_one hm1).mpr (hlt.trans_eq hsize)
  have hall : legsUsed mem1 (o.lib.get (o.mon_regs - 3)) (o.library_legs * 2) = o.library_legs * 2 := by
    refine (legsUsed_eq_self (by omega)).mpr ?_
    rw [show o.library_legs * 2 - 1 = o.library_legs by omega]
    exact hfull
  have hplace : o.mon_regs - 3 + 2 = o.mon_regs - 1 := by
    unfold mon_regs
    omega
  obtain ⟨mem', hdivide, -, -, hframe, hnext⟩ := divideProduct_long hops hm1 (hlt.le.trans hfull)
    fun hclobbers => by
      have := hclobbers.2.2
      have : o.lib.library_regs = o.mon_regs + 7 := rfl
      omega
  rw [hplace] at hframe hnext
  have hzero : mem' o.CachedModulus = 0 := hnext hone hall (by unfold User at hx; omega)
  refine ⟨mem', fun fuel hfuel => ?_, fun j hj hj' => ?_, ?_⟩
  · unfold monInput
    dsimp only
    rw [hmem1]
    show (divideProduct fuel o.lib (o.lib.get (o.mon_regs - 3)) (o.lib.get (o.mon_regs - 1))
      (o.lib.get (o.mon_regs - 3)) (o.lib.get x) mem1).map Prod.snd = some mem'
    rw [hdivide fuel hfuel, Option.map_some]
  · have hscratch := o.lib.get_add_le (show o.mon_regs - 1 < o.lib.library_regs - 3 by
      show _ < o.mon_regs + 7 - 3
      omega)
    have : o.lib.get (o.mon_regs - 1) = o.CachedModulus := rfl
    have : o.lib.get (o.mon_regs - 3) = o.TempProduct := rfl
    exact (hframe j (.inl (by omega)) (.inl (by omega)) hj' fun _ _ => by omega).trans
      (hsame j (.inl hj))
  · unfold modulus
    rw [hL, number_one, hzero]
    rfl

end OneLeg

end Libcat.Math.BigMontgomery
