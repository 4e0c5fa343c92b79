import Libcat.Lib.StrongLiar
import Libcat.Math.IdleReduction

/-!
# The Rabin-Miller test

`IsRabinMillerPrime`: bases are drawn until one is in the range, and a base passes when its power, or a
square of this power, is as it has to be modulo a prime. The generator is the list of the outputs it
gives.
-/

namespace Libcat.Math.RabinMiller

open Radix Window BigRTL Registers BigMontgomery StrongLiar

variable {build : Build}

section Model

variable (o : BigMontgomery build)

def d : Nat := o.lib.get (o.mon_regs - 4)

def a : Nat := o.lib.get (o.mon_regs - 5)

def x : Nat := o.lib.get (o.mon_regs - 6)

def n_1 : Nat := o.lib.get (o.mon_regs - 7)

/-- The loop that draws a base; the outputs after the one it takes are left. -/
def drawBase (n : Nat) : List (Mem build) → Mem build → Option (List (Mem build) × Mem build)
  | [], _ => none
  | output :: outputs, mem =>
    let mem := store (window output 0 o.library_legs) (a o) mem
    if !less mem (a o) n o.library_legs || !greaterX mem (a o) 2 o.library_legs then
      drawBase n outputs mem
    else some (outputs, mem)

/-- The rounds of squares left. True is for the next trial. -/
def squareRounds : Nat → Mem build → Bool × Mem build
  | 0, mem => (false, mem)
  | rounds + 1, mem =>
    let mem := o.monSquare (a o) (a o) mem
    let mem := o.monOutput (a o) (x o) mem
    -- If x = 1, it is composite
    if equalX mem (x o) 1 o.library_legs then (false, mem)
    -- If x = n-1, it could still be prime
    else if equal mem (x o) (n_1 o) o.library_legs then (true, mem)
    else squareRounds rounds mem

/-- The rest of a trial, from the power on. -/
def checkPower (n s : Nat) (mem : Mem build) : Bool × Mem build :=
  if equalX mem (x o) 1 o.library_legs then (true, mem)
  else
    let sum := addX (window mem (x o) o.library_legs) 1
    let mem := store sum.2 (x o) mem
    if sum.1 = 0 ∧ equal mem (x o) n o.library_legs then (true, mem)
    else squareRounds o (s - 1) mem

/-- A trial with the base that was drawn. -/
def trial (fuel n s : Nat) (mem : Mem build) : Option (Bool × Mem build) :=
  (o.monInput fuel (a o) (x o) mem).map fun mem =>
    let mem := o.monExpMod (x o) (d o) (a o) mem
    checkPower o n s (o.monOutput (a o) (x o) mem)

/-- The trials left. -/
def runTrials (fuel n s : Nat) : Nat → List (Mem build) → Mem build → Option (Bool × Mem build)
  | 0, _, mem => some (true, mem)
  | trials + 1, outputs, mem => do
    let (outputs, mem) ← drawBase o n outputs mem
    let (passed, mem) ← trial o fuel n s mem
    if passed then runTrials fuel n s trials outputs mem else some (false, mem)

/-- `IsRabinMillerPrime`. -/
def isRabinMillerPrime (fuel n trials : Nat) (outputs : List (Mem build)) (mem : Mem build) :
    Option (Bool × Mem build) :=
  if !greaterX mem n 1 o.library_legs then some (false, mem)
  else do
    let (o, mem) ← o.setModulus fuel n mem
    let mem := copy o.library_legs n (n_1 o) mem
    let mem := store (subtractX (window mem (n_1 o) o.library_legs) 1).2 (n_1 o) mem
    let mem := copy o.library_legs (n_1 o) (d o) mem
    let (s, mem) := eatTrailingZeroes o.library_legs (d o) mem
    runTrials o fuel n s trials outputs mem

end Model

/-! ## Registers of the test -/

section Setup

variable {o : BigMontgomery build} {mem mem' : Mem build} {n N D : Nat}

/-- From the registers of the user up to the product. -/
theorem layout (o : BigMontgomery build) (hn : n < o.regs) :
    o.lib.get n + o.library_legs ≤ n_1 o ∧ n_1 o + o.library_legs ≤ x o ∧
      x o + o.library_legs ≤ a o ∧ a o + o.library_legs ≤ d o ∧
        d o + o.library_legs ≤ o.TempProduct := by
  have hregs : o.mon_regs = o.regs + 7 := rfl
  refine ⟨?_, ?_, ?_, ?_, ?_⟩ <;> exact o.lib.get_add_le (by omega)

theorem user_a (o : BigMontgomery build) : o.User (o.mon_regs - 5) := by
  unfold User mon_regs
  omega

theorem user_x (o : BigMontgomery build) : o.User (o.mon_regs - 6) := by
  unfold User mon_regs
  omega

theorem clear_a (o : BigMontgomery build) : o.Clear (a o) o.library_legs := (user_a o).clear

theorem clear_x (o : BigMontgomery build) : o.Clear (x o) o.library_legs := (user_x o).clear

/-- What the test has found before its trials. -/
structure Setup (o : BigMontgomery build) (n N D : Nat) (mem : Mem build) : Prop where
  n : number mem (o.lib.get n) o.library_legs = N
  n_1 : number mem (n_1 o) o.library_legs = N - 1
  d : number mem (d o) o.library_legs = D

/-- A trial writes to two registers. -/
theorem Setup.kept (h : Setup o n N D mem) (hn : n < o.regs) {out : Nat} (hk : o.Kept out mem mem')
    (hout : out = a o ∨ out = x o) : Setup o n N D mem' := by
  obtain ⟨h1, h2, h3, h4, h5⟩ := layout o hn
  refine ⟨(hk.number ?_ ?_).trans h.n, (hk.number ?_ ?_).trans h.n_1, (hk.number ?_ ?_).trans h.d⟩ <;>
    omega

theorem kept_of_sameOff {out : Nat} (h : SameOff out o.library_legs mem mem') :
    o.Kept out mem mem' := fun j _ _ hj => h j hj

end Setup

/-! ## Drawing a base -/

section Draw

variable {o : BigMontgomery build} {mem : Mem build} {n N : Nat} {outputs : List (Mem build)}

/-- The outputs in the range, as the loop takes them. -/
def accepted (legs N : Nat) (outputs : List (Mem build)) : List Nat :=
  (outputs.map fun output => number output 0 legs).filter fun base => decide (2 < base ∧ base < N)

theorem accepted_cons_pos {legs : Nat} {output : Mem build} (h : 2 < number output 0 legs)
    (h' : number output 0 legs < N) :
    accepted legs N (output :: outputs) = number output 0 legs :: accepted legs N outputs := by
  unfold accepted
  rw [List.map_cons]
  exact List.filter_cons_of_pos (decide_eq_true ⟨h, h'⟩)

theorem accepted_cons_neg {legs : Nat} {output : Mem build}
    (h : ¬(2 < number output 0 legs ∧ number output 0 legs < N)) :
    accepted legs N (output :: outputs) = accepted legs N outputs := by
  unfold accepted
  rw [List.map_cons]
  exact List.filter_cons_of_neg (by simpa using h)

/-- The loop takes the first output in the range. -/
theorem drawBase_spec (hn : n < o.regs) (hL : 0 < o.library_legs)
    (hN : number mem (o.lib.get n) o.library_legs = N) (outputs : List (Mem build)) :
    drawBase o (o.lib.get n) outputs mem = none ∧ accepted o.library_legs N outputs = [] ∨
      ∃ outputs' mem', drawBase o (o.lib.get n) outputs mem = some (outputs', mem') ∧
        accepted o.library_legs N outputs =
          number mem' (a o) o.library_legs :: accepted o.library_legs N outputs' ∧
        SameOff (a o) o.library_legs mem mem' ∧ 2 < number mem' (a o) o.library_legs ∧
        number mem' (a o) o.library_legs < N := by
  obtain ⟨h1, h2, h3, -, -⟩ := layout o hn
  induction outputs generalizing mem with
  | nil => exact .inl ⟨rfl, rfl⟩
  | cons output outputs ih =>
    obtain ⟨hoff, hbase⟩ := number_store (length_window output 0 o.library_legs) (a o) mem
    set drawn := store (window output 0 o.library_legs) (a o) mem with hdrawn
    have hN' : number drawn (o.lib.get n) o.library_legs = N :=
      (number_of_sameOff hoff (.inl (by omega))).trans hN
    have hbase' : number drawn (a o) o.library_legs = number output 0 o.library_legs := hbase
    have htwo : (2 : Leg build).toNat = 2 := by
      have := two_le_pow_legBits build
      rw [show (2 : Leg build) = BitVec.ofNat build.legBits 2 from rfl, BitVec.toNat_ofNat,
        Nat.mod_eq_of_lt (by omega)]
    have hless := less_eq drawn (a o) (o.lib.get n) o.library_legs
    have hgreater := greaterX_eq hL drawn (a o) 2
    rw [hN'] at hless
    rw [htwo] at hgreater
    unfold drawBase
    dsimp only
    rw [← hdrawn]
    by_cases hrange : 2 < number drawn (a o) o.library_legs ∧ number drawn (a o) o.library_legs < N
    · rw [hless.mpr hrange.2, hgreater.mpr hrange.1]
      refine .inr ⟨outputs, drawn, rfl, ?_, hoff, hrange⟩
      rw [hbase'] at hrange ⊢
      exact accepted_cons_pos hrange.1 hrange.2
    · have hreject : (!less drawn (a o) (o.lib.get n) o.library_legs ||
          !greaterX drawn (a o) 2 o.library_legs) = true := by
        rw [Bool.or_eq_true, Bool.not_eq_true', Bool.not_eq_true', ← Bool.not_eq_true,
          ← Bool.not_eq_true, hless, hgreater]
        exact (not_and_or.mp hrange).symm
      rw [if_pos hreject, accepted_cons_neg (by rwa [hbase'] at hrange)]
      refine (ih hN').imp_right fun ⟨outputs', mem', hrun, haccepted, hoff', hrange'⟩ =>
        ⟨outputs', mem', hrun, haccepted, hoff.trans hoff', hrange'⟩

end Draw

/-! ## Trials -/

section Trials

variable {o : BigMontgomery build} {mem : Mem build} {n N D s : Nat}

/-- Numbers below the modulus are as good as residues. -/
theorem cast_eq_iff {v w : Nat} (hv : v < N) (hw : w < N) : (v : ZMod N) = w ↔ v = w := by
  refine ⟨fun h => ?_, congrArg _⟩
  exact ((ZMod.natCast_eq_natCast_iff _ _ _).mp h).eq_of_lt_of_lt hv hw

theorem cast_eq_one_iff {v : Nat} (hv : v < N) (hN : 2 < N) : (v : ZMod N) = 1 ↔ v = 1 := by
  rw [← Nat.cast_one]
  exact cast_eq_iff hv (by omega)

theorem cast_eq_neg_one_iff {v : Nat} (hv : v < N) (hN : 2 < N) : (v : ZMod N) = -1 ↔ v = N - 1 := by
  rw [← cast_pred (by omega : 0 < N)]
  exact cast_eq_iff hv (by omega)

/-- The modulus is ready, with the registers of the test. -/
structure Works (o : BigMontgomery build) (n N D : Nat) (mem : Mem build) : Prop
    extends Setup o n N D mem where
  ready : o.Ready mem
  modulus : o.modulus mem = N

theorem Works.kept {mem' : Mem build} (h : Works o n N D mem) (hn : n < o.regs)
    (hL : 0 < o.library_legs) {out : Nat} (hk : o.Kept out mem mem') (hout : out = a o ∨ out = x o) :
    Works o n N D mem' := by
  have hclear : o.Clear out o.library_legs := by
    rcases hout with rfl | rfl
    · exact clear_a o
    · exact clear_x o
  exact ⟨h.toSetup.kept hn hk hout, hk.ready hclear h.ready hL, (hk.modulus hclear).trans h.modulus⟩

theorem Works.radix_mul (h : Works o n N D mem) (hL : 0 < o.library_legs) :
    (o.radix : ZMod N) * (o.radix : ZMod N)⁻¹ = 1 := by
  have hc := h.ready.coprime hL
  rw [h.modulus] at hc
  exact ZMod.coe_mul_inv_eq_one _ hc

/-- The base is kept while the output is taken. -/
theorem monOutput_base (h : Works o n N D mem) (hn : n < o.regs) (hL : 0 < o.library_legs)
    {y : ZMod N} (hres : (number mem (a o) o.library_legs : ZMod N) = y * o.radix) :
    ∃ mem', o.monOutput (a o) (x o) mem = mem' ∧ Works o n N D mem' ∧
      (number mem' (a o) o.library_legs : ZMod N) = y * o.radix ∧
      number mem' (x o) o.library_legs < N ∧ (number mem' (x o) o.library_legs : ZMod N) = y := by
  obtain ⟨-, -, h3, h4, h5⟩ := layout o hn
  have hkept := @kept_monOutput _ o mem (x o) hL (a o)
  obtain ⟨hlt, hval⟩ := monOutput_spec h.ready hL (clear_x o) (a o)
  rw [h.modulus] at hlt hval
  refine ⟨_, rfl, h.kept hn hL hkept (.inr rfl), ?_, hlt, ?_⟩
  · rw [hkept.number (by omega) (by omega), hres]
  · refine hval.trans ?_
    rw [hres, mul_assoc, h.radix_mul hL, mul_one]

/-- The rounds look for minus one among the squares. -/
theorem squareRounds_spec (hn : n < o.regs) (hL : 2 ≤ o.library_legs) (hN : 2 < N) {k : Nat}
    {y : ZMod N} (h : Works o n N D mem)
    (hres : (number mem (a o) o.library_legs : ZMod N) = y * o.radix) :
    ((squareRounds o k mem).1 = true ↔ ∃ r < k, y ^ 2 ^ (r + 1) = -1) ∧
      Works o n N D (squareRounds o k mem).2 := by
  induction k generalizing mem y with
  | zero => exact ⟨iff_of_false Bool.false_ne_true (by simp), h⟩
  | succ k ih =>
    obtain ⟨hkept, hsquare⟩ := monSquare_spec h.ready hL (clear_a o) (a o)
    have h1 := h.kept hn (by omega) hkept (.inl rfl)
    rw [h.modulus] at hsquare
    have hres1 : (number (o.monSquare (a o) (a o) mem) (a o) o.library_legs : ZMod N) =
        y * y * o.radix := by
      refine hsquare.trans ?_
      rw [hres]
      linear_combination y * y * (o.radix : ZMod N) * h.radix_mul (by omega)
    obtain ⟨mem2, hmem2, h2, hres2, hlt, hval⟩ := monOutput_base h1 hn (by omega) hres1
    have hone := equalX_eq (by omega : 0 < o.library_legs) mem2 (x o) 1
    have hneg := equal_eq mem2 (x o) (n_1 o) o.library_legs
    rw [one_toNat, ← cast_eq_one_iff hlt hN, hval] at hone
    rw [h2.n_1, ← cast_eq_neg_one_iff hlt hN, hval] at hneg
    unfold squareRounds
    dsimp only
    rw [hmem2]
    by_cases hyone : y * y = 1
    · rw [if_pos (hone.mpr hyone)]
      refine ⟨iff_of_false Bool.false_ne_true ?_, h2⟩
      rintro ⟨r, -, hr⟩
      rw [pow_succ', pow_mul, pow_two, hyone] at hr
      exact one_ne_square (one_ne_neg_one hN) r hr
    · rw [if_neg (mt hone.mp hyone)]
      by_cases hyneg : y * y = -1
      · rw [if_pos (hneg.mpr hyneg)]
        refine ⟨iff_of_true rfl ⟨0, by omega, ?_⟩, h2⟩
        rw [zero_add, pow_one, pow_two, hyneg]
      · rw [if_neg (mt hneg.mp hyneg), exists_square_succ hyneg]
        exact ih h2 hres2

/-- The power is looked at before its squares. -/
theorem checkPower_spec (hn : n < o.regs) (hL : 2 ≤ o.library_legs) (hN : 2 < N) {y : ZMod N}
    (h : Works o n N D mem) (hres : (number mem (a o) o.library_legs : ZMod N) = y * o.radix)
    (hlt : number mem (x o) o.library_legs < N)
    (hval : (number mem (x o) o.library_legs : ZMod N) = y) :
    ((checkPower o (o.lib.get n) s mem).1 = true ↔
        y = 1 ∨ y = -1 ∨ ∃ r < s - 1, y ^ 2 ^ (r + 1) = -1) ∧
      Works o n N D (checkPower o (o.lib.get n) s mem).2 := by
  obtain ⟨-, -, h3, -, -⟩ := layout o hn
  -- adding one does not carry
  obtain ⟨hoff, hsum⟩ := addX_register (by omega : 0 < o.library_legs) mem (x o) 1
  have hNlt := number_lt mem (o.lib.get n) o.library_legs
  rw [h.n] at hNlt
  rw [one_toNat] at hsum
  unfold checkPower
  dsimp only
  set sum := addX (window mem (x o) o.library_legs) 1 with hsumDef
  obtain ⟨hcarry, -, hsucc⟩ := hsum.resolve_right (by omega)
  set mem' := store sum.2 (x o) mem with hmem'
  have h' := h.kept hn (by omega) (kept_of_sameOff hoff) (.inr rfl)
  have hres' : (number mem' (a o) o.library_legs : ZMod N) = y * o.radix := by
    rw [number_of_sameOff hoff (.inr h3), hres]
  have hone := equalX_eq (by omega : 0 < o.library_legs) mem (x o) 1
  have hneg : sum.1 = 0 ∧ equal mem' (x o) (o.lib.get n) o.library_legs = true ↔
      number mem (x o) o.library_legs = N - 1 := by
    rw [equal_eq, hsucc, h'.n, and_iff_right hcarry]
    omega
  rw [one_toNat, ← cast_eq_one_iff hlt hN, hval] at hone
  rw [← cast_eq_neg_one_iff hlt hN, hval] at hneg
  by_cases hy : y = 1
  · rw [if_pos (hone.mpr hy)]
    exact ⟨iff_of_true rfl (.inl hy), h⟩
  · rw [if_neg (mt hone.mp hy), or_iff_right hy]
    by_cases hy' : y = -1
    · rw [if_pos (hneg.mpr hy')]
      exact ⟨iff_of_true rfl (.inl hy'), h'⟩
    · rw [if_neg (mt hneg.mp hy'), or_iff_right hy']
      exact squareRounds_spec hn hL hN h' hres'

/-- A trial: the base passes if the power and its squares do. -/
theorem trial_spec (hn : n < o.regs) (hL : 2 ≤ o.library_legs) (hN : 2 < N) (hs : 0 < s) (hD : D ≠ 0)
    (h : Works o n N D mem) (hbase : number mem (a o) o.library_legs < N) :
    ∃ r, (∀ fuel, 3 ≤ fuel → trial o fuel (o.lib.get n) s mem = some r) ∧
      (r.1 = true ↔ Passes s D (number mem (a o) o.library_legs : ZMod N)) ∧ Works o n N D r.2 := by
  obtain ⟨-, -, h3, h4, h5⟩ := layout o hn
  obtain ⟨mem1, hrun, hkept, hval⟩ : ∃ mem1,
      (∀ fuel, 3 ≤ fuel → o.monInput fuel (a o) (x o) mem = some mem1) ∧ o.Kept (x o) mem mem1 ∧
        number mem1 (x o) o.library_legs = o.radix * number mem (a o) o.library_legs % o.modulus mem :=
    monInput_spec hL (user_a o) (user_x o) (h.modulus.symm ▸ hbase)
  have h1 := h.kept hn (by omega) hkept (.inr rfl)
  have hbased : o.Based mem1 (x o) (a o)
      (number mem (a o) o.library_legs : ZMod (o.modulus mem1)) := by
    refine ⟨h1.ready, hL, (user_x o).le, (user_a o).le, .inl h3, ?_⟩
    rw [hval, h.modulus, h1.modulus, ZMod.natCast_mod, Nat.cast_mul, mul_comm]
  obtain ⟨hkept2, hpower⟩ := monExpMod_spec hbased h5 (.inr h4) (h1.d.symm ▸ hD)
  have h2 := h1.kept hn (by omega) hkept2 (.inl rfl)
  rw [h1.d, h1.modulus] at hpower
  obtain ⟨mem3, hmem3, hw3, hres3, hlt3, hval3⟩ := monOutput_base h2 hn (by omega) hpower
  obtain ⟨hcheck, hw⟩ := @checkPower_spec _ _ _ n N D s hn hL hN _ hw3 hres3 hlt3 hval3
  refine ⟨checkPower o (o.lib.get n) s mem3, fun fuel hfuel => ?_, hcheck.trans (passes_iff hs).symm, hw⟩
  unfold trial
  rw [hrun fuel hfuel, ← hmem3]
  rfl

end Trials

/-! ## Trials without a modulus -/

section Idle

variable {o : BigMontgomery build} {mem : Mem build} {n N D s : Nat}

/-- The registers of the test, and a reduction that gives nothing. -/
structure Stalls (o : BigMontgomery build) (n N D : Nat) (mem : Mem build) : Prop
    extends Setup o n N D mem where
  idle : o.Idle mem

theorem Stalls.kept {mem' : Mem build} (h : Stalls o n N D mem) (hn : n < o.regs) {out : Nat}
    (hk : o.Kept out mem mem') (hout : out = a o ∨ out = x o) : Stalls o n N D mem' := by
  refine ⟨h.toSetup.kept hn hk hout, h.idle.kept hk ?_⟩
  rcases hout with rfl | rfl
  · exact clear_a o
  · exact clear_x o

/-- All squares come out as zero. -/
theorem squareRounds_stalls (hn : n < o.regs) (hL : 0 < o.library_legs) (hN : 2 ≤ N)
    (h : Stalls o n N D mem) (k : Nat) : (squareRounds o k mem).1 = false := by
  induction k generalizing mem with
  | zero => rfl
  | succ k ih =>
    have h1 := h.kept hn (kept_monSquare hL (a o)) (.inl rfl)
    have h2 := h1.kept hn (kept_monOutput hL (a o)) (.inr rfl)
    have hzero := h1.idle.monOutput hL (a o) (x o)
    unfold squareRounds
    dsimp only
    set mem2 := o.monOutput (a o) (x o) (o.monSquare (a o) (a o) mem) with hmem2
    rw [if_neg (by rw [equalX_eq hL, hzero, one_toNat]; omega),
      if_neg (by rw [equal_eq, hzero, h2.n_1]; omega)]
    exact ih h2

/-- A power that comes out as zero is no answer. -/
theorem checkPower_stalls (hn : n < o.regs) (hL : 0 < o.library_legs) (hN : 2 ≤ N)
    (h : Stalls o n N D mem) (hzero : number mem (x o) o.library_legs = 0) :
    (checkPower o (o.lib.get n) s mem).1 = false := by
  obtain ⟨hoff, hsum⟩ := addX_register hL mem (x o) 1
  have hNlt := number_lt mem (o.lib.get n) o.library_legs
  rw [h.n] at hNlt
  rw [hzero, one_toNat] at hsum
  unfold checkPower
  dsimp only
  obtain ⟨-, -, hsucc⟩ := hsum.resolve_right (by omega)
  set mem' := store (addX (window mem (x o) o.library_legs) 1).2 (x o) mem with hmem'
  have h' := h.kept hn (kept_of_sameOff hoff) (.inr rfl)
  rw [if_neg (by rw [equalX_eq hL, hzero, one_toNat]; omega),
    if_neg (by rw [equal_eq, hsucc, h'.n]; omega)]
  exact squareRounds_stalls hn hL hN h' _

/-- A base that is put in place of the residues of an idle modulus does not pass. -/
theorem trial_stalls (hn : n < o.regs) (hN : 2 ≤ N) (h : Setup o n N D mem)
    (hmod : o.modulus mem = N) (hidle : o.library_legs = 1 ∨ 2 ≤ o.library_legs ∧ o.mod_inv = 0)
    (hpos : 0 < number mem (a o) o.library_legs) (hbase : number mem (a o) o.library_legs < N) :
    ∃ r, (∀ fuel, 3 ≤ fuel → trial o fuel (o.lib.get n) s mem = some r) ∧ r.1 = false := by
  have hL : 0 < o.library_legs := by omega
  obtain ⟨h1, h2, h3, h4, h5⟩ := layout o hn
  obtain ⟨mem1, hrun, hs1⟩ : ∃ mem1,
      (∀ fuel, 3 ≤ fuel → o.monInput fuel (a o) (x o) mem = some mem1) ∧ Stalls o n N D mem1 := by
    rcases hidle with hone | ⟨hlegs, hinv⟩
    · obtain ⟨mem1, hrun, hframe, hzero⟩ :=
        monInput_one_leg hone (user_a o) (user_x o) hpos (by omega)
      have hsame {p : Nat} (hp : p + o.library_legs ≤ o.TempProduct)
          (hx : p + o.library_legs ≤ x o ∨ x o + o.library_legs ≤ p) :
          number mem1 p o.library_legs = number mem p o.library_legs :=
        number_congr fun i hi => hframe _ (by omega) (by
          show p + i < x o ∨ x o + o.library_legs ≤ p + i
          omega)
      refine ⟨mem1, hrun, ⟨⟨(hsame ?_ ?_).trans h.n, (hsame ?_ ?_).trans h.n_1,
        (hsame ?_ ?_).trans h.d⟩, .inr hzero⟩⟩ <;> omega
    · obtain ⟨mem1, hrun, hkept, -⟩ := monInput_spec hlegs (user_a o) (user_x o) (hmod.symm ▸ hbase)
      exact ⟨mem1, hrun, h.kept hn hkept (.inr rfl), .inl hinv⟩
  have hs2 := hs1.kept hn (@kept_monExpMod _ o mem1 (x o) (d o) (a o) hL) (.inl rfl)
  have hs3 := hs2.kept hn (kept_monOutput hL (a o)) (.inr rfl)
  have hzero := hs2.idle.monOutput hL (a o) (x o)
  set mem3 := o.monOutput (a o) (x o) (o.monExpMod (x o) (d o) (a o) mem1) with hmem3
  refine ⟨checkPower o (o.lib.get n) s mem3, fun fuel hfuel => ?_,
    checkPower_stalls hn hL hN hs3 hzero⟩
  unfold trial
  rw [hrun fuel hfuel]
  rfl

end Idle

/-! ## Runs -/

section Runs

variable {o : BigMontgomery build} {mem : Mem build} {n N s : Nat} {Inv : Mem build → Prop}
  {Pass : Nat → Prop}

/-- A trial decides about the base in its register, and trials with bases that pass can go on. -/
structure Decides (o : BigMontgomery build) (n N s : Nat) (Inv : Mem build → Prop)
    (Pass : Nat → Prop) : Prop where
  modulus : ∀ mem, Inv mem → number mem (o.lib.get n) o.library_legs = N
  draw : ∀ mem mem', Inv mem → SameOff (a o) o.library_legs mem mem' → Inv mem'
  trial : ∀ mem, Inv mem → 2 < number mem (a o) o.library_legs →
    number mem (a o) o.library_legs < N →
    ∃ r, (∀ fuel, 3 ≤ fuel → trial o fuel (o.lib.get n) s mem = some r) ∧
      (r.1 = true ↔ Pass (number mem (a o) o.library_legs)) ∧ (r.1 = true → Inv r.2)

/-- The trials pass if there are enough bases and the first ones of these pass; they fail with one that
does not. -/
theorem runTrials_spec (h : Decides o n N s Inv Pass) (hn : n < o.regs) (hL : 0 < o.library_legs)
    {fuel : Nat} (hfuel : 3 ≤ fuel) (trials : Nat) (outputs : List (Mem build)) (hinv : Inv mem) :
    ((runTrials o fuel (o.lib.get n) s trials outputs mem).map Prod.fst = some true ↔
        trials ≤ (accepted o.library_legs N outputs).length ∧
          ∀ base ∈ (accepted o.library_legs N outputs).take trials, Pass base) ∧
      ((runTrials o fuel (o.lib.get n) s trials outputs mem).map Prod.fst = some false ↔
        ∃ base ∈ (accepted o.library_legs N outputs).take trials, ¬Pass base) := by
  induction trials generalizing outputs mem with
  | zero => simp [runTrials]
  | succ trials ih =>
    unfold runTrials
    rcases drawBase_spec hn hL (h.modulus mem hinv) outputs with
      ⟨hnone, hempty⟩ | ⟨outputs', mem', hdraw, haccepted, hoff, hlo, hhi⟩
    · rw [hnone, hempty]
      simp
    · have hinv' := h.draw mem mem' hinv hoff
      obtain ⟨r, htrial, hpass, hnext⟩ := h.trial mem' hinv' hlo hhi
      rw [hdraw, haccepted]
      simp only [Option.bind_eq_bind, Option.bind_some, htrial fuel hfuel, List.length_cons,
        List.take_succ_cons, List.mem_cons, forall_eq_or_imp, exists_eq_or_imp,
        Nat.add_le_add_iff_right]
      by_cases hr : r.1 = true
      · rw [if_pos hr]
        obtain ⟨htrue, hfalse⟩ := ih outputs' (hnext hr)
        rw [htrue, hfalse]
        have := hpass.mp hr
        tauto
      · rw [if_neg hr]
        have := mt hpass.mpr hr
        simp [this]

end Runs

/-! ## The modulus and the odd part -/

section Start

variable {o : BigMontgomery build} {mem : Mem build} {n N : Nat}

theorem negated_even {y : Leg build} (h : Even y.toNat) : -y &&& 1 = 0 := by
  refine BitVec.eq_of_toNat_eq ?_
  rw [BitVec.toNat_and, one_toNat, Nat.and_one_is_mod, Division.zero_toNat]
  have hsum := congrArg BitVec.toNat (neg_add_cancel y)
  rw [BitVec.toNat_add, Division.zero_toNat] at hsum
  have htwo := (two_dvd_pow_legBits build).trans (Nat.dvd_of_mod_eq_zero hsum)
  obtain ⟨k, hk⟩ := h
  omega

/-- `SetModulus` finds an inverse for the odd moduli, and none for the even ones. -/
theorem setModulus_cases (hn : n < o.regs) (hL : 0 < o.library_legs)
    (hN : number mem (o.lib.get n) o.library_legs = N) :
    ∃ mod_inv, (∀ fuel, 6 ≤ fuel → o.setModulus fuel (o.lib.get n) mem =
        some ({ o with mod_inv }, copy o.library_legs (o.lib.get n) o.CachedModulus mem)) ∧
      (Odd N → { o with mod_inv }.Ready (copy o.library_legs (o.lib.get n) o.CachedModulus mem)) ∧
      (¬Odd N → mod_inv = 0) := by
  by_cases hodd : Odd N
  · obtain ⟨mod_inv, mem', hrun, hready, -⟩ := o.setModulus_spec mem n (hN.symm ▸ hodd)
    obtain rfl : copy o.library_legs (o.lib.get n) o.CachedModulus mem = mem' := by
      have hset := hrun 6 le_rfl
      unfold setModulus at hset
      obtain ⟨_, -, hpair⟩ := Option.map_eq_some_iff.mp hset
      exact congrArg Prod.snd hpair
    exact ⟨mod_inv, hrun, fun _ => hready, fun heven => absurd hodd heven⟩
  · obtain ⟨-, -, -, -, h5⟩ := layout o hn
    obtain ⟨m, hm⟩ : ∃ m, o.library_legs = m + 1 := ⟨o.library_legs - 1, by omega⟩
    have hcached := o.cachedModulus_eq
    have hlow : copy o.library_legs (o.lib.get n) o.CachedModulus mem (o.lib.get n) =
        mem (o.lib.get n) := sameOff_copy _ _ _ _ _ (.inl (by
      have := layout o hn
      omega))
    have heven : Even (mem (o.lib.get n)).toNat := by
      rw [← hN, hm, number_succ, Nat.not_odd_iff_even] at hodd
      exact (Nat.even_add.mp hodd).mpr (even_iff_two_dvd.mpr
        ((two_dvd_pow_legBits build).mul_right _))
    refine ⟨0, fun fuel _ => ?_, fun h => absurd h hodd, fun _ => rfl⟩
    unfold setModulus multiplicativeInverseX
    dsimp only
    rw [hlow, if_neg (not_not.mpr (negated_even heven)), Option.map_some]

/-- Up to the trials. -/
theorem start_spec (hn : n < o.regs) (hL : 0 < o.library_legs) (hN : 2 ≤ N)
    (hnum : number mem (o.lib.get n) o.library_legs = N) :
    ∃ mod_inv s D mem', (∀ fuel, 6 ≤ fuel → ∀ trials outputs,
        isRabinMillerPrime o fuel (o.lib.get n) trials outputs mem =
          runTrials { o with mod_inv } fuel (o.lib.get n) s trials outputs mem') ∧
      Odd D ∧ N - 1 = 2 ^ s * D ∧ Setup { o with mod_inv } n N D mem' ∧
      { o with mod_inv }.modulus mem' = N ∧ (Odd N → { o with mod_inv }.Ready mem') ∧
      (¬Odd N → mod_inv = 0) := by
  obtain ⟨h1, h2, h3, h4, h5⟩ := layout o hn
  have hcached := o.cachedModulus_eq
  obtain ⟨mod_inv, hset, hready, hinv⟩ := setModulus_cases hn hL hnum
  have hgreater := greaterX_eq hL mem (o.lib.get n) 1
  rw [one_toNat, hnum] at hgreater
  -- the modulus, n - 1 in its register, and a copy for its odd part
  have hoff0 := sameOff_copy o.library_legs (o.lib.get n) o.CachedModulus mem
  have hnum0 := number_copy o.library_legs (o.lib.get n) o.CachedModulus mem
  set mem0 := copy o.library_legs (o.lib.get n) o.CachedModulus mem with hmem0
  have hoff1 := sameOff_copy o.library_legs (o.lib.get n) (n_1 o) mem0
  have hnum1 := number_copy o.library_legs (o.lib.get n) (n_1 o) mem0
  set mem1 := copy o.library_legs (o.lib.get n) (n_1 o) mem0 with hmem1
  rw [number_of_sameOff hoff0 (.inl (by omega)), hnum] at hnum1
  obtain ⟨hoff2, hdiff⟩ := subtractX_register hL mem1 (n_1 o) 1
  rw [hnum1, one_toNat] at hdiff
  obtain ⟨-, -, hnum2⟩ := hdiff.resolve_right (by omega)
  set mem2 := store (subtractX (window mem1 (n_1 o) o.library_legs) 1).2 (n_1 o) mem1 with hmem2
  have hoff3 := sameOff_copy o.library_legs (n_1 o) (d o) mem2
  have hnum3 := number_copy o.library_legs (n_1 o) (d o) mem2
  set mem3 := copy o.library_legs (n_1 o) (d o) mem2 with hmem3
  obtain ⟨hoff4, hodd, hsplit⟩ := @eatTrailingZeroes_spec _ mem3 (d o) o.library_legs (by omega)
  set eaten := eatTrailingZeroes o.library_legs (d o) mem3 with heaten
  have hlow : SameOff (d o) o.library_legs mem2 eaten.2 := hoff3.trans hoff4
  have hcachedSame : SameOff (n_1 o) (o.TempProduct - n_1 o) mem0 eaten.2 :=
    ((hoff1.trans hoff2).mono le_rfl (by omega)).trans (hlow.mono (by omega) (by omega))
  refine ⟨mod_inv, eaten.1, number eaten.2 (d o) o.library_legs, eaten.2, fun fuel hfuel trials outputs =>
    ?_, hodd, by omega, ⟨?_, ?_, rfl⟩, ?_, fun h => ?_, hinv⟩
  · unfold isRabinMillerPrime
    rw [hgreater.mpr (by omega), hset fuel hfuel]
    rfl
  · show number eaten.2 (o.lib.get n) o.library_legs = N
    rw [number_of_sameOff hcachedSame (.inl h1), number_of_sameOff hoff0 (.inl (by omega)), hnum]
  · show number eaten.2 (n_1 o) o.library_legs = N - 1
    rw [number_of_sameOff hlow (.inl (by omega))]
    omega
  · show number eaten.2 o.CachedModulus o.library_legs = N
    rw [number_of_sameOff hcachedSame (.inr (by omega)), hnum0, hnum]
  · exact (hready h).congr (hcachedSame o.CachedModulus (.inr (by omega)))

end Start

/-! ## The test -/

section Test

variable {o : BigMontgomery build} {mem : Mem build} {n N D s trials : Nat}

/-- What `IsRabinMillerPrime` returns. -/
def answer (o : BigMontgomery build) (fuel n trials : Nat) (outputs : List (Mem build))
    (mem : Mem build) : Option Bool :=
  (isRabinMillerPrime o fuel n trials outputs mem).map Prod.fst

/-- What the test is for: it is not wrong about primes and returns as soon as there are enough bases; a
composite number for which it returns true has strong liars only among its bases; and there is a base
to draw. -/
structure Tests (o : BigMontgomery build) (mem : Mem build) (n trials : Nat) : Prop where
  answers : ∃ rounds, ∀ fuel, rounds ≤ fuel → ∀ outputs,
    (Nat.Prime (number mem (o.lib.get n) o.library_legs) →
      answer o fuel (o.lib.get n) trials outputs mem ≠ some false ∧
      (trials ≤ (accepted o.library_legs (number mem (o.lib.get n) o.library_legs) outputs).length →
        answer o fuel (o.lib.get n) trials outputs mem = some true)) ∧
    (¬Nat.Prime (number mem (o.lib.get n) o.library_legs) →
      answer o fuel (o.lib.get n) trials outputs mem = some true →
      ∀ base ∈ (accepted o.library_legs (number mem (o.lib.get n) o.library_legs) outputs).take trials,
        IsStrongLiar (number mem (o.lib.get n) o.library_legs) base)
  draws : 2 ≤ number mem (o.lib.get n) o.library_legs →
    ∃ output, (drawBase o (o.lib.get n) [output] mem).isSome

theorem decides_odd (hn : n < o.regs) (hL : 2 ≤ o.library_legs) (hN : 2 < N) (hs : 0 < s)
    (hD : D ≠ 0) : Decides o n N s (Works o n N D) fun base => Passes s D (base : ZMod N) where
  modulus _ h := h.n
  draw _ _ h hoff := h.kept hn (by omega) (kept_of_sameOff hoff) (.inl rfl)
  trial _ h _ hhi := by
    obtain ⟨r, hrun, hpass, hworks⟩ := trial_spec hn hL hN hs hD h hhi
    exact ⟨r, hrun, hpass, fun _ => hworks⟩

theorem decides_idle (hn : n < o.regs) (hN : 2 ≤ N)
    (hidle : o.library_legs = 1 ∨ 2 ≤ o.library_legs ∧ o.mod_inv = 0) :
    Decides o n N s (fun mem => Setup o n N D mem ∧ o.modulus mem = N) fun _ => False where
  modulus _ h := h.1.n
  draw _ _ h hoff := by
    have hk := kept_of_sameOff hoff
    exact ⟨h.1.kept hn hk (.inl rfl), (hk.modulus (clear_a o)).trans h.2⟩
  trial _ h hlo hhi := by
    obtain ⟨r, hrun, hfalse⟩ := trial_stalls hn hN h.1 h.2 hidle (by omega) hhi
    exact ⟨r, hrun, by simp [hfalse], by simp [hfalse]⟩

/-- With two legs an odd number is tested. -/
theorem answers_odd (hn : n < o.regs) (hL : 2 ≤ o.library_legs) (hN : 2 < N) (hodd : Odd N)
    (hnum : number mem (o.lib.get n) o.library_legs = N) :
    ∃ s D, Odd D ∧ N - 1 = 2 ^ s * D ∧ ∀ fuel, 6 ≤ fuel → ∀ trials outputs,
      (answer o fuel (o.lib.get n) trials outputs mem = some true ↔
        trials ≤ (accepted o.library_legs N outputs).length ∧
          ∀ base ∈ (accepted o.library_legs N outputs).take trials, Passes s D (base : ZMod N)) ∧
      (answer o fuel (o.lib.get n) trials outputs mem = some false ↔
        ∃ base ∈ (accepted o.library_legs N outputs).take trials, ¬Passes s D (base : ZMod N)) := by
  obtain ⟨mod_inv, s, D, mem', hrun, hD, hsplit, hsetup, hmod, hready, -⟩ :=
    start_spec hn (by omega) (by omega) hnum
  have hs : 0 < s := Nat.pos_of_ne_zero fun h0 => by
    rw [h0, pow_zero, Nat.one_mul] at hsplit
    rw [← hsplit] at hD
    obtain ⟨j, hj⟩ := hodd
    obtain ⟨k, hk⟩ := hD
    omega
  refine ⟨s, D, hD, hsplit, fun fuel hfuel trials outputs => ?_⟩
  unfold answer
  rw [hrun fuel hfuel]
  exact runTrials_spec (@decides_odd _ { o with mod_inv } n N D s hn hL hN hs hD.pos.ne') hn
    (show 0 < o.library_legs by omega) (by omega) trials outputs ⟨hsetup, hready hodd, hmod⟩

/-- With one leg, or an even number, no base passes. -/
theorem answers_idle (hn : n < o.regs) (hL : 0 < o.library_legs) (hN : 2 ≤ N)
    (hidle : o.library_legs = 1 ∨ ¬Odd N) (hnum : number mem (o.lib.get n) o.library_legs = N) :
    ∀ fuel, 6 ≤ fuel → ∀ trials outputs,
      (answer o fuel (o.lib.get n) trials outputs mem = some true ↔
        trials ≤ (accepted o.library_legs N outputs).length ∧
          ∀ base ∈ (accepted o.library_legs N outputs).take trials, False) ∧
      (answer o fuel (o.lib.get n) trials outputs mem = some false ↔
        ∃ base ∈ (accepted o.library_legs N outputs).take trials, ¬False) := by
  obtain ⟨mod_inv, s, D, mem', hrun, -, -, hsetup, hmod, -, hinv⟩ := start_spec hn hL hN hnum
  intro fuel hfuel trials outputs
  have hidle' : o.library_legs = 1 ∨ 2 ≤ o.library_legs ∧ mod_inv = 0 := by
    rcases hidle with hone | heven
    · exact .inl hone
    · rcases Nat.lt_or_ge 1 o.library_legs with hlegs | hlegs
      · exact .inr ⟨hlegs, hinv heven⟩
      · exact .inl (by omega)
  unfold answer
  rw [hrun fuel hfuel]
  exact runTrials_spec (@decides_idle _ { o with mod_inv } n N D s hn hN hidle') hn hL (by omega)
    trials outputs ⟨hsetup, hmod⟩

/-- An output that is in the range of every larger number. -/
theorem exists_three (o : BigMontgomery build) (hL : 0 < o.library_legs) :
    ∃ output : Mem build, number output 0 o.library_legs = 3 := by
  refine ⟨copyX o.library_legs 3 0 fun _ => 0, ?_⟩
  have hbits : 2 ^ 2 ≤ 2 ^ build.legBits :=
    Nat.pow_le_pow_right (by omega) (by have := build.legBits_ge; omega)
  rw [number_copyX hL, show (3 : Leg build) = BitVec.ofNat build.legBits 3 from rfl,
    BitVec.toNat_ofNat, Nat.mod_eq_of_lt (by omega)]

theorem accepted_replicate {legs : Nat} {output : Mem build} (h : number output 0 legs = 3)
    (hN : 4 ≤ N) (trials : Nat) :
    accepted legs N (List.replicate trials output) = List.replicate trials 3 := by
  induction trials with
  | zero => rfl
  | succ trials ih =>
    rw [List.replicate_succ, List.replicate_succ, accepted_cons_pos (by omega) (by omega), h, ih]

/-- A base can be drawn for the numbers from four on. -/
theorem draws_iff (hn : n < o.regs) (hL : 0 < o.library_legs)
    (hnum : number mem (o.lib.get n) o.library_legs = N) :
    (∃ output, (drawBase o (o.lib.get n) [output] mem).isSome) ↔ 4 ≤ N := by
  constructor
  · rintro ⟨output, hsome⟩
    rcases drawBase_spec hn hL hnum [output] with ⟨hnone, -⟩ | ⟨_, _, -, -, -, hlo, hhi⟩
    · rw [hnone] at hsome
      cases hsome
    · omega
  · intro hN
    obtain ⟨output, hthree⟩ := exists_three o hL
    refine ⟨output, ?_⟩
    rcases drawBase_spec hn hL hnum [output] with ⟨-, hempty⟩ | ⟨_, _, hdraw, -⟩
    · rw [accepted_cons_pos (by omega) (by omega)] at hempty
      cases hempty
    · rw [hdraw]
      rfl

/-- **The Rabin-Miller test** does what it is for below two, where it returns false, and from four on; a
prime needs two legs for it, unless there are no trials. For two and three no base is ever drawn. -/
theorem rabin_miller (hn : n < o.regs) (hL : 0 < o.library_legs) :
    Tests o mem n trials ↔ number mem (o.lib.get n) o.library_legs < 2 ∨
      4 ≤ number mem (o.lib.get n) o.library_legs ∧
        (2 ≤ o.library_legs ∨ ¬Nat.Prime (number mem (o.lib.get n) o.library_legs) ∨ trials = 0) := by
  obtain ⟨N, hnum⟩ : ∃ N, number mem (o.lib.get n) o.library_legs = N := ⟨_, rfl⟩
  have hdraws := draws_iff hn hL hnum
  constructor
  · rintro ⟨⟨rounds, hanswers⟩, hdraw⟩
    rw [hnum] at hanswers hdraw ⊢
    by_contra hnot
    have hN : 4 ≤ N := hdraws.mp (hdraw (by omega))
    have hprime : Nat.Prime N := by
      by_contra hcomposite
      exact hnot (.inr ⟨hN, .inr (.inl hcomposite)⟩)
    obtain ⟨output, hthree⟩ := exists_three o hL
    have hfalse := (answers_idle hn hL (by omega) (.inl (by omega)) hnum (max rounds 6)
      (le_max_right _ _) trials (List.replicate trials output)).2
    refine (((hanswers _ (le_max_left rounds 6) _).1 hprime).1) (hfalse.mpr ⟨3, ?_, id⟩)
    rw [accepted_replicate hthree hN, List.take_replicate, Nat.min_self, List.mem_replicate]
    exact ⟨fun h0 => hnot (.inr ⟨hN, .inr (.inr h0)⟩), rfl⟩
  · rintro (hsmall | ⟨hN, hcase⟩)
    · have hfalse (fuel : Nat) (outputs : List (Mem build)) :
          answer o fuel (o.lib.get n) trials outputs mem = some false := by
        have hgreater := greaterX_eq hL mem (o.lib.get n) 1
        rw [one_toNat] at hgreater
        unfold answer isRabinMillerPrime
        rw [Bool.eq_false_iff.mpr (mt hgreater.mp (by omega))]
        rfl
      refine ⟨⟨0, fun fuel _ outputs => ⟨fun hprime => ?_, fun _ htrue => ?_⟩⟩, fun hge => ?_⟩
      · exact absurd hprime.two_le (by omega)
      · rw [hfalse] at htrue
        cases htrue
      · omega
    · rw [hnum] at hN hcase
      refine ⟨⟨6, fun fuel hfuel outputs => ?_⟩, fun _ => hdraws.mpr hN⟩
      rw [hnum]
      by_cases hidle : o.library_legs = 1 ∨ ¬Odd N
      · obtain ⟨htrue, hfalse⟩ := answers_idle hn hL (by omega) hidle hnum fuel hfuel trials outputs
        refine ⟨fun hprime => ?_, fun _ h base hbase => absurd ((htrue.mp h).2 base hbase) id⟩
        have hzero : trials = 0 := by
          have hodd := hprime.odd_of_ne_two (by omega)
          rcases hcase with hlegs | hcomposite | h0
          · rcases hidle with hone | heven
            · omega
            · exact absurd hodd heven
          · exact absurd hprime hcomposite
          · exact h0
        rw [ne_eq, hfalse, htrue, hzero]
        simp
      · rw [not_or, not_not] at hidle
        obtain ⟨s, D, hD, hsplit, hanswers⟩ :=
          answers_odd hn (by omega) (by omega) hidle.2 hnum
        obtain ⟨htrue, hfalse⟩ := hanswers fuel hfuel trials outputs
        refine ⟨fun hprime => ?_, fun _ h base hbase =>
          isStrongLiar_of_passes (by omega) hD hsplit ((htrue.mp h).2 base hbase)⟩
        have hpass : ∀ base ∈ (accepted o.library_legs N outputs).take trials,
            Passes s D (base : ZMod N) := fun base hbase => by
          obtain ⟨-, hrange⟩ := List.mem_filter.mp (List.mem_of_mem_take hbase)
          have := of_decide_eq_true hrange
          exact passes_of_prime hprime (by omega) this.2 hsplit
        refine ⟨fun h => ?_, fun hlen => htrue.mpr ⟨hlen, hpass⟩⟩
        obtain ⟨base, hbase, hnot⟩ := hfalse.mp h
        exact hnot (hpass base hbase)

/-- Thirteen in two legs. -/
theorem rabin_miller_thirteen :
    @Tests ⟨false, true, false⟩ ⟨2, 6, 0⟩ (fun i => [13].getD i 0) 0 20 :=
  (rabin_miller (by decide) (by decide)).mpr (.inr ⟨by decide, .inl (by decide)⟩)

/-- Three in two legs: it is prime, and no base is between two and three. -/
theorem rabin_miller_three :
    ¬@Tests ⟨false, true, false⟩ ⟨2, 6, 0⟩ (fun i => [3].getD i 0) 0 20 := by
  rintro ⟨-, hdraw⟩
  have hge : 4 ≤ 3 := (@draws_iff _ ⟨2, 6, 0⟩ _ 0 3 (by decide) (by decide) (by decide)).mp
    (hdraw (by decide))
  omega

end Test

end Libcat.Math.RabinMiller
