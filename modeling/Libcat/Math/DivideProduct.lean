import Libcat.Math.Divide
import Libcat.Math.Multiply

/-!
# Division of products

`DivideProduct` and `MulMod` of `BigRTL`. Where they are wrong: `a < b` clears as many bytes of the
quotient as it has legs, and when the quotient fills all its legs `DivideCore` zeroes the leg after
them. In `MulMod` that is the scratch denominator, and the correction loop does not end.
-/

namespace Libcat.Math.DivideProduct

open Radix Window BigRTL Registers Division LongDivision Divide

variable {build : Build}

section Model

/-- `memset(dst, 0, n)` for so many bytes; the first byte of a leg is its lowest. -/
def memset (n dst : Nat) (mem : Mem build) : Mem build := fun i =>
  if dst ≤ i then
    let bytes := n - (i - dst) * (build.legBits / 8)
    (mem i >>> (8 * bytes)) <<< (8 * bytes)
  else mem i

/-- `DivideProduct`. -/
def divideProduct (fuel : Nat) (lib : Library) (in_a in_b out_q out_r : Nat) (mem : Mem build) :
    Option (Bool × Mem build) :=
  let legs := lib.library_legs
  let B_used := legsUsed mem in_b legs
  if B_used = 0 then some (false, mem)
  else
    let in_a_hi := in_a + legs
    let A_used := legsUsed mem in_a_hi legs
    let A := lib.get (lib.library_regs - 2)
    let B := lib.get (lib.library_regs - 3)
    if A_used ≠ 0 then
      (longDivide fuel legs (legs * 2) (A_used + legs) B_used in_a in_b A B out_q out_r mem).map
        fun mem => (true, mem)
    else if less mem in_a in_b legs then
      -- if a < b, avoid division
      some (true, memset (legs * 2) out_q (copy legs in_a out_r mem))
    else
      (longDivide fuel legs (legs * 2) (legsUsed mem in_a legs) B_used in_a in_b A B out_q out_r
        mem).map fun mem => (true, mem)

/-- `MulMod`. -/
def mulMod (fuel : Nat) (lib : Library) (in_a in_b in_m r : Nat) (mem : Mem build) :
    Option (Mem build) :=
  let legs := lib.library_legs
  let p := lib.get (lib.library_regs - 5)
  let mem := store (multiply (window mem in_a legs) (window mem in_b legs)) p mem
  (divideProduct fuel lib p in_m p r mem).map Prod.snd

end Model

/-! ## Clearing bytes -/

section Memset

theorem legBits_eq (build : Build) : build.legBits = 8 * (build.legBits / 8) := by
  unfold Build.legBits
  split <;> rfl

theorem shr_shl_eq_zero (x : Leg build) (k : Nat) : (x >>> k) <<< k = 0 ↔ x.toNat < 2 ^ k := by
  have hle : x.toNat / 2 ^ k * 2 ^ k < 2 ^ build.legBits :=
    (Nat.div_mul_le_self _ _).trans_lt x.isLt
  rw [← BitVec.toNat_inj, zero_toNat, BitVec.toNat_shiftLeft, shr_toNat, Nat.shiftLeft_eq,
    Nat.mod_eq_of_lt hle, Nat.mul_eq_zero, Nat.div_eq_zero_iff]
  have := Nat.two_pow_pos k
  omega

theorem sameOff_memset {m n : Nat} (dst : Nat) (mem : Mem build) (hn : n ≤ m * (build.legBits / 8)) :
    SameOff dst m mem (memset n dst mem) := fun i hi => by
  rw [memset]
  split
  · have hle : m * (build.legBits / 8) ≤ (i - dst) * (build.legBits / 8) :=
      Nat.mul_le_mul_right _ (by omega)
    have hzero : n - (i - dst) * (build.legBits / 8) = 0 := by omega
    simp only [hzero, Nat.mul_zero, BitVec.ushiftRight_zero, BitVec.shiftLeft_zero]
  · rfl

/-- So many bytes are in as many legs. -/
theorem sameOff_memset_legs (legs dst : Nat) (mem : Mem build) :
    SameOff dst (legs * 2) mem (memset (legs * 2) dst mem) :=
  sameOff_memset _ _ (Nat.le_mul_of_pos_right _ (by
    have := legBits_eq build
    have := build.legBits_ge
    omega))

/-- The legs after the first. -/
theorem memset_succ {n dst i : Nat} (mem : Mem build) (hi : dst + 1 ≤ i) :
    memset n dst mem i = memset (n - build.legBits / 8) (dst + 1) mem i := by
  have hsub : n - (i - dst) * (build.legBits / 8) =
      n - build.legBits / 8 - (i - (dst + 1)) * (build.legBits / 8) := by
    rw [show i - dst = i - (dst + 1) + 1 by omega, Nat.add_mul, Nat.one_mul, Nat.add_comm,
      Nat.sub_sub]
  rw [memset, memset, if_pos (by omega), if_pos hi, hsub]

/-- Clearing a number's first bytes leaves zero just when it has no others. -/
theorem number_memset_eq_zero {m n : Nat} (dst : Nat) (mem : Mem build)
    (hn : 8 * n ≤ build.legBits * m) :
    number (memset n dst mem) dst m = 0 ↔ number mem dst m < 2 ^ (8 * n) := by
  induction m generalizing n dst with
  | zero =>
    rw [number_zero, number_zero]
    exact iff_of_true rfl (Nat.two_pow_pos _)
  | succ m ih =>
    have hbits := legBits_eq build
    set bytes := build.legBits / 8 with hbytes
    rw [Nat.mul_succ] at hn
    have hfirst : memset n dst mem dst = 0 ↔ (mem dst).toNat < 2 ^ (8 * n) := by
      rw [memset, if_pos le_rfl, Nat.sub_self, Nat.zero_mul, Nat.sub_zero]
      exact shr_shl_eq_zero _ _
    have hrest : number (memset n dst mem) (dst + 1) m = 0 ↔
        number mem (dst + 1) m < 2 ^ (8 * (n - bytes)) := by
      rw [← ih (dst + 1) (by omega),
        number_congr fun i _ => memset_succ mem (show dst + 1 ≤ dst + 1 + i by omega)]
    have hzero : number (memset n dst mem) dst (m + 1) = 0 ↔
        memset n dst mem dst = 0 ∧ number (memset n dst mem) (dst + 1) m = 0 := by
      rw [number_succ, Nat.add_eq_zero_iff, Nat.mul_eq_zero, ← BitVec.toNat_inj, zero_toNat]
      have := Nat.two_pow_pos build.legBits
      omega
    rw [hzero, hfirst, hrest, number_succ]
    have hx := (mem dst).isLt
    by_cases h : bytes ≤ n
    · have hpow : 2 ^ (8 * n) = 2 ^ build.legBits * 2 ^ (8 * (n - bytes)) := by
        rw [← Nat.pow_add]
        congr 1
        omega
      have hge := Nat.le_mul_of_pos_right (2 ^ build.legBits) (Nat.two_pow_pos (8 * (n - bytes)))
      rw [hpow]
      constructor
      · rintro ⟨-, hlt⟩
        have := Nat.mul_le_mul_left (2 ^ build.legBits) (Nat.succ_le_of_lt hlt)
        rw [Nat.mul_succ] at this
        omega
      · intro hlt
        exact ⟨by omega, Nat.lt_of_mul_lt_mul_left ((Nat.le_add_left _ _).trans_lt hlt)⟩
    · have hpow : 2 ^ (8 * n) ≤ 2 ^ build.legBits := Nat.pow_le_pow_right (by omega) (by omega)
      rw [show n - bytes = 0 by omega, Nat.mul_zero, pow_zero, Nat.lt_one_iff]
      constructor
      · rintro ⟨hlt, h0⟩
        rw [h0]
        omega
      · intro hlt
        rcases Nat.eq_zero_or_pos (number mem (dst + 1) m) with h0 | h0
        · exact ⟨by omega, h0⟩
        · have := Nat.le_mul_of_pos_right (2 ^ build.legBits) h0
          omega

end Memset

/-! ## A divisor that is lost -/

section Diverges

variable {A B Q k l n fuel : Nat} {mem mem' : Mem build} {A_overflow A_overflow' b q_lo : Leg build}

/-- A number that fits the overflow leg and the one below is not wrapped. -/
theorem wrappedAt_one (hw : WrappedAt mem' A 1 A_overflow' (numerator mem A 1 A_overflow)) :
    mem' A = mem A ∧ A_overflow' = A_overflow := by
  have hmod := hw.modEq
  have h1 := (mem A).isLt
  have h2 := (mem' A).isLt
  have hrange (x y : Leg build) : x.toNat * 2 ^ build.legBits + y.toNat <
      2 ^ build.legBits * 2 ^ build.legBits := by
    have := Nat.mul_le_mul_right (2 ^ build.legBits) (Nat.succ_le_of_lt x.isLt)
    have := y.isLt
    rw [Nat.succ_mul] at *
    omega
  rw [numerator, number_one, number_one, pow_one, Nat.add_comm, Nat.mul_comm] at hmod
  have heq : A_overflow'.toNat * 2 ^ build.legBits + (mem' A).toNat =
      A_overflow.toNat * 2 ^ build.legBits + (mem A).toNat := by
    have hmod' : A_overflow'.toNat * 2 ^ build.legBits + (mem' A).toNat ≡
        A_overflow.toNat * 2 ^ build.legBits + (mem A).toNat
          [MOD 2 ^ build.legBits * 2 ^ build.legBits] := by
      rw [← Int.natCast_modEq_iff]
      push_cast
      push_cast at hmod
      exact hmod
    exact hmod'.eq_of_lt_of_lt (hrange _ _) (hrange _ _)
  have hlow := congrArg (· % 2 ^ build.legBits) heq
  simp only [Nat.mul_add_mod', Nat.mod_eq_of_lt h1, Nat.mod_eq_of_lt h2] at hlow
  refine ⟨BitVec.eq_of_toNat_eq hlow, BitVec.eq_of_toNat_eq ?_⟩
  rw [hlow, Nat.add_right_cancel_iff] at heq
  exact Nat.eq_of_mul_eq_mul_right (Nat.two_pow_pos _) heq

/-- The correction loop adds nothing. -/
theorem correct_diverges (hd : A ≠ B) (hB : mem B = 0) (hover : A_overflow ≠ 0) :
    correct A B 1 fuel mem A_overflow q_lo = none := by
  induction fuel generalizing mem A_overflow q_lo with
  | zero => rfl
  | succ fuel ih =>
    have hw : WrappedAt mem A 1 A_overflow (numerator mem A 1 A_overflow) :=
      ⟨A_overflow.isLt, number_lt _ _ _, congrArg (· % _) (by rw [numerator]; push_cast; ring)⟩
    obtain ⟨hoff, hw'⟩ := addBack_spec (show A + 1 ≤ B ∨ B + 1 ≤ A by omega) hw
    rw [number_one mem B, hB, zero_toNat, Nat.cast_zero, add_zero] at hw'
    obtain ⟨-, hsame⟩ := wrappedAt_one hw'
    rw [correct, if_pos hover]
    exact ih ((hoff B (by omega)).trans hB) (by rwa [hsame])

/-- A round with an overflow does not return, and one without leaves the leg for the next. -/
theorem divideRound_lost (hAB : A + k ≠ B) (hQA : Q + k ≠ A + k) (hQB : Q + k ≠ B) (hB : mem B = 0)
    (hb : 2 ^ build.legBits ≤ 2 * b.toNat) :
    (A_overflow ≠ 0 → divideRound fuel A B 1 Q b k mem A_overflow = none) ∧
      ∀ r, divideRound fuel A B 1 Q b k mem A_overflow = some r → r.2 = mem (A + k) ∧ r.1 B = 0 := by
  have hq1 : (legDiv A_overflow (mem (A + k)) b).1.toNat ≤ 1 := by
    have hdiv := legDiv_toNat A_overflow (mem (A + k)) b
    have h1 := A_overflow.isLt
    have h2 := (mem (A + k)).isLt
    have hb0 : 0 < b.toNat := by have := Nat.two_pow_pos build.legBits; omega
    have hlt : (A_overflow.toNat * 2 ^ build.legBits + (mem (A + k)).toNat) / b.toNat <
        2 ^ build.legBits * 2 := by
      refine (Nat.div_lt_iff_lt_mul hb0).mpr ?_
      have hmul := Nat.mul_le_mul_right (2 ^ build.legBits) (Nat.succ_le_of_lt h1)
      have hmul2 := Nat.mul_le_mul_left (2 ^ build.legBits) hb
      have : 2 ^ build.legBits * 2 * b.toNat = 2 ^ build.legBits * (2 * b.toNat) := by ring
      rw [Nat.succ_mul] at hmul
      omega
    by_contra hgt
    have := Nat.mul_le_mul_left (2 ^ build.legBits) (Nat.succ_le_of_lt (Nat.not_le.mp hgt))
    omega
  obtain ⟨hoff, hw⟩ := subtractProduct_spec (show A + k + 1 ≤ B ∨ B + 1 ≤ A + k by omega) _ hq1 mem
    A_overflow
  rw [number_one mem B, hB, zero_toNat, Nat.cast_zero, mul_zero, sub_zero] at hw
  obtain ⟨hA, hover⟩ := @wrappedAt_one _ _ mem _ A_overflow _ (by
    rw [numerator]
    push_cast
    exact hw)
  have hB' := (hoff B (by omega)).trans hB
  rw [divideRound]
  simp only [Nat.sub_self, Nat.add_zero]
  by_cases h0 : A_overflow = 0
  · refine ⟨fun hne => absurd h0 hne, fun r hr => ?_⟩
    cases fuel with
    | zero =>
      rw [correct] at hr
      cases hr
    | succ fuel =>
      rw [correct, if_neg (by rw [hover, not_not]; exact h0), Option.bind_eq_bind, Option.bind_some] at hr
      obtain rfl := Option.some_inj.mp hr
      exact ⟨(Function.update_of_ne hQA.symm _ _).trans hA,
        (Function.update_of_ne hQB.symm _ _).trans hB'⟩
  · rw [correct_diverges hAB hB' (by rwa [hover])]
    exact ⟨fun _ => rfl, fun r hr => by cases hr⟩

/-- Without a divisor no division of a number that is not zero at the top returns. -/
theorem divideRounds_lost (hAB : A + l + 1 ≤ B ∨ B < A) (hQA : Q + l + 1 ≤ A ∨ A + l + 1 ≤ Q)
    (hQB : B = Q + l + 1) (hB : mem B = 0) (hb : 2 ^ build.legBits ≤ 2 * b.toNat) (hl : 0 < l)
    (htop : A_overflow ≠ 0 ∨ mem (A + l) ≠ 0) :
    divideRounds fuel A B 1 Q b l mem A_overflow = none := by
  obtain ⟨l, rfl⟩ : ∃ m, l = m + 1 := ⟨l - 1, by omega⟩
  rw [divideRounds]
  obtain ⟨hnone, hsome⟩ := @divideRound_lost _ A B Q (l + 1) fuel mem A_overflow b (by omega)
    (by omega) (by omega) hB hb
  rcases hrun : divideRound fuel A B 1 Q b (l + 1) mem A_overflow with _ | r
  · rfl
  · obtain ⟨hover, hB'⟩ := hsome r hrun
    have hne : r.2 ≠ 0 := by
      rw [hover]
      refine htop.resolve_left fun h => ?_
      rw [hnone h] at hrun
      cases hrun
    obtain ⟨hnone', -⟩ := @divideRound_lost _ A B Q l fuel r.1 r.2 b (by omega) (by omega) (by omega)
      hB' hb
    rw [Option.bind_eq_bind, Option.bind_some]
    cases l with
    | zero => rw [divideRounds, hnone' hne, Option.map_none]
    | succ l => rw [divideRounds, hnone' hne, Option.bind_eq_bind, Option.bind_none]

/-- A division with the scratch denominator after the quotient's last leg. -/
theorem longDivide_lost {in_a in_b R L q_legs : Nat}
    (haA : in_a + (l + 1) ≤ A ∨ A + (l + 1) ≤ in_a) (hbA : in_b + 1 ≤ A ∨ A + (l + 1) ≤ in_b)
    (hbB : in_b + 1 ≤ B ∨ B + 1 ≤ in_b) (hAB : A + (l + 1) ≤ B ∨ B + 1 ≤ A)
    (hQA : Q + l + 1 ≤ A ∨ A + (l + 1) ≤ Q) (hQB : B = Q + l + 1) (hl : 0 < l)
    (hx : mem in_b ≠ 0) (htop : mem (in_a + l) ≠ 0) :
    longDivide fuel L q_legs (l + 1) 1 in_a in_b A B Q R mem = none := by
  obtain ⟨hs, -, -⟩ := shift_spec hx
  set s := build.legBits - usedBits (mem in_b) - 1 with hsdef
  obtain ⟨hoff1, hval1, hover⟩ := @shiftLeft_spec _ _ hs (l + 1) _ _ (by omega) haA mem
  set a := shiftLeft (l + 1) in_a s A mem with ha
  have hx1 : a.1 in_b = mem in_b := hoff1 _ (by omega)
  obtain ⟨mem2, b, hmem2, hoff2, hval2, hnormal⟩ := @shiftLeft_normal _ a.1 in_b B 1 Nat.one_pos
    (by rwa [Nat.sub_self, Nat.add_zero, hx1]) hbB
  rw [Nat.sub_self, Nat.add_zero, hx1, ← hsdef] at hmem2
  have hlt : a.2 < b := shifted_out_lt hnormal hs hover
  have htop' : a.2 ≠ 0 ∨ a.1 (A + l) ≠ 0 := by
    by_contra hboth
    rw [not_or, not_not, not_not] at hboth
    have hle : 1 ≤ (mem (in_a + l)).toNat := Nat.pos_of_ne_zero fun h =>
      htop (BitVec.eq_of_toNat_eq h)
    have hA := number_lt a.1 A l
    have hin := Nat.mul_le_mul_left ((2 ^ build.legBits) ^ l) hle
    have hsx := Nat.le_mul_of_pos_left (number mem in_a (l + 1)) (Nat.two_pow_pos s)
    rw [hboth.1, zero_toNat, Nat.mul_zero, Nat.add_zero, number_concat, hboth.2, zero_toNat,
      Nat.mul_zero, Nat.add_zero] at hval1
    rw [number_concat] at hsx hval1
    omega
  have hq : quotientHigh mem2 (A + l) B 1 a.2 b = false := by rw [quotientHigh, if_pos hlt]
  have hhigh : mem2 B = b := hnormal.high
  have hlost : divideCore fuel (l + 1) a.2 A 1 B Q mem2 = none := by
    rw [divideCore]
    simp only [Nat.add_sub_cancel, Nat.sub_self, Nat.add_zero, hhigh, hq, Bool.false_eq_true, if_false]
    refine divideRounds_lost (by omega) (by omega) hQB ?_ hnormal.top hl (htop'.imp_right fun h => ?_)
    · rw [hQB, Function.update_self]
      rfl
    · rw [Function.update_of_ne (by omega), hoff2 _ (by omega)]
      exact h
  rw [longDivide]
  simp only [Nat.sub_self, Nat.add_zero, ← hsdef, ← ha, hmem2, hlost, Option.bind_eq_bind,
    Option.bind_none]

end Diverges

/-! ## DivideProduct -/

section Spec

variable {lib : Library} {mem : Mem build} {a b q r : Nat}

/-- The registers of a division: none of them scratch, and the outputs apart. -/
structure Operands (lib : Library) (a b q r : Nat) : Prop where
  a_lt : a + 4 < lib.library_regs
  b_lt : b + 3 < lib.library_regs
  q_lt : q + 4 < lib.library_regs
  r_lt : r + 3 < lib.library_regs
  r_ne : r ≠ q
  r_ne_succ : r ≠ q + 1

theorem divideProduct_eq (fuel : Nat) (lib : Library) (in_a in_b out_q out_r : Nat)
    (mem : Mem build) (hb : number mem in_b lib.library_legs ≠ 0) :
    divideProduct fuel lib in_a in_b out_q out_r mem =
      if number mem in_a (lib.library_legs * 2) < number mem in_b lib.library_legs then
        some (true, memset (lib.library_legs * 2) out_q (copy lib.library_legs in_a out_r mem))
      else (longDivide fuel lib.library_legs (lib.library_legs * 2)
        (legsUsed mem in_a (lib.library_legs * 2)) (legsUsed mem in_b lib.library_legs) in_a in_b
        (lib.get (lib.library_regs - 2)) (lib.get (lib.library_regs - 3)) out_q out_r mem).map
          fun mem => (true, mem) := by
  set L := lib.library_legs with hL
  have hused : legsUsed mem in_b L ≠ 0 := fun h => hb (legsUsed_eq_zero.mp h)
  have hadd := legsUsed_add mem in_a L L
  have hnum := number_add mem in_a L L
  rw [← Nat.mul_two] at hadd hnum
  simp only [divideProduct, ← hL, if_neg hused]
  by_cases hhi : legsUsed mem (in_a + L) L ≠ 0
  · have hpos : number mem (in_a + L) L ≠ 0 := fun h => hhi (legsUsed_eq_zero.mpr h)
    have hmul := Nat.le_mul_of_pos_right ((2 ^ build.legBits) ^ L) (Nat.pos_of_ne_zero hpos)
    have hblt := number_lt mem in_b L
    rw [if_pos hhi] at hadd
    rw [if_pos hhi, if_neg (by omega), hadd]
  · rw [if_neg hhi] at hadd
    rw [not_not, legsUsed_eq_zero] at hhi
    rw [hhi, Nat.mul_zero, Nat.add_zero] at hnum
    rw [if_neg (by rw [not_not, legsUsed_eq_zero]; exact hhi), hnum, hadd]
    simp only [less_eq]

/-- The denominator's register is the leg after the quotient. -/
def Clobbers (lib : Library) (mem : Mem build) (a b q : Nat) : Prop :=
  legsUsed mem (lib.get b) lib.library_legs = 1 ∧
    legsUsed mem (lib.get a) (lib.library_legs * 2) = lib.library_legs * 2 ∧
      q + 2 = lib.library_regs - 3

theorem Operands.r_apart (h : Operands lib a b q r) :
    lib.get r + lib.library_legs ≤ lib.get q ∨ lib.get q + lib.library_legs * 2 ≤ lib.get r := by
  have h1 := Library.get_succ lib q
  rcases Nat.lt_or_gt_of_ne h.r_ne with hlt | hgt
  · exact .inl (lib.get_add_le hlt)
  · have hne := h.r_ne_succ
    have := @Library.get_add_le lib (q + 1) r (by omega)
    exact .inr (by omega)

/-- The registers of a division are apart, but maybe the leg above the quotient. -/
theorem Operands.places (h : Operands lib a b q r) {l n : Nat} (hn : 0 < n)
    (hnL : n ≤ lib.library_legs) (hl : l + n ≤ lib.library_legs * 2)
    (hlast : l + 1 = lib.library_legs * 2 → q + 2 ≠ lib.library_regs - 3) :
    Places (lib.get a) (lib.get b) (lib.get (lib.library_regs - 2)) (lib.get (lib.library_regs - 3))
      (lib.get q) (lib.get r) l n lib.library_legs (lib.library_legs * 2) := by
  have hRQ := h.r_apart
  obtain ⟨ha, hb, hq, hr, -, -⟩ := h
  have h1 := Library.get_succ lib (lib.library_regs - 3)
  rw [show lib.library_regs - 3 + 1 = lib.library_regs - 2 by omega] at h1
  have h2 := @Library.get_add_le lib (a + 1) (lib.library_regs - 3) (by omega)
  have h3 := @Library.get_add_le lib b (lib.library_regs - 3) (by omega)
  have h4 := @Library.get_add_le lib (q + 1) (lib.library_regs - 3) (by omega)
  have h5 := @Library.get_add_le lib r (lib.library_regs - 3) (by omega)
  have h6 := Library.get_succ lib a
  have h7 := Library.get_succ lib q
  have h8 : lib.get (q + 2) = lib.get (q + 1) + lib.library_legs := Library.get_succ lib (q + 1)
  have hnext : lib.get q + l + 1 < lib.get (lib.library_regs - 3) := by
    by_cases hl1 : l + 1 = lib.library_legs * 2
    · have h9 := @Library.get_add_le lib (q + 2) (lib.library_regs - 3) (by
        have := hlast hl1
        omega)
      omega
    · omega
  refine ⟨hn, hnL, by omega, .inl (by omega), .inl (by omega), .inl (by omega), .inr (by omega),
    .inl (by omega), .inl (by omega), .inl (by omega), hRQ, .inl (by omega), .inl hnext⟩

/-- Quotient and remainder, unless the denominator is lost. -/
theorem divideProduct_long (h : Operands lib a b q r)
    (hb : number mem (lib.get b) lib.library_legs ≠ 0)
    (hle : number mem (lib.get b) lib.library_legs ≤ number mem (lib.get a) (lib.library_legs * 2))
    (hclobbers : ¬Clobbers lib mem a b q) :
    ∃ mem', (∀ fuel, 3 ≤ fuel →
        divideProduct fuel lib (lib.get a) (lib.get b) (lib.get q) (lib.get r) mem = some (true, mem')) ∧
      number mem' (lib.get q) (lib.library_legs * 2) =
        number mem (lib.get a) (lib.library_legs * 2) / number mem (lib.get b) lib.library_legs ∧
      number mem' (lib.get r) lib.library_legs =
        number mem (lib.get a) (lib.library_legs * 2) % number mem (lib.get b) lib.library_legs ∧
      (∀ j, j < lib.get (lib.library_regs - 3) ∨ lib.get (lib.library_regs - 3) + lib.library_legs * 3 ≤ j →
        j < lib.get q ∨ lib.get q + lib.library_legs * 2 ≤ j →
        j < lib.get r ∨ lib.get r + lib.library_legs ≤ j →
        (legsUsed mem (lib.get b) lib.library_legs = 1 →
          legsUsed mem (lib.get a) (lib.library_legs * 2) = lib.library_legs * 2 →
          j ≠ lib.get (q + 2)) → mem' j = mem j) ∧
      (legsUsed mem (lib.get b) lib.library_legs = 1 →
        legsUsed mem (lib.get a) (lib.library_legs * 2) = lib.library_legs * 2 →
        r ≠ q + 2 → mem' (lib.get (q + 2)) = 0) := by
  have hA_le := legsUsed_le mem (lib.get a) (lib.library_legs * 2)
  have hB_le := legsUsed_le mem (lib.get b) lib.library_legs
  have hBA := legsUsed_le_of_le hle
  have hA := number_legsUsed mem (lib.get a) (lib.library_legs * 2)
  have hB := number_legsUsed mem (lib.get b) lib.library_legs
  have hused : legsUsed mem (lib.get b) lib.library_legs ≠ 0 := fun h0 => hb (legsUsed_eq_zero.mp h0)
  rw [Clobbers] at hclobbers
  have heq := fun fuel => divideProduct_eq fuel lib (lib.get a) (lib.get b) (lib.get q) (lib.get r) mem
    hb
  set n := legsUsed mem (lib.get b) lib.library_legs with hn
  obtain ⟨l, hl⟩ := Nat.exists_eq_add_of_le' hBA
  have htop : mem (lib.get b + (n - 1)) ≠ 0 := by
    obtain ⟨m, hm⟩ := Nat.exists_eq_succ_of_ne_zero hused
    rw [hm, Nat.succ_sub_one]
    exact legsUsed_top (hn ▸ hm)
  rw [hl] at hA hA_le hclobbers
  have hfills : l + 1 = lib.library_legs * 2 → n = 1 ∧ l + n = lib.library_legs * 2 := fun hlast => by
    clear h hb hle hBA hA hB heq htop hclobbers
    omega
  have hplaces := h.places (Nat.pos_of_ne_zero hused) hB_le hA_le fun hlast hq =>
    hclobbers ⟨(hfills hlast).1, (hfills hlast).2, hq⟩
  obtain ⟨mem', hrun, hquot, hrem, hframe, hnext⟩ := longDivide_spec hplaces htop
  have h1 := Library.get_succ lib (lib.library_regs - 3)
  rw [show lib.library_regs - 3 + 1 = lib.library_regs - 2 by have := h.a_lt; omega] at h1
  have h2 : lib.get (q + 2) = lib.get q + lib.library_legs * 2 := by
    rw [Nat.mul_two, ← Nat.add_assoc, ← Library.get_succ]
    exact Library.get_succ lib (q + 1)
  refine ⟨mem', fun fuel hfuel => ?_, by rw [hquot, hA, hB], by rw [hrem, hA, hB],
    fun j hj hjQ hjR hjne => ?_, fun hone hfull hne => ?_⟩
  · rw [heq, if_neg (Nat.not_lt.mpr hle), hl, hrun fuel hfuel]
    rfl
  · clear hclobbers hplaces heq hrun hnext hquot hrem hA hB htop hle hb h
    refine hframe j (by omega) (by omega) hjQ hjR fun hj' => ?_
    by_cases hlast : l + 1 = lib.library_legs * 2
    · obtain ⟨hone, hfull⟩ := hfills hlast
      refine hjne hone (hl.trans hfull) ?_
      rw [h2, ← hlast, ← Nat.add_assoc]
      exact hj'
    · clear hframe hfills hjne hjR hj
      omega
  · have hapart := lib.get_apart hne
    have hlast : lib.get q + l + 1 = lib.get (q + 2) := by omega
    rw [← hlast]
    exact hnext (by omega)

/-- The denominator is zeroed before it is used. -/
theorem divideProduct_lost (h : Operands lib a b q r)
    (hb : number mem (lib.get b) lib.library_legs ≠ 0) (hclobbers : Clobbers lib mem a b q)
    (fuel : Nat) :
    divideProduct fuel lib (lib.get a) (lib.get b) (lib.get q) (lib.get r) mem = none := by
  obtain ⟨hone, hfull, hq⟩ := hclobbers
  have hL : 0 < lib.library_legs := Nat.pos_of_ne_zero fun h0 => hb (by rw [h0, number_zero])
  obtain ⟨hA, hB, hQ, -, -, -⟩ := h
  set L := lib.library_legs with hLdef
  have hle : ¬number mem (lib.get a) (L * 2) < number mem (lib.get b) L := by
    have h1 := (legsUsed_eq_one hb).mp hone
    have h2 := (legsUsed_eq_self (by omega)).mp hfull
    have h3 := Nat.pow_le_pow_right (Nat.two_pow_pos build.legBits) (show 1 ≤ L * 2 - 1 by omega)
    rw [pow_one] at h3
    omega
  have hb0 : mem (lib.get b) ≠ 0 := by
    have := @legsUsed_top _ mem _ _ 0 hone
    rwa [Nat.add_zero] at this
  obtain ⟨l, hl⟩ : ∃ l, L * 2 = l + 1 := ⟨L * 2 - 1, by omega⟩
  have htop : mem (lib.get a + l) ≠ 0 := legsUsed_top (hfull.trans hl)
  rw [divideProduct_eq _ _ _ _ _ _ _ hb, ← hLdef, if_neg hle, hone, hfull, hl]
  have h2 := Library.get_succ lib (lib.library_regs - 3)
  have h3 := @Library.get_add_le lib b (lib.library_regs - 3) (by omega)
  have h4 := @Library.get_add_le lib (a + 1) (lib.library_regs - 3) (by omega)
  have h5 := Library.get_succ lib a
  have h6 := Library.get_succ lib q
  have h7 := Library.get_succ lib (q + 1)
  rw [show lib.library_regs - 3 + 1 = lib.library_regs - 2 by omega] at h2
  rw [show q + 1 + 1 = lib.library_regs - 3 by omega] at h7
  rw [longDivide_lost (by omega) (by omega) (by omega) (by omega) (by omega) (by omega) (by omega) hb0
    htop, Option.map_none]

/-- `DivideProduct` returns true, with the quotient and the remainder in its outputs and nothing written
but these and the three scratch registers. -/
def Divides (lib : Library) (mem : Mem build) (a b q r : Nat) : Prop :=
  ∃ rounds mem', (∀ fuel, rounds ≤ fuel →
      divideProduct fuel lib (lib.get a) (lib.get b) (lib.get q) (lib.get r) mem = some (true, mem')) ∧
    number mem (lib.get a) (lib.library_legs * 2) =
      number mem' (lib.get q) (lib.library_legs * 2) * number mem (lib.get b) lib.library_legs +
        number mem' (lib.get r) lib.library_legs ∧
    number mem' (lib.get r) lib.library_legs < number mem (lib.get b) lib.library_legs ∧
    ∀ j, j < lib.get (lib.library_regs - 3) ∨ lib.get (lib.library_regs - 3) + lib.library_legs * 3 ≤ j →
      j < lib.get q ∨ lib.get q + lib.library_legs * 2 ≤ j →
      j < lib.get r ∨ lib.get r + lib.library_legs ≤ j → mem' j = mem j

/-- All fuels from some on return the same. -/
theorem returns_unique {α : Type} {f : Nat → Option α} {m n : Nat} {x y : α}
    (hx : ∀ fuel, m ≤ fuel → f fuel = some x) (hy : ∀ fuel, n ≤ fuel → f fuel = some y) : x = y :=
  Option.some_inj.mp ((hx _ (le_max_left m n)).symm.trans (hy _ (le_max_right m n)))

/-- The exit for `a < b` copies the numerator. -/
theorem exit_remainder (h : Operands lib a b q r)
    (hlt : number mem (lib.get a) (lib.library_legs * 2) < number mem (lib.get b) lib.library_legs) :
    number (memset (lib.library_legs * 2) (lib.get q)
        (copy lib.library_legs (lib.get a) (lib.get r) mem)) (lib.get r) lib.library_legs =
      number mem (lib.get a) (lib.library_legs * 2) := by
  have hapart := h.r_apart
  set L := lib.library_legs with hL
  have hsplit := number_add mem (lib.get a) L L
  have hzero : number mem (lib.get a + L) L = 0 := by
    by_contra hne
    have := Nat.le_mul_of_pos_right ((2 ^ build.legBits) ^ L) (Nat.pos_of_ne_zero hne)
    have := number_lt mem (lib.get b) L
    rw [← Nat.mul_two] at hsplit
    omega
  rw [hzero, Nat.mul_zero, Nat.add_zero, ← Nat.mul_two] at hsplit
  rw [number_of_sameOff (sameOff_memset_legs L (lib.get q) _) hapart, number_copy, hsplit]

/-- The exit for `a < b`: the quotient is zeroed if its first bytes were all it had. -/
theorem divides_less_iff (h : Operands lib a b q r)
    (hlt : number mem (lib.get a) (lib.library_legs * 2) < number mem (lib.get b) lib.library_legs) :
    Divides lib mem a b q r ↔
      number mem (lib.get q) (lib.library_legs * 2) < 2 ^ (8 * (lib.library_legs * 2)) := by
  have hb : number mem (lib.get b) lib.library_legs ≠ 0 := by omega
  have hr := exit_remainder h hlt
  have hapart := h.r_apart
  set L := lib.library_legs with hL
  set copied := copy L (lib.get a) (lib.get r) mem with hcopied
  have hrun (fuel : Nat) : divideProduct fuel lib (lib.get a) (lib.get b) (lib.get q) (lib.get r) mem =
      some (true, memset (L * 2) (lib.get q) copied) := by
    rw [divideProduct_eq _ _ _ _ _ _ _ hb, if_pos hlt]
  have hbits : 8 * (L * 2) ≤ build.legBits * (L * 2) :=
    Nat.mul_le_mul_right _ (by have := build.legBits_ge; omega)
  have hmemset := number_memset_eq_zero (lib.get q) copied hbits
  have hoff := sameOff_copy L (lib.get a) (lib.get r) mem
  have hoffset := sameOff_memset_legs L (lib.get q) copied
  rw [number_of_sameOff hoff (by omega)] at hmemset
  rw [← hmemset]
  constructor
  · rintro ⟨rounds, mem', hrun', hval, -, -⟩
    have hmem : mem' = memset (L * 2) (lib.get q) copied :=
      congrArg Prod.snd (@returns_unique _ _ _ 0 _ _ hrun' fun fuel _ => hrun fuel)
    rw [hmem, ← hL, hr] at hval
    refine (Nat.mul_eq_zero.mp ?_).resolve_right hb
    omega
  · intro hzero
    refine ⟨0, _, fun fuel _ => hrun fuel, ?_, hr ▸ hlt, fun j _ hjq hjr => ?_⟩
    · rw [hzero, hr, Nat.zero_mul, Nat.zero_add]
    · exact (hoffset j hjq).trans (hoff j hjr)

/-- When the quotient fills its legs the leg after them must be zero already or an output, and not
scratch. -/
def NextFree (lib : Library) (mem : Mem build) (a b q r : Nat) : Prop :=
  number mem (lib.get b) lib.library_legs < 2 ^ build.legBits →
    (2 ^ build.legBits) ^ (lib.library_legs * 2 - 1) ≤ number mem (lib.get a) (lib.library_legs * 2) →
      q + 2 ≠ lib.library_regs - 3 ∧ (q + 2 = r ∨ mem (lib.get (q + 2)) = 0)

theorem divides_long_iff (h : Operands lib a b q r)
    (hb : number mem (lib.get b) lib.library_legs ≠ 0)
    (hle : number mem (lib.get b) lib.library_legs ≤ number mem (lib.get a) (lib.library_legs * 2)) :
    Divides lib mem a b q r ↔ NextFree lib mem a b q r := by
  have hL : 0 < lib.library_legs := Nat.pos_of_ne_zero fun h0 => hb (by rw [h0, number_zero])
  have hone := legsUsed_eq_one hb
  have hfull := @legsUsed_eq_self _ mem (lib.get a) (lib.library_legs * 2) (by omega)
  rw [NextFree, ← hone, ← hfull]
  by_cases hclobbers : Clobbers lib mem a b q
  · refine iff_of_false ?_ fun h => (h hclobbers.1 hclobbers.2.1).1 hclobbers.2.2
    rintro ⟨rounds, mem', hrun, -⟩
    have := hrun rounds le_rfl
    rw [divideProduct_lost h hb hclobbers] at this
    cases this
  · obtain ⟨mem', hrun, hquot, hrem, hframe, hnext⟩ := divideProduct_long h hb hle hclobbers
    constructor
    · rintro ⟨rounds, mem1, hrun1, -, -, hframe1⟩ hu hf
      obtain rfl : mem1 = mem' := congrArg Prod.snd (returns_unique hrun1 hrun)
      refine ⟨fun hq => hclobbers ⟨hu, hf, hq⟩, ?_⟩
      by_contra hboth
      rw [not_or] at hboth
      have hzero := hnext hu hf (Ne.symm hboth.1)
      refine hboth.2 ((hframe1 _ (.inl ?_) (.inr ?_) ?_).symm.trans hzero)
      · have hq := h.q_lt
        have hlt := @Library.get_add_le lib (q + 2) (lib.library_regs - 3) (by
          have : q + 2 ≠ lib.library_regs - 3 := fun hq => hclobbers ⟨hu, hf, hq⟩
          omega)
        omega
      · have h1 := Library.get_succ lib q
        have h2 : lib.get (q + 2) = lib.get (q + 1) + lib.library_legs := Library.get_succ lib (q + 1)
        omega
      · have := lib.get_apart hboth.1
        omega
    · intro hfree
      refine ⟨3, mem', hrun, ?_, ?_, fun j hj hjq hjr => ?_⟩
      · rw [hquot, hrem]
        exact (Nat.div_add_mod' _ _).symm
      · rw [hrem]
        exact Nat.mod_lt _ (Nat.pos_of_ne_zero hb)
      · by_cases hlast : j = lib.get (q + 2) ∧ legsUsed mem (lib.get b) lib.library_legs = 1 ∧
            legsUsed mem (lib.get a) (lib.library_legs * 2) = lib.library_legs * 2
        · obtain ⟨rfl, hu, hf⟩ := hlast
          obtain ⟨-, hr⟩ := hfree hu hf
          have hne : q + 2 ≠ r := by
            rintro rfl
            omega
          rw [hr.resolve_left hne, hnext hu hf (Ne.symm hne)]
        · exact hframe j hj hjq hjr fun hu hf hj' => hlast ⟨hj', hu, hf⟩

/-- A quotient that fills its legs is no small one. -/
theorem nextFree_of_lt
    (hlt : number mem (lib.get a) (lib.library_legs * 2) < number mem (lib.get b) lib.library_legs) :
    NextFree lib mem a b q r := fun hb ha => by
  have hL : 0 < lib.library_legs := Nat.pos_of_ne_zero fun h0 => by
    rw [h0, number_zero, number_zero] at hlt
    omega
  have := Nat.pow_le_pow_right (Nat.two_pow_pos build.legBits)
    (show 1 ≤ lib.library_legs * 2 - 1 by omega)
  rw [pow_one] at this
  omega

/-! ## MulMod -/

variable {x y m : Nat}

/-- `MulMod` returns, with the product modulo the modulus in its output. -/
def Multiplies (lib : Library) (mem : Mem build) (x y m r : Nat) : Prop :=
  ∃ rounds mem', (∀ fuel, rounds ≤ fuel →
      mulMod fuel lib (lib.get x) (lib.get y) (lib.get m) (lib.get r) mem = some mem') ∧
    number mem' (lib.get r) lib.library_legs =
      number mem (lib.get x) lib.library_legs * number mem (lib.get y) lib.library_legs %
        number mem (lib.get m) lib.library_legs

/-- The product in the scratch registers, and the rest as it was. -/
theorem product_spec (lib : Library) (mem : Mem build) (x y : Nat) {p : Nat}
    (hL : 0 < lib.library_legs) :
    ∃ mem', store (multiply (window mem (lib.get x) lib.library_legs)
          (window mem (lib.get y) lib.library_legs)) (lib.get p) mem = mem' ∧
      number mem' (lib.get p) (lib.library_legs * 2) =
        number mem (lib.get x) lib.library_legs * number mem (lib.get y) lib.library_legs ∧
      ∀ i < p, number mem' (lib.get i) lib.library_legs = number mem (lib.get i) lib.library_legs := by
  obtain ⟨hlen, hval⟩ := multiply_spec (length_window mem (lib.get x) lib.library_legs)
    (length_window mem (lib.get y) lib.library_legs) hL
  refine ⟨_, rfl, ?_, fun i hi => ?_⟩
  · rw [number, ← Nat.mul_comm 2, ← hlen, window_store]
    exact_mod_cast hval
  · exact number_of_sameOff (sameOff_store _ _ _) (.inl (lib.get_add_le hi))

/-- The product and its quotient share their registers, the two below the scratch denominator. -/
theorem operands_product (hregs : 5 ≤ lib.library_regs) (hm : m + 5 < lib.library_regs)
    (hr : r + 5 < lib.library_regs) :
    Operands lib (lib.library_regs - 5) m (lib.library_regs - 5) r :=
  ⟨by omega, by omega, by omega, by omega, by omega, by omega⟩

/-- `MulMod` by a modulus of one leg, of a product that fills its legs, does not return. -/
theorem mulMod_lost (hm : m + 5 < lib.library_regs) (hr : r + 5 < lib.library_regs)
    (hm0 : number mem (lib.get m) lib.library_legs ≠ 0)
    (hone : number mem (lib.get m) lib.library_legs < 2 ^ build.legBits)
    (hfull : (2 ^ build.legBits) ^ (lib.library_legs * 2 - 1) ≤
      number mem (lib.get x) lib.library_legs * number mem (lib.get y) lib.library_legs) (fuel : Nat) :
    mulMod fuel lib (lib.get x) (lib.get y) (lib.get m) (lib.get r) mem = none := by
  have hL : 0 < lib.library_legs := Nat.pos_of_ne_zero fun h0 => hm0 (by rw [h0, number_zero])
  obtain ⟨product, hproduct, hval, hsame⟩ := @product_spec _ lib mem x y (lib.library_regs - 5) hL
  rw [← hsame m (by omega)] at hm0 hone
  have hclobbers : Clobbers lib product (lib.library_regs - 5) m (lib.library_regs - 5) :=
    ⟨(legsUsed_eq_one hm0).mpr hone, (legsUsed_eq_self (by omega)).mpr (hval ▸ hfull), by omega⟩
  simp only [mulMod, hproduct]
  rw [divideProduct_lost (operands_product (by omega) hm hr) hm0 hclobbers, Option.map_none]

theorem multiplies_iff (hm : m + 5 < lib.library_regs) (hr : r + 5 < lib.library_regs)
    (hm0 : number mem (lib.get m) lib.library_legs ≠ 0) :
    Multiplies lib mem x y m r ↔ ¬(number mem (lib.get m) lib.library_legs < 2 ^ build.legBits ∧
      (2 ^ build.legBits) ^ (lib.library_legs * 2 - 1) ≤
        number mem (lib.get x) lib.library_legs * number mem (lib.get y) lib.library_legs) := by
  constructor
  · rintro ⟨rounds, mem', hrun, -⟩ ⟨hone, hfull⟩
    have := hrun rounds le_rfl
    rw [mulMod_lost hm hr hm0 hone hfull] at this
    cases this
  · intro hnot
    have hL : 0 < lib.library_legs := Nat.pos_of_ne_zero fun h0 => hm0 (by rw [h0, number_zero])
    obtain ⟨product, hproduct, hval, hsame⟩ := @product_spec _ lib mem x y (lib.library_regs - 5) hL
    have hmod := hsame m (by omega)
    have hops : Operands lib (lib.library_regs - 5) m (lib.library_regs - 5) r :=
      operands_product (by omega) hm hr
    rw [← hmod, ← hval] at hnot
    rw [← hmod] at hm0
    rw [Multiplies, ← hmod, ← hval]
    rcases Nat.lt_or_ge (number product (lib.get (lib.library_regs - 5)) (lib.library_legs * 2))
      (number product (lib.get m) lib.library_legs) with hlt | hle
    · refine ⟨0, _, fun fuel _ => ?_, (exit_remainder hops hlt).trans (Nat.mod_eq_of_lt hlt).symm⟩
      simp only [mulMod, hproduct]
      rw [divideProduct_eq _ _ _ _ _ _ _ hm0, if_pos hlt, Option.map_some]
    · obtain ⟨mem', hrun, -, hrem, -, -⟩ := divideProduct_long hops hm0 hle fun ⟨hone, hfull, _⟩ =>
        hnot ⟨(legsUsed_eq_one hm0).mp hone, (legsUsed_eq_self (by omega)).mp hfull⟩
      refine ⟨3, mem', fun fuel hfuel => ?_, hrem⟩
      simp only [mulMod, hproduct]
      rw [hrun fuel hfuel, Option.map_some]

/-- **Double-width division and `MulMod`**: when they do what they are for. Of `MulMod` these are the
moduli of more than one leg, and the products that leave the highest leg zero. -/
theorem division_of_products (lib : Library) (mem : Mem build) :
    (∀ a b q r, Operands lib a b q r → number mem (lib.get b) lib.library_legs ≠ 0 →
      (Divides lib mem a b q r ↔
        (number mem (lib.get a) (lib.library_legs * 2) < number mem (lib.get b) lib.library_legs →
          number mem (lib.get q) (lib.library_legs * 2) < 2 ^ (8 * (lib.library_legs * 2))) ∧
        NextFree lib mem a b q r)) ∧
    ∀ x y m r, (∀ i ∈ [x, y, m, r], i + 5 < lib.library_regs) →
      number mem (lib.get m) lib.library_legs ≠ 0 →
      (Multiplies lib mem x y m r ↔ ¬(number mem (lib.get m) lib.library_legs < 2 ^ build.legBits ∧
        (2 ^ build.legBits) ^ (lib.library_legs * 2 - 1) ≤
          number mem (lib.get x) lib.library_legs * number mem (lib.get y) lib.library_legs)) := by
  constructor
  · intro a b q r h hb
    rcases Nat.lt_or_ge (number mem (lib.get a) (lib.library_legs * 2))
      (number mem (lib.get b) lib.library_legs) with hlt | hle
    · rw [divides_less_iff h hlt]
      exact ⟨fun hq => ⟨fun _ => hq, nextFree_of_lt hlt⟩, fun hq => hq.1 hlt⟩
    · rw [divides_long_iff h hb hle]
      exact ⟨fun hnext => ⟨fun hlt => absurd hlt (Nat.not_lt.mpr hle), hnext⟩, And.right⟩
  · intro x y m r hregs hm
    exact multiplies_iff (hregs m (by simp)) (hregs r (by simp)) hm

/-- `2 ^ 32 + 7` by `5`, and the product of `2 ^ 32 + 7` and `5` modulo `2 ^ 32 + 1`. -/
theorem division_of_products_example :
    let mem : Mem ⟨false, true, false⟩ := fun i => [7, 1, 0, 0, 5, 0, 1, 1].getD i 0
    Divides ⟨2, 15⟩ mem 0 2 4 6 ∧ Multiplies ⟨2, 15⟩ mem 0 2 3 4 := by
  intro mem
  refine ⟨((division_of_products ⟨2, 15⟩ mem).1 0 2 4 6 ⟨by decide, by decide, by decide, by decide,
    by decide, by decide⟩ (by decide)).mpr ⟨by decide, fun _ h => absurd h (by decide)⟩,
    ((division_of_products ⟨2, 15⟩ mem).2 0 2 3 4 (by decide) (by decide)).mpr (by decide)⟩

/-- `MulMod` of `2 ^ 64 - 1` with itself modulo `3` does not return, and the quotient of `1` by `2` that
`DivideProduct` leaves is what was in its register. -/
theorem mulMod_lost_example :
    let mem : Mem ⟨false, true, false⟩ := fun i => [2 ^ 32 - 1, 2 ^ 32 - 1, 3].getD i 0
    let mem' : Mem ⟨false, true, false⟩ := fun i => [1, 0, 0, 0, 2, 0, 0, 9].getD i 0
    (∀ fuel, mulMod fuel ⟨2, 15⟩ 0 0 2 4 mem = none) ∧
      ∀ fuel, (divideProduct fuel ⟨2, 15⟩ 0 4 6 10 mem').map (fun s => (s.1, number s.2 6 4)) =
        some (true, 9 * 2 ^ 32) := by
  refine ⟨fun fuel => ?_, fun fuel => ?_⟩
  · exact @mulMod_lost _ ⟨2, 15⟩ _ 2 0 0 1 (by decide) (by decide) (by decide) (by decide) (by decide)
      fuel
  · rw [divideProduct_eq _ _ _ _ _ _ _ (by decide), if_pos (by decide)]
    decide

end Spec

end Libcat.Math.DivideProduct
