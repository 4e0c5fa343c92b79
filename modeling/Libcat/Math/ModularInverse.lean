import Libcat.Lib.Euclid
import Libcat.Math.Divide
import Libcat.Math.Products

/-!
# ModularInverse

Euclid's division algorithm over registers, unrolled so that the two halves of a round exchange the
remainders `b` and `c` and the cofactors `t1` and `t0`. The cofactors are unsigned: the loop can leave
after either half, and one of the two exits subtracts from the modulus.
-/

namespace Libcat.Math.ModularInverse

open Radix Window BigRTL Registers Divide Products Euclid

variable {build : Build}

section Model

/-- What half a round cuts off: the product that `MultiplyLow` fits to a register, and the carry of
`Add`. -/
structure Loss where
  product : Nat
  carry : u8

/-- `Divide(b, c, q, b)`, `MultiplyLow(q, t0, p)` and `Add(t1, p, t1)`; the other half of a round has
`b` and `c` exchanged, and `t0` and `t1`. -/
def halfRound (fuel : Nat) (lib : Library) (b c q t0 p t1 : Nat) (mem : Mem build) :
    Option (Loss × Mem build) := do
  let (_, mem) ← divide fuel lib b c q b mem
  let product := number mem q lib.library_legs * number mem t0 lib.library_legs
  let mem := multiplyLow lib.library_legs q t0 p mem
  let sum := add (window mem t1 lib.library_legs) (window mem p lib.library_legs)
  some (⟨product, sum.1⟩, store sum.2 t1 mem)

/-- The loop of `ModularInverse`, for at most so many rounds, and the subtraction after it. -/
def inverseLoop (fuel : Nat) (lib : Library) (modulus inverse : Nat) :
    Nat → Mem build → Option (List Loss × Mem build)
  | 0, _ => none
  | rounds + 1, mem =>
    let t1 := inverse
    let t0 := lib.get (lib.library_regs - 3)
    let b := lib.get (lib.library_regs - 4)
    let c := lib.get (lib.library_regs - 5)
    let q := lib.get (lib.library_regs - 6)
    let p := lib.get (lib.library_regs - 7)
    if equalX mem c 1 lib.library_legs then
      some ([], store (subtract (window mem modulus lib.library_legs)
        (window mem t0 lib.library_legs)).2 inverse mem)
    else do
      let (loss, mem) ← halfRound fuel lib b c q t0 p t1 mem
      if equalX mem b 1 lib.library_legs then some ([loss], mem)
      else
        let (loss', mem) ← halfRound fuel lib c b q t1 p t0 mem
        let (losses, mem) ← inverseLoop fuel lib modulus inverse rounds mem
        some (loss :: loss' :: losses, mem)

/-- `ModularInverse`, with what its products and sums would lose. -/
def modularInverse (fuel : Nat) (lib : Library) (x modulus inverse : Nat) (mem : Mem build) :
    Option (List Loss × Mem build) :=
  if equalX mem x 1 lib.library_legs then some ([], copyX lib.library_legs 1 inverse mem)
  else do
    let t0 := lib.get (lib.library_regs - 3)
    let b := lib.get (lib.library_regs - 4)
    let c := lib.get (lib.library_regs - 5)
    let mem := copy lib.library_legs x b mem
    let (_, mem) ← divide fuel lib modulus b t0 c mem
    inverseLoop fuel lib modulus inverse fuel (copyX lib.library_legs 1 inverse mem)

end Model

section Spec

variable {lib : Library} {mem : Mem build} {m x : Nat} {ε : ℤ} {b c q t0 p t1 modulus : Nat}

/-- The number in a register. -/
abbrev reg (lib : Library) (mem : Mem build) (i : Nat) : Nat :=
  number mem (lib.get i) lib.library_legs

/-- Nothing is lost: the product fits a register, and the sum has no carry. -/
def Loss.None (build : Build) (lib : Library) (loss : Loss) : Prop :=
  loss.product < (2 ^ build.legBits) ^ lib.library_legs ∧ loss.carry = 0

/-- The registers of half a round: below the scratch registers of `Divide`, and different. -/
structure Separate (lib : Library) (l : List Nat) : Prop where
  below : ∀ i ∈ l, i + 2 < lib.library_regs
  nodup : l.Nodup

/-- The state between halves of rounds, the cofactors of `m` and `x` in registers. -/
structure State (lib : Library) (mem : Mem build) (m x : Nat) (ε : ℤ) (b c t0 t1 modulus : Nat) :
    Prop where
  cofactors : Cofactors m x ε (reg lib mem b) (reg lib mem c) (reg lib mem t0) (reg lib mem t1)
  modulus_eq : reg lib mem modulus = m

theorem State.legs_pos (h : State lib mem m x ε b c t0 t1 modulus) : 0 < lib.library_legs :=
  Nat.pos_of_ne_zero fun h0 => by
    have := h.cofactors.pos
    unfold reg at this
    rw [h0, number_zero] at this
    exact Nat.lt_irrefl 0 this

theorem halfRound_spec (hregs : Separate lib [b, c, q, t0, p, t1, modulus])
    (h : State lib mem m x ε b c t0 t1 modulus) (hc : reg lib mem c ≠ 1) :
    ∃ loss mem', (∀ fuel, 3 ≤ fuel → halfRound fuel lib (lib.get b) (lib.get c) (lib.get q)
        (lib.get t0) (lib.get p) (lib.get t1) mem = some (loss, mem')) ∧
      loss.None build lib ∧ State lib mem' m x (-ε) c b t1 t0 modulus ∧
      reg lib mem' c = reg lib mem c ∧ reg lib mem' b < reg lib mem c := by
  obtain ⟨hbelow, hnodup⟩ := hregs
  simp only [List.forall_mem_cons] at hbelow
  obtain ⟨hb, hc', hq, ht0, hp, ht1, hmod, -⟩ := hbelow
  simp only [List.nodup_cons, List.mem_cons, not_or, List.not_mem_nil, not_false_eq_true,
    and_true] at hnodup
  obtain ⟨⟨hbc, hbq, hbt0, hbp, hbt1, hbm⟩, ⟨hcq, hct0, hcp, hct1, hcm⟩, ⟨hqt0, hqp, hqt1, hqm⟩,
    ⟨ht0p, ht0t1, ht0m⟩, ⟨hpt1, hpm⟩, ht1m, -⟩ := hnodup
  have hL := h.legs_pos
  obtain ⟨hcof, hmodulus⟩ := h
  have hsize : m < (2 ^ build.legBits) ^ lib.library_legs := hmodulus ▸ number_lt _ _ _
  have hsum : number mem (lib.get t1) lib.library_legs + number mem (lib.get b) lib.library_legs /
      number mem (lib.get c) lib.library_legs * number mem (lib.get t0) lib.library_legs ≤ m :=
    hcof.sum_le
  have hproduct := ((Nat.le_add_left _ _).trans hsum).trans_lt hsize
  -- the division
  obtain ⟨mem1, hdivide, hquot, hrem, hsame1⟩ :=
    divide_spec hb hc' hq hb (Ne.symm hbq) hcof.pos.ne'
  have h1t0 := hsame1 t0 ht0 (Ne.symm hqt0) (Ne.symm hbt0)
  have h1t1 := hsame1 t1 ht1 (Ne.symm hqt1) (Ne.symm hbt1)
  -- the product fits
  obtain ⟨hoff2, hlow⟩ := @multiplyLow_spec _ mem1 _ (lib.get q) (lib.get t0) (lib.get p) hL
    (lib.get_apart hqp) (lib.get_apart ht0p)
  set mem2 := multiplyLow lib.library_legs (lib.get q) (lib.get t0) (lib.get p) mem1 with hmem2
  rw [hquot, h1t0, Nat.mod_eq_of_lt hproduct] at hlow
  have hsame2 : ∀ i, i ≠ p → reg lib mem2 i = reg lib mem1 i := fun i hi =>
    number_of_sameOff hoff2 (lib.get_apart hi)
  -- the sum fits
  obtain ⟨hoff3, hadd⟩ := add_registers mem2 (lib.get t1) (lib.get p) (lib.get t1) lib.library_legs
  set sum := add (window mem2 (lib.get t1) lib.library_legs) (window mem2 (lib.get p) lib.library_legs)
    with hsumdef
  have h2t1 : number mem2 (lib.get t1) lib.library_legs = number mem (lib.get t1) lib.library_legs :=
    (hsame2 t1 (Ne.symm hpt1)).trans h1t1
  rw [hlow, h2t1] at hadd
  obtain ⟨hcarry, -, hval⟩ := hadd.resolve_right fun h =>
    absurd (h.2.1.trans hsum) (Nat.not_le.mpr hsize)
  set mem3 := store sum.2 (lib.get t1) mem2 with hmem3
  have hsame3 : ∀ i, i ≠ t1 → reg lib mem3 i = reg lib mem2 i := fun i hi =>
    number_of_sameOff hoff3 (lib.get_apart hi)
  have h3b : reg lib mem3 b = reg lib mem b % reg lib mem c := by
    rw [hsame3 b hbt1, hsame2 b hbp]
    exact hrem
  have h3c : reg lib mem3 c = reg lib mem c := by
    rw [hsame3 c hct1, hsame2 c hcp]
    exact hsame1 c hc' hcq (Ne.symm hbc)
  have h3t0 : reg lib mem3 t0 = reg lib mem t0 := by
    rw [hsame3 t0 ht0t1, hsame2 t0 ht0p]
    exact h1t0
  have h3m : reg lib mem3 modulus = m := by
    rw [hsame3 modulus (Ne.symm ht1m), hsame2 modulus (Ne.symm hpm), ← hmodulus]
    exact hsame1 modulus hmod (Ne.symm hqm) (Ne.symm hbm)
  refine ⟨⟨number mem1 (lib.get q) lib.library_legs * number mem1 (lib.get t0) lib.library_legs,
    sum.1⟩, mem3, fun fuel hfuel => ?_, ⟨?_, hcarry⟩, ⟨?_, h3m⟩, h3c, ?_⟩
  · unfold halfRound
    rw [hdivide fuel hfuel]
    rfl
  · show number mem1 (lib.get q) _ * number mem1 (lib.get t0) _ < _
    rw [hquot, h1t0]
    exact hproduct
  · have h3t1 : reg lib mem3 t1 =
        reg lib mem t1 + reg lib mem b / reg lib mem c * reg lib mem t0 := hval
    rw [h3b, h3c, h3t0, h3t1]
    exact hcof.step hc
  · rw [h3b]
    exact Nat.mod_lt _ hcof.pos

/-- An inverse of `x` in a register. -/
structure Inverts (lib : Library) (mem : Mem build) (m x inverse : Nat) : Prop where
  lt : reg lib mem inverse < m
  mul_eq_one : x * reg lib mem inverse ≡ 1 [MOD m]

theorem modEq_of_int {m a b : Nat} (h : (a : ℤ) ≡ b [ZMOD m]) : a ≡ b [MOD m] :=
  (Int.natCast_modEq_iff).mp h

/-- The exit before a round, `c` one: the inverse is the modulus less `t0`. -/
theorem subtract_exit (h : State lib mem m x 1 b c t0 t1 modulus) (hc : reg lib mem c = 1) :
    Inverts lib (store (subtract (window mem (lib.get modulus) lib.library_legs)
      (window mem (lib.get t0) lib.library_legs)).2 (lib.get t1) mem) m x t1 := by
  obtain ⟨hcof, hmodulus⟩ := h
  rw [hc] at hcof
  have hlt := hcof.lt_modulus
  have hpos := hcof.s_pos
  obtain ⟨-, hsub⟩ := subtract_registers mem (lib.get modulus) (lib.get t0) (lib.get t1) lib.library_legs
  unfold reg at hmodulus
  rw [hmodulus] at hsub
  obtain ⟨-, -, hval⟩ := hsub.resolve_right fun hr => absurd hr.2.1 (Nat.not_lt.mpr hlt.le)
  set mem' := store (subtract (window mem (lib.get modulus) lib.library_legs)
    (window mem (lib.get t0) lib.library_legs)).2 (lib.get t1) mem with hmem'
  have hsum : reg lib mem' t1 + reg lib mem t0 = m := hval
  constructor
  · omega
  · refine modEq_of_int ?_
    have hz : (reg lib mem' t1 : ℤ) = m - reg lib mem t0 := by
      rw [eq_sub_iff_add_eq]
      exact_mod_cast hsum
    have hfinal : (x : ℤ) * m - x * reg lib mem t0 ≡ 0 - -1 [ZMOD m] :=
      (Int.modEq_zero_iff_dvd.mpr (dvd_mul_left _ _)).sub hcof.final
    push_cast
    rw [hz, mul_sub]
    simpa using hfinal

/-- The exit in a round, `b` one: the inverse is `t1`. -/
theorem return_exit (h : State lib mem m x (-1) c b t1 t0 modulus) (hb : reg lib mem b = 1) :
    Inverts lib mem m x t1 := by
  obtain ⟨hcof, -⟩ := h
  rw [hb] at hcof
  refine ⟨hcof.lt_modulus, modEq_of_int ?_⟩
  push_cast
  simpa using hcof.final

variable {inverse : Nat}

theorem separate (hm : modulus + 7 < lib.library_regs) (hi : inverse + 7 < lib.library_regs)
    (hne : inverse ≠ modulus) :
    Separate lib [lib.library_regs - 4, lib.library_regs - 5, lib.library_regs - 6,
        lib.library_regs - 3, lib.library_regs - 7, inverse, modulus] ∧
      Separate lib [lib.library_regs - 5, lib.library_regs - 4, lib.library_regs - 6, inverse,
        lib.library_regs - 7, lib.library_regs - 3, modulus] := by
  refine ⟨⟨?_, ?_⟩, ?_, ?_⟩
  · simp only [List.forall_mem_cons, List.not_mem_nil, false_imp_iff, forall_const, and_true]
    omega
  · simp only [List.nodup_cons, List.mem_cons, List.not_mem_nil, or_false, not_or, not_false_eq_true,
      List.nodup_nil, and_true]
    omega
  · simp only [List.forall_mem_cons, List.not_mem_nil, false_imp_iff, forall_const, and_true]
    omega
  · simp only [List.nodup_cons, List.mem_cons, List.not_mem_nil, or_false, not_or, not_false_eq_true,
      List.nodup_nil, and_true]
    omega

theorem equalX_one (hL : 0 < lib.library_legs) (mem : Mem build) (i : Nat) :
    equalX mem (lib.get i) 1 lib.library_legs = true ↔ reg lib mem i = 1 := by
  rw [equalX_eq hL, one_toNat]

/-- By the remainder in `c`, which a round decreases. -/
theorem inverseLoop_spec (hm : modulus + 7 < lib.library_regs) (hi : inverse + 7 < lib.library_regs)
    (hne : inverse ≠ modulus) {k : Nat} (hk : reg lib mem (lib.library_regs - 5) = k)
    (h : State lib mem m x 1 (lib.library_regs - 4) (lib.library_regs - 5) (lib.library_regs - 3)
      inverse modulus) :
    ∃ losses mem', (∀ fuel rounds, 3 ≤ fuel → k ≤ rounds → inverseLoop fuel lib (lib.get modulus)
        (lib.get inverse) rounds mem = some (losses, mem')) ∧
      (∀ loss ∈ losses, loss.None build lib) ∧ Inverts lib mem' m x inverse := by
  induction k using Nat.strong_induction_on generalizing mem with
  | _ k ih =>
    have hL := h.legs_pos
    have hpos : 0 < k := hk ▸ h.cofactors.pos
    obtain ⟨hfirst, hsecond⟩ := separate hm hi hne
    by_cases hc : reg lib mem (lib.library_regs - 5) = 1
    · refine ⟨[], _, fun fuel rounds _ hrounds => ?_, fun loss hloss => absurd hloss
        List.not_mem_nil, subtract_exit h hc⟩
      obtain ⟨n, rfl⟩ := Nat.exists_eq_succ_of_ne_zero (hpos.trans_le hrounds).ne'
      unfold inverseLoop
      exact if_pos ((equalX_one hL _ _).mpr hc)
    · obtain ⟨loss, mem1, hhalf, hloss, hstate, hc1, hb1⟩ := halfRound_spec hfirst h hc
      have hguard := (equalX_one hL mem (lib.library_regs - 5)).not.mpr hc
      by_cases hb : reg lib mem1 (lib.library_regs - 4) = 1
      · refine ⟨[loss], mem1, fun fuel rounds hfuel hrounds => ?_, fun l hl => ?_,
          return_exit hstate hb⟩
        · obtain ⟨n, rfl⟩ := Nat.exists_eq_succ_of_ne_zero (hpos.trans_le hrounds).ne'
          unfold inverseLoop
          dsimp only
          rw [if_neg hguard, hhalf fuel hfuel]
          exact if_pos ((equalX_one hL _ _).mpr hb)
        · rwa [List.mem_singleton.mp hl]
      · obtain ⟨loss', mem2, hhalf', hloss', hstate', hb2, hc2⟩ := halfRound_spec hsecond hstate hb
        rw [neg_neg] at hstate'
        have hguard' := (equalX_one hL mem1 (lib.library_regs - 4)).not.mpr hb
        obtain ⟨losses, mem', hrun, hlosses, hinv⟩ := ih _ (by omega) rfl hstate'
        refine ⟨loss :: loss' :: losses, mem', fun fuel rounds hfuel hrounds => ?_, ?_, hinv⟩
        · obtain ⟨n, rfl⟩ := Nat.exists_eq_succ_of_ne_zero (hpos.trans_le hrounds).ne'
          unfold inverseLoop
          dsimp only
          rw [if_neg hguard, hhalf fuel hfuel]
          simp only [Option.bind_eq_bind, Option.bind_some, if_neg hguard', hhalf' fuel hfuel]
          rw [hrun fuel n hfuel (by omega)]
          rfl
        · rw [List.forall_mem_cons, List.forall_mem_cons]
          exact ⟨hloss, hloss', hlosses⟩

/-- **Modular inverse.** The inverse of every number that has one, in bounded time, with no product cut
and no carry dropped on the way. `inverse` may be the register of `x`. -/
theorem modular_inverse (lib : Library) (mem : Mem build) {xi mi inverse : Nat}
    (hx : xi + 7 < lib.library_regs) (hm : mi + 7 < lib.library_regs)
    (hi : inverse + 7 < lib.library_regs) (hne : inverse ≠ mi) (hmod : 2 ≤ reg lib mem mi)
    (hpos : 1 ≤ reg lib mem xi) (hlt : reg lib mem xi < reg lib mem mi)
    (hcop : Nat.Coprime (reg lib mem xi) (reg lib mem mi)) :
    ∃ losses mem', (∀ fuel, reg lib mem xi + 3 ≤ fuel →
        modularInverse fuel lib (lib.get xi) (lib.get mi) (lib.get inverse) mem =
          some (losses, mem')) ∧
      reg lib mem' inverse < reg lib mem mi ∧
      reg lib mem xi * reg lib mem' inverse ≡ 1 [MOD reg lib mem mi] ∧
      ∀ loss ∈ losses, loss.product < (2 ^ build.legBits) ^ lib.library_legs ∧ loss.carry = 0 := by
  have hL : 0 < lib.library_legs := Nat.pos_of_ne_zero fun h0 => by
    unfold reg at hpos
    rw [h0, number_zero] at hpos
    omega
  by_cases hone : reg lib mem xi = 1
  · have hval : reg lib (copyX lib.library_legs 1 (lib.get inverse) mem) inverse = 1 := by
      unfold reg
      rw [number_copyX hL, one_toNat]
    refine ⟨[], copyX lib.library_legs 1 (lib.get inverse) mem, fun fuel _ => ?_, ?_, ?_,
      fun loss hloss => absurd hloss List.not_mem_nil⟩
    · unfold modularInverse
      exact if_pos ((equalX_one hL _ _).mpr hone)
    · rw [hval]
      omega
    · rw [hval, hone]
  · have hguard := (equalX_one hL mem xi).not.mpr hone
    -- x is copied, and the modulus divided by it
    set mem1 := copy lib.library_legs (lib.get xi) (lib.get (lib.library_regs - 4)) mem with hmem1
    have h1x : reg lib mem1 (lib.library_regs - 4) = reg lib mem xi := number_copy _ _ _ _
    have h1m : reg lib mem1 mi = reg lib mem mi :=
      number_of_sameOff (sameOff_copy _ _ _ _) (lib.get_apart (by omega))
    obtain ⟨mem2, hdivide, hquot, hrem, hsame⟩ := @divide_spec _ mem1 lib mi (lib.library_regs - 4)
      (lib.library_regs - 3) (lib.library_regs - 5) (by omega) (by omega) (by omega) (by omega)
      (by omega) fun h0 => absurd (h1x.symm.trans h0) (by omega)
    set mem3 := copyX lib.library_legs 1 (lib.get inverse) mem2 with hmem3
    have hsame3 : ∀ i, i ≠ inverse → reg lib mem3 i = reg lib mem2 i := fun i hne =>
      number_of_sameOff (sameOff_copyX hL _ _ _) (lib.get_apart hne)
    have h3x : reg lib mem3 (lib.library_regs - 4) = reg lib mem xi := by
      rw [hsame3 _ (by omega), ← h1x]
      exact hsame _ (by omega) (by omega) (by omega)
    have h3m : reg lib mem3 mi = reg lib mem mi := by
      rw [hsame3 _ (Ne.symm hne), ← h1m]
      exact hsame _ (by omega) (by omega) (by omega)
    have h3c : reg lib mem3 (lib.library_regs - 5) = reg lib mem mi % reg lib mem xi := by
      rw [hsame3 _ (by omega), ← h1x, ← h1m]
      exact hrem
    have h3t0 : reg lib mem3 (lib.library_regs - 3) = reg lib mem mi / reg lib mem xi := by
      rw [hsame3 _ (by omega), ← h1x, ← h1m]
      exact hquot
    have h3t1 : reg lib mem3 inverse = 1 := by
      unfold reg
      rw [hmem3, number_copyX hL, one_toNat]
    have hstate : State lib mem3 (reg lib mem mi) (reg lib mem xi) 1 (lib.library_regs - 4)
        (lib.library_regs - 5) (lib.library_regs - 3) inverse mi := by
      refine ⟨?_, h3m⟩
      rw [h3x, h3c, h3t0, h3t1]
      exact Cofactors.first (by omega) hlt hcop
    obtain ⟨losses, mem', hrun, hlosses, hinv⟩ := inverseLoop_spec hm hi hne rfl hstate
    refine ⟨losses, mem', fun fuel hfuel => ?_, hinv.lt, hinv.mul_eq_one, hlosses⟩
    have hrounds : reg lib mem3 (lib.library_regs - 5) < reg lib mem xi := by
      rw [h3c]
      exact Nat.mod_lt _ (by omega)
    unfold modularInverse
    dsimp only
    rw [if_neg hguard, hdivide fuel (by omega)]
    exact hrun fuel fuel (by omega) (by omega)

/-- The inverse of 5 modulo `2 ^ 32 + 15`, in place. -/
theorem modular_inverse_in_place :
    let mem : Mem ⟨false, true, false⟩ := fun i => [5, 0, 15, 1].getD i 0
    ∃ losses mem', modularInverse 8 ⟨2, 9⟩ 0 2 0 mem = some (losses, mem') ∧
      number mem' 0 2 < 2 ^ 32 + 15 ∧ 5 * number mem' 0 2 ≡ 1 [MOD 2 ^ 32 + 15] := by
  intro mem
  have hx : reg ⟨2, 9⟩ mem 0 = 5 := by decide
  have hm : reg ⟨2, 9⟩ mem 1 = 2 ^ 32 + 15 := by decide
  obtain ⟨losses, mem', hrun, hlt, hmul, -⟩ := @modular_inverse _ ⟨2, 9⟩ mem 0 1 0 (by decide)
    (by decide) (by decide) (by decide) (by rw [hm]; norm_num) (by rw [hx]; norm_num)
    (by rw [hx, hm]; norm_num) (by rw [hx, hm]; norm_num)
  rw [hx] at hrun hmul
  rw [hm] at hlt hmul
  exact ⟨losses, mem', hrun 8 le_rfl, hlt, hmul⟩

end Spec

end Libcat.Math.ModularInverse
