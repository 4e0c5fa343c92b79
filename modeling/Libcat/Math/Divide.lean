import Libcat.Math.Division

/-!
# Quotient and remainder

`Divide` of `BigRTL`: the numerator and the denominator are shifted to scratch registers until the top
bit of the denominator is set, divided by `DivideCore`, and the remainder is shifted back.
-/

namespace Libcat.Math.Divide

open Radix Window BigRTL Registers Division LongDivision

variable {build : Build}

section Model

/-- The division of `Divide` and `DivideProduct`, with the quotient's legs. -/
def longDivide (fuel library_legs q_legs A_used B_used in_a in_b A B out_q out_r : Nat)
    (mem : Mem build) : Option (Mem build) := do
  -- the shift that sets the high bit of the highest leg in b
  let shift := build.legBits - usedBits (mem (in_b + (B_used - 1))) - 1
  let a := shiftLeft A_used in_a shift A mem
  let b := shiftLeft B_used in_b shift B a.1
  let mem ← divideCore fuel A_used a.2 A B_used B out_q b.1
  -- zero the unused legs of the quotient
  let offset := A_used - B_used + 1
  let mem := fill 0 (q_legs - offset) (out_q + offset) mem
  -- fix the remainder shift and zero its unused legs
  let mem := fill 0 (library_legs - B_used) (out_r + B_used) mem
  return (shiftRight B_used A shift out_r mem).1

/-- `Divide`. -/
def divide (fuel : Nat) (lib : Library) (in_a in_b out_q out_r : Nat) (mem : Mem build) :
    Option (Bool × Mem build) :=
  let legs := lib.library_legs
  if less mem in_a in_b legs then
    some (true, copyX legs 0 out_q (copy legs in_a out_r mem))
  else
    let B_used := legsUsed mem in_b legs
    if B_used = 0 then some (false, mem)
    else
      let A_used := legsUsed mem in_a legs
      if B_used = 1 then
        let r := divideX legs in_a (mem in_b) out_q mem
        some (true, copyX legs r.2 out_r r.1)
      else
        let A := lib.get (lib.library_regs - 1)
        let B := lib.get (lib.library_regs - 2)
        (longDivide fuel legs legs A_used B_used in_a in_b A B out_q out_r mem).map fun mem =>
          (true, mem)

end Model

section Spec

variable {mem : Mem build} {in_a in_b A B Q R l n L q_legs : Nat}

/-- The shift that sets the top bit. -/
theorem shift_spec {x : Leg build} (hx : x ≠ 0) :
    build.legBits - usedBits x - 1 < build.legBits ∧
      2 ^ build.legBits ≤ 2 * (2 ^ (build.legBits - usedBits x - 1) * x.toNat) ∧
      2 ^ (build.legBits - usedBits x - 1) * (x.toNat + 1) ≤ 2 ^ build.legBits := by
  have hx0 : x.toNat ≠ 0 := fun h => hx (BitVec.eq_of_toNat_eq h)
  have hlog : usedBits x < build.legBits := (Nat.log2_lt hx0).mpr x.isLt
  have hlow : 2 ^ usedBits x ≤ x.toNat := Nat.log2_self_le hx0
  have hhigh : x.toNat < 2 ^ (usedBits x + 1) := Nat.lt_log2_self
  have hsplit : 2 ^ build.legBits =
      2 ^ (build.legBits - usedBits x - 1) * 2 ^ (usedBits x + 1) := by
    rw [← Nat.pow_add]
    congr 1
    omega
  refine ⟨by omega, ?_, ?_⟩
  · rw [hsplit, pow_succ]
    have := Nat.mul_le_mul_left (2 ^ (build.legBits - usedBits x - 1)) hlow
    linarith
  · rw [hsplit]
    exact Nat.mul_le_mul_left _ hhigh

/-- The denominator shifted: nothing goes out, and the top bit is set. -/
theorem shiftLeft_normal (hn : 0 < n) (hx : mem (in_b + (n - 1)) ≠ 0)
    (hd : in_b + n ≤ B ∨ B + n ≤ in_b) :
    ∃ mem' b, (shiftLeft n in_b (build.legBits - usedBits (mem (in_b + (n - 1))) - 1) B mem).1 = mem' ∧
      SameOff B n mem mem' ∧
      number mem' B n =
        2 ^ (build.legBits - usedBits (mem (in_b + (n - 1))) - 1) * number mem in_b n ∧
      Normal mem' B n b := by
  obtain ⟨hs, hlow, hhigh⟩ := shift_spec hx
  set s := build.legBits - usedBits (mem (in_b + (n - 1))) - 1 with hsdef
  obtain ⟨hoff, hval, -⟩ := shiftLeft_spec hs hn hd mem
  obtain ⟨m, hm⟩ : ∃ m, n = m + 1 := ⟨n - 1, by omega⟩
  subst hm
  rw [Nat.add_sub_cancel] at hlow hhigh
  have hnum := number_concat mem in_b m
  have hlt := number_lt mem in_b m
  set p := (2 ^ build.legBits) ^ m with hp
  have hin : 2 ^ s * number mem in_b (m + 1) < (2 ^ build.legBits) ^ (m + 1) := by
    calc 2 ^ s * number mem in_b (m + 1)
        < 2 ^ s * (((mem (in_b + m)).toNat + 1) * p) := by
          refine Nat.mul_lt_mul_of_pos_left ?_ (Nat.two_pow_pos s)
          rw [hnum, Nat.add_mul, Nat.mul_comm _ p]
          omega
      _ = 2 ^ s * ((mem (in_b + m)).toNat + 1) * p := by ring
      _ ≤ 2 ^ build.legBits * p := Nat.mul_le_mul_right _ hhigh
      _ = (2 ^ build.legBits) ^ (m + 1) := by rw [hp, pow_succ, Nat.mul_comm]
  have hcarry : (shiftLeft (m + 1) in_b s B mem).2.toNat = 0 := by
    by_contra hne
    have := Nat.le_mul_of_pos_right ((2 ^ build.legBits) ^ (m + 1)) (Nat.pos_of_ne_zero hne)
    omega
  rw [hcarry, Nat.mul_zero, Nat.add_zero] at hval
  refine ⟨_, _, rfl, hoff, hval, hn, rfl, ?_⟩
  rw [Nat.add_sub_cancel]
  -- the top leg has at least the shifted one of the denominator
  have hB := number_concat (shiftLeft (m + 1) in_b s B mem).1 B m
  have hBlt := number_lt (shiftLeft (m + 1) in_b s B mem).1 B m
  rw [← hp] at hB hBlt
  by_contra hlt2
  have hmul : p * ((shiftLeft (m + 1) in_b s B mem).1 (B + m)).toNat + p ≤
      p * (2 ^ s * (mem (in_b + m)).toNat) := by
    rw [← Nat.mul_succ]
    exact Nat.mul_le_mul_left p (by omega)
  have hge : p * (2 ^ s * (mem (in_b + m)).toNat) ≤ 2 ^ s * number mem in_b (m + 1) := by
    rw [hnum, Nat.mul_add]
    calc p * (2 ^ s * (mem (in_b + m)).toNat) = 2 ^ s * (p * (mem (in_b + m)).toNat) := by ring
      _ ≤ _ := Nat.le_add_left _ _
  omega

/-- The bits that a shift moves out are less than the top leg of the denominator. -/
theorem shifted_out_lt {b c : Leg build} {s : Nat} (h : Division.Normal mem B n b)
    (hs : s < build.legBits) (hc : c.toNat < 2 ^ s) : c < b := by
  have htop := h.top
  have hsw : 2 ^ build.legBits = 2 ^ s * 2 ^ (build.legBits - s) := pow_split hs.le
  have : 2 ^ s * 2 ^ 1 ≤ 2 ^ s * 2 ^ (build.legBits - s) :=
    Nat.mul_le_mul_left _ (Nat.pow_le_pow_right (by omega) (by omega))
  rw [BitVec.lt_def]
  omega

/-- The places of a division: the inputs apart from the scratch registers, and these apart from each
other and from the outputs. The quotient has `l + 1` legs of `q_legs`. -/
structure Places (in_a in_b A B Q R l n L q_legs : Nat) : Prop where
  n_pos : 0 < n
  n_le : n ≤ L
  l_lt : l < q_legs
  in_a_A : in_a + (l + n) ≤ A ∨ A + (l + n) ≤ in_a
  in_b_A : in_b + n ≤ A ∨ A + (l + n) ≤ in_b
  in_b_B : in_b + n ≤ B ∨ B + n ≤ in_b
  A_B : A + (l + n) ≤ B ∨ B + n ≤ A
  Q_A : Q + q_legs ≤ A ∨ A + (l + n) ≤ Q
  Q_B : Q + q_legs ≤ B ∨ B + n ≤ Q
  R_A : R + L ≤ A ∨ A + (l + n) ≤ R
  R_Q : R + L ≤ Q ∨ Q + q_legs ≤ R
  next_A : Q + l + 1 < A ∨ A + (l + n) ≤ Q + l + 1
  next_B : Q + l + 1 < B ∨ B + n ≤ Q + l + 1

theorem div_mod_of {x y q r : Nat} (h : q * y + r = x) (hr : r < y) : q = x / y ∧ r = x % y := by
  have hx : r + y * q = x := by rw [← h, Nat.add_comm, Nat.mul_comm]
  have hdiv := (Nat.div_mod_unique (Nat.zero_lt_of_lt hr)).mpr ⟨hx, hr⟩
  exact ⟨hdiv.1.symm, hdiv.2.symm⟩

/-- A division of shifted numbers. -/
theorem unshift_division {x y q r s : Nat} (h : 2 ^ s * x = q * (2 ^ s * y) + r)
    (hr : r < 2 ^ s * y) : q = x / y ∧ r / 2 ^ s = x % y := by
  have hpos := Nat.two_pow_pos s
  have hr' : r = 2 ^ s * (x - q * y) := by
    rw [Nat.mul_sub, h]
    have : q * (2 ^ s * y) = 2 ^ s * (q * y) := by ring
    omega
  have hle : q * y ≤ x := by
    have : q * (2 ^ s * y) = 2 ^ s * (q * y) := by ring
    have hmul : 2 ^ s * (q * y) ≤ 2 ^ s * x := by omega
    exact Nat.le_of_mul_le_mul_left hmul hpos
  have hlt : x - q * y < y := by
    rw [hr'] at hr
    exact Nat.lt_of_mul_lt_mul_left hr
  obtain ⟨hq, hmod⟩ := div_mod_of (Nat.add_sub_cancel' hle) hlt
  exact ⟨hq, by rw [hr', Nat.mul_div_cancel_left _ hpos, hmod]⟩

/-- Quotient and remainder, the rest of the outputs zeroed, and the leg above the quotient too. -/
theorem longDivide_spec (h : Places in_a in_b A B Q R l n L q_legs)
    (hx : mem (in_b + (n - 1)) ≠ 0) :
    ∃ mem', (∀ fuel, 3 ≤ fuel →
        longDivide fuel L q_legs (l + n) n in_a in_b A B Q R mem = some mem') ∧
      number mem' Q q_legs = number mem in_a (l + n) / number mem in_b n ∧
      number mem' R L = number mem in_a (l + n) % number mem in_b n ∧
      (∀ j, j < A ∨ A + (l + n) ≤ j → j < B ∨ B + n ≤ j → j < Q ∨ Q + q_legs ≤ j →
        j < R ∨ R + L ≤ j → j ≠ Q + l + 1 → mem' j = mem j) ∧
      (Q + l + 1 < R ∨ R + L ≤ Q + l + 1 → mem' (Q + l + 1) = 0) := by
  obtain ⟨hpos, hnL, hlq, haA, hbA, hbB, hAB, hQA, hQB, hRA, hRQ, hnA, hnB⟩ := h
  obtain ⟨hs, hlow, hhigh⟩ := shift_spec hx
  set s := build.legBits - usedBits (mem (in_b + (n - 1))) - 1 with hsdef
  -- the numerator
  obtain ⟨hoff1, hval1, hover⟩ := @shiftLeft_spec _ _ hs (l + n) _ _ (by omega) haA mem
  set a := shiftLeft (l + n) in_a s A mem with ha
  -- the denominator
  have hin_b : number a.1 in_b n = number mem in_b n := number_of_sameOff hoff1 (by omega)
  have hx1 : a.1 (in_b + (n - 1)) = mem (in_b + (n - 1)) := hoff1 _ (by omega)
  obtain ⟨mem2, b, hmem2, hoff2, hval2, hnormal⟩ := shiftLeft_normal hpos (hx1.symm ▸ hx) hbB
  rw [hx1, ← hsdef] at hmem2 hval2
  have hA2 : number mem2 A (l + n) = number a.1 A (l + n) := number_of_sameOff hoff2 (by omega)
  rw [hin_b] at hval2
  have hlt : a.2 < b := shifted_out_lt hnormal hs hover
  have hapart : Apart A B Q n l := ⟨by omega, by omega, by omega⟩
  obtain ⟨mem3, hrun, hoff3, hnext, hdiv, hrem⟩ :=
    divideCore_spec hapart (by omega) (by omega) hnormal hlt
  -- both sides are shifted alike
  rw [numerator, hA2, hval1, hval2] at hdiv
  rw [hval2] at hrem
  obtain ⟨hquot, hrest⟩ := unshift_division hdiv hrem
  -- the unused legs of the quotient, and the remainder
  have hoff4 := sameOff_fill (0 : Leg build) (q_legs - (l + 1)) (Q + (l + 1)) mem3
  set mem4 := fill 0 (q_legs - (l + 1)) (Q + (l + 1)) mem3 with hmem4
  have hoff5 := sameOff_fill (0 : Leg build) (L - n) (R + n) mem4
  set mem5 := fill 0 (L - n) (R + n) mem4 with hmem5
  obtain ⟨hoff6, hval6⟩ := @shiftRight_spec _ _ hs _ A R hpos (by omega) mem5
  set mem6 := (shiftRight n A s R mem5).1 with hmem6
  have hQ : number mem6 Q q_legs = number mem3 Q (l + 1) := by
    have hsplit := number_add mem4 Q (l + 1) (q_legs - (l + 1))
    have hzero : number mem4 (Q + (l + 1)) (q_legs - (l + 1)) = 0 := number_fill_zero _ _ _
    rw [show l + 1 + (q_legs - (l + 1)) = q_legs by omega, hzero, Nat.mul_zero, Nat.add_zero] at hsplit
    rw [number_of_sameOff hoff6 (by omega), number_of_sameOff hoff5 (by omega), hsplit,
      number_of_sameOff hoff4 (by omega)]
  have hR : number mem6 R L = number mem3 A n / 2 ^ s := by
    have hsplit := number_add mem6 R n (L - n)
    have hzero : number mem5 (R + n) (L - n) = 0 := number_fill_zero _ _ _
    rw [show n + (L - n) = L by omega, number_of_sameOff hoff6 (Or.inr le_rfl), hzero, Nat.mul_zero,
      Nat.add_zero] at hsplit
    rw [hsplit, hval6, number_of_sameOff hoff5 (by omega), number_of_sameOff hoff4 (by omega)]
  refine ⟨mem6, fun fuel hfuel => ?_, ?_, ?_, fun j hjA hjB hjQ hjR hne => ?_, fun hj => ?_⟩
  · have hoffset : l + n - n + 1 = l + 1 := by omega
    simp only [longDivide, ← hsdef, ← ha, hmem2, hrun fuel hfuel, Option.bind_eq_bind, Option.bind_some,
      hoffset]
    rfl
  · rw [hQ, hquot]
  · rw [hR, hrest]
  · rw [hoff6 j (by omega), hoff5 j (by omega), hoff4 j (by omega), hoff3 j (by omega) (by omega),
      hoff2 j (by omega), hoff1 j (by omega)]
  · rw [hoff6 _ (by omega), hoff5 _ (by omega)]
    by_cases hin : Q + l + 1 < Q + q_legs
    · rw [hmem4, fill, if_pos (by omega)]
    · rw [hoff4 _ (by omega), hnext]

/-! ## Divide -/

section Divide

variable {lib : Library} {a b q r : Nat}

/-- `Divide` by a number that is not zero: quotient and remainder, and the other registers as they
were. -/
theorem divide_spec (ha : a + 2 < lib.library_regs) (hb : b + 2 < lib.library_regs)
    (hq : q + 2 < lib.library_regs) (hr : r + 2 < lib.library_regs) (hqr : q ≠ r)
    (hy : number mem (lib.get b) lib.library_legs ≠ 0) :
    ∃ mem', (∀ fuel, 3 ≤ fuel →
        divide fuel lib (lib.get a) (lib.get b) (lib.get q) (lib.get r) mem = some (true, mem')) ∧
      number mem' (lib.get q) lib.library_legs =
        number mem (lib.get a) lib.library_legs / number mem (lib.get b) lib.library_legs ∧
      number mem' (lib.get r) lib.library_legs =
        number mem (lib.get a) lib.library_legs % number mem (lib.get b) lib.library_legs ∧
      ∀ i, i + 2 < lib.library_regs → i ≠ q → i ≠ r →
        number mem' (lib.get i) lib.library_legs = number mem (lib.get i) lib.library_legs := by
  have hL : 0 < lib.library_legs := Nat.pos_of_ne_zero fun h0 => hy (by rw [h0, number_zero])
  have hqr' := lib.get_apart hqr
  by_cases hless : less mem (lib.get a) (lib.get b) lib.library_legs = true
  · -- a < b
    have hlt := (less_eq _ _ _ _).mp hless
    refine ⟨_, fun fuel _ => by rw [divide, if_pos hless], ?_, ?_, fun i _ hiq hir => ?_⟩
    · rw [number_copyX hL, Nat.div_eq_of_lt hlt]
      exact zero_toNat build
    · rw [number_of_sameOff (sameOff_copyX hL _ _ _) (by omega), number_copy, Nat.mod_eq_of_lt hlt]
    · rw [number_of_sameOff (sameOff_copyX hL _ _ _) (lib.get_apart hiq),
        number_of_sameOff (sameOff_copy _ _ _ _) (lib.get_apart hir)]
  · have hle : number mem (lib.get b) lib.library_legs ≤ number mem (lib.get a) lib.library_legs :=
      Nat.not_lt.mp fun h => hless ((less_eq _ _ _ _).mpr h)
    have hused : legsUsed mem (lib.get b) lib.library_legs ≠ 0 := fun h0 => hy (legsUsed_eq_zero.mp h0)
    have hB := number_legsUsed mem (lib.get b) lib.library_legs
    by_cases hone : legsUsed mem (lib.get b) lib.library_legs = 1
    · -- b is one leg
      rw [hone, number_one] at hB
      have hb0 : mem (lib.get b) ≠ 0 := fun h0 => hy (by rw [← hB, h0, zero_toNat])
      have hin : lib.get a = lib.get q ∨ lib.get a + lib.library_legs ≤ lib.get q ∨
          lib.get q + lib.library_legs ≤ lib.get a := by
        by_cases h : a = q
        · exact .inl (by rw [h])
        · exact .inr (lib.get_apart h)
      obtain ⟨hoff, hval, hlt⟩ := divideX_spec hb0 hin mem
      set d := divideX lib.library_legs (lib.get a) (mem (lib.get b)) (lib.get q) mem with hd
      rw [BitVec.lt_def, hB] at hlt
      rw [hB] at hval
      obtain ⟨hquot, hrem⟩ := div_mod_of hval hlt
      refine ⟨copyX lib.library_legs d.2 (lib.get r) d.1, fun fuel _ => ?_, ?_, ?_,
        fun i _ hiq hir => ?_⟩
      · simp only [divide, if_neg hless, if_neg hused, if_pos hone, hd]
      · rw [number_of_sameOff (sameOff_copyX hL _ _ _) (by omega), hquot]
      · rw [number_copyX hL, hrem]
      · rw [number_of_sameOff (sameOff_copyX hL _ _ _) (lib.get_apart hir),
          number_of_sameOff hoff (lib.get_apart hiq)]
    · -- at least two legs
      have hA_le := legsUsed_le mem (lib.get a) lib.library_legs
      have hBA := legsUsed_le_of_le hle
      have hA := number_legsUsed mem (lib.get a) lib.library_legs
      set n := legsUsed mem (lib.get b) lib.library_legs with hn
      obtain ⟨l, hl⟩ := Nat.exists_eq_add_of_le' hBA
      obtain ⟨m, hm⟩ := Nat.exists_eq_succ_of_ne_zero hused
      have htop : mem (lib.get b + (n - 1)) ≠ 0 := by
        rw [hm, Nat.succ_sub_one]
        exact legsUsed_top (hn ▸ hm)
      have h1 := @Library.get_add_le lib (lib.library_regs - 2) (lib.library_regs - 1) (by omega)
      have h2 := @Library.get_add_le lib a (lib.library_regs - 2) (by omega)
      have h3 := @Library.get_add_le lib b (lib.library_regs - 2) (by omega)
      have h4 := @Library.get_add_le lib q (lib.library_regs - 2) (by omega)
      have h5 := @Library.get_add_le lib r (lib.library_regs - 2) (by omega)
      rw [hl] at hA hA_le
      have hplaces : Places (lib.get a) (lib.get b) (lib.get (lib.library_regs - 1))
          (lib.get (lib.library_regs - 2)) (lib.get q) (lib.get r) l n lib.library_legs
          lib.library_legs := by
        constructor <;> omega
      obtain ⟨mem', hrun, hquot, hrem, hsame, -⟩ := longDivide_spec hplaces htop
      refine ⟨mem', fun fuel hfuel => ?_, by rw [hquot, hA, hB], by rw [hrem, hA, hB],
        fun i hi hiq hir => number_congr fun j hj => ?_⟩
      · simp only [divide, if_neg hless, ← hn, if_neg hused, if_neg hone, hl, hrun fuel hfuel]
        rfl
      -- the leg above the quotient is one of its register, for the divisor has two legs or more
      · have h6 := @Library.get_add_le lib i (lib.library_regs - 2) (by omega)
        have hq' := lib.get_apart hiq
        have hr' := lib.get_apart hir
        exact hsame _ (by omega) (by omega) (by omega) (by omega) (by omega)

/-- **Single-width division.** Quotient and remainder of every division but by zero, which fails;
`DivideX` and `ModulusX` find the same for a divisor of one leg. The remainder may go where the
numerator is. -/
theorem divide_correct (lib : Library) (mem : Mem build) (ha : a + 2 < lib.library_regs)
    (hb : b + 2 < lib.library_regs) (hq : q + 2 < lib.library_regs) (hr : r + 2 < lib.library_regs)
    (hqr : q ≠ r) :
    (number mem (lib.get b) lib.library_legs ≠ 0 → ∃ mem', (∀ fuel, 3 ≤ fuel →
        divide fuel lib (lib.get a) (lib.get b) (lib.get q) (lib.get r) mem = some (true, mem')) ∧
      number mem (lib.get a) lib.library_legs =
        number mem' (lib.get q) lib.library_legs * number mem (lib.get b) lib.library_legs +
          number mem' (lib.get r) lib.library_legs ∧
      number mem' (lib.get r) lib.library_legs < number mem (lib.get b) lib.library_legs ∧
      (number mem (lib.get b) lib.library_legs < 2 ^ build.legBits →
        number (divideX lib.library_legs (lib.get a) (mem (lib.get b)) (lib.get q) mem).1 (lib.get q)
          lib.library_legs = number mem' (lib.get q) lib.library_legs ∧
        (divideX lib.library_legs (lib.get a) (mem (lib.get b)) (lib.get q) mem).2.toNat =
          number mem' (lib.get r) lib.library_legs ∧
        (modulusX lib.library_legs (lib.get a) (mem (lib.get b)) mem).toNat =
          number mem' (lib.get r) lib.library_legs)) ∧
    (number mem (lib.get b) lib.library_legs = 0 → ∀ fuel,
      divide fuel lib (lib.get a) (lib.get b) (lib.get q) (lib.get r) mem = some (false, mem)) := by
  constructor
  · intro hy
    obtain ⟨mem', hrun, hquot, hrem, -⟩ := divide_spec ha hb hq hr hqr hy
    refine ⟨mem', hrun, ?_, ?_, fun hlt => ?_⟩
    · rw [hquot, hrem, Nat.mul_comm, Nat.div_add_mod]
    · rw [hrem]
      exact Nat.mod_lt _ (Nat.pos_of_ne_zero hy)
    · have hL : 0 < lib.library_legs := Nat.pos_of_ne_zero fun h0 => hy (by rw [h0, number_zero])
      have hone := number_eq_first hL hlt
      have hb0 : mem (lib.get b) ≠ 0 := fun h0 => hy (by rw [hone, h0, zero_toNat])
      have hin : lib.get a = lib.get q ∨ lib.get a + lib.library_legs ≤ lib.get q ∨
          lib.get q + lib.library_legs ≤ lib.get a := by
        by_cases h : a = q
        · exact .inl (by rw [h])
        · exact .inr (lib.get_apart h)
      obtain ⟨-, hval, hlt'⟩ := divideX_spec hb0 hin mem
      rw [BitVec.lt_def] at hlt'
      obtain ⟨hquotX, hremX⟩ := div_mod_of hval hlt'
      rw [hquot, hrem, hone]
      exact ⟨hquotX, hremX, modulusX_spec hb0 hL mem _⟩
  · intro hy fuel
    have hless : ¬less mem (lib.get a) (lib.get b) lib.library_legs = true := fun h => by
      have := (less_eq _ _ _ _).mp h
      omega
    simp only [divide, if_neg hless, if_pos (legsUsed_eq_zero.mpr hy)]

/-- `9 * 2 ^ 32 + 5` by `4 * 2 ^ 32 + 3`, the remainder in place of the numerator. -/
theorem divide_in_place :
    let mem : Mem ⟨false, true, false⟩ := fun i => [5, 9, 3, 4].getD i 0
    ∃ mem', divide 3 ⟨2, 6⟩ 0 2 4 0 mem = some (true, mem') ∧
      9 * 2 ^ 32 + 5 = number mem' 4 2 * (4 * 2 ^ 32 + 3) + number mem' 0 2 ∧
      number mem' 0 2 < 4 * 2 ^ 32 + 3 := by
  intro mem
  have ha : number mem 0 2 = 9 * 2 ^ 32 + 5 := by decide
  have hb : number mem 2 2 = 4 * 2 ^ 32 + 3 := by decide
  obtain ⟨mem', hrun, hval, hlt, -⟩ := (@divide_correct _ 0 1 2 0 ⟨2, 6⟩ mem (by decide) (by decide)
    (by decide) (by decide) (by decide)).1 (by
      show number mem 2 2 ≠ 0
      rw [hb]
      norm_num)
  refine ⟨mem', hrun 3 le_rfl, ?_, ?_⟩
  · rw [← ha, ← hb]
    exact hval
  · rw [← hb]
    exact hlt

end Divide

end Spec

end Libcat.Math.Divide
