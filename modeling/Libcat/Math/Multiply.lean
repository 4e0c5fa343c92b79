import Libcat.Math.BigRTL

/-!
# Products and squares of registers

`BigRTL::Multiply` and `BigRTL::Square`, with the unrolled paths for some register sizes: a schoolbook
product of 4 legs, Comba products by columns, and a square of 8 legs from two of 4. The result has
twice as many legs; `multiply_spec` and `square_spec` say that every path gives the exact product.
-/

namespace Libcat.Math.BigRTL

open Radix

variable {build : Build}

section Model

/-- `SchoolbookMultiply4`. -/
def schoolbookMultiply4 (a b : List (Leg build)) : List (Leg build) :=
  let a0 := a.getD 0 0
  let a1 := a.getD 1 0
  let a2 := a.getD 2 0
  let a3 := a.getD 3 0
  let b0 := b.getD 0 0
  let b1 := b.getD 1 0
  let b2 := b.getD 2 0
  let b3 := b.getD 3 0
  let (p0, output0) := legMul a0 b0
  let (p1, p0) := legMulAdd a1 b0 p0
  let (p2, output1) := legMulAdd a0 b1 p0
  let (p1, p0) := legMulAdd2 a2 b0 p1 p2
  let (p2, p0) := legMulAdd a1 b1 p0
  let (p3, output2) := legMulAdd a0 b2 p0
  let (p1, p0) := legMulAdd2 a3 b0 p1 p2
  let (p2, p0) := legMulAdd2 a2 b1 p0 p3
  let (p3, p0) := legMulAdd a1 b2 p0
  let (p4, output3) := legMulAdd a0 b3 p0
  let (p1, p0) := legMulAdd2 a3 b1 p1 p2
  let (p2, p0) := legMulAdd2 a2 b2 p0 p3
  let (p3, output4) := legMulAdd2 a1 b3 p0 p4
  let (p1, p0) := legMulAdd2 a3 b2 p1 p2
  let (p2, output5) := legMulAdd2 a2 b3 p0 p3
  let (output7, output6) := legMulAdd2 a3 b3 p1 p2
  [output0, output1, output2, output3, output4, output5, output6, output7]

/-- `Comba2`: the products of a column after the first, with `n` of them left. -/
def comba2 (a b : List (Leg build)) :
    Nat → Nat → Nat → Leg build × Leg build × Leg build → Leg build × Leg build × Leg build
  | 0, _, _, c => c
  | n + 1, i, j, c => comba2 a b n (i - 1) (j + 1) (legComba3 (a.getD i 0) (b.getD j 0) c)

/-- `Comba3`: the columns of the second half; `n` is `Count + 1`. -/
def comba3 (a b : List (Leg build)) (legs : Nat) : Nat → Leg build → Leg build → List (Leg build)
  | 0, c0, _ => [c0]
  | n + 1, c0, c1 =>
    let c := legComba2 (a.getD (legs - 1) 0) (b.getD (legs - 1 - n) 0) c0 c1
    let c := comba2 a b n (legs - 2) (legs - n) c
    c.1 :: comba3 a b legs n c.2.1 c.2.2

/-- `Comba1`: the columns of the first half from `count` on, with `n` of them left. -/
def comba1 (a b : List (Leg build)) (legs : Nat) :
    Nat → Nat → Leg build → Leg build → List (Leg build)
  | 0, _, c0, c1 => comba3 a b legs (legs - 1) c0 c1
  | n + 1, count, c0, c1 =>
    let c := legComba2 (a.getD count 0) (b.getD 0 0) c0 c1
    let c := comba2 a b count (count - 1) 1 c
    c.1 :: comba1 a b legs n (count + 1) c.2.1 c.2.2

/-- `CombaMul`. -/
def combaMul (legs : Nat) (a b : List (Leg build)) : List (Leg build) :=
  let p := legMul (a.getD 0 0) (b.getD 0 0)
  p.2 :: comba1 a b legs (legs - 1) 1 p.1 0

/-- The loop of `Multiply`: each row is added to the legs from its place on, of which the lowest is
then done. -/
def multiplyRows (a : List (Leg build)) : List (Leg build) → List (Leg build) → List (Leg build)
  | [], out => out
  | b :: bs, out =>
    let r := multiplyXAdd a b out
    r.2.take 1 ++ multiplyRows a bs (r.2.drop 1 ++ [r.1])

/-- `Multiply`. -/
def multiply (a b : List (Leg build)) : List (Leg build) :=
  let legs := a.length
  if build.word64 ∧ legs = 4 then schoolbookMultiply4 a b
  else if build.word64 ∧ legs = 6 then combaMul 6 a b
  else if legs = 8 then combaMul 8 a b
  else if ¬ build.word64 ∧ build.unrollOver256Bits ∧ legs = 12 then combaMul 12 a b
  else if ¬ build.word64 ∧ build.unrollOver256Bits ∧ legs = 16 then combaMul 16 a b
  else
    match b with
    | [] => []
    | b0 :: bs =>
      let r := multiplyX a b0
      r.2.take 1 ++ multiplyRows a bs (r.2.drop 1 ++ [r.1])

/-- Twice the cross products are added to the square products, from the second leg on; what is left
over goes to the leg after them. -/
def addCross (output cross : List (Leg build)) : List (Leg build) :=
  let r := doubleAdd cross ((output.drop 1).take cross.length)
  output.take 1 ++ r.2 ++ [output.getD (cross.length + 1) 0 + r.1]

/-- `Square4`. The sum at its end is `DoubleAdd` written out. -/
def square4 (input : List (Leg build)) : List (Leg build) :=
  let a := input.getD 3 0
  let b := input.getD 2 0
  let c := input.getD 1 0
  let d := input.getD 0 0
  let (output1, output0) := legMul d d
  let (output3, output2) := legMul c c
  let (output5, output4) := legMul b b
  let (output7, output6) := legMul a a
  let (cross2, cross1) := legMul c d
  let (cross3, cross2) := legMulAdd b d cross2
  let (cross4, cross3) := legMulAdd a d cross3
  let (cross4a, cross3) := legMulAdd b c cross3
  let (cross5, cross4) := legMulAdd2 a c cross4 cross4a
  let (cross6, cross5) := legMulAdd a b cross5
  addCross [output0, output1, output2, output3, output4, output5, output6, output7]
    [cross1, cross2, cross3, cross4, cross5, cross6]

/-- A carry that is added to a leg. -/
def carryStep (carry x : Leg build) : Leg build × Leg build :=
  let x := toPair carry + toPair x
  (x.setWidth build.legBits, (x >>> build.legBits).setWidth build.legBits)

/-- The sum at the end of `Square8`: `DoubleAdd` from leg 4 on, and the carry to the last legs. -/
def addCross8 (output cross : List (Leg build)) : List (Leg build) :=
  let r := doubleAdd cross ((output.drop 4).take 8)
  output.take 4 ++ r.2 ++ (chain carryStep r.1 (output.drop 12)).1

/-- `Square8`. -/
def square8 (input : List (Leg build)) : List (Leg build) :=
  addCross8 (square4 (input.take 4) ++ square4 (input.drop 4))
    (schoolbookMultiply4 (input.take 4) (input.drop 4))

/-- The cross products of `Square`: a row is a leg with the legs above it, added to the legs from its
place on, of which two are then done. -/
def crossRows : List (Leg build) → List (Leg build) → List (Leg build)
  | x :: y :: l, cross =>
    let r := multiplyXAdd (y :: l) x cross
    let row := r.2 ++ [r.1]
    row.take 2 ++ crossRows (y :: l) (row.drop 2)
  | _, _ => []

/-- `Square`. -/
def square (input : List (Leg build)) : List (Leg build) :=
  if build.legPair ∧ input.length = 8 then square8 input
  else
    let output := input.flatMap fun x =>
      let p := legMul x x
      [p.2, p.1]
    match input with
    | [] => []
    | x :: l =>
      let r := multiplyX l x
      let row := r.2 ++ [r.1]
      addCross output (row.take 2 ++ crossRows l (row.drop 2))

end Model

/-! ## Schoolbook product -/

section

variable {a b c d hi lo : Leg build}

theorem legMul_eq (h : legMul a b = (hi, lo)) :
    (lo.toNat : ℤ) + 2 ^ build.legBits * hi.toNat = a.toNat * b.toNat := by
  have := legMul_toNat a b
  rw [h] at this
  exact_mod_cast this

theorem legMulAdd_eq (h : legMulAdd a b c = (hi, lo)) :
    (lo.toNat : ℤ) + 2 ^ build.legBits * hi.toNat = a.toNat * b.toNat + c.toNat := by
  have := legMulAdd_toNat a b c
  rw [h] at this
  exact_mod_cast this

theorem legMulAdd2_eq (h : legMulAdd2 a b c d = (hi, lo)) :
    (lo.toNat : ℤ) + 2 ^ build.legBits * hi.toNat = a.toNat * b.toNat + c.toNat + d.toNat := by
  have := legMulAdd2_toNat a b c d
  rw [h] at this
  exact_mod_cast this

end

theorem exists_four {l : List (Leg build)} (h : l.length = 4) :
    ∃ a b c d, l = [a, b, c, d] := by
  match l, h with
  | [a, b, c, d], _ => exact ⟨a, b, c, d, rfl⟩

theorem schoolbookMultiply4_spec {a b : List (Leg build)} (ha : a.length = 4) (hb : b.length = 4) :
    (schoolbookMultiply4 a b).length = 8 ∧
      (value (schoolbookMultiply4 a b) : ℤ) = value a * value b := by
  obtain ⟨a0, a1, a2, a3, rfl⟩ := exists_four ha
  obtain ⟨b0, b1, b2, b3, rfl⟩ := exists_four hb
  unfold schoolbookMultiply4
  simp only [List.getD_cons_zero, List.getD_cons_succ]
  rcases h0 : legMul a0 b0 with ⟨p0, o0⟩
  dsimp only
  rcases h1 : legMulAdd a1 b0 p0 with ⟨p1, p01⟩
  dsimp only
  rcases h2 : legMulAdd a0 b1 p01 with ⟨p2, o1⟩
  dsimp only
  rcases h3 : legMulAdd2 a2 b0 p1 p2 with ⟨p11, p02⟩
  dsimp only
  rcases h4 : legMulAdd a1 b1 p02 with ⟨p21, p03⟩
  dsimp only
  rcases h5 : legMulAdd a0 b2 p03 with ⟨p3, o2⟩
  dsimp only
  rcases h6 : legMulAdd2 a3 b0 p11 p21 with ⟨p12, p04⟩
  dsimp only
  rcases h7 : legMulAdd2 a2 b1 p04 p3 with ⟨p22, p05⟩
  dsimp only
  rcases h8 : legMulAdd a1 b2 p05 with ⟨p31, p06⟩
  dsimp only
  rcases h9 : legMulAdd a0 b3 p06 with ⟨p4, o3⟩
  dsimp only
  rcases h10 : legMulAdd2 a3 b1 p12 p22 with ⟨p13, p07⟩
  dsimp only
  rcases h11 : legMulAdd2 a2 b2 p07 p31 with ⟨p23, p08⟩
  dsimp only
  rcases h12 : legMulAdd2 a1 b3 p08 p4 with ⟨p32, o4⟩
  dsimp only
  rcases h13 : legMulAdd2 a3 b2 p13 p23 with ⟨p14, p09⟩
  dsimp only
  rcases h14 : legMulAdd2 a2 b3 p09 p32 with ⟨p24, o5⟩
  dsimp only
  rcases h15 : legMulAdd2 a3 b3 p14 p24 with ⟨o7, o6⟩
  refine ⟨rfl, ?_⟩
  simp only [value_cons, value_nil]
  push_cast
  linear_combination legMul_eq h0 + 2 ^ build.legBits * (legMulAdd_eq h1 + legMulAdd_eq h2) +
    (2 ^ build.legBits) ^ 2 * (legMulAdd2_eq h3 + legMulAdd_eq h4 + legMulAdd_eq h5) +
    (2 ^ build.legBits) ^ 3 *
      (legMulAdd2_eq h6 + legMulAdd2_eq h7 + legMulAdd_eq h8 + legMulAdd_eq h9) +
    (2 ^ build.legBits) ^ 4 * (legMulAdd2_eq h10 + legMulAdd2_eq h11 + legMulAdd2_eq h12) +
    (2 ^ build.legBits) ^ 5 * (legMulAdd2_eq h13 + legMulAdd2_eq h14) +
    (2 ^ build.legBits) ^ 6 * legMulAdd2_eq h15

/-! ## Comba product -/

section Comba

variable {a b : List (Leg build)}

/-- The products of a column from two places on. -/
def diagonal (a b : List (Leg build)) (n i j : Nat) : Nat :=
  ∑ t ∈ Finset.range n, digit a (i - t) * digit b (j + t)

theorem diagonal_succ (n i j : Nat) :
    diagonal a b (n + 1) i j = digit a i * digit b j + diagonal a b n (i - 1) (j + 1) := by
  rw [diagonal, Finset.sum_range_succ', Nat.add_comm]
  congr 1
  refine Finset.sum_congr rfl fun t _ => ?_
  rw [show i - (t + 1) = i - 1 - t by omega, show j + (t + 1) = j + 1 + t by omega]

theorem comba2_value (n : Nat) : ∀ {i j : Nat} {c : Leg build × Leg build × Leg build},
    combaValue c + diagonal a b n i j < (2 ^ build.legBits) ^ 3 →
      combaValue (comba2 a b n i j c) = combaValue c + diagonal a b n i j := by
  induction n with
  | zero => simp [comba2, diagonal]
  | succ n ih =>
    intro i j c h
    rw [diagonal_succ] at h ⊢
    have hstep : combaValue (legComba3 (a.getD i 0) (b.getD j 0) c) =
        digit a i * digit b j + combaValue c := legComba3_value (by unfold digit at h; omega)
    rw [comba2, ih (by omega), hstep]
    omega

/-- A column of `n + 1` products fits three legs, with two legs of carry. -/
theorem column_fits {n : Nat} (hn : n < 2 ^ 32) (x y c0 c1 : Leg build) (i j : Nat) :
    x.toNat * y.toNat + c0.toNat + 2 ^ build.legBits * c1.toNat + diagonal a b n i j <
      (2 ^ build.legBits) ^ 3 := by
  have hB := two_le_pow_legBits build
  obtain ⟨k, hk⟩ : ∃ k, 2 ^ build.legBits = k + 1 := ⟨2 ^ build.legBits - 1, by omega⟩
  have hx := x.isLt
  have hy := y.isLt
  have hc0 := c0.isLt
  have hc1 := c1.isLt
  have hdiag : diagonal a b n i j ≤ n * (k * k) := by
    unfold diagonal
    refine (Finset.sum_le_card_nsmul _ _ (k * k) fun t _ => ?_).trans_eq (by simp)
    have h1 := digit_lt a (i - t)
    have h2 := digit_lt b (j + t)
    exact Nat.mul_le_mul (by omega) (by omega)
  have hxy : x.toNat * y.toNat ≤ k * k := Nat.mul_le_mul (by omega) (by omega)
  have hc : (k + 1) * c1.toNat ≤ (k + 1) * k := Nat.mul_le_mul_left _ (by omega)
  have hnk : n * (k * k) ≤ k * (k * k) := Nat.mul_le_mul_right _ (by omega)
  rw [hk]
  have hcube : (k + 1) ^ 3 = k * (k * k) + 3 * (k * k) + 3 * k + 1 := by ring
  have hprod : (k + 1) * k = k * k + k := by ring
  omega

/-- One column, with the carry that comes in. -/
theorem column_value {n : Nat} (hn : n < 2 ^ 32) (i j : Nat) (x y c0 c1 : Leg build) :
    combaValue (comba2 a b n i j (legComba2 x y c0 c1)) =
      x.toNat * y.toNat + diagonal a b n i j + (c0.toNat + 2 ^ build.legBits * c1.toNat) := by
  have h := column_fits (a := a) (b := b) hn x y c0 c1 i j
  rw [comba2_value n (by rwa [legComba2_value]), legComba2_value]
  omega

theorem combaValue_eq (c : Leg build × Leg build × Leg build) :
    (combaValue c : ℤ) =
      c.1.toNat + 2 ^ build.legBits * (c.2.1.toNat + 2 ^ build.legBits * c.2.2.toNat) := by
  rw [combaValue]
  push_cast
  ring

/-- The columns from `k` to the last. -/
def columnsFrom (a b : List (Leg build)) (n k : Nat) : ℤ :=
  ∑ t ∈ Finset.range n, (column a b (k + t) : ℤ) * (2 ^ build.legBits) ^ t

theorem columnsFrom_succ (n k : Nat) :
    columnsFrom a b (n + 1) k = column a b k + 2 ^ build.legBits * columnsFrom a b n (k + 1) := by
  unfold columnsFrom
  rw [Finset.sum_range_succ', Finset.mul_sum, add_comm]
  congr 1
  · simp
  · refine Finset.sum_congr rfl fun t _ => ?_
    rw [show k + (t + 1) = k + 1 + t by omega, pow_succ]
    ring

variable {L : Nat}

/-- A column that is done, and the ones after it. -/
theorem columns_step {n legs k : Nat} {c : Leg build × Leg build × Leg build}
    {rest : List (Leg build)} {carry : ℤ}
    (hc : (combaValue c : ℤ) = column a b k + carry)
    (hrest : (value rest : ℤ) ≡
      columnsFrom a b n (k + 1) + (c.2.1.toNat + 2 ^ build.legBits * c.2.2.toNat)
        [ZMOD 2 ^ (build.legBits * legs)]) :
    (value (c.1 :: rest) : ℤ) ≡ columnsFrom a b (n + 1) k + carry
      [ZMOD 2 ^ (build.legBits * (legs + 1))] := by
  have h := (hrest.mul_left' (c := 2 ^ build.legBits)).add_left (c.1.toNat : ℤ)
  have hsum : columnsFrom a b (n + 1) k + carry = c.1.toNat + 2 ^ build.legBits *
      (columnsFrom a b n (k + 1) + (c.2.1.toNat + 2 ^ build.legBits * c.2.2.toNat)) := by
    rw [combaValue_eq] at hc
    rw [columnsFrom_succ]
    linear_combination -hc
  rw [← pow_add] at h
  rw [hsum, value_cons, Nat.mul_add, Nat.mul_one, Nat.add_comm (build.legBits * legs)]
  exact_mod_cast h

theorem comba3_spec (ha : a.length = L) (hb : b.length = L) (hL : L < 2 ^ 32) :
    ∀ {n : Nat} {c0 c1 : Leg build}, n < L →
      (comba3 a b L n c0 c1).length = n + 1 ∧
        ((value (comba3 a b L n c0 c1) : ℤ) ≡
          columnsFrom a b n (2 * L - 1 - n) + (c0.toNat + 2 ^ build.legBits * c1.toNat)
            [ZMOD 2 ^ (build.legBits * (n + 1))]) := by
  intro n
  induction n with
  | zero =>
    intro c0 c1 _
    refine ⟨rfl, ?_⟩
    simp only [comba3, value_cons, value_nil, columnsFrom, Finset.range_zero, Finset.sum_empty,
      Nat.zero_add, Nat.mul_one]
    push_cast
    rw [mul_zero, add_zero, zero_add]
    exact (Int.modEq_add_fac_self (t := (c1.toNat : ℤ))).symm
  | succ n ih =>
    intro c0 c1 hn
    have hcol := column_value (a := a) (b := b) (n := n) (by omega) (L - 2) (L - n)
      (a.getD (L - 1) 0) (b.getD (L - 1 - n) 0) c0 c1
    have hhigh := column_high ha hb (n := n) (by omega)
    obtain ⟨hlen, hval⟩ := ih
      (by omega)
    refine ⟨congrArg (· + 1) hlen, ?_⟩
    rw [show 2 * L - 1 - n = 2 * L - 2 - n + 1 by omega] at hval
    rw [show 2 * L - 1 - (n + 1) = 2 * L - 2 - n by omega]
    refine columns_step ?_ hval
    rw [hhigh, hcol]
    push_cast
    simp only [digit, diagonal]
    push_cast
    ring

theorem comba1_spec (ha : a.length = L) (hb : b.length = L) (hL : L < 2 ^ 32) :
    ∀ {n m : Nat} {c0 c1 : Leg build}, n + m = L → 0 < L →
      (comba1 a b L n m c0 c1).length = n + L ∧
        ((value (comba1 a b L n m c0 c1) : ℤ) ≡
          columnsFrom a b (n + (L - 1)) m + (c0.toNat + 2 ^ build.legBits * c1.toNat)
            [ZMOD 2 ^ (build.legBits * (n + L))]) := by
  intro n
  induction n with
  | zero =>
    intro count c0 c1 hn hpos
    obtain ⟨hlen, hval⟩ := comba3_spec ha hb hL (n := L - 1) (by omega)
    rw [show L - 1 + 1 = L by omega] at hlen hval
    rw [show 2 * L - 1 - (L - 1) = count by omega] at hval
    rw [Nat.zero_add, Nat.zero_add]
    exact ⟨hlen, hval⟩
  | succ n ih =>
    intro count c0 c1 hn hpos
    have hcol := column_value (a := a) (b := b) (n := count) (by omega) (count - 1) 1
      (a.getD count 0) (b.getD 0 0) c0 c1
    have hlow := column_low a b count
    obtain ⟨hlen, hval⟩ := ih (m := count + 1) (by omega) hpos
    refine ⟨(congrArg (· + 1) hlen).trans (by omega), ?_⟩
    rw [show n + 1 + (L - 1) = n + (L - 1) + 1 by omega, show n + 1 + L = n + L + 1 by omega]
    refine columns_step ?_ hval
    rw [hlow, hcol]
    push_cast
    simp only [digit, diagonal]
    push_cast
    ring

/-- Numbers below the size that are equal modulo it. -/
theorem eq_of_modEq_of_lt {m n N : ℤ} (h : m ≡ n [ZMOD N]) (hm : 0 ≤ m) (hm' : m < N) (hn : 0 ≤ n)
    (hn' : n < N) : m = n := by
  rw [Int.ModEq, Int.emod_eq_of_lt hm hm', Int.emod_eq_of_lt hn hn'] at h
  exact h

theorem value_mul_lt (a b : List (Leg build)) :
    (value a : ℤ) * value b < 2 ^ (build.legBits * (a.length + b.length)) := by
  rw [Nat.mul_add, pow_add]
  exact mul_lt_mul'' (value_lt_pow a) (value_lt_pow b) (by positivity) (by positivity)

theorem combaMul_spec (ha : a.length = L) (hb : b.length = L) (hpos : 0 < L) (hL : L < 2 ^ 32) :
    (combaMul L a b).length = 2 * L ∧ (value (combaMul L a b) : ℤ) = value a * value b := by
  obtain ⟨hlen, hval⟩ := comba1_spec ha hb hL (n := L - 1) (m := 1) (by omega) hpos
  have hlen' : (combaMul L a b).length = 2 * L := (congrArg (· + 1) hlen).trans (by omega)
  refine ⟨hlen', ?_⟩
  have hfirst : (((legMul (a.getD 0 0) (b.getD 0 0)).2.toNat : ℤ) + 2 ^ build.legBits *
      (legMul (a.getD 0 0) (b.getD 0 0)).1.toNat) = column a b 0 := by
    have hcol : column a b 0 = (a.getD 0 0).toNat * (b.getD 0 0).toNat := by simp [column, digit]
    rw [hcol]
    exact_mod_cast legMul_toNat (a.getD 0 0) (b.getD 0 0)
  have hcols : (value a : ℤ) * value b = columnsFrom a b (L - 1 + (L - 1) + 1) 0 := by
    rw [columnsFrom, show L - 1 + (L - 1) + 1 = 2 * L - 1 by omega]
    have := value_mul_value ha hb hpos
    simp only [Nat.zero_add]
    exact_mod_cast this
  have hmod : (value (combaMul L a b) : ℤ) ≡ value a * value b
      [ZMOD 2 ^ (build.legBits * (2 * L))] := by
    have h := (hval.mul_left' (c := 2 ^ build.legBits)).add_left
      ((legMul (a.getD 0 0) (b.getD 0 0)).2.toNat : ℤ)
    rw [hcols, columnsFrom_succ, ← hfirst, combaMul, value_cons]
    rw [← pow_add, show build.legBits + build.legBits * (L - 1 + L) = build.legBits * (2 * L) by
      rw [show 2 * L = L - 1 + L + 1 by omega, Nat.mul_add (build.legBits) (L - 1 + L)]
      omega] at h
    push_cast
    convert h using 1
    simp
    ring
  have hlt := value_mul_lt a b
  rw [ha, hb, show L + L = 2 * L by omega] at hlt
  have hlt' := value_lt_pow (combaMul L a b)
  rw [hlen'] at hlt'
  exact eq_of_modEq_of_lt hmod (by positivity) hlt' (by positivity) hlt

end Comba

/-! ## Product by rows -/

/-- A row of a product: the lowest leg is done, the others and the overflow go on. -/
theorem value_row {r : Leg build × List (Leg build)} {legs : Nat} {n : ℤ} (h : OverflowOut r legs n)
    (hpos : 0 < legs) {rest : List (Leg build)} {m : ℤ}
    (hrest : (value rest : ℤ) = value (r.2.drop 1 ++ [r.1]) + m) :
    (value (r.2.take 1 ++ rest) : ℤ) = n + 2 ^ build.legBits * m := by
  obtain ⟨hlen, hval⟩ := h
  obtain ⟨x, t, hx⟩ : ∃ x t, r.2 = x :: t := by
    cases hr : r.2 with
    | nil => simp [hr] at hlen; omega
    | cons x t => exact ⟨x, t, rfl⟩
  rw [hx] at hval hlen hrest ⊢
  rw [List.length_cons] at hlen
  subst hlen
  simp only [List.take_succ_cons, List.take_zero, List.drop_succ_cons, List.drop_zero,
    List.cons_append, List.nil_append, value_cons, value_append, value_nil, Nat.mul_zero,
    Nat.add_zero, Nat.mul_add, Nat.mul_one, pow_add, pow_mul] at *
  push_cast at *
  rw [hrest]
  linear_combination hval

theorem multiplyRows_spec {a : List (Leg build)} (ha : a ≠ []) (bs : List (Leg build)) :
    ∀ {r : List (Leg build)}, r.length = a.length →
      (multiplyRows a bs r).length = a.length + bs.length ∧
        (value (multiplyRows a bs r) : ℤ) = value r + value a * value bs := by
  have hpos : 0 < a.length := List.length_pos_of_ne_nil ha
  induction bs with
  | nil =>
    intro out hout
    exact ⟨hout, by simp [multiplyRows]⟩
  | cons b bs ih =>
    intro out hout
    have hr := multiplyXAdd_spec hout.symm ha b
    have hlen := hr.length
    obtain ⟨hl, hv⟩ := ih (r := (multiplyXAdd a b out).2.drop 1 ++ [(multiplyXAdd a b out).1])
      (by simp; omega)
    refine ⟨?_, ?_⟩
    · rw [multiplyRows, List.length_append, hl, List.length_take, List.length_cons]
      omega
    · rw [multiplyRows, value_row hr hpos hv, value_cons]
      push_cast
      ring

/-- **Products of registers** are exact on every path. -/
theorem multiply_spec {a b : List (Leg build)} {L : Nat} (ha : a.length = L) (hb : b.length = L)
    (hL : 0 < L) :
    (multiply a b).length = 2 * L ∧ (value (multiply a b) : ℤ) = value a * value b := by
  unfold multiply
  dsimp only
  split_ifs with h4 h6 h8 h12 h16
  · obtain rfl : L = 4 := by omega
    exact schoolbookMultiply4_spec ha hb
  · obtain rfl : L = 6 := by omega
    exact combaMul_spec ha hb (by omega) (by omega)
  · obtain rfl : L = 8 := by omega
    exact combaMul_spec ha hb (by omega) (by omega)
  · obtain rfl : L = 12 := by omega
    exact combaMul_spec ha hb (by omega) (by omega)
  · obtain rfl : L = 16 := by omega
    exact combaMul_spec ha hb (by omega) (by omega)
  · have hne : a ≠ [] := List.ne_nil_of_length_pos (by omega)
    cases b with
    | nil => simp at hb; omega
    | cons b0 bs =>
      have hr := multiplyX_spec hne b0
      have hlen := hr.length
      obtain ⟨hl, hv⟩ := multiplyRows_spec hne bs
        (r := (multiplyX a b0).2.drop 1 ++ [(multiplyX a b0).1]) (by simp; omega)
      rw [List.length_cons] at hb
      refine ⟨?_, ?_⟩
      · rw [List.length_append, hl, List.length_take]
        omega
      · rw [value_row hr (by omega) hv, value_cons]
        push_cast
        ring

/-! ## Squares -/

/-- A list with a first and a last leg. -/
theorem exists_ends {l : List (Leg build)} {n : Nat} (h : l.length = n + 2) :
    ∃ x mid y, l = x :: (mid ++ [y]) ∧ mid.length = n := by
  cases l with
  | nil => simp at h
  | cons x l =>
    have hne : l ≠ [] := List.ne_nil_of_length_pos (by simp at h; omega)
    refine ⟨x, l.dropLast, l.getLast hne, ?_, ?_⟩
    · rw [List.dropLast_append_getLast]
    · simp at h
      simp [h]

theorem addCross_spec {output cross : List (Leg build)} {n : Nat} (hout : output.length = n + 2)
    (hcross : cross.length = n) (hn : 0 < n)
    (hfit : (value output : ℤ) + 2 * 2 ^ build.legBits * value cross <
      2 ^ (build.legBits * (n + 2))) :
    (addCross output cross).length = n + 2 ∧
      (value (addCross output cross) : ℤ) = value output + 2 * 2 ^ build.legBits * value cross := by
  obtain ⟨x, mid, y, rfl, hmid⟩ := exists_ends hout
  have hr := doubleAdd_spec (a := cross) (b := mid) (by omega)
    (List.ne_nil_of_length_pos (by omega))
  obtain ⟨hlen, hval⟩ := hr
  have heq : addCross (x :: (mid ++ [y])) cross =
      x :: ((doubleAdd cross mid).2 ++ [y + (doubleAdd cross mid).1]) := by
    unfold addCross
    simp [hcross, ← hmid]
  rw [heq]
  refine ⟨by simp [hlen, hcross], ?_⟩
  rw [hcross] at hval hlen
  have hexact : (value (x :: (mid ++ [y])) : ℤ) + 2 * 2 ^ build.legBits * value cross =
      value (x :: (doubleAdd cross mid).2) +
        2 ^ (build.legBits * (n + 1)) * (y.toNat + (doubleAdd cross mid).1.toNat) := by
    simp only [value_cons, value_append, value_nil, hmid, Nat.mul_zero, Nat.add_zero, Nat.mul_add,
      Nat.mul_one, pow_add, pow_mul] at hval ⊢
    push_cast
    linear_combination -2 ^ build.legBits * hval
  have hadd : (y + (doubleAdd cross mid).1).toNat = y.toNat + (doubleAdd cross mid).1.toNat := by
    rw [BitVec.toNat_add]
    apply Nat.mod_eq_of_lt
    by_contra hge
    have hge' : (2 : ℤ) ^ build.legBits ≤ y.toNat + (doubleAdd cross mid).1.toNat := by
      exact_mod_cast Nat.le_of_not_lt hge
    have hpos : (0 : ℤ) < 2 ^ (build.legBits * (n + 1)) := by positivity
    have hmul := mul_le_mul_of_nonneg_left hge' hpos.le
    rw [← pow_add, show build.legBits * (n + 1) + build.legBits = build.legBits * (n + 2) by ring]
      at hmul
    have hnn : (0 : ℤ) ≤ value (x :: (doubleAdd cross mid).2) := by positivity
    linarith
  rw [hexact]
  simp only [value_cons, value_append, value_nil, hadd, hlen, Nat.mul_zero, Nat.add_zero,
    Nat.mul_add, Nat.mul_one, pow_add, pow_mul]
  push_cast
  ring

theorem square4_spec {l : List (Leg build)} (hl : l.length = 4) :
    (square4 l).length = 8 ∧ (value (square4 l) : ℤ) = value l * value l := by
  have hlt := value_mul_lt l l
  obtain ⟨d, c, b, a, rfl⟩ := exists_four hl
  unfold square4
  simp only [List.getD_cons_zero, List.getD_cons_succ]
  rcases h0 : legMul d d with ⟨o1, o0⟩
  dsimp only
  rcases h1 : legMul c c with ⟨o3, o2⟩
  dsimp only
  rcases h2 : legMul b b with ⟨o5, o4⟩
  dsimp only
  rcases h3 : legMul a a with ⟨o7, o6⟩
  dsimp only
  rcases h4 : legMul c d with ⟨x2, c1⟩
  dsimp only
  rcases h5 : legMulAdd b d x2 with ⟨x3, c2⟩
  dsimp only
  rcases h6 : legMulAdd a d x3 with ⟨x4, y3⟩
  dsimp only
  rcases h7 : legMulAdd b c y3 with ⟨x4a, c3⟩
  dsimp only
  rcases h8 : legMulAdd2 a c x4 x4a with ⟨x5, c4⟩
  dsimp only
  rcases h9 : legMulAdd a b x5 with ⟨c6, c5⟩
  dsimp only
  have hexact : (value [o0, o1, o2, o3, o4, o5, o6, o7] : ℤ) +
      2 * 2 ^ build.legBits * value [c1, c2, c3, c4, c5, c6] =
        value [d, c, b, a] * value [d, c, b, a] := by
    simp only [value_cons, value_nil]
    push_cast
    linear_combination legMul_eq h0 + (2 ^ build.legBits) ^ 2 * legMul_eq h1 +
      (2 ^ build.legBits) ^ 4 * legMul_eq h2 + (2 ^ build.legBits) ^ 6 * legMul_eq h3 +
      2 * 2 ^ build.legBits * (legMul_eq h4 + 2 ^ build.legBits * legMulAdd_eq h5 +
        (2 ^ build.legBits) ^ 2 * (legMulAdd_eq h6 + legMulAdd_eq h7) +
        (2 ^ build.legBits) ^ 3 * legMulAdd2_eq h8 + (2 ^ build.legBits) ^ 4 * legMulAdd_eq h9)
  rw [← hexact]
  exact addCross_spec rfl rfl (by omega) (by rw [hexact]; exact hlt)

theorem carryStep_spec (carry x : Leg build) :
    ((carryStep carry x).1.toNat : ℤ) + 2 ^ build.legBits * ((carryStep carry x).2.toNat : ℤ) =
      1 * (x.toNat : ℤ) + carry.toNat := by
  have h1 := carry.isLt
  have h2 := x.isLt
  have h4 := four_legs_lt build
  simp only [carryStep]
  rw [BitVec.toNat_setWidth build.legBits (_ >>> _), Nat.mod_eq_of_lt (pairCarry_lt _), ← pairCarry,
    pair_toNat, BitVec.toNat_add, toPair_toNat, toPair_toNat, Nat.mod_eq_of_lt (by omega)]
  push_cast
  ring

theorem addCross8_spec {output cross : List (Leg build)} (hout : output.length = 16)
    (hcross : cross.length = 8) :
    (addCross8 output cross).length = 16 ∧ (value (addCross8 output cross) : ℤ) ≡
      value output + 2 * (2 ^ build.legBits) ^ 4 * value cross [ZMOD 2 ^ (build.legBits * 16)] := by
  have hmid : ((output.drop 4).take 8).length = 8 := by simp [hout]
  have hlow : (output.take 4).length = 4 := by simp [hout]
  have hrest : (output.drop 12).length = 4 := by simp [hout]
  obtain ⟨hlen, hval⟩ := doubleAdd_spec (hcross.trans hmid.symm)
    (List.ne_nil_of_length_pos (by omega))
  unfold addCross8
  dsimp only
  generalize doubleAdd cross ((output.drop 4).take 8) = r at *
  rw [hcross] at hlen hval
  have hchain := value_chain (g := fun c : Leg build => (c.toNat : ℤ)) carryStep_spec r.1
    (output.drop 12)
  rw [weight_word, hrest, one_mul] at hchain
  have hsplit : (value output : ℤ) = value (output.take 4) + (2 ^ build.legBits) ^ 4 *
      (value ((output.drop 4).take 8) + (2 ^ build.legBits) ^ 8 * value (output.drop 12)) := by
    have h1 := value_append (output.take 4) (output.drop 4)
    have h2 := value_append ((output.drop 4).take 8) ((output.drop 4).drop 8)
    rw [List.take_append_drop, hlow] at h1
    rw [List.take_append_drop, hmid, List.drop_drop] at h2
    rw [h1, h2]
    push_cast
    ring
  have hsum : (value (output.take 4 ++ r.2 ++ (chain carryStep r.1 (output.drop 12)).1) : ℤ) =
      value (output.take 4) + (2 ^ build.legBits) ^ 4 *
        (value r.2 + (2 ^ build.legBits) ^ 8 * value (chain carryStep r.1 (output.drop 12)).1) := by
    simp only [List.append_assoc, value_append, hlow, hlen]
    push_cast
    ring
  refine ⟨by simp [hlen, length_chain, hout], ?_⟩
  refine Int.modEq_iff_dvd.mpr ⟨(chain carryStep r.1 (output.drop 12)).2.toNat, ?_⟩
  rw [hsplit, hsum]
  simp only [pow_mul] at hval hchain ⊢
  linear_combination -(2 ^ build.legBits) ^ 4 * hval - (2 ^ build.legBits) ^ 12 * hchain

theorem square8_spec {l : List (Leg build)} (hl : l.length = 8) :
    (square8 l).length = 16 ∧ (value (square8 l) : ℤ) = value l * value l := by
  have hlt := value_mul_lt l l
  have hlo : (l.take 4).length = 4 := by simp [hl]
  have hhi : (l.drop 4).length = 4 := by simp [hl]
  obtain ⟨hlen1, hval1⟩ := square4_spec hlo
  obtain ⟨hlen2, hval2⟩ := square4_spec hhi
  obtain ⟨hlen3, hval3⟩ := schoolbookMultiply4_spec hlo hhi
  have hsplit : (value l : ℤ) = value (l.take 4) + (2 ^ build.legBits) ^ 4 * value (l.drop 4) := by
    have := value_append (l.take 4) (l.drop 4)
    rw [List.take_append_drop, hlo] at this
    exact_mod_cast this
  obtain ⟨hlen, hmod⟩ := @addCross8_spec build
    (square4 (l.take 4) ++ square4 (l.drop 4)) _ (by simp [hlen1, hlen2]) hlen3
  have hexact : (value (square4 (l.take 4) ++ square4 (l.drop 4)) : ℤ) + 2 *
      (2 ^ build.legBits) ^ 4 * value (schoolbookMultiply4 (l.take 4) (l.drop 4)) =
        value l * value l := by
    rw [value_append, hlen1]
    push_cast
    rw [hval1, hval2, hval3, hsplit]
    ring
  rw [hexact] at hmod
  have hlt' := value_lt_pow (square8 l)
  rw [square8, hlen] at hlt'
  rw [hl] at hlt
  rw [square8]
  exact ⟨hlen, eq_of_modEq_of_lt hmod (Int.natCast_nonneg _) hlt'
    (mul_nonneg (Int.natCast_nonneg _) (Int.natCast_nonneg _)) hlt⟩

/-- The products of each leg with the legs above it. -/
def crossValue : List (Leg build) → ℤ
  | [] => 0
  | x :: l => x.toNat * value l + (2 ^ build.legBits) ^ 2 * crossValue l

/-- The squares of the legs. -/
def squareValue : List (Leg build) → ℤ
  | [] => 0
  | x :: l => x.toNat * x.toNat + (2 ^ build.legBits) ^ 2 * squareValue l

theorem value_mul_self (l : List (Leg build)) :
    (value l : ℤ) * value l = squareValue l + 2 * 2 ^ build.legBits * crossValue l := by
  induction l with
  | nil => simp [squareValue, crossValue]
  | cons x l ih =>
    simp only [value_cons, squareValue, crossValue]
    push_cast
    linear_combination (2 ^ build.legBits) ^ 2 * ih

theorem value_squares (l : List (Leg build)) :
    (value (l.flatMap fun x => [(legMul x x).2, (legMul x x).1]) : ℤ) = squareValue l := by
  induction l with
  | nil => rfl
  | cons x l ih =>
    have hx : ((legMul x x).2.toNat : ℤ) + 2 ^ build.legBits * ((legMul x x).1.toNat : ℤ) =
        x.toNat * x.toNat := by
      exact_mod_cast legMul_toNat x x
    simp only [List.flatMap_cons, List.cons_append, List.nil_append, value_cons, squareValue]
    push_cast
    linear_combination hx + (2 ^ build.legBits) ^ 2 * ih

/-- A row of cross products: two legs are done, the others and the overflow go on. -/
theorem value_crossRow {r : Leg build × List (Leg build)} {legs : Nat} {n : ℤ}
    (h : OverflowOut r legs n) (hpos : 0 < legs) {rest : List (Leg build)} {m : ℤ}
    (hrest : (value rest : ℤ) = value ((r.2 ++ [r.1]).drop 2) + m) :
    (value ((r.2 ++ [r.1]).take 2 ++ rest) : ℤ) = n + (2 ^ build.legBits) ^ 2 * m := by
  obtain ⟨hlen, hval⟩ := h
  have hrow : (value (r.2 ++ [r.1]) : ℤ) = n := by
    rw [← hval, value_append, hlen]
    simp only [value_cons, value_nil, pow_mul]
    push_cast
    ring
  have htake : ((r.2 ++ [r.1]).take 2).length = 2 := by
    simp [hlen]
    omega
  have hsplit := value_append ((r.2 ++ [r.1]).take 2) ((r.2 ++ [r.1]).drop 2)
  rw [List.take_append_drop, htake] at hsplit
  rw [value_append, htake, ← hrow, hsplit]
  push_cast
  rw [hrest]
  ring

theorem crossRows_spec : ∀ {l c : List (Leg build)}, l ≠ [] → c.length + 1 = l.length →
    (crossRows l c).length + 2 = 2 * l.length ∧
      (value (crossRows l c) : ℤ) = value c + crossValue l := by
  intro l
  induction l with
  | nil => exact fun h => absurd rfl h
  | cons x l ih =>
    intro cross _ hcross
    cases l with
    | nil =>
      obtain rfl : cross = [] := List.length_eq_zero_iff.mp (by simpa using hcross)
      exact ⟨rfl, by simp [crossRows, crossValue]⟩
    | cons y l =>
      have hr := multiplyXAdd_spec (a := y :: l) (c := cross) (by simpa using hcross.symm)
        (by simp) x
      have hlen := hr.length
      obtain ⟨hl, hv⟩ := ih (c := ((multiplyXAdd (y :: l) x cross).2 ++
        [(multiplyXAdd (y :: l) x cross).1]).drop 2) (by simp) (by simp [hlen])
      refine ⟨?_, ?_⟩
      · rw [crossRows]
        simp only [List.length_append, List.length_take, List.length_cons, List.length_nil, hlen]
          at hl ⊢
        omega
      · rw [crossRows, value_crossRow hr (by simp) hv, show crossValue (x :: y :: l) =
          x.toNat * value (y :: l) + (2 ^ build.legBits) ^ 2 * crossValue (y :: l) from rfl]
        ring

/-- **Squares of registers** are exact on every path. -/
theorem square_spec {l : List (Leg build)} {L : Nat} (hl : l.length = L) (hL : 2 ≤ L) :
    (square l).length = 2 * L ∧ (value (square l) : ℤ) = value l * value l := by
  have hlt := value_mul_lt l l
  unfold square
  split_ifs with h8
  · obtain rfl : L = 8 := by omega
    exact square8_spec hl
  · cases l with
    | nil => simp at hl; omega
    | cons x l =>
      have hne : l ≠ [] := List.ne_nil_of_length_pos (by simp at hl; omega)
      have hr := multiplyX_spec hne x
      have hlen := hr.length
      obtain ⟨hcl, hcv⟩ := crossRows_spec (c := ((multiplyX l x).2 ++
        [(multiplyX l x).1]).drop 2) hne (by
          have := List.length_pos_of_ne_nil hne
          simp [hlen]
          omega)
      have hcross : (value (((multiplyX l x).2 ++ [(multiplyX l x).1]).take 2 ++
          crossRows l (((multiplyX l x).2 ++ [(multiplyX l x).1]).drop 2)) : ℤ) =
            crossValue (x :: l) := by
        rw [value_crossRow hr (List.length_pos_of_ne_nil hne) hcv, crossValue]
        ring
      have hexact := value_mul_self (x :: l)
      rw [← hcross, ← value_squares] at hexact
      rw [hexact]
      rw [List.length_cons] at hl
      have := @addCross_spec build ((x :: l).flatMap fun x => [(legMul x x).2, (legMul x x).1])
        (((multiplyX l x).2 ++ [(multiplyX l x).1]).take 2 ++
          crossRows l (((multiplyX l x).2 ++ [(multiplyX l x).1]).drop 2)) (2 * l.length)
        (by simp; omega) (by simp [hlen]; omega) (by omega) (by
          rw [← hexact]
          refine lt_of_lt_of_eq hlt ?_
          rw [List.length_cons]
          congr 2
          ring)
      refine ⟨?_, this.2⟩
      rw [this.1]
      omega

end Libcat.Math.BigRTL
