import Mathlib.Data.Nat.Digits.Lemmas
import Mathlib.Algebra.Polynomial.Eval.Degree
import Mathlib.Tactic

/-!
# Numbers as lists of words

`value l` is the number whose digits in base `2 ^ w` are the words of `l`, the lowest first.
`chain` is a loop over the words with a carry, and `value_chain` the number it computes. `halves`
splits a word of twice the width; `value_mul_value` is a product by columns.
-/

namespace Libcat.Radix

variable {w : Nat}

/-- The number with the given words, lowest first. -/
def value (l : List (BitVec w)) : Nat := Nat.ofDigits (2 ^ w) (l.map BitVec.toNat)

@[simp] theorem value_nil : value ([] : List (BitVec w)) = 0 := rfl

@[simp] theorem value_cons (x : BitVec w) (l : List (BitVec w)) :
    value (x :: l) = x.toNat + 2 ^ w * value l := by
  simp [value, Nat.ofDigits_cons]

theorem value_append (l m : List (BitVec w)) :
    value (l ++ m) = value l + (2 ^ w) ^ l.length * value m := by
  simp [value, Nat.ofDigits_append]

theorem value_lt (l : List (BitVec w)) : value l < (2 ^ w) ^ l.length := by
  induction l with
  | nil => simp
  | cons x l ih =>
    have hx := x.isLt
    rw [value_cons, List.length_cons, Nat.pow_succ']
    have : 2 ^ w * (value l + 1) ≤ 2 ^ w * (2 ^ w) ^ l.length := Nat.mul_le_mul_left _ ih
    rw [Nat.mul_add] at this
    omega

theorem value_eq_zero {l : List (BitVec w)} : value l = 0 ↔ ∀ x ∈ l, x = 0 := by
  induction l with
  | nil => simp
  | cons x l ih =>
    have hpos : 0 < 2 ^ w := Nat.two_pow_pos w
    rw [value_cons, Nat.add_eq_zero_iff, Nat.mul_eq_zero, ih, List.forall_mem_cons]
    constructor
    · rintro ⟨hx, hl⟩
      exact ⟨BitVec.eq_of_toNat_eq hx, hl.resolve_left (by omega)⟩
    · rintro ⟨rfl, hl⟩
      exact ⟨by simp, .inr hl⟩

theorem value_not (l : List (BitVec w)) :
    value (l.map fun x => ~~~x) + value l + 1 = (2 ^ w) ^ l.length := by
  induction l with
  | nil => rfl
  | cons x l ih =>
    have hx := x.isLt
    rw [List.map_cons, value_cons, value_cons, BitVec.toNat_not, List.length_cons, Nat.pow_succ', ← ih]
    simp only [Nat.mul_add]
    omega

/-- All bits set. -/
theorem value_ones {l : List (BitVec w)} (h : ∀ x ∈ l, ~~~x = 0) :
    value l + 1 = (2 ^ w) ^ l.length := by
  induction l with
  | nil => rfl
  | cons x l ih =>
    rw [List.forall_mem_cons] at h
    have hx : x.toNat + 1 = 2 ^ w := by
      have hne := congrArg BitVec.toNat h.1
      have hlt := x.isLt
      rw [BitVec.toNat_not] at hne
      simp only [BitVec.ofNat_eq_ofNat, BitVec.toNat_ofNat, Nat.zero_mod] at hne
      omega
    rw [value_cons, List.length_cons, Nat.pow_succ', ← ih h.2, Nat.mul_add]
    omega

/-- Below the largest value when some bit is clear. -/
theorem value_lt_of_not_ones {l : List (BitVec w)} {x : BitVec w} (hx : x ∈ l) (hne : ~~~x ≠ 0) :
    value l + 1 < (2 ^ w) ^ l.length := by
  induction l with
  | nil => simp at hx
  | cons y l ih =>
    have hy := y.isLt
    have hl := value_lt l
    rw [value_cons, List.length_cons, Nat.pow_succ']
    rcases List.mem_cons.mp hx with rfl | hx
    · have hlt : x.toNat + 1 < 2 ^ w := by
        by_contra hge
        refine hne (BitVec.eq_of_toNat_eq ?_)
        rw [BitVec.toNat_not]
        simp only [BitVec.ofNat_eq_ofNat, BitVec.toNat_ofNat, Nat.zero_mod]
        omega
      have : 2 ^ w * (value l + 1) ≤ 2 ^ w * (2 ^ w) ^ l.length := Nat.mul_le_mul_left _ hl
      rw [Nat.mul_add] at this
      omega
    · have : 2 ^ w * (value l + 1 + 1) ≤ 2 ^ w * (2 ^ w) ^ l.length :=
        Nat.mul_le_mul_left _ (ih hx)
      rw [Nat.mul_add, Nat.mul_add] at this
      omega

/-! ## Loops with a carry -/

section Chain

variable {α σ : Type}

/-- A loop from the lowest word on, with what is kept from one word to the next. -/
def chain (step : σ → α → BitVec w × σ) : σ → List α → List (BitVec w) × σ
  | c, [] => ([], c)
  | c, x :: l =>
    let r := step c x
    let rest := chain step r.2 l
    (r.1 :: rest.1, rest.2)

/-- The sum of the inputs of a loop, each at its place. -/
def weight (w : Nat) (f : α → ℤ) : List α → ℤ
  | [] => 0
  | x :: l => f x + 2 ^ w * weight w f l

theorem length_chain (step : σ → α → BitVec w × σ) (c : σ) (l : List α) :
    (chain step c l).1.length = l.length := by
  induction l generalizing c with
  | nil => rfl
  | cons x l ih => simp [chain, ih]

/-- Where each step adds up, the loop does. -/
theorem value_chain {step : σ → α → BitVec w × σ} {f : α → ℤ} {g : σ → ℤ}
    (h : ∀ c x, ((step c x).1.toNat : ℤ) + 2 ^ w * g (step c x).2 = f x + g c)
    (c : σ) (l : List α) :
    (value (chain step c l).1 : ℤ) + 2 ^ (w * l.length) * g (chain step c l).2 =
      weight w f l + g c := by
  induction l generalizing c with
  | nil => simp [chain, weight]
  | cons x l ih =>
    have hstep := h c x
    have hrest := ih (step c x).2
    simp only [chain, weight, value_cons, List.length_cons, Nat.mul_add, Nat.mul_one, pow_add]
    push_cast
    linear_combination hstep + 2 ^ w * hrest

/-- The same with a first word outside of the loop. -/
theorem value_cons_chain {step : σ → α → BitVec w × σ} {f : α → ℤ} {g : σ → ℤ}
    (h : ∀ c x, ((step c x).1.toNat : ℤ) + 2 ^ w * g (step c x).2 = f x + g c)
    {x : BitVec w} {c : σ} {n : ℤ} (hx : (x.toNat : ℤ) + 2 ^ w * g c = n) (l : List α) :
    (value (x :: (chain step c l).1) : ℤ) +
        2 ^ (w * (l.length + 1)) * g (chain step c l).2 = n + 2 ^ w * weight w f l := by
  have hl := value_chain h c l
  rw [value_cons, Nat.mul_add, Nat.mul_one, pow_add]
  push_cast
  linear_combination hx + 2 ^ w * hl

theorem weight_word (k : ℤ) (l : List (BitVec w)) :
    weight w (fun x => k * (x.toNat : ℤ)) l = k * value l := by
  induction l with
  | nil => simp [weight]
  | cons x l ih =>
    simp only [weight, value_cons, ih]
    push_cast
    ring

theorem weight_zip (j k : ℤ) {l m : List (BitVec w)} (h : l.length = m.length) :
    weight w (fun x => j * (x.1.toNat : ℤ) + k * (x.2.toNat : ℤ)) (l.zip m) =
      j * value l + k * value m := by
  induction l generalizing m with
  | nil =>
    obtain rfl := List.length_eq_zero_iff.mp h.symm
    simp [weight]
  | cons x l ih =>
    cases m with
    | nil => simp at h
    | cons y m =>
      simp only [List.zip_cons_cons, weight, value_cons, ih (by simpa using h)]
      push_cast
      ring

end Chain

/-! ## Words of twice the width -/

/-- The high and the low half. -/
def halves (t : BitVec (w + w)) : BitVec w × BitVec w := ((t >>> w).setWidth w, t.setWidth w)

theorem halves_toNat (t : BitVec (w + w)) :
    (halves t).2.toNat + 2 ^ w * (halves t).1.toNat = t.toNat := by
  have ht : t.toNat / 2 ^ w < 2 ^ w := by
    apply Nat.div_lt_of_lt_mul
    rw [← Nat.pow_add]
    exact t.isLt
  simp only [halves, BitVec.toNat_setWidth, BitVec.toNat_ushiftRight, Nat.shiftRight_eq_div_pow,
    Nat.mod_eq_of_lt ht]
  exact Nat.mod_add_div _ _

/-- A product of two words has room for two more. -/
theorem mul_add_lt {B a b : Nat} (ha : a < B) (hb : b < B) : a * b + 2 * B < B * B + 2 := by
  obtain ⟨k, rfl⟩ : ∃ k, B = k + 1 := ⟨B - 1, by omega⟩
  have : a * b ≤ k * k := Nat.mul_le_mul (by omega) (by omega)
  have hk : (k + 1) * (k + 1) = k * k + 2 * k + 1 := by ring
  omega

theorem setWidth_double_toNat (x : BitVec w) : (x.setWidth (w + w)).toNat = x.toNat :=
  BitVec.toNat_setWidth_of_le (by omega)

/-! ## Columns of a product -/

/-- The digit at a place, zero beyond the end. -/
def digit (l : List (BitVec w)) (i : Nat) : Nat := (l.getD i 0).toNat

theorem value_eq_sum (l : List (BitVec w)) :
    value l = ∑ i ∈ Finset.range l.length, digit l i * (2 ^ w) ^ i := by
  induction l with
  | nil => rfl
  | cons x l ih =>
    rw [value_cons, List.length_cons, Finset.sum_range_succ', ih, Finset.mul_sum, Nat.add_comm]
    congr 1
    · refine Finset.sum_congr rfl fun i _ => ?_
      simp only [digit, List.getD_cons_succ, Nat.pow_succ]
      ring
    · simp [digit]

theorem digit_of_length_le {l : List (BitVec w)} {i : Nat} (h : l.length ≤ i) : digit l i = 0 := by
  simp [digit, List.getElem?_eq_none h]

theorem digit_lt (l : List (BitVec w)) (i : Nat) : digit l i < 2 ^ w := BitVec.isLt _

/-- The products that meet at a place. -/
def column (a b : List (BitVec w)) (k : Nat) : Nat :=
  ∑ j ∈ Finset.range (k + 1), digit a (k - j) * digit b j

open Polynomial in
/-- The digits as coefficients. -/
noncomputable def poly (l : List (BitVec w)) : ℕ[X] :=
  ∑ i ∈ Finset.range l.length, C (digit l i) * X ^ i

open Polynomial in
theorem coeff_poly (l : List (BitVec w)) (k : Nat) : (poly l).coeff k = digit l k := by
  simp only [poly, finsetSum_coeff, coeff_C_mul, coeff_X_pow, mul_ite, mul_one, mul_zero,
    Finset.sum_ite_eq, Finset.mem_range]
  split
  · rfl
  · next h => rw [digit_of_length_le (Nat.le_of_not_lt h)]

open Polynomial in
theorem eval_poly (l : List (BitVec w)) : (poly l).eval (2 ^ w) = value l := by
  simp [poly, eval_finsetSum, value_eq_sum]

open Polynomial in
theorem natDegree_poly (l : List (BitVec w)) : (poly l).natDegree ≤ l.length - 1 := by
  rw [natDegree_le_iff_coeff_eq_zero]
  intro k hk
  rw [coeff_poly, digit_of_length_le (by omega)]

open Polynomial in
/-- A product by columns. -/
theorem value_mul_value {a b : List (BitVec w)} {L : Nat} (ha : a.length = L) (hb : b.length = L)
    (hL : 0 < L) :
    value a * value b = ∑ k ∈ Finset.range (2 * L - 1), column a b k * (2 ^ w) ^ k := by
  have hdeg : (poly a * poly b).natDegree < 2 * L - 1 := by
    have := natDegree_mul_le (p := poly a) (q := poly b)
    have h1 := natDegree_poly a
    have h2 := natDegree_poly b
    omega
  rw [← eval_poly, ← eval_poly, ← eval_mul, eval_eq_sum_range' hdeg]
  refine Finset.sum_congr rfl fun k _ => ?_
  congr 1
  rw [mul_comm, coeff_mul, Finset.Nat.sum_antidiagonal_eq_sum_range_succ_mk, column]
  refine Finset.sum_congr rfl fun j _ => ?_
  rw [coeff_poly, coeff_poly, mul_comm]

/-- A column of the lower half: all products, the one of the lowest digit of `b` first. -/
theorem column_low (a b : List (BitVec w)) (k : Nat) :
    column a b k = digit a k * digit b 0 +
      ∑ t ∈ Finset.range k, digit a (k - 1 - t) * digit b (1 + t) := by
  rw [column, Finset.sum_range_succ', Nat.add_comm]
  congr 1
  refine Finset.sum_congr rfl fun t _ => ?_
  rw [show k - (t + 1) = k - 1 - t by omega, Nat.add_comm 1 t]

/-- A column of the upper half, with `n` products after the first. -/
theorem column_high {a b : List (BitVec w)} {L n : Nat} (ha : a.length = L) (hb : b.length = L)
    (hn : n < L) :
    column a b (2 * L - 2 - n) = digit a (L - 1) * digit b (L - 1 - n) +
      ∑ t ∈ Finset.range n, digit a (L - 2 - t) * digit b (L - n + t) := by
  have hsplit : 2 * L - 2 - n + 1 = (L - 1 - n) + ((1 + n) + (L - 1 - n)) := by omega
  have hzero : ∑ j ∈ Finset.range (L - 1 - n),
      digit a (2 * L - 2 - n - j) * digit b j = 0 := by
    refine Finset.sum_eq_zero fun j hj => ?_
    rw [Finset.mem_range] at hj
    rw [digit_of_length_le (by omega), Nat.zero_mul]
  have hend : ∑ j ∈ Finset.range (L - 1 - n),
      digit a (2 * L - 2 - n - (L - 1 - n + (1 + n + j))) * digit b (L - 1 - n + (1 + n + j)) = 0 := by
    refine Finset.sum_eq_zero fun j hj => ?_
    rw [digit_of_length_le (l := b) (by omega), Nat.mul_zero]
  rw [column, hsplit, Finset.sum_range_add, hzero, Nat.zero_add, Finset.sum_range_add, hend,
    Nat.add_zero, Finset.sum_range_add, Finset.sum_range_one]
  congr 1
  · rw [show 2 * L - 2 - n - (L - 1 - n + 0) = L - 1 by omega, Nat.add_zero]
  · refine Finset.sum_congr rfl fun t ht => ?_
    rw [Finset.mem_range] at ht
    rw [show 2 * L - 2 - n - (L - 1 - n + (1 + t)) = L - 2 - t by omega,
      show L - 1 - n + (1 + t) = L - n + t by omega]

end Libcat.Radix
