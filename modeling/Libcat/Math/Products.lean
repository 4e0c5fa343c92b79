import Libcat.Math.Multiply
import Libcat.Math.Registers

/-!
# Products and squares in memory

`Multiply`, `MultiplyLow` and `Square` as they go over the memory of a library, row by row. A row
always has a first leg, so where a row should be empty it reads and writes one leg too many: `Square`
has such a row for one leg.
-/

namespace Libcat.Math.Products

open Radix Window BigRTL Registers

variable {build : Build}

section Model

/-- The legs that a loop with two inputs reads. -/
def legsAt (in_a in_b : Nat) (mem : Mem build) (ii : Nat) : Leg build × Leg build :=
  (mem (in_a + ii), mem (in_b + ii))

/-- `MultiplyX`. -/
def multiplyXTo (legs in_a : Nat) (in_b : Leg build) (output : Nat) (mem : Mem build) :
    Leg build × Mem build :=
  let p := legMul (mem in_a) in_b
  let r := forLoop (mulStep in_b) (fun mem ii => mem (in_a + 1 + ii)) (output + 1) (legs - 1)
    (Function.update mem output p.2) p.1
  (r.2, r.1)

/-- `MultiplyXAdd`. -/
def multiplyXAddTo (legs in_a : Nat) (in_b : Leg build) (in_c output : Nat) (mem : Mem build) :
    Leg build × Mem build :=
  let p := legMulAdd (mem in_a) in_b (mem in_c)
  let r := forLoop (mulAddStep in_b) (legsAt (in_a + 1) (in_c + 1)) (output + 1) (legs - 1)
    (Function.update mem output p.2) p.1
  (r.2, r.1)

/-- `DoubleAdd`. -/
def doubleAddTo (legs in_a in_b out : Nat) (mem : Mem build) : Leg build × Mem build :=
  if build.legPair then
    let x := (toPair (mem in_a) <<< 1) + toPair (mem in_b)
    let r := forLoop doubleAddPairStep (legsAt (in_a + 1) (in_b + 1)) (out + 1) (legs - 1)
      (Function.update mem out (x.setWidth build.legBits)) x
    ((r.2 >>> build.legBits).setWidth build.legBits, r.1)
  else
    let p := legMulAdd (mem in_a) 2 (mem in_b)
    let r := forLoop (mulAddStep 2) (legsAt (in_a + 1) (in_b + 1)) (out + 1) (legs - 1)
      (Function.update mem out p.2) p.1
    (r.2, r.1)

/-- The rows of `Multiply` after the first. -/
def rowsTo (library_legs in_a : Nat) : Nat → Nat → Nat → Mem build → Mem build
  | 0, _, _, mem => mem
  | rows + 1, in_b, out, mem =>
    let r := multiplyXAddTo library_legs in_a (mem in_b) out out mem
    rowsTo library_legs in_a rows (in_b + 1) (out + 1) (Function.update r.2 (out + library_legs) r.1)

/-- `Multiply` without the unrolled cases. -/
def multiplyByRows (library_legs in_a in_b out : Nat) (mem : Mem build) : Mem build :=
  let r := multiplyXTo library_legs in_a (mem in_b) out mem
  rowsTo library_legs in_a (library_legs - 1) (in_b + 1) (out + 1)
    (Function.update r.2 (out + library_legs) r.1)

/-- `Multiply`. -/
def multiplyTo (library_legs in_a in_b out : Nat) (mem : Mem build) : Mem build :=
  let a := window mem in_a library_legs
  let b := window mem in_b library_legs
  if build.word64 ∧ library_legs = 4 then store (schoolbookMultiply4 a b) out mem
  else if build.word64 ∧ library_legs = 6 then store (combaMul 6 a b) out mem
  else if library_legs = 8 then store (combaMul 8 a b) out mem
  else if ¬ build.word64 ∧ build.unrollOver256Bits ∧ library_legs = 12 then
    store (combaMul 12 a b) out mem
  else if ¬ build.word64 ∧ build.unrollOver256Bits ∧ library_legs = 16 then
    store (combaMul 16 a b) out mem
  else multiplyByRows library_legs in_a in_b out mem

/-- The rows of `MultiplyLow` after the first: each has a leg less, and what it carries is dropped. -/
def lowRowsTo (in_a : Nat) : Nat → Nat → Nat → Mem build → Mem build
  | 0, _, _, mem => mem
  | legs + 1, in_b, out, mem =>
    lowRowsTo in_a legs (in_b + 1) (out + 1)
      (multiplyXAddTo (legs + 1) in_a (mem in_b) out out mem).2

/-- `MultiplyLow`. -/
def multiplyLow (library_legs in_a in_b out : Nat) (mem : Mem build) : Mem build :=
  lowRowsTo in_a (library_legs - 1) (in_b + 1) (out + 1)
    (multiplyXTo library_legs in_a (mem in_b) out mem).2

/-- The square products. -/
def squareLegs (input output : Nat) : Nat → Mem build → Mem build
  | 0, mem => mem
  | ii + 1, mem =>
    let mem := squareLegs input output ii mem
    let p := legMul (mem (input + ii)) (mem (input + ii))
    Function.update (Function.update mem (output + ii * 2) p.2) (output + (ii * 2 + 1)) p.1

/-- The cross products after the first row: each row has a leg less and starts two legs further. -/
def crossRowsTo : Nat → Nat → Nat → Mem build → Mem build
  | 0, _, _, mem => mem
  | legs + 1, input, cross, mem =>
    let r := multiplyXAddTo (legs + 1) (input + 1) (mem input) cross cross mem
    crossRowsTo legs (input + 1) (cross + 2) (Function.update r.2 (cross + (legs + 1)) r.1)

/-- `Square` without the unrolled case; `cross` is `Get(library_regs - 2)`. -/
def squareByRows (library_legs cross input output : Nat) (mem : Mem build) : Mem build :=
  let mem := squareLegs input output library_legs mem
  let r := multiplyXTo (library_legs - 1) (input + 1) (mem input) (cross + 1) mem
  let mem := Function.update r.2 (cross + library_legs) r.1
  let mem := crossRowsTo (library_legs - 2) (input + 1) (cross + 1 + 2) mem
  -- multiply the cross product by 2 and add it to the square products
  let r := doubleAddTo (library_legs * 2 - 2) (cross + 1) (output + 1) (output + 1) mem
  let last := output + (library_legs * 2 - 1)
  Function.update r.2 last (r.2 last + r.1)

/-- `Square`. -/
def squareTo (library_legs cross input output : Nat) (mem : Mem build) : Mem build :=
  if build.legPair ∧ library_legs = 8 then
    store (square8 (window mem input library_legs)) output mem
  else squareByRows library_legs cross input output mem

end Model

/-! ## A first leg and a loop -/

section Loop

variable {α σ : Type} {legs : Nat}

theorem first_then_loop (step : σ → α → Leg build × σ) (read : Mem build → Nat → α) (mem : Mem build)
    (out : Nat) (hlegs : 0 < legs) (x : Leg build) (c : σ)
    (hread : ∀ i < legs - 1, ∀ mem', SameOff out (i + 1) mem mem' → read mem' i = read mem i) :
    let r := forLoop step read (out + 1) (legs - 1) (Function.update mem out x) c
    SameOff out legs mem r.1 ∧
      (window r.1 out legs, r.2) =
        (x :: (chain step c ((List.range (legs - 1)).map (read mem))).1,
          (chain step c ((List.range (legs - 1)).map (read mem))).2) := by
  intro r
  have hfirst : SameOff out 1 mem (Function.update mem out x) := SameOff.update mem le_rfl (by omega) x
  have hrest := forLoop_sameOff step read (out + 1) (legs - 1) (Function.update mem out x) c
  have hreads : (List.range (legs - 1)).map (read (Function.update mem out x)) =
      (List.range (legs - 1)).map (read mem) :=
    List.map_congr_left fun i hi =>
      hread i (List.mem_range.mp hi) _ (hfirst.mono le_rfl (by omega))
  have heq := @forLoop_eq _ (legs - 1) (out + 1) _ _ step read (Function.update mem out x) c
    fun i hi mem' hmem' => by
      rw [hread i hi mem' ((hfirst.mono le_rfl (by omega)).trans (hmem'.mono (by omega) (by omega))),
        hread i hi _ (hfirst.mono le_rfl (by omega))]
  rw [hreads] at heq
  refine ⟨(hfirst.mono le_rfl (by omega)).trans (hrest.mono (by omega) (by omega)), ?_⟩
  have hhead : r.1 out = x := by
    show (forLoop step read (out + 1) (legs - 1) (Function.update mem out x) c).1 out = x
    rw [hrest out (.inl (by omega)), Function.update_self]
  obtain ⟨n, rfl⟩ : ∃ n, legs = n + 1 := ⟨legs - 1, by omega⟩
  rw [window_succ, hhead, ← heq]
  rfl

end Loop

section Spec

variable {mem : Mem build} {legs in_a in_b out : Nat}

/-- What a row leaves: its value and the leg that is carried. -/
structure Row (mem : Mem build) (r : Leg build × Mem build) (out legs : Nat) (n : Nat) : Prop where
  same : SameOff out legs mem r.2
  value : number r.2 out legs + (2 ^ build.legBits) ^ legs * r.1.toNat = n

theorem Row.of_overflowOut {r : Leg build × Mem build} {s : Leg build × List (Leg build)} {n : Nat}
    (hsame : SameOff out legs mem r.2) (heq : (window r.2 out legs, r.1) = (s.2, s.1))
    (h : OverflowOut s legs n) : Row mem r out legs n := by
  refine ⟨hsame, ?_⟩
  obtain ⟨hwin, hhi⟩ := Prod.mk.inj heq
  have hval := h.value
  rw [← hwin, ← hhi, pow_mul] at hval
  exact_mod_cast hval

theorem window_first (mem : Mem build) (p : Nat) (hlegs : 0 < legs) :
    window mem p legs = mem p :: window mem (p + 1) (legs - 1) := by
  obtain ⟨n, rfl⟩ : ∃ n, legs = n + 1 := ⟨legs - 1, by omega⟩
  exact window_succ mem p n

theorem multiplyXTo_spec (mem : Mem build) (hlegs : 0 < legs) (x : Leg build)
    (hd : in_a + legs ≤ out ∨ out + legs ≤ in_a) :
    Row mem (multiplyXTo legs in_a x out mem) out legs (number mem in_a legs * x.toNat) := by
  have hwin := window_first mem in_a hlegs
  obtain ⟨hsame, heq⟩ := first_then_loop (mulStep x)
    (fun mem ii => mem (in_a + 1 + ii)) mem out hlegs (legMul (mem in_a) x).2 (legMul (mem in_a) x).1
    fun i hi mem' hmem' => hmem' _ (by omega)
  have hspec := multiplyX_spec (a := window mem in_a legs) (by rw [hwin]; simp) x
  rw [length_window] at hspec
  refine Row.of_overflowOut hsame ?_ (by exact_mod_cast hspec)
  rw [hwin]
  exact heq

theorem map_legsAt (mem : Mem build) (p q n : Nat) :
    (List.range n).map (legsAt p q mem) = (window mem p n).zip (window mem q n) :=
  (zip_window mem mem p q n).symm

/-- In place: a row is added to the legs it is written to. -/
theorem multiplyXAddTo_spec (mem : Mem build) (hlegs : 0 < legs) (x : Leg build)
    (hd : in_a + legs ≤ out ∨ out + legs ≤ in_a) :
    Row mem (multiplyXAddTo legs in_a x out out mem) out legs
      (number mem in_a legs * x.toNat + number mem out legs) := by
  obtain ⟨hsame, heq⟩ := first_then_loop (mulAddStep x)
    (legsAt (in_a + 1) (out + 1)) mem out hlegs (legMulAdd (mem in_a) x (mem out)).2
    (legMulAdd (mem in_a) x (mem out)).1
    fun i hi mem' hmem' => by rw [legsAt, legsAt, hmem' _ (by omega), hmem' _ (by omega)]
  have hspec := multiplyXAdd_spec (a := window mem in_a legs) (c := window mem out legs) (by simp)
    (List.ne_nil_of_length_pos (by simpa using hlegs)) x
  rw [length_window] at hspec
  refine Row.of_overflowOut hsame ?_ (by exact_mod_cast hspec)
  rw [window_first mem in_a hlegs, window_first mem out hlegs, multiplyXAdd, List.zip_cons_cons,
    ← map_legsAt]
  exact heq

theorem doubleAddTo_spec (mem : Mem build) (hlegs : 0 < legs) (hd : in_a + legs ≤ out ∨ out + legs ≤ in_a) :
    Row mem (doubleAddTo legs in_a out out mem) out legs
      (2 * number mem in_a legs + number mem out legs) := by
  have hread : ∀ i < legs - 1, ∀ mem', SameOff out (i + 1) mem mem' →
      legsAt (in_a + 1) (out + 1) mem' i = legsAt (in_a + 1) (out + 1) mem i :=
    fun i hi mem' hmem' => by rw [legsAt, legsAt, hmem' _ (by omega), hmem' _ (by omega)]
  have hspec := doubleAdd_spec (a := window mem in_a legs) (b := window mem out legs) (by simp)
    (List.ne_nil_of_length_pos (by simpa using hlegs))
  rw [length_window] at hspec
  have hzip : (window mem in_a legs).zip (window mem out legs) = (mem in_a, mem out) ::
      (List.range (legs - 1)).map (legsAt (in_a + 1) (out + 1) mem) := by
    rw [window_first mem in_a hlegs, window_first mem out hlegs, List.zip_cons_cons, map_legsAt]
  unfold doubleAddTo
  unfold doubleAdd at hspec
  rw [hzip] at hspec
  by_cases hpair : build.legPair
  · rw [if_pos hpair]
    dsimp only at hspec ⊢
    rw [if_pos hpair] at hspec
    obtain ⟨hsame, heq⟩ := first_then_loop doubleAddPairStep
      (legsAt (in_a + 1) (out + 1)) mem out hlegs
      (((toPair (mem in_a) <<< 1) + toPair (mem out)).setWidth build.legBits)
      ((toPair (mem in_a) <<< 1) + toPair (mem out)) hread
    obtain ⟨hwin, hhi⟩ := Prod.mk.inj heq
    refine Row.of_overflowOut hsame ?_ (by exact_mod_cast hspec)
    dsimp only
    rw [hwin, hhi]
  · rw [if_neg hpair]
    dsimp only at hspec ⊢
    rw [if_neg hpair] at hspec
    obtain ⟨hsame, heq⟩ := first_then_loop (mulAddStep 2)
      (legsAt (in_a + 1) (out + 1)) mem out hlegs
      (legMulAdd (mem in_a) 2 (mem out)).2 (legMulAdd (mem in_a) 2 (mem out)).1 hread
    exact Row.of_overflowOut hsame heq (by exact_mod_cast hspec)

/-- The carried leg is stored after the row. -/
theorem Row.carried {r : Leg build × Mem build} {n : Nat} (h : Row mem r out legs n) :
    SameOff out (legs + 1) mem (Function.update r.2 (out + legs) r.1) ∧
      number (Function.update r.2 (out + legs) r.1) out (legs + 1) = n := by
  have hoff : SameOff (out + legs) 1 r.2 (Function.update r.2 (out + legs) r.1) :=
    SameOff.update r.2 le_rfl (by omega) r.1
  refine ⟨(h.same.mono le_rfl (by omega)).trans (hoff.mono (by omega) (by omega)), ?_⟩
  rw [number_concat, number_of_sameOff hoff (.inl le_rfl), Function.update_self, h.value]

end Spec

/-! ## Products by rows -/

section Rows

variable {mem : Mem build} {L in_a in_b out : Nat}

/-- A number whose first leg no later row writes. -/
theorem number_first {mem' : Mem build} {n : Nat} (h : SameOff (out + 1) n mem mem') :
    number mem' out (n + 1) = (mem out).toNat + 2 ^ build.legBits * number mem' (out + 1) n := by
  rw [number_succ, h out (.inl (by omega))]

theorem rowsTo_spec (hL : 0 < L) {rows : Nat} (ha : in_a + L ≤ out ∨ out + L + rows ≤ in_a)
    (hb : in_b + rows ≤ out ∨ out + L + rows ≤ in_b) :
    SameOff out (L + rows) mem (rowsTo L in_a rows in_b out mem) ∧
      number (rowsTo L in_a rows in_b out mem) out (L + rows) =
        number mem out L + number mem in_a L * number mem in_b rows := by
  induction rows generalizing in_b out mem with
  | zero => exact ⟨SameOff.refl _ _ _, by rw [number_zero, Nat.mul_zero]; rfl⟩
  | succ rows ih =>
    obtain ⟨hsame, hrow⟩ := (multiplyXAddTo_spec mem hL (mem in_b)
      (show in_a + L ≤ out ∨ out + L ≤ in_a by omega)).carried
    unfold rowsTo
    dsimp only
    set mem1 := Function.update (multiplyXAddTo L in_a (mem in_b) out out mem).2 (out + L)
      (multiplyXAddTo L in_a (mem in_b) out out mem).1 with hmem1
    obtain ⟨hsame', hval⟩ := @ih mem1 (in_b + 1) (out + 1) (by omega) (by omega)
    refine ⟨(hsame.mono le_rfl (by omega)).trans (hsame'.mono (by omega) (by omega)), ?_⟩
    rw [show L + (rows + 1) = L + rows + 1 by omega, number_first hsame', hval,
      number_of_sameOff hsame (show in_a + L ≤ out ∨ out + (L + 1) ≤ in_a by omega),
      number_of_sameOff hsame (show in_b + 1 + rows ≤ out ∨ out + (L + 1) ≤ in_b + 1 by omega),
      number_succ mem in_b rows]
    rw [number_succ] at hrow
    linear_combination hrow

theorem multiplyByRows_spec (hL : 0 < L) (ha : in_a + L ≤ out ∨ out + L * 2 ≤ in_a)
    (hb : in_b + L ≤ out ∨ out + L * 2 ≤ in_b) :
    SameOff out (L * 2) mem (multiplyByRows L in_a in_b out mem) ∧
      number (multiplyByRows L in_a in_b out mem) out (L * 2) =
        number mem in_a L * number mem in_b L := by
  obtain ⟨hsame, hrow⟩ := (multiplyXTo_spec mem hL (mem in_b)
    (show in_a + L ≤ out ∨ out + L ≤ in_a by omega)).carried
  unfold multiplyByRows
  dsimp only
  set mem1 := Function.update (multiplyXTo L in_a (mem in_b) out mem).2 (out + L)
    (multiplyXTo L in_a (mem in_b) out mem).1 with hmem1
  obtain ⟨n, rfl⟩ : ∃ n, L = n + 1 := ⟨L - 1, by omega⟩
  rw [Nat.add_sub_cancel]
  obtain ⟨hsame', hval⟩ := @rowsTo_spec build mem1 (n + 1) in_a (in_b + 1) (out + 1) hL n (by omega)
    (by omega)
  refine ⟨(hsame.mono le_rfl (by omega)).trans (hsame'.mono (by omega) (by omega)), ?_⟩
  rw [show (n + 1) * 2 = n + 1 + n + 1 by omega, number_first hsame', hval,
    number_of_sameOff hsame (show in_a + (n + 1) ≤ out ∨ out + (n + 1 + 1) ≤ in_a by omega),
    number_of_sameOff hsame (show in_b + 1 + n ≤ out ∨ out + (n + 1 + 1) ≤ in_b + 1 by omega),
    number_succ mem in_b n]
  rw [number_succ] at hrow
  linear_combination hrow

/-- Every path of `Multiply`. -/
theorem multiplyTo_spec (mem : Mem build) (hL : 0 < L) (ha : in_a + L ≤ out ∨ out + L * 2 ≤ in_a)
    (hb : in_b + L ≤ out ∨ out + L * 2 ≤ in_b) :
    SameOff out (L * 2) mem (multiplyTo L in_a in_b out mem) ∧
      number (multiplyTo L in_a in_b out mem) out (L * 2) =
        number mem in_a L * number mem in_b L := by
  have hla := length_window mem in_a L
  have hlb := length_window mem in_b L
  have hstore : ∀ product : List (Leg build), product.length = 2 * L ∧
      (value product : ℤ) = value (window mem in_a L) * value (window mem in_b L) →
        SameOff out (L * 2) mem (store product out mem) ∧
          number (store product out mem) out (L * 2) = number mem in_a L * number mem in_b L := by
    rintro product ⟨hlen, hval⟩
    obtain ⟨hsame, hnum⟩ := number_store (hlen.trans (Nat.mul_comm 2 L)) out mem
    refine ⟨hsame, hnum.trans ?_⟩
    exact_mod_cast hval
  unfold multiplyTo
  dsimp only
  split_ifs with h4 h6 h8 h12 h16
  · obtain ⟨-, rfl⟩ := h4
    exact hstore _ (schoolbookMultiply4_spec hla hlb)
  · obtain ⟨-, rfl⟩ := h6
    exact hstore _ (combaMul_spec hla hlb hL (by omega))
  · subst h8
    exact hstore _ (combaMul_spec hla hlb hL (by omega))
  · obtain ⟨-, -, rfl⟩ := h12
    exact hstore _ (combaMul_spec hla hlb hL (by omega))
  · obtain ⟨-, -, rfl⟩ := h16
    exact hstore _ (combaMul_spec hla hlb hL (by omega))
  · exact multiplyByRows_spec hL ha hb

/-- The part of a register's low legs. -/
theorem number_modEq (mem : Mem build) (p : Nat) {m n : Nat} (h : m ≤ n) :
    number mem p n ≡ number mem p m [MOD (2 ^ build.legBits) ^ m] := by
  obtain ⟨k, rfl⟩ : ∃ k, n = m + k := ⟨n - m, by omega⟩
  rw [number_add]
  exact Nat.add_modulus_mul_modEq_iff.mpr rfl

/-- What a row carries is dropped. -/
theorem Row.modEq {r : Leg build × Mem build} {legs n : Nat} (h : Row mem r out legs n) :
    number r.2 out legs ≡ n [MOD (2 ^ build.legBits) ^ legs] := by
  rw [← h.value]
  exact (Nat.add_modulus_mul_modEq_iff.mpr rfl).symm

/-- A row, and the ones after it from the next leg on. -/
theorem low_step {mem' : Mem build} {legs x y a b : Nat} (hsame : SameOff (out + 1) legs mem mem')
    (hrow : number mem out (legs + 1) ≡ a * x + y [MOD (2 ^ build.legBits) ^ (legs + 1)])
    (hrest : number mem' (out + 1) legs ≡ number mem (out + 1) legs + a * b
      [MOD (2 ^ build.legBits) ^ legs]) :
    number mem' out (legs + 1) ≡ y + a * (x + 2 ^ build.legBits * b)
      [MOD (2 ^ build.legBits) ^ (legs + 1)] := by
  have hmul := (hrest.mul_left' (2 ^ build.legBits)).add_left (mem out).toNat
  rw [← pow_succ', ← number_first hsame] at hmul
  refine hmul.trans ?_
  have hsplit : (mem out).toNat + 2 ^ build.legBits * (number mem (out + 1) legs + a * b) =
      number mem out (legs + 1) + a * (2 ^ build.legBits * b) := by
    rw [number_succ mem out legs]
    ring
  have hgoal : y + a * (x + 2 ^ build.legBits * b) = a * x + y + a * (2 ^ build.legBits * b) := by
    ring
  rw [hsplit, hgoal]
  exact hrow.add_right _

theorem lowRowsTo_spec {legs n : Nat} (hn : legs ≤ n) (ha : in_a + n ≤ out ∨ out + legs ≤ in_a)
    (hb : in_b + legs ≤ out ∨ out + legs ≤ in_b) :
    SameOff out legs mem (lowRowsTo in_a legs in_b out mem) ∧
      number (lowRowsTo in_a legs in_b out mem) out legs ≡
        number mem out legs + number mem in_a n * number mem in_b legs
          [MOD (2 ^ build.legBits) ^ legs] := by
  induction legs generalizing in_b out mem with
  | zero => exact ⟨SameOff.refl _ _ _, by rw [pow_zero]; exact Nat.modEq_one⟩
  | succ legs ih =>
    have hrow := multiplyXAddTo_spec mem (Nat.succ_pos legs) (mem in_b)
      (show in_a + (legs + 1) ≤ out ∨ out + (legs + 1) ≤ in_a by omega)
    have hsame := hrow.same
    unfold lowRowsTo
    set r := multiplyXAddTo (legs + 1) in_a (mem in_b) out out mem with hr
    obtain ⟨hsame', hval⟩ := @ih r.2 (in_b + 1) (out + 1) (by omega) (by omega) (by omega)
    refine ⟨hsame.trans (hsame'.mono (by omega) (by omega)), ?_⟩
    rw [number_of_sameOff hsame (show in_a + n ≤ out ∨ out + (legs + 1) ≤ in_a by omega),
      number_of_sameOff hsame (show in_b + 1 + legs ≤ out ∨ out + (legs + 1) ≤ in_b + 1 by omega)]
      at hval
    rw [number_succ mem in_b legs]
    exact low_step hsame'
      (hrow.modEq.trans (((number_modEq mem in_a hn).symm.mul_right _).add_right _)) hval

theorem multiplyLow_spec (hL : 0 < L) (ha : in_a + L ≤ out ∨ out + L ≤ in_a)
    (hb : in_b + L ≤ out ∨ out + L ≤ in_b) :
    SameOff out L mem (multiplyLow L in_a in_b out mem) ∧
      number (multiplyLow L in_a in_b out mem) out L =
        number mem in_a L * number mem in_b L % (2 ^ build.legBits) ^ L := by
  have hrow := multiplyXTo_spec mem hL (mem in_b) ha
  have hsame := hrow.same
  unfold multiplyLow
  set r := multiplyXTo L in_a (mem in_b) out mem with hr
  obtain ⟨n, rfl⟩ : ∃ n, L = n + 1 := ⟨L - 1, by omega⟩
  rw [Nat.add_sub_cancel]
  obtain ⟨hsame', hval⟩ := @lowRowsTo_spec build r.2 in_a (in_b + 1) (out + 1) n (n + 1) (by omega)
    (by omega) (by omega)
  refine ⟨hsame.trans (hsame'.mono (by omega) (by omega)), ?_⟩
  rw [number_of_sameOff hsame ha,
    number_of_sameOff hsame (show in_b + 1 + n ≤ out ∨ out + (n + 1) ≤ in_b + 1 by omega)] at hval
  have hmod := low_step (y := 0) hsame' hrow.modEq hval
  rw [Nat.zero_add, ← number_succ] at hmod
  rw [← Nat.mod_eq_of_lt (number_lt _ out (n + 1))]
  exact hmod

end Rows

/-! ## Squares by rows -/

section Squares

variable {mem : Mem build} {n L input output cross : Nat}

theorem squareLegs_spec (mem : Mem build) (hd : input + n ≤ output ∨ output + n * 2 ≤ input) :
    SameOff output (n * 2) mem (squareLegs input output n mem) ∧
      window (squareLegs input output n mem) output (n * 2) =
        (window mem input n).flatMap fun x => [(legMul x x).2, (legMul x x).1] := by
  induction n with
  | zero => exact ⟨SameOff.refl _ _ _, rfl⟩
  | succ n ih =>
    obtain ⟨hsame, hwin⟩ := ih (by omega)
    unfold squareLegs
    dsimp only
    set mem1 := squareLegs input output n mem with hmem1
    set p := legMul (mem1 (input + n)) (mem1 (input + n)) with hp
    have h1 : SameOff (output + n * 2) 2 mem1 (Function.update mem1 (output + n * 2) p.2) :=
      SameOff.update mem1 le_rfl (by omega) _
    have h2 : SameOff (output + n * 2) 2 mem1 (Function.update (Function.update mem1
        (output + n * 2) p.2) (output + (n * 2 + 1)) p.1) :=
      h1.trans (SameOff.update _ (by omega) (by omega) _)
    refine ⟨(hsame.mono le_rfl (by omega)).trans (h2.mono (by omega) (by omega)), ?_⟩
    have hinput : mem1 (input + n) = mem (input + n) := hsame _ (by omega)
    rw [show (n + 1) * 2 = n * 2 + 2 by omega, window_add, h2.window (.inl le_rfl), hwin,
      window_concat mem input n, List.flatMap_append, List.flatMap_singleton, ← hinput, window_succ, window_one]
    congr 2
    · rw [Function.update_of_ne (by omega), Function.update_self]
    · rw [Nat.add_assoc, Function.update_self]

/-- A row of cross products and the rows after it, two legs further. -/
theorem number_second {mem' : Mem build} {p n m : Nat} (h : SameOff (p + 2) m mem mem') :
    number mem' p (2 + n) = number mem p 2 + (2 ^ build.legBits) ^ 2 * number mem' (p + 2) n := by
  rw [number_add, number_of_sameOff h (.inl le_rfl)]

theorem crossRowsTo_spec (mem : Mem build) (hd : input + (n + 1) ≤ cross ∨ cross + n * 2 ≤ input) :
    SameOff cross (n * 2) mem (crossRowsTo n input cross mem) ∧
      (number (crossRowsTo n input cross mem) cross (n * 2) : ℤ) =
        number mem cross n + crossValue (window mem input (n + 1)) := by
  induction n generalizing input cross mem with
  | zero =>
    refine ⟨SameOff.refl _ _ _, ?_⟩
    rw [window_one]
    simp [crossValue, number_zero]
  | succ n ih =>
    obtain ⟨hsame, hrow⟩ := (multiplyXAddTo_spec mem (Nat.succ_pos n) (mem input)
      (show input + 1 + (n + 1) ≤ cross ∨ cross + (n + 1) ≤ input + 1 by omega)).carried
    unfold crossRowsTo
    dsimp only
    set mem1 := Function.update (multiplyXAddTo (n + 1) (input + 1) (mem input) cross cross mem).2
      (cross + (n + 1)) (multiplyXAddTo (n + 1) (input + 1) (mem input) cross cross mem).1 with hmem1
    obtain ⟨hsame', hval⟩ := @ih (input + 1) (cross + 2) mem1 (by omega)
    refine ⟨(hsame.mono le_rfl (by omega)).trans (hsame'.mono (by omega) (by omega)), ?_⟩
    rw [hsame.window (show input + 1 + (n + 1) ≤ cross ∨ cross + (n + 1 + 1) ≤ input + 1 by omega)]
      at hval
    rw [show (n + 1) * 2 = 2 + n * 2 by omega, number_second hsame', window_succ, crossValue]
    rw [show n + 1 + 1 = 2 + n by omega, number_add] at hrow
    have hrow : (number mem1 cross 2 : ℤ) + (2 ^ build.legBits) ^ 2 * number mem1 (cross + 2) n =
        number mem (input + 1) (n + 1) * (mem input).toNat + number mem cross (n + 1) := by
      exact_mod_cast hrow
    push_cast
    rw [hval]
    unfold number at hrow ⊢
    linear_combination hrow

/-- The last leg takes the carry without overflow when the sum fits. -/
theorem number_last {mem' : Mem build} {m T : Nat} {hi : Leg build}
    (hsame : SameOff (output + 1) m mem mem')
    (hT : (mem output).toNat + 2 ^ build.legBits * (number mem' (output + 1) m +
      (2 ^ build.legBits) ^ m * (hi.toNat + (mem (output + (m + 1))).toNat)) = T)
    (hfit : T < (2 ^ build.legBits) ^ (m + 2)) :
    number (Function.update mem' (output + (m + 1)) (mem' (output + (m + 1)) + hi)) output (m + 2) =
      T := by
  have hlast : mem' (output + (m + 1)) = mem (output + (m + 1)) := hsame _ (.inr (by omega))
  have hadd : (mem (output + (m + 1)) + hi).toNat = hi.toNat + (mem (output + (m + 1))).toNat := by
    rw [BitVec.toNat_add, Nat.add_comm]
    refine Nat.mod_eq_of_lt (Nat.lt_of_not_le fun hle => ?_)
    have hmul := Nat.mul_le_mul_left ((2 ^ build.legBits) ^ m) hle
    have hmul' := Nat.mul_le_mul_left (2 ^ build.legBits) hmul
    have hpow : 2 ^ build.legBits * ((2 ^ build.legBits) ^ m * 2 ^ build.legBits) =
        (2 ^ build.legBits) ^ (m + 2) := by ring
    rw [hpow] at hmul'
    rw [Nat.mul_add] at hT
    omega
  have hoff : SameOff (output + (m + 1)) 1 mem'
      (Function.update mem' (output + (m + 1)) (mem' (output + (m + 1)) + hi)) :=
    SameOff.update mem' le_rfl (by omega) _
  have hlow : number mem' output (m + 1) =
      (mem output).toNat + 2 ^ build.legBits * number mem' (output + 1) m := by
    rw [number_succ, hsame output (.inl (by omega))]
  rw [number_concat, number_of_sameOff hoff (.inl le_rfl), Function.update_self, hlast, hadd, hlow, ← hT]
  ring

theorem squareByRows_spec (hL : 2 ≤ L) (hi : input + L ≤ output ∨ output + L * 2 ≤ input)
    (hc : cross + L * 2 ≤ input ∨ input + L ≤ cross)
    (ho : cross + L * 2 ≤ output ∨ output + L * 2 ≤ cross) :
    number (squareByRows L cross input output mem) output (L * 2) =
      number mem input L * number mem input L := by
  obtain ⟨n, rfl⟩ : ∃ n, L = n + 2 := ⟨L - 2, by omega⟩
  obtain ⟨hsame1, hsquares⟩ := squareLegs_spec mem hi
  unfold squareByRows
  rw [show n + 2 - 1 = n + 1 by omega, show n + 2 - 2 = n by omega,
    show (n + 2) * 2 - 2 = n * 2 + 2 by omega, show (n + 2) * 2 - 1 = n * 2 + 2 + 1 by omega]
  dsimp only
  set mem1 := squareLegs input output (n + 2) mem with hmem1
  obtain ⟨hsame2, hrow⟩ := (multiplyXTo_spec mem1 (Nat.succ_pos n) (mem1 input)
    (show input + 1 + (n + 1) ≤ cross + 1 ∨ cross + 1 + (n + 1) ≤ input + 1 by omega)).carried
  rw [show cross + 1 + (n + 1) = cross + (n + 2) by omega] at hsame2 hrow
  set mem2 := Function.update (multiplyXTo (n + 1) (input + 1) (mem1 input) (cross + 1) mem1).2
    (cross + (n + 2)) (multiplyXTo (n + 1) (input + 1) (mem1 input) (cross + 1) mem1).1 with hmem2
  obtain ⟨hsame3, hcross⟩ := @crossRowsTo_spec build n (input + 1) (cross + 1 + 2) mem2 (by omega)
  set mem3 := crossRowsTo n (input + 1) (cross + 1 + 2) mem2 with hmem3
  have hinput : window mem1 input (n + 2) = window mem input (n + 2) := hsame1.window (by omega)
  have htail : window mem2 (input + 1) (n + 1) = window mem1 (input + 1) (n + 1) :=
    hsame2.window (by omega)
  have hcrosses : (number mem3 (cross + 1) (n * 2 + 2) : ℤ) =
      crossValue (window mem input (n + 2)) := by
    rw [Nat.add_comm (n * 2), number_second hsame3, ← hinput, window_succ, crossValue]
    rw [show n + 1 + 1 = 2 + n by omega, number_add] at hrow
    have hrow : (number mem2 (cross + 1) 2 : ℤ) +
        (2 ^ build.legBits) ^ 2 * number mem2 (cross + 1 + 2) n =
          number mem1 (input + 1) (n + 1) * (mem1 input).toNat := by
      exact_mod_cast hrow
    push_cast
    rw [hcross, htail]
    unfold number at hrow ⊢
    linear_combination hrow
  have hsquare : (number mem3 output ((n + 2) * 2) : ℤ) = squareValue (window mem input (n + 2)) := by
    rw [number_of_sameOff hsame3 (by omega), number_of_sameOff hsame2 (by omega), number, hsquares,
      value_squares]
  have hsum := @doubleAddTo_spec build (n * 2 + 2) (cross + 1) (output + 1) mem3 (by omega) (by omega)
  have hexact : (number mem input (n + 2) : ℤ) * number mem input (n + 2) =
      number mem3 output ((n + 2) * 2) +
        2 * 2 ^ build.legBits * number mem3 (cross + 1) (n * 2 + 2) := by
    rw [hcrosses, hsquare]
    exact value_mul_self _
  have hfit : number mem input (n + 2) * number mem input (n + 2) <
      (2 ^ build.legBits) ^ (n * 2 + 2 + 2) := by
    rw [show n * 2 + 2 + 2 = n + 2 + (n + 2) by omega, pow_add]
    exact Nat.mul_lt_mul'' (number_lt _ _ _) (number_lt _ _ _)
  rw [show (n + 2) * 2 = n * 2 + 2 + 2 by omega]
  refine number_last hsum.same ?_ hfit
  have hvalue := hsum.value
  have hsplit : number mem3 output ((n + 2) * 2) = (mem3 output).toNat + 2 ^ build.legBits *
      (number mem3 (output + 1) (n * 2 + 2) +
        (2 ^ build.legBits) ^ (n * 2 + 2) * (mem3 (output + (n * 2 + 2 + 1))).toNat) := by
    rw [show (n + 2) * 2 = n * 2 + 2 + 1 + 1 by omega, number_succ, number_concat,
      show output + 1 + (n * 2 + 2) = output + (n * 2 + 2 + 1) by omega]
  have hexact' : number mem input (n + 2) * number mem input (n + 2) =
      number mem3 output ((n + 2) * 2) +
        2 * 2 ^ build.legBits * number mem3 (cross + 1) (n * 2 + 2) := by
    exact_mod_cast hexact
  rw [hexact', hsplit]
  linear_combination 2 ^ build.legBits * hvalue

theorem squareTo_spec (hL : 2 ≤ L) (hi : input + L ≤ output ∨ output + L * 2 ≤ input)
    (hc : cross + L * 2 ≤ input ∨ input + L ≤ cross)
    (ho : cross + L * 2 ≤ output ∨ output + L * 2 ≤ cross) :
    number (squareTo L cross input output mem) output (L * 2) =
      number mem input L * number mem input L := by
  unfold squareTo
  split_ifs with h8
  · obtain ⟨-, rfl⟩ := h8
    obtain ⟨hlen, hval⟩ := square8_spec (length_window mem input 8)
    refine (number_store hlen output mem).2.trans ?_
    exact_mod_cast hval
  · exact squareByRows_spec hL hi hc ho

/-- What `Square` of one leg reads as `input[1]`. -/
def nextLeg (input output : Nat) (mem : Mem build) : Leg build :=
  if input + 1 = output then (legMul (mem input) (mem input)).2 else mem (input + 1)

/-- Twice `hi` is added to a leg, with the carry to the same leg. -/
theorem sum_with_carry {R hi h0 t c : Nat} (hR : Even R) (hhi : hi + 1 < R) (ht : t < R) (hh0 : h0 < R)
    (hsum : t + R * c = 2 * hi + h0) : (t + c) % R = h0 ↔ hi = 0 := by
  obtain ⟨k, rfl⟩ := hR
  have hc : c < 3 := by
    by_contra hge
    have := Nat.mul_le_mul_left (k + k) (Nat.le_of_not_lt hge)
    omega
  have hmod : (t + c) % (k + k) = t + c ∨ (t + c) % (k + k) + (k + k) = t + c := by
    rcases Nat.lt_or_ge (t + c) (k + k) with hlt | hge
    · exact .inl (Nat.mod_eq_of_lt hlt)
    · right
      rw [Nat.mod_eq_sub_mod hge, Nat.mod_eq_of_lt (by omega)]
      omega
  interval_cases c <;> omega

/-- The empty row of cross products has a leg all the same: the product with the leg after the
register. -/
theorem squareByRows_one (hi : input + 1 ≤ output ∨ output + 2 ≤ input)
    (hc : cross + 2 ≤ input ∨ input + 1 ≤ cross) (ho : cross + 2 ≤ output ∨ output + 2 ≤ cross) :
    number (squareByRows 1 cross input output mem) output 2 = number mem input 1 * number mem input 1 ↔
      (mem input).toNat * (nextLeg input output mem).toNat < 2 ^ build.legBits := by
  obtain ⟨hsame1, hsquares⟩ := squareLegs_spec mem (n := 1) hi
  set mem1 := squareLegs input output 1 mem with hmem1
  have hx : mem1 input = mem input := hsame1 input (by omega)
  have hnext : mem1 (input + 1) = nextLeg input output mem := by
    have hne : input + 1 ≠ output + 1 := by omega
    unfold nextLeg
    rw [hmem1]
    simp only [squareLegs, Nat.zero_mul, Nat.add_zero, Nat.zero_add, Function.update_of_ne hne]
    split_ifs with heq
    · rw [heq, Function.update_self]
    · rw [Function.update_of_ne heq]
  set p := legMul (mem1 (input + 1)) (mem1 input) with hp
  have hmul : p.2.toNat + 2 ^ build.legBits * p.1.toNat =
      (mem input).toNat * (nextLeg input output mem).toNat := by
    rw [hp, hx, hnext, legMul_toNat, Nat.mul_comm]
  set mem2 := Function.update (Function.update mem1 (cross + 1) p.2) (cross + 1) p.1 with hmem2
  have hoff : SameOff (cross + 1) 1 mem1 mem2 :=
    (SameOff.update mem1 le_rfl (by omega) _).trans (SameOff.update _ le_rfl (by omega) _)
  have hsquare : number mem2 output 2 = number mem input 1 * number mem input 1 := by
    rw [number_of_sameOff hoff (by omega)]
    have hsq := value_mul_self (window mem input 1)
    rw [← value_squares, ← hsquares, window_one] at hsq
    simp only [crossValue, value_cons, value_nil, Nat.cast_zero, mul_zero, add_zero] at hsq
    rw [number_one]
    exact_mod_cast hsq.symm
  have hsum := @doubleAddTo_spec build 1 (cross + 1) (output + 1) mem2 (by omega) (by omega)
  set r := doubleAddTo 1 (cross + 1) (output + 1) (output + 1) mem2 with hr
  have hrun : squareByRows 1 cross input output mem =
    Function.update r.2 (output + 1) (r.2 (output + 1) + r.1) := rfl
  have hcarry := hsum.value
  rw [number_one, number_one, number_one, pow_one, hmem2, Function.update_self, ← hmem2] at hcarry
  have hfirst : r.2 output = mem2 output := hsum.same output (.inl (by omega))
  have hB := two_le_pow_legBits build
  have hhi : p.1.toNat + 1 < 2 ^ build.legBits := by
    have h1 := (mem input).isLt
    have h2 := (nextLeg input output mem).isLt
    obtain ⟨k, hk⟩ : ∃ k, 2 ^ build.legBits = k + 1 := ⟨2 ^ build.legBits - 1, by omega⟩
    have hle := Nat.mul_le_mul (show (mem input).toNat ≤ k by omega)
      (show (nextLeg input output mem).toNat ≤ k by omega)
    rw [← hmul, hk] at hle
    rw [hk]
    by_contra hge
    have := Nat.mul_le_mul_left (k + 1) (show k ≤ p.1.toNat by omega)
    rw [Nat.add_one_mul] at this
    omega
  have hiff := sum_with_carry (R := 2 ^ build.legBits) ⟨2 ^ (build.legBits - 1), by
    rw [pow_legBits build, Nat.two_mul]⟩ hhi (r.2 (output + 1)).isLt (mem2 (output + 1)).isLt hcarry
  have hzero : p.1.toNat = 0 ↔
      (mem input).toNat * (nextLeg input output mem).toNat < 2 ^ build.legBits := by
    rw [← hmul]
    have := p.2.isLt
    constructor
    · intro h0
      rw [h0]
      omega
    · intro hlt
      by_contra hne
      have := Nat.le_mul_of_pos_right (2 ^ build.legBits) (Nat.pos_of_ne_zero hne)
      omega
  rw [hrun, ← hsquare, ← hzero, ← hiff, number_concat, number_concat mem2, number_one, number_one,
    Function.update_self, Function.update_of_ne (by omega), hfirst, BitVec.toNat_add, pow_one]
  constructor
  · intro h
    exact Nat.eq_of_mul_eq_mul_left (by omega) (Nat.add_left_cancel h)
  · intro h
    rw [h]

end Squares

/-! ## The paths -/

section Paths

variable {mem : Mem build} {L a b out cross : Nat}

/-- Every path gives the product of two registers, or its low half, and every square is the product of
a register with itself. -/
structure PathsAgree (mem : Mem build) (L a b out cross : Nat) : Prop where
  multiply : number (multiplyTo L a b out mem) out (L * 2) = number mem a L * number mem b L
  rows : number (multiplyByRows L a b out mem) out (L * 2) = number mem a L * number mem b L
  schoolbook : L = 4 → value (schoolbookMultiply4 (window mem a L) (window mem b L)) =
    number mem a L * number mem b L
  comba : L ∈ [6, 8, 12, 16] → value (combaMul L (window mem a L) (window mem b L)) =
    number mem a L * number mem b L
  low : number (multiplyLow L a b out mem) out L =
    number mem a L * number mem b L % (2 ^ build.legBits) ^ L
  square4 : L = 4 → value (square4 (window mem a L)) = number (multiplyTo L a a out mem) out (L * 2)
  square8 : L = 8 → value (square8 (window mem a L)) = number (multiplyTo L a a out mem) out (L * 2)
  squareRows : number (squareByRows L cross a out mem) out (L * 2) =
    number (multiplyTo L a a out mem) out (L * 2)
  square : number (squareTo L cross a out mem) out (L * 2) =
    number (multiplyTo L a a out mem) out (L * 2)

/-- **Products and squares.** All paths agree, but for the square of one leg: there the leg after the
register must not make a product of two legs. -/
theorem paths_agree (mem : Mem build) (hL : 0 < L) (ha : a + L ≤ out ∨ out + L * 2 ≤ a)
    (hb : b + L ≤ out ∨ out + L * 2 ≤ b) (hc : cross + L * 2 ≤ a ∨ a + L ≤ cross)
    (ho : cross + L * 2 ≤ out ∨ out + L * 2 ≤ cross) :
    PathsAgree mem L a b out cross ↔
      2 ≤ L ∨ (mem a).toNat * (nextLeg a out mem).toNat < 2 ^ build.legBits := by
  have hla := length_window mem a L
  have hlb := length_window mem b L
  have hself := (multiplyTo_spec mem hL ha ha).2
  have hsquares : number (squareByRows L cross a out mem) out (L * 2) =
      number mem a L * number mem a L ↔
        2 ≤ L ∨ (mem a).toNat * (nextLeg a out mem).toNat < 2 ^ build.legBits := by
    rcases Nat.lt_or_ge L 2 with hlt | hge
    · obtain rfl : L = 1 := by omega
      rw [squareByRows_one ha hc ho]
      exact ⟨.inr, fun h => h.resolve_left (by decide)⟩
    · exact iff_of_true (squareByRows_spec hge ha hc ho) (.inl hge)
  have hsquare : number (squareTo L cross a out mem) out (L * 2) = number mem a L * number mem a L ↔
      number (squareByRows L cross a out mem) out (L * 2) = number mem a L * number mem a L := by
    rcases Nat.lt_or_ge L 2 with hlt | hge
    · rw [squareTo, if_neg (by omega)]
    · exact iff_of_true (squareTo_spec hge ha hc ho) (squareByRows_spec hge ha hc ho)
  constructor
  · intro h
    exact hsquares.mp (h.squareRows.trans hself)
  · intro h
    have hrows := hsquares.mpr h
    refine ⟨(multiplyTo_spec mem hL ha hb).2, (multiplyByRows_spec hL ha hb).2, fun h4 => ?_, fun hmem => ?_,
      (multiplyLow_spec hL (by omega) (by omega)).2, fun h4 => ?_, fun h8 => ?_, hrows.trans hself.symm,
      (hsquare.mpr hrows).trans hself.symm⟩
    · subst h4
      exact_mod_cast (schoolbookMultiply4_spec hla hlb).2
    · have hlt : L < 2 ^ 32 := by
        simp only [List.mem_cons, List.not_mem_nil, or_false] at hmem
        omega
      exact_mod_cast (combaMul_spec hla hlb hL hlt).2
    · subst h4
      rw [hself]
      exact_mod_cast (square4_spec hla).2
    · subst h8
      rw [hself]
      exact_mod_cast (square8_spec hla).2

/-- Two legs of ones. -/
theorem paths_agree_example :
    PathsAgree (fun _ => -1 : Mem ⟨false, true, false⟩) 2 0 2 4 8 :=
  (paths_agree _ (by decide) (by decide) (by decide) (by decide) (by decide)).mpr (.inl le_rfl)

/-- One leg of ones before a register of ones: `Square` multiplies the two. -/
theorem one_leg_square :
    ¬ PathsAgree (fun _ => -1 : Mem ⟨false, true, false⟩) 1 0 1 2 6 := by
  intro h
  have hsquare := h.squareRows.trans (multiplyTo_spec _ (by decide) (by decide) (by decide)).2
  exact absurd ((squareByRows_one (by decide) (by decide) (by decide)).mp hsquare) (by decide)

end Paths

end Libcat.Math.Products
