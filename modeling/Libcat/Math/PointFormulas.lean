import Libcat.Lib.EdwardsCurve

/-!
# Point formulas

The addition, subtraction, doubling and precomputation formulas of `BigTwistedEdwards`, over any
arithmetic. The scratch registers `A` to `H` are local names that are bound anew as the registers are
written anew; points are in memory, and `out` may be one of the inputs. The versions that leave out the
`T` coordinate are the same code without its product.
-/

namespace Libcat.Math.PointFormulas

open Edwards

/-- The arithmetic that the formulas are built of; single legs are of the type `X`. -/
structure Arith (R X : Type) where
  add : R → R → Option R
  sub : R → R → Option R
  mul : R → R → Option R
  mulX : R → X → Option R
  subX : R → X → Option R
  double : R → Option R
  square : R → Option R
  negate : R → Option R

/-- Exact operations of a field. -/
def exact (K : Type) [Field K] : Arith K K where
  add a b := some (a + b)
  sub a b := some (a - b)
  mul a b := some (a * b)
  mulX a b := some (a * b)
  subX a b := some (a - b)
  double a := some (2 * a)
  square a := some (a * a)
  negate a := some (-a)

section Model

variable {P R X : Type} [DecidableEq P]

def setX (mem : P → Extended R) (p : P) (v : R) : P → Extended R :=
  Function.update mem p { mem p with X := v }

def setY (mem : P → Extended R) (p : P) (v : R) : P → Extended R :=
  Function.update mem p { mem p with Y := v }

def setT (mem : P → Extended R) (p : P) (v : R) : P → Extended R :=
  Function.update mem p { mem p with T := v }

def setZ (mem : P → Extended R) (p : P) (v : R) : P → Extended R :=
  Function.update mem p { mem p with Z := v }

variable (ar : Arith R X)

/-- `#if defined(EXTENDED_T)`: the product to the `T` coordinate. -/
def mulT (extended : Bool) (mem : P → Extended R) (out : P) (E H : R) : Option (P → Extended R) :=
  if extended then (ar.mul E H).map (setT mem out) else some mem

/-- `PtNegate`. -/
def ptNegate (mem : P → Extended R) (inp out : P) : Option (P → Extended R) := do
  let mem := setX mem out (← ar.negate (mem inp).X)
  let mem := setY mem out (mem inp).Y
  let mem := setT mem out (← ar.negate (mem inp).T)
  return setZ mem out (mem inp).Z

/-- `PtEAdd`, and `PtAdd` without the `T` coordinate. -/
def ptAddFn (extended : Bool) [Mul X] [OfNat X 2] (curveD : X) (mem : P → Extended R)
    (inA inB out : P) : Option (P → Extended R) := do
  let C ← ar.sub (mem inA).Y (mem inA).X
  let D ← ar.sub (mem inB).Y (mem inB).X
  let G ← ar.add (mem inA).Y (mem inA).X
  let H ← ar.add (mem inB).Y (mem inB).X
  let A ← ar.mul C D
  let C ← ar.mul (mem inA).T (mem inB).T
  let B ← ar.mul G H
  let C ← ar.mulX C (curveD * 2)
  let D ← ar.mul (mem inA).Z (mem inB).Z
  let E ← ar.sub B A
  let D ← ar.double D
  let H ← ar.add B A
  let F ← ar.sub D C
  let G ← ar.add D C
  let mem := setX mem out (← ar.mul E F)
  let mem := setY mem out (← ar.mul G H)
  let mem ← mulT ar extended mem out E H
  return setZ mem out (← ar.mul F G)

/-- `PtESubtract`, and `PtSubtract` without the `T` coordinate. -/
def ptSubtractFn (extended : Bool) [Mul X] [OfNat X 2] (curveD : X) (mem : P → Extended R)
    (inA inB out : P) : Option (P → Extended R) := do
  let C ← ar.sub (mem inA).Y (mem inA).X
  let D ← ar.add (mem inB).Y (mem inB).X
  let A ← ar.mul C D
  let C ← ar.add (mem inA).Y (mem inA).X
  let D ← ar.sub (mem inB).Y (mem inB).X
  let B ← ar.mul C D
  let C ← ar.mul (mem inA).T (mem inB).T
  let C ← ar.mulX C (curveD * 2)
  let D ← ar.mul (mem inA).Z (mem inB).Z
  let D ← ar.double D
  let E ← ar.sub B A
  let F ← ar.add D C
  let G ← ar.sub D C
  let H ← ar.add B A
  let mem := setX mem out (← ar.mul E F)
  let mem := setY mem out (← ar.mul G H)
  let mem ← mulT ar extended mem out E H
  return setZ mem out (← ar.mul F G)

/-- `PtEDouble`, and `PtDouble` without the `T` coordinate. -/
def ptDoubleFn (extended : Bool) (mem : P → Extended R) (inp out : P) :
    Option (P → Extended R) := do
  let E ← ar.add (mem inp).X (mem inp).Y
  let A ← ar.square (mem inp).X
  let B ← ar.square (mem inp).Y
  let C ← ar.square (mem inp).Z
  let E ← ar.square E
  let A ← ar.negate A
  let C ← ar.double C
  let H ← ar.sub A B
  let G ← ar.add A B
  let E ← ar.add E H
  let F ← ar.sub G C
  let mem := setY mem out (← ar.mul G H)
  let mem ← mulT ar extended mem out E H
  let mem := setX mem out (← ar.mul E F)
  return setZ mem out (← ar.mul F G)

/-- `PtEDoubleZ1`, and `PtDoubleZ1` without the `T` coordinate. -/
def ptDoubleZ1Fn (extended : Bool) [OfNat X 2] (mem : P → Extended R) (inp out : P) :
    Option (P → Extended R) := do
  let A ← ar.square (mem inp).X
  let B ← ar.square (mem inp).Y
  let A ← ar.negate A
  let G ← ar.add A B
  let F ← ar.subX G 2
  let H ← ar.sub A B
  let E ← ar.add (mem inp).X (mem inp).Y
  let E ← ar.square E
  let E ← ar.add E H
  let mem := setX mem out (← ar.mul E F)
  let mem := setY mem out (← ar.mul G H)
  let mem ← mulT ar extended mem out E H
  return setZ mem out (← ar.mul F G)

/-- `PtPrecompAddSub`; the negatives are `neg_offset` behind. -/
def ptPrecompAddSub [Mul X] [OfNat X 2] (curveD : X) (mem : P → Extended R)
    (inA inB sum sumNeg diff diffNeg : P) : Option (P → Extended R) := do
  let C ← ar.sub (mem inA).Y (mem inA).X
  let D ← ar.sub (mem inB).Y (mem inB).X
  let F ← ar.mul C D
  let E ← ar.add (mem inA).Y (mem inA).X
  let H ← ar.add (mem inB).Y (mem inB).X
  let G ← ar.mul E H
  let A ← ar.mul C H
  let B ← ar.mul E D
  let C ← ar.mul (mem inA).T (mem inB).T
  let C ← ar.mulX C (curveD * 2)
  let D ← ar.mul (mem inA).Z (mem inB).Z
  let D ← ar.double D
  let E ← ar.sub G F
  let H ← ar.add G F
  let F ← ar.sub D C
  let G ← ar.add D C
  let mem := setX mem sum (← ar.mul E F)
  let mem := setY mem sum (← ar.mul G H)
  let mem := setT mem sum (← ar.mul E H)
  let mem := setZ mem sum (← ar.mul F G)
  let mem ← ptNegate ar mem sum sumNeg
  let E ← ar.sub B A
  let H ← ar.add B A
  let mem := setX mem diff (← ar.mul E G)
  let mem := setY mem diff (← ar.mul F H)
  let mem := setT mem diff (← ar.mul E H)
  let mem := setZ mem diff (← ar.mul G F)
  ptNegate ar mem diff diffNeg

variable {ar}

theorem ptNegate_of_total {f : R → R} (hf : ∀ x, ar.negate x = some (f x)) (mem : P → Extended R)
    (inp out : P) : ptNegate ar mem inp out =
      some (Function.update mem out
        ⟨f (mem inp).X, (mem inp).Y, f (mem inp).T, (mem inp).Z⟩) := by
  by_cases h : inp = out
  · subst h
    simp [ptNegate, hf, setX, setY, setT, setZ]
  · simp [ptNegate, hf, setX, setY, setT, setZ, h]

end Model

/-! ## Exact arithmetic -/

section Exact

variable {P K : Type} [DecidableEq P] [Field K]

section

variable (a b : K)

@[simp] theorem exact_add : (exact K).add a b = some (a + b) := rfl
@[simp] theorem exact_sub : (exact K).sub a b = some (a - b) := rfl
@[simp] theorem exact_mul : (exact K).mul a b = some (a * b) := rfl
@[simp] theorem exact_mulX : (exact K).mulX a b = some (a * b) := rfl
@[simp] theorem exact_subX : (exact K).subX a b = some (a - b) := rfl
@[simp] theorem exact_double : (exact K).double a = some (2 * a) := rfl
@[simp] theorem exact_square : (exact K).square a = some (a * a) := rfl
@[simp] theorem exact_negate : (exact K).negate a = some (-a) := rfl

end

/-- The factors of the coordinates in `X3 = E * F, Y3 = G * H, T3 = E * H, Z3 = F * G`. -/
structure Factors (K : Type) where
  E : K
  F : K
  G : K
  H : K

def Factors.point (f : Factors K) : Extended K := ⟨f.E * f.F, f.G * f.H, f.E * f.H, f.F * f.G⟩

/-- All factors off by the same. -/
def Factors.shift (f : Factors K) (c : K) : Factors K := ⟨f.E + c, f.F + c, f.G + c, f.H + c⟩

/-- The factors of a sum. -/
def addFactors (d : K) (a b : Extended K) : Factors K where
  E := (a.Y + a.X) * (b.Y + b.X) - (a.Y - a.X) * (b.Y - b.X)
  F := 2 * (a.Z * b.Z) - a.T * b.T * (d * 2)
  G := 2 * (a.Z * b.Z) + a.T * b.T * (d * 2)
  H := (a.Y + a.X) * (b.Y + b.X) + (a.Y - a.X) * (b.Y - b.X)

/-- The factors of a double. -/
def doubleFactors (a : Extended K) : Factors K where
  E := (a.X + a.Y) * (a.X + a.Y) + (-(a.X * a.X) - a.Y * a.Y)
  F := -(a.X * a.X) + a.Y * a.Y - 2 * (a.Z * a.Z)
  G := -(a.X * a.X) + a.Y * a.Y
  H := -(a.X * a.X) - a.Y * a.Y

theorem addFactors_represents (h2 : (2 : K) ≠ 0) {d : K} {a b : Extended K} {P Q : K × K}
    (ha : a.Represents P) (hb : b.Represents Q) (hdef : Defined d P Q) :
    (addFactors d a b).point.Represents (add d P Q) := by
  have hk : 2 * (a.Z * b.Z) ≠ 0 := mul_ne_zero h2 (mul_ne_zero ha.ne_zero hb.ne_zero)
  refine Extended.Represents.of_ratios hk hk hdef.1 hdef.2 ?_ ?_ ?_ ?_
  · simp only [addFactors, ha.x_eq, ha.y_eq, hb.x_eq, hb.y_eq]
    ring
  · simp only [addFactors, ha.t_eq, hb.t_eq, denominator]
    ring
  · simp only [addFactors, ha.x_eq, ha.y_eq, hb.x_eq, hb.y_eq]
    ring
  · simp only [addFactors, ha.t_eq, hb.t_eq, denominator]
    ring

/-- A double needs the curve: its denominators are squares of coordinates. -/
theorem doubleFactors_represents {d : K} {a : Extended K} {P : K × K} (hcurve : OnCurve d P)
    (ha : a.Represents P) (hdef : Defined d P P) :
    (doubleFactors a).point.Represents (add d P P) := by
  have hk : a.Z * a.Z ≠ 0 := mul_ne_zero ha.ne_zero ha.ne_zero
  rw [OnCurve] at hcurve
  refine Extended.Represents.of_ratios hk (neg_ne_zero.mpr hk) hdef.1 hdef.2 ?_ ?_ ?_ ?_
  · simp only [doubleFactors, ha.x_eq, ha.y_eq]
    ring
  · simp only [doubleFactors, ha.x_eq, ha.y_eq, denominator]
    linear_combination a.Z * a.Z * hcurve
  · simp only [doubleFactors, ha.x_eq, ha.y_eq]
    ring
  · simp only [doubleFactors, ha.x_eq, ha.y_eq, denominator]
    linear_combination a.Z * a.Z * hcurve

/-! ### Runs -/

section Runs

variable (mem : P → Extended K)

/-- The memory after the products of a formula. -/
def store (extended : Bool) (out : P) (f : Factors K) : P → Extended K :=
  Function.update mem out { f.point with T := if extended then f.point.T else (mem out).T }

theorem ptNegate_exact (inp out : P) :
    ptNegate (exact K) mem inp out = some (Function.update mem out (mem inp).neg) :=
  ptNegate_of_total exact_negate mem inp out

theorem ptAddFn_exact (extended : Bool) (d : K) (inA inB out : P) :
    ptAddFn (exact K) extended d mem inA inB out =
      some (store mem extended out (addFactors d (mem inA) (mem inB))) := by
  cases extended <;>
    simp [ptAddFn, mulT, store, addFactors, Factors.point, setX, setY, setT, setZ]

theorem ptSubtractFn_exact (extended : Bool) (d : K) (inA inB out : P) :
    ptSubtractFn (exact K) extended d mem inA inB out =
      some (store mem extended out (addFactors d (mem inA) (mem inB).neg)) := by
  cases extended <;>
    simp [ptSubtractFn, mulT, store, addFactors, Extended.neg, Factors.point, setX, setY, setT, setZ,
      ← sub_eq_add_neg]

theorem ptDoubleFn_exact (extended : Bool) (inp out : P) :
    ptDoubleFn (exact K) extended mem inp out =
      some (store mem extended out (doubleFactors (mem inp))) := by
  cases extended <;>
    simp [ptDoubleFn, mulT, store, doubleFactors, Factors.point, setX, setY, setT, setZ]

theorem ptDoubleZ1Fn_exact (extended : Bool) (inp out : P) (hz : (mem inp).Z = 1) :
    ptDoubleZ1Fn (exact K) extended mem inp out =
      some (store mem extended out (doubleFactors (mem inp))) := by
  cases extended <;>
    simp [ptDoubleZ1Fn, mulT, store, doubleFactors, Factors.point, setX, setY, setT, setZ, hz]

theorem ptPrecompAddSub_exact (d : K) (inA inB sum sumNeg diff diffNeg : P) :
    let added := (addFactors d (mem inA) (mem inB)).point
    let subtracted := (addFactors d (mem inA) (mem inB).neg).point
    ptPrecompAddSub (exact K) d mem inA inB sum sumNeg diff diffNeg =
      some (Function.update (Function.update (Function.update (Function.update mem sum added)
        sumNeg added.neg) diff subtracted) diffNeg subtracted.neg) := by
  simp [ptPrecompAddSub, ptNegate_exact, addFactors, Extended.neg, Factors.point, setX, setY, setT, setZ,
    ← sub_eq_add_neg]

end Runs

/-! ### Points -/

section Points

/-- A formula leaves the point in `out` and nothing elsewhere, and its version without the `T`
coordinate the same other coordinates. -/
def Computes (mem : P → Extended K) (run : Bool → Option (P → Extended K)) (out : P) (R : K × K) :
    Prop :=
  ∃ full short, run true = some full ∧ run false = some short ∧ (full out).Represents R ∧
    ((short out).X = (full out).X ∧ (short out).Y = (full out).Y ∧ (short out).Z = (full out).Z) ∧
    ∀ p, p ≠ out → full p = mem p ∧ short p = mem p

theorem computes_of_store {mem : P → Extended K} {run : Bool → Option (P → Extended K)} {out : P}
    {f : Factors K} {R : K × K} (hrun : ∀ extended, run extended = some (store mem extended out f))
    (hf : f.point.Represents R) : Computes mem run out R := by
  refine ⟨_, _, hrun true, hrun false, ?_, ⟨?_, ?_, ?_⟩, fun p hp => ⟨?_, ?_⟩⟩
  · simpa [store] using hf
  · simp [store]
  · simp [store]
  · simp [store]
  · simp [store, hp]
  · simp [store, hp]

variable {d : K} {mem : P → Extended K} {A B : K × K}

theorem addFactors_neg_represents (h2 : (2 : K) ≠ 0) {a b : Extended K} (ha : a.Represents A)
    (hb : b.Represents B) (hdef : Defined d A B) :
    (addFactors d a b.neg).point.Represents (add d A (neg B)) :=
  addFactors_represents h2 ha hb.neg ((defined_neg d A B).mpr hdef)

/-- The table entries of `PtPrecompAddSub`, in whatever place of the inputs they are. -/
theorem ptPrecompAddSub_represents (h2 : (2 : K) ≠ 0) {inA inB sum sumNeg diff diffNeg : P}
    (hapart : [sum, sumNeg, diff, diffNeg].Nodup) (ha : (mem inA).Represents A)
    (hb : (mem inB).Represents B) (hdef : Defined d A B) :
    ∃ mem', ptPrecompAddSub (exact K) d mem inA inB sum sumNeg diff diffNeg = some mem' ∧
      (mem' sum).Represents (add d A B) ∧ (mem' sumNeg).Represents (neg (add d A B)) ∧
      (mem' diff).Represents (add d A (neg B)) ∧
      (mem' diffNeg).Represents (neg (add d A (neg B))) := by
  have hadd := addFactors_represents h2 ha hb hdef
  have hsub := addFactors_neg_represents h2 ha hb hdef
  simp only [List.nodup_cons, List.mem_cons, not_or] at hapart
  obtain ⟨⟨h1, h3, h4, -⟩, ⟨h5, h6, -⟩, ⟨h7, -⟩, -⟩ := hapart
  refine ⟨_, ptPrecompAddSub_exact mem d inA inB sum sumNeg diff diffNeg, ?_, ?_, ?_, ?_⟩
  · simpa [h1, h3, h4] using hadd
  · simpa [h5, h6] using hadd.neg
  · simpa [h7] using hsub
  · simpa using hsub.neg

/-- **Point formulas** of a field in which two is not zero: sum, difference and double of the affine
law, also where `out` is an input. -/
theorem formulas_represent (h2 : (2 : K) ≠ 0) (d : K) (mem : P → Extended K) (inA inB : P)
    {A B : K × K} (ha : (mem inA).Represents A) (hb : (mem inB).Represents B) :
    (Defined d A B → ∀ out,
      Computes mem (fun e => ptAddFn (exact K) e d mem inA inB out) out (add d A B) ∧
      Computes mem (fun e => ptSubtractFn (exact K) e d mem inA inB out) out (add d A (neg B))) ∧
    (OnCurve d A → Defined d A A → ∀ out,
      Computes mem (fun e => ptDoubleFn (exact K) e mem inA out) out (add d A A) ∧
      ((mem inA).Z = 1 →
        Computes mem (fun e => ptDoubleZ1Fn (exact K) e mem inA out) out (add d A A))) ∧
    (Defined d A B → ∀ sum sumNeg diff diffNeg, [sum, sumNeg, diff, diffNeg].Nodup →
      ∃ mem', ptPrecompAddSub (exact K) d mem inA inB sum sumNeg diff diffNeg = some mem' ∧
        (mem' sum).Represents (add d A B) ∧ (mem' sumNeg).Represents (neg (add d A B)) ∧
        (mem' diff).Represents (add d A (neg B)) ∧
        (mem' diffNeg).Represents (neg (add d A (neg B)))) := by
  refine ⟨fun hdef out => ⟨?_, ?_⟩, fun hcurve hdef out => ⟨?_, fun hz => ?_⟩,
    fun hdef sum sumNeg diff diffNeg hapart => ptPrecompAddSub_represents h2 hapart ha hb hdef⟩
  · exact computes_of_store (fun e => ptAddFn_exact mem e d inA inB out)
      (addFactors_represents h2 ha hb hdef)
  · exact computes_of_store (fun e => ptSubtractFn_exact mem e d inA inB out)
      (addFactors_neg_represents h2 ha hb hdef)
  · exact computes_of_store (fun e => ptDoubleFn_exact mem e inA out)
      (doubleFactors_represents hcurve ha hdef)
  · exact computes_of_store (fun e => ptDoubleZ1Fn_exact mem e inA out hz)
      (doubleFactors_represents hcurve ha hdef)

end Points

end Exact

instance prime_thirteen : Fact (Nat.Prime 13) := ⟨by decide⟩

/-- The point `(2, 3)` of the curve with `d = 3` modulo 13, added to itself in place. -/
theorem formulas_represent_thirteen :
    (2 : ZMod 13) ≠ 0 ∧ Computes (fun _ : Unit => (⟨2, 3, 6, 1⟩ : Extended (ZMod 13)))
      (fun e => ptAddFn (exact (ZMod 13)) e 3 (fun _ : Unit => ⟨2, 3, 6, 1⟩) () () ()) ()
      (add 3 (2, 3) (2, 3)) := by
  have hp : (⟨2, 3, 6, 1⟩ : Extended (ZMod 13)).Represents (2, 3) :=
    ⟨by decide, by decide, by decide, by decide⟩
  have h := formulas_represent (by decide) (3 : ZMod 13)
    (fun _ : Unit => (⟨2, 3, 6, 1⟩ : Extended (ZMod 13))) () () hp hp
  exact ⟨by decide, (h.1 ⟨by decide, by decide⟩ ()).1⟩

/-- Modulo two every `Z` coordinate comes out as zero. -/
theorem not_represents_two :
    ¬∀ (p : ℕ) (_ : Fact p.Prime) (d : ZMod p) (mem : Unit → Extended (ZMod p))
      (A : ZMod p × ZMod p), OnCurve d A → (mem ()).Represents A → Defined d A A →
        Computes mem (fun e => ptAddFn (exact (ZMod p)) e d mem () () ()) () (add d A A) := by
  intro h
  obtain ⟨full, -, hfull, -, hrep, -⟩ := h 2 ⟨by decide⟩ 1 (fun _ => ⟨0, 1, 0, 1⟩) (0, 1)
    (by decide) ⟨by decide, by decide, by decide, by decide⟩ ⟨by decide, by decide⟩
  have hstore := (ptAddFn_exact _ true _ () () ()).symm.trans hfull
  refine hrep.ne_zero ?_
  rw [← Option.some_inj.mp hstore]
  decide

end Libcat.Math.PointFormulas
