import Libcat.Math.BigRTL

/-!
# Scalar multiplication with signed windows

`BigTwistedEdwards::PtMultiplyPrecomp`, `PtMultiply`, `PtSiMultiply` and `RefMul` over any commutative
group. A scalar is read in windows of `w` bits from the top, each with the bit above it, and a window
stands for a signed digit, an odd multiple of the point and some doublings. Doublings after an addition
are put off to the next window.

- `Position.next` and `Window.bits` are the selection of the next bits, `mofEntry` the table lookup.
- `MulInv` is the invariant of the loop, by the number of bits that are left.
- `ptMultiply_eq`, `ptSiMultiply_eq` and `refMul_eq`: all of them give the multiple of the point.
-/

namespace Libcat.Math.PtMultiply

open Radix

variable {build : Build} {G : Type} [AddCommGroup G]

section Model

/-- `MOF_LUT`: the odd number to add, by its place among them, and the doubles after that. -/
def mofLut : List (Nat × Nat) :=
  [(0, 0), (1, 0), (1, 1), (2, 0), (1, 2), (3, 0), (2, 1), (4, 0), (1, 3),
    (5, 0), (3, 1), (6, 0), (2, 2), (7, 0), (4, 1), (8, 0), (1, 4),
    (9, 0), (5, 1), (10, 0), (3, 2), (11, 0), (6, 1), (12, 0), (2, 3),
    (13, 0), (7, 1), (14, 0), (4, 2), (15, 0), (8, 1), (16, 0), (1, 5),
    (17, 0), (9, 1), (18, 0), (5, 2), (19, 0), (10, 1), (20, 0), (3, 3),
    (21, 0), (11, 1), (22, 0), (6, 2), (23, 0), (12, 1), (24, 0), (2, 4),
    (25, 0), (13, 1), (26, 0), (7, 2), (27, 0), (14, 1), (28, 0), (4, 3),
    (29, 0), (15, 1), (30, 0), (8, 2), (31, 0), (16, 1), (32, 0), (1, 6),
    (33, 0), (17, 1), (34, 0), (9, 2), (35, 0), (18, 1), (36, 0), (5, 3),
    (37, 0), (19, 1), (38, 0), (10, 2), (39, 0), (20, 1), (40, 0), (3, 4),
    (41, 0), (21, 1), (42, 0), (11, 2), (43, 0), (22, 1), (44, 0), (6, 3),
    (45, 0), (23, 1), (46, 0), (12, 2), (47, 0), (24, 1), (48, 0), (2, 5),
    (49, 0), (25, 1), (50, 0), (13, 2), (51, 0), (26, 1), (52, 0), (7, 3),
    (53, 0), (27, 1), (54, 0), (14, 2), (55, 0), (28, 1), (56, 0), (4, 4),
    (57, 0), (29, 1), (58, 0), (15, 2), (59, 0), (30, 1), (60, 0), (8, 3),
    (61, 0), (31, 1), (62, 0), (16, 2), (63, 0), (32, 1), (64, 0), (1, 7)]

/-- A table of points; there is no point behind its end. -/
structure Table (G : Type) where
  entries : Nat
  points : Nat → G

def Table.load (t : Table G) (i : Nat) : Option G :=
  if i < t.entries then some (t.points i) else none

def Table.store (t : Table G) (i : Nat) (point : G) : Option (Table G) :=
  if i < t.entries then some { t with points := Function.update t.points i point } else none

/-- `PtMultiplyPrecompAlloc`. -/
def ptMultiplyPrecompAlloc (w : Nat) (memory : Nat → G) : Table G := ⟨1 + 2 ^ (w - 1), memory⟩

/-- A point and its negative. -/
def Table.storePair (t : Table G) (negOffset i : Nat) (point : G) : Option (Table G) := do
  let t ← t.store i point
  t.store (i + negOffset) (-point)

/-- `PtEAdd` of an entry and a point to the next entry, with the negative. -/
def Table.storeNext (t : Table G) (negOffset i : Nat) (point : G) : Option (Table G) := do
  let a ← t.load i
  t.storePair negOffset (i + 1) (a + point)

/-- `PtPrecompAddSub`. -/
def Table.precompAddSub (t : Table G) (negOffset : Nat) (a : G) (b sum diff : Nat) :
    Option (Table G) := do
  let b ← t.load b
  let t ← t.storePair negOffset sum (a + b)
  t.storePair negOffset diff (a - b)

/-- The loop of the general case, with `n` rounds left. -/
def precompLoop (negOffset : Nat) (pre2 : G) : Nat → Nat → Table G → Option (Table G)
  | 0, _, t => some t
  | n + 1, preB, t => do
    let t ← t.storeNext negOffset preB pre2
    let t ← t.storeNext negOffset (preB + 1) pre2
    precompLoop negOffset pre2 n (preB + 2) t

/-- `PtMultiplyPrecomp`. -/
def ptMultiplyPrecomp (p : G) (w : Nat) (t : Table G) : Option (Table G) := do
  let negOffset := 2 ^ (w - 2)
  let t ← t.store 0 0
  let t ← t.storePair negOffset 1 p
  let pre2 := p + p
  let t ← t.storeNext negOffset 1 pre2
  if w = 6 then
    let t ← t.storeNext negOffset 2 pre2
    let t ← t.storeNext negOffset 3 pre2
    let t ← t.storeNext negOffset 4 pre2
    let t ← t.storeNext negOffset 5 pre2
    let p11 ← t.load 6
    let pre2 := p11 + p11
    let t ← t.precompAddSub negOffset pre2 1 12 11
    let t ← t.precompAddSub negOffset pre2 2 13 10
    let t ← t.precompAddSub negOffset pre2 3 14 9
    let t ← t.precompAddSub negOffset pre2 4 15 8
    t.precompAddSub negOffset pre2 5 16 7
  else precompLoop negOffset pre2 ((2 ^ (w - 2) - 1) / 2) 2 t

/-- Where the loop is: legs to come, the end of the next window in the current leg, and the doubles
to skip at the end. -/
structure Position where
  legs : Nat
  offset : Nat
  doublesSkip : Nat

/-- Where the next bits are: within the current leg, on the border to a new one, or at the end. -/
inductive Window where
  | within (shift : Nat)
  | straddle (leg shift : Nat)
  | padding (shift : Nat)

/-- The branches at the top of the loop. -/
def Position.next (legBits w : Nat) (p : Position) : Option (Window × Position) :=
  if p.offset ≤ legBits then some (.within (legBits - p.offset), p)
  else
    match p.legs with
    | leg + 1 =>
      some (.straddle leg (p.offset - legBits), { p with legs := leg, offset := p.offset - legBits })
    | 0 =>
      if p.offset ≤ legBits + w then
        some (.padding (p.offset - legBits), { p with doublesSkip := p.offset - legBits - 1 })
      else none

/-- `bits` and `last_leg` of a scalar. -/
def Window.bits (k : List (Leg build)) (lastLeg : Leg build) : Window → Leg build × Leg build
  | .within shift => (lastLeg >>> shift, lastLeg)
  | .straddle leg shift =>
    let newLeg := k.getD leg 0
    ((lastLeg <<< shift) ||| (newLeg >>> (build.legBits - shift)), newLeg)
  | .padding shift => (lastLeg <<< shift, lastLeg)

/-- The place in the table and the doubles after the addition. -/
def mofEntry (w : Nat) (bits : Leg build) : Nat × Nat :=
  let mask : Leg build := ((1 : Leg build) <<< w) - 1
  let z : Leg build := (((bits ^^^ (0 - ((bits >>> w) &&& 1))) &&& mask) + 1) >>> 1
  let negMask : Leg build := if z = 0 then 0 else (bits &&& ((1 : Leg build) <<< w)) >>> 2
  let entry := mofLut.getD z.toNat (0, 0)
  (entry.1 + negMask.toNat, if z = 0 then w - 1 else entry.2)

def doubles : Nat → G → G
  | 0, out => out
  | n + 1, out => doubles n (out + out)

/-- `while (--doubles_before) PtDouble(out, out); PtEDouble(out, out);`, where `doubles_before` must
not be zero. -/
def doublesBefore (n : Nat) (out : G) : Option G := if n = 0 then none else some (doubles n out)

/-- The end of the multiplications. -/
def trailingDoubles (doublesBefore doublesSkip : Nat) (out : G) : G :=
  if doublesSkip < doublesBefore then doubles (doublesBefore - doublesSkip) out else out

/-- The loop of `PtMultiply`. -/
def mulLoop (precomp : Table G) (w : Nat) (k : List (Leg build)) :
    Nat → Position → Leg build → Nat → G → Option G
  | 0, _, _, _, _ => none
  | fuel + 1, p, lastLeg, before, out =>
    match p.next build.legBits w with
    | none => some (trailingDoubles before p.doublesSkip out)
    | some (window, p) => do
      let (bits, lastLeg) := window.bits k lastLeg
      let (index, doublesAfter) := mofEntry w bits
      let out ← doublesBefore (before + (w - doublesAfter)) out
      let point ← precomp.load index
      mulLoop precomp w k fuel { p with offset := p.offset + w } lastLeg doublesAfter (out + point)

/-- `PtMultiply`. -/
def ptMultiply (fuel : Nat) (precomp : Table G) (w : Nat) (k : List (Leg build)) (msbK : u8) :
    Option G := do
  let lastLeg : Leg build := msbK.setWidth build.legBits
  let out ← precomp.load (if lastLeg ≠ 0 then 1 else 0)
  mulLoop precomp w k fuel ⟨k.length, build.legBits + w, 0⟩ lastLeg 0 out

/-- The additions of a window of `PtSiMultiply`: the one with more doubles after it comes first. -/
def siAdd (add1 add2 : G) (after1 after2 : Nat) (out : G) : Option G :=
  if after1 - after2 ≠ 0 then do
    let out ← doublesBefore (after1 - after2) (out + add1)
    return out + add2
  else return out + add1 + add2

/-- The loop of `PtSiMultiply`. -/
def siMulLoop (precompP precompQ : Table G) (w : Nat) (k l : List (Leg build)) :
    Nat → Position → Leg build → Leg build → Nat → G → Option G
  | 0, _, _, _, _, _ => none
  | fuel + 1, p, lastLegK, lastLegL, before, out =>
    match p.next build.legBits w with
    | none => some (trailingDoubles before p.doublesSkip out)
    | some (window, p) => do
      let (bitsK, lastLegK) := window.bits k lastLegK
      let (bitsL, lastLegL) := window.bits l lastLegL
      let (indexK, doublesAfterK) := mofEntry w bitsK
      let (indexL, doublesAfterL) := mofEntry w bitsL
      let pointK ← precompP.load indexK
      let pointL ← precompQ.load indexL
      if doublesAfterL ≤ doublesAfterK then
        let out ← doublesBefore (before + (w - doublesAfterK)) out
        let out ← siAdd pointK pointL doublesAfterK doublesAfterL out
        siMulLoop precompP precompQ w k l fuel { p with offset := p.offset + w } lastLegK lastLegL
          doublesAfterL out
      else
        let out ← doublesBefore (before + (w - doublesAfterL)) out
        let out ← siAdd pointL pointK doublesAfterL doublesAfterK out
        siMulLoop precompP precompQ w k l fuel { p with offset := p.offset + w } lastLegK lastLegL
          doublesAfterK out

/-- `PtSiMultiply`. -/
def ptSiMultiply (fuel : Nat) (precompP precompQ : Table G) (w : Nat) (k : List (Leg build))
    (msbK : u8) (l : List (Leg build)) (msbL : u8) : Option G := do
  let lastLegK : Leg build := msbK.setWidth build.legBits
  let out ← precompP.load (if lastLegK ≠ 0 then 1 else 0)
  let lastLegL : Leg build := msbL.setWidth build.legBits
  let point ← precompQ.load (if lastLegL ≠ 0 then 1 else 0)
  siMulLoop precompP precompQ w k l fuel ⟨k.length, build.legBits + w, 0⟩ lastLegK lastLegL 0
    (out + point)

/-- The bits of a leg in `RefMul`, with `n` of them left. -/
def refMulLeg (one : G) (leg : Leg build) : Nat → Bool × G → Bool × G
  | 0, s => s
  | n + 1, s =>
    let out := s.2 + s.2
    refMulLeg one leg n
      (if leg &&& ((1 : Leg build) <<< n) ≠ 0 then
        if s.1 then (true, one + out) else (true, one)
      else (s.1, out))

/-- The legs, from the highest. -/
def refMulLegs (one : G) (k : List (Leg build)) : Nat → Bool × G → Bool × G
  | 0, s => s
  | n + 1, s => refMulLegs one k n (refMulLeg one (k.getD n 0) build.legBits s)

/-- `RefMul`; `out` is what the register holds before. -/
def refMul (p : G) (k : List (Leg build)) (msbK : u8) (out : G) : G :=
  (refMulLegs p k k.length (if msbK ≠ 0 then (true, p) else (false, out))).2

end Model

/-! ## The table -/

section Precomp

variable {w : Nat} {p : G} {t : Table G} {S : Set Nat} {i : Nat}

/-- The multiple at a place of the table: odd ones, and behind them their negatives. -/
def tableCoef (w i : Nat) : ℤ :=
  if i = 0 then 0 else if i ≤ 2 ^ (w - 2) then 2 * i - 1 else -(2 * ((i : ℤ) - 2 ^ (w - 2)) - 1)

/-- The table of a point. -/
structure Precomputed (w : Nat) (p : G) (t : Table G) : Prop where
  entries : t.entries = 1 + 2 ^ (w - 1)
  points : ∀ i, i < t.entries → t.points i = tableCoef w i • p

/-- The places that have been filled. -/
structure Filled (w : Nat) (p : G) (S : Set Nat) (t : Table G) : Prop where
  entries : t.entries = 1 + 2 ^ (w - 1)
  zero : t.points 0 = 0
  places : ∀ i ∈ S, 1 ≤ i ∧ i ≤ 2 ^ (w - 2)
  points : ∀ i ∈ S, t.points i = (2 * (i : ℤ) - 1) • p
  negative : ∀ i ∈ S, t.points (i + 2 ^ (w - 2)) = -((2 * (i : ℤ) - 1) • p)

theorem pow_window (hw : 3 ≤ w) : 2 ^ (w - 1) = 2 ^ (w - 2) + 2 ^ (w - 2) := by
  obtain ⟨v, rfl⟩ : ∃ v, w = v + 2 := ⟨w - 2, by omega⟩
  simp only [Nat.add_sub_cancel, show v + 2 - 1 = v + 1 by omega, Nat.pow_succ]
  omega

omit [AddCommGroup G] in
theorem Table.store_eq (hi : i < t.entries) (point : G) :
    t.store i point = some { t with points := Function.update t.points i point } := if_pos hi

theorem Filled.storePair (h : Filled w p S t) (hw : 3 ≤ w) (hi : 1 ≤ i) (hi' : i ≤ 2 ^ (w - 2))
    (point : G) (hpoint : point = (2 * (i : ℤ) - 1) • p) :
    ∃ t', t.storePair (2 ^ (w - 2)) i point = some t' ∧ Filled w p (insert i S) t' := by
  have hpow := pow_window hw
  have hent := h.entries
  refine ⟨⟨t.entries, Function.update (Function.update t.points i point) (i + 2 ^ (w - 2))
    (-point)⟩, ?_, ?_⟩
  · unfold Table.storePair
    rw [Table.store_eq (by omega), Option.bind_eq_bind, Option.bind_some,
      Table.store_eq (by simp only; omega)]
  · refine ⟨hent, ?_, ?_, ?_, ?_⟩
    · simp only
      rw [Function.update_of_ne (by omega), Function.update_of_ne (by omega)]
      exact h.zero
    · rintro j (rfl | hj)
      · exact ⟨hi, hi'⟩
      · exact h.places j hj
    · rintro j hj
      by_cases hji : j = i
      · subst hji
        simp only
        rw [Function.update_of_ne (by omega), Function.update_self, hpoint]
      · have hjS := (Set.mem_insert_iff.mp hj).resolve_left hji
        have := h.places j hjS
        simp only
        rw [Function.update_of_ne (by omega), Function.update_of_ne hji]
        exact h.points j hjS
    · rintro j hj
      by_cases hji : j = i
      · subst hji
        simp only
        rw [Function.update_self, hpoint]
      · have hjS := (Set.mem_insert_iff.mp hj).resolve_left hji
        have := h.places j hjS
        simp only
        rw [Function.update_of_ne (by omega), Function.update_of_ne (by omega)]
        exact h.negative j hjS

theorem Filled.load (h : Filled w p S t) (hw : 3 ≤ w) (hi : i ∈ S) :
    t.load i = some ((2 * (i : ℤ) - 1) • p) := by
  have := h.places i hi
  have hpow := pow_window hw
  have hent := h.entries
  rw [Table.load, if_pos (by omega), h.points i hi]

theorem Filled.storeNext (h : Filled w p S t) (hw : 3 ≤ w) (hi : i ∈ S)
    (hi' : i + 1 ≤ 2 ^ (w - 2)) :
    ∃ t', t.storeNext (2 ^ (w - 2)) i (p + p) = some t' ∧ Filled w p (insert (i + 1) S) t' := by
  obtain ⟨t', ht', hf⟩ := h.storePair hw (i := i + 1) (by omega) hi'
    ((2 * (i : ℤ) - 1) • p + (p + p)) (by push_cast; module)
  refine ⟨t', ?_, hf⟩
  rw [Table.storeNext, h.load hw hi, Option.bind_eq_bind, Option.bind_some]
  exact ht'

theorem Filled.precompAddSub (h : Filled w p S t) (hw : 3 ≤ w) {n : ℤ} {b : Nat} (sum diff : Nat)
    (hb : b ∈ S) (hsum : 1 ≤ sum ∧ sum ≤ 2 ^ (w - 2)) (hdiff : 1 ≤ diff ∧ diff ≤ 2 ^ (w - 2))
    (hs : 2 * (sum : ℤ) - 1 = n + (2 * b - 1)) (hd : 2 * (diff : ℤ) - 1 = n - (2 * b - 1)) :
    ∃ t', t.precompAddSub (2 ^ (w - 2)) (n • p) b sum diff = some t' ∧
      Filled w p (insert diff (insert sum S)) t' := by
  obtain ⟨t1, ht1, hf1⟩ := h.storePair hw hsum.1 hsum.2
    (n • p + (2 * (b : ℤ) - 1) • p) (by rw [hs]; module)
  obtain ⟨t2, ht2, hf2⟩ := hf1.storePair hw hdiff.1 hdiff.2
    (n • p - (2 * (b : ℤ) - 1) • p) (by rw [hd]; module)
  refine ⟨t2, ?_, hf2⟩
  rw [Table.precompAddSub, h.load hw hb, Option.bind_eq_bind, Option.bind_some, ht1,
    Option.bind_eq_bind, Option.bind_some]
  exact ht2

theorem precompLoop_spec (hw : 3 ≤ w) (n : Nat) : ∀ {S : Set Nat} {b : Nat} {t : Table G},
    Filled w p S t → b ∈ S → b + 2 * n ≤ 2 ^ (w - 2) → (∀ i, 1 ≤ i → i ≤ b → i ∈ S) →
      ∃ t', precompLoop (2 ^ (w - 2)) (p + p) n b t = some t' ∧
        ∃ S', Filled w p S' t' ∧ ∀ i, 1 ≤ i → i ≤ b + 2 * n → i ∈ S' := by
  induction n with
  | zero =>
    intro S b t h _ _ hall
    exact ⟨t, rfl, S, h, by simpa using hall⟩
  | succ n ih =>
    intro S b t h hb hle hall
    obtain ⟨t1, ht1, h1⟩ := h.storeNext hw hb (by omega)
    obtain ⟨t2, ht2, h2⟩ := h1.storeNext hw (Set.mem_insert _ _) (by omega)
    obtain ⟨t3, ht3, S', h3, hall3⟩ := ih h2 (Set.mem_insert _ _) (by omega) (by
      intro i hi hib
      by_cases h2' : i = b + 1 + 1
      · exact .inl h2'
      · by_cases h1' : i = b + 1
        · exact .inr (.inl h1')
        · exact .inr (.inr (hall i hi (by omega))))
    refine ⟨t3, ?_, S', h3, fun i hi hib => hall3 i hi (by omega)⟩
    simp only [precompLoop, ht1, ht2, Option.bind_eq_bind, Option.bind_some]
    exact ht3

theorem Filled.precomputed (h : Filled w p S t) (hw : 3 ≤ w)
    (hall : ∀ i, 1 ≤ i → i ≤ 2 ^ (w - 2) → i ∈ S) : Precomputed w p t := by
  have hpow := pow_window hw
  refine ⟨h.entries, fun i hi => ?_⟩
  rw [h.entries] at hi
  unfold tableCoef
  by_cases h0 : i = 0
  · rw [if_pos h0, h0, h.zero, zero_smul]
  · rw [if_neg h0]
    by_cases hle : i ≤ 2 ^ (w - 2)
    · rw [if_pos hle, h.points i (hall i (by omega) hle)]
    · rw [if_neg hle]
      have := h.negative (i - 2 ^ (w - 2)) (hall _ (by omega) (by omega))
      rw [Nat.sub_add_cancel (by omega)] at this
      rw [this, neg_smul, Nat.cast_sub (by omega)]
      push_cast
      rfl

/-- `PtMultiplyPrecomp` fills the table, within its bounds. -/
theorem ptMultiplyPrecomp_spec (hw : 3 ≤ w) (p : G) (memory : Nat → G) :
    ∃ t, ptMultiplyPrecomp p w (ptMultiplyPrecompAlloc w memory) = some t ∧ Precomputed w p t := by
  have hpow := pow_window hw
  have hfour : 2 ≤ 2 ^ (w - 2) := by
    calc 2 = 2 ^ 1 := rfl
      _ ≤ 2 ^ (w - 2) := Nat.pow_le_pow_right (by omega) (by omega)
  have h0 : Filled w p ∅ { ptMultiplyPrecompAlloc w memory with
      points := Function.update memory 0 0 } :=
    ⟨rfl, by simp, by simp, by simp, by simp⟩
  obtain ⟨t1, ht1, h1⟩ := h0.storePair hw (i := 1) (by omega) (by omega) p (by simp)
  obtain ⟨t2, ht2, h2⟩ := h1.storeNext hw (Set.mem_insert _ _) (by omega)
  have hstart : (ptMultiplyPrecompAlloc w memory).store 0 0 =
      some { ptMultiplyPrecompAlloc w memory with points := Function.update memory 0 0 } :=
    Table.store_eq (by simp [ptMultiplyPrecompAlloc]) 0
  unfold ptMultiplyPrecomp
  simp only [hstart, ht1, ht2, Option.bind_eq_bind, Option.bind_some]
  by_cases hw6 : w = 6
  · subst hw6
    rw [if_pos rfl]
    obtain ⟨t3, ht3, h3⟩ := h2.storeNext hw (Set.mem_insert _ _) (by norm_num)
    obtain ⟨t4, ht4, h4⟩ := h3.storeNext hw (Set.mem_insert _ _) (by norm_num)
    obtain ⟨t5, ht5, h5⟩ := h4.storeNext hw (Set.mem_insert _ _) (by norm_num)
    obtain ⟨t6, ht6, h6⟩ := h5.storeNext hw (Set.mem_insert _ _) (by norm_num)
    have h11 := h6.load hw (Set.mem_insert _ _)
    have h22 : (2 * ((1 + 1 + 1 + 1 + 1 + 1 : Nat) : ℤ) - 1) • p +
        (2 * ((1 + 1 + 1 + 1 + 1 + 1 : Nat) : ℤ) - 1) • p = (22 : ℤ) • p := by
      push_cast
      module
    obtain ⟨t7, ht7, h7⟩ := h6.precompAddSub hw (n := 22) (b := 1) 12 11
      (by simp) (by norm_num) (by norm_num) (by norm_num) (by norm_num)
    obtain ⟨t8, ht8, h8⟩ := h7.precompAddSub hw (n := 22) (b := 2) 13 10
      (by simp) (by norm_num) (by norm_num) (by norm_num) (by norm_num)
    obtain ⟨t9, ht9, h9⟩ := h8.precompAddSub hw (n := 22) (b := 3) 14 9
      (by simp) (by norm_num) (by norm_num) (by norm_num) (by norm_num)
    obtain ⟨t10, ht10, h10⟩ := h9.precompAddSub hw (n := 22) (b := 4) 15 8
      (by simp) (by norm_num) (by norm_num) (by norm_num) (by norm_num)
    obtain ⟨t11, ht11, h11'⟩ := h10.precompAddSub hw (n := 22) (b := 5) 16 7
      (by simp) (by norm_num) (by norm_num) (by norm_num) (by norm_num)
    simp only [Nat.reduceAdd] at ht3 ht4 ht5 ht6 h11 h22
    refine ⟨t11, ?_, h11'.precomputed hw fun i hi hi' => ?_⟩
    · simp only [ht3, ht4, ht5, ht6, h11, h22, ht7, ht8, ht9, ht10, ht11, Option.bind_some]
    · norm_num at hi'
      simp only [Set.mem_insert_iff, Set.mem_empty_iff_false, or_false]
      omega
  · rw [if_neg hw6]
    have heven : 2 ^ (w - 2) % 2 = 0 := by
      obtain ⟨v, rfl⟩ : ∃ v, w = v + 3 := ⟨w - 3, by omega⟩
      simp [show v + 3 - 2 = v + 1 by omega, Nat.pow_succ]
    obtain ⟨t3, ht3, S, h3, hall⟩ := precompLoop_spec hw ((2 ^ (w - 2) - 1) / 2) h2
      (Set.mem_insert _ _) (by omega) (by
        intro i hi hib
        by_cases h2' : i = 1 + 1
        · exact .inl h2'
        · exact .inr (.inl (by omega)))
    refine ⟨t3, ht3, h3.precomputed hw fun i hi hi' => hall i hi ?_⟩
    omega

end Precomp

/-! ## Digits -/

section Digits

variable {w : Nat}

/-- The signed digit of a window of `w` bits with the bit above it. -/
def mofDigit (w n : Nat) : ℤ := ((n % 2 ^ w + 1) / 2 : Nat) - (n / 2 ^ w % 2 : Nat) * 2 ^ (w - 1)

/-- Half of a number, rounded up. -/
def halfUp (n : Nat) : ℤ := ((n + 1) / 2 : Nat)

/-- The digits put together. -/
theorem halfUp_window (hw : 1 ≤ w) (n : Nat) :
    halfUp n = 2 ^ w * halfUp (n / 2 ^ w) + mofDigit w n := by
  obtain ⟨v, rfl⟩ : ∃ v, w = v + 1 := ⟨w - 1, by omega⟩
  have hn := Nat.div_add_mod n (2 ^ (v + 1))
  unfold halfUp mofDigit
  generalize n / 2 ^ (v + 1) = q at *
  generalize n % 2 ^ (v + 1) = x at *
  have hhalf : (n + 1) / 2 = 2 ^ v * q + (x + 1) / 2 := by
    rw [← hn, Nat.pow_succ, Nat.mul_comm (2 ^ v), Nat.mul_assoc]
    omega
  have hq : (q : ℤ) = 2 * ((q + 1) / 2 : Nat) - (q % 2 : Nat) := by omega
  rw [hhalf, Nat.add_sub_cancel]
  push_cast at hq ⊢
  rw [pow_succ]
  linear_combination 2 ^ v * hq

/-- `z` in `PtMultiply`: the size of the digit. -/
def mofSize (w n : Nat) : Nat :=
  ((if n / 2 ^ w % 2 = 1 then 2 ^ w - 1 - n % 2 ^ w else n % 2 ^ w) + 1) / 2

theorem mofSize_le (hw : 1 ≤ w) (n : Nat) : mofSize w n ≤ 2 ^ (w - 1) := by
  obtain ⟨v, rfl⟩ : ∃ v, w = v + 1 := ⟨w - 1, by omega⟩
  have hx := Nat.mod_lt n (Nat.two_pow_pos (v + 1))
  rw [Nat.add_sub_cancel]
  rw [Nat.pow_succ] at hx
  unfold mofSize
  split <;> rw [Nat.pow_succ] <;> omega

theorem mofDigit_eq (hw : 1 ≤ w) (n : Nat) :
    mofDigit w n = if n / 2 ^ w % 2 = 1 then -(mofSize w n : ℤ) else mofSize w n := by
  obtain ⟨v, rfl⟩ : ∃ v, w = v + 1 := ⟨w - 1, by omega⟩
  have hx := Nat.mod_lt n (Nat.two_pow_pos (v + 1))
  have hpow : (2 : Nat) ^ (v + 1) = 2 * 2 ^ v := by rw [Nat.pow_succ]; omega
  have hcast : ((2 ^ v : Nat) : ℤ) = 2 ^ v := by push_cast; rfl
  have hbit := Nat.mod_two_eq_zero_or_one (n / 2 ^ (v + 1))
  unfold mofDigit mofSize
  rw [Nat.add_sub_cancel, ← hcast]
  generalize n / 2 ^ (v + 1) % 2 = b at *
  generalize n % 2 ^ (v + 1) = x at *
  rcases hbit with rfl | rfl
  · simp
  · simp only [if_true]
    omega

/-- Zeroes at the end of a window are doubles after the digit. -/
theorem dvd_mofSize {n j : Nat} (hj : j + 1 ≤ w) (hdvd : 2 ^ (j + 1) ∣ n) :
    2 ^ j ∣ mofSize w n := by
  have hpw : 2 ^ (j + 1) ∣ 2 ^ w := pow_dvd_pow 2 hj
  have hlt := Nat.mod_lt n (Nat.two_pow_pos w)
  obtain ⟨y, hy⟩ := (Nat.dvd_mod_iff hpw).mpr hdvd
  obtain ⟨m, hm⟩ := hpw
  unfold mofSize
  rw [Nat.pow_succ, Nat.mul_comm (2 ^ j), Nat.mul_assoc] at hy hm
  split
  · refine ⟨m - y, ?_⟩
    rw [Nat.mul_sub]
    omega
  · exact ⟨y, by omega⟩

theorem mofLut_zero : mofLut.getD 0 (0, 0) = (0, 0) := rfl

set_option maxRecDepth 4000 in
/-- The table of odd parts and powers of two. -/
theorem mofLut_spec : ∀ z : Fin 129, z.val ≠ 0 → 1 ≤ (mofLut.getD z.val (0, 0)).1 ∧
    2 ^ (mofLut.getD z.val (0, 0)).2 * (2 * (mofLut.getD z.val (0, 0)).1 - 1) = z.val := by
  decide

variable {bits : Leg build}

theorem one_shl_toNat (hw : w ≤ 8) : ((1 : Leg build) <<< w).toNat = 2 ^ w := by
  have hlt : 2 ^ w < 2 ^ build.legBits :=
    Nat.pow_lt_pow_right (by omega) (by have := build.legBits_ge; omega)
  rw [BitVec.toNat_shiftLeft, Nat.shiftLeft_eq, one_toNat, Nat.one_mul, Nat.mod_eq_of_lt hlt]

theorem mask_toNat (hw : w ≤ 8) : (((1 : Leg build) <<< w) - 1).toNat = 2 ^ w - 1 := by
  have hpos := Nat.two_pow_pos w
  rcases BigRTL.sub_toNat ((1 : Leg build) <<< w) 1 with ⟨-, h⟩ | ⟨h, -⟩
  · rw [h, one_shl_toNat hw, one_toNat]
  · rw [one_shl_toNat hw, one_toNat] at h
    omega

theorem top_bit_toNat (w : Nat) : ((bits >>> w) &&& 1).toNat = bits.toNat / 2 ^ w % 2 := by
  rw [BitVec.toNat_and, BitVec.toNat_ushiftRight, Nat.shiftRight_eq_div_pow, one_toNat,
    Nat.and_one_is_mod]

theorem z_toNat (hw' : w ≤ 8) :
    ((((bits ^^^ (0 - ((bits >>> w) &&& 1))) &&& (((1 : Leg build) <<< w) - 1)) + 1) >>> 1).toNat =
      mofSize w bits.toNat := by
  have hbits := build.legBits_ge
  have hlt : 2 ^ w < 2 ^ build.legBits := Nat.pow_lt_pow_right (by omega) (by omega)
  have hb := @top_bit_toNat build bits w
  have hmask : ∀ y : Leg build, (y &&& (((1 : Leg build) <<< w) - 1)).toNat = y.toNat % 2 ^ w := by
    intro y
    rw [BitVec.toNat_and, mask_toNat hw', Nat.and_two_pow_sub_one_eq_mod]
  have hfin : ∀ y : Leg build,
      (((y &&& (((1 : Leg build) <<< w) - 1)) + 1) >>> 1).toNat = (y.toNat % 2 ^ w + 1) / 2 := by
    intro y
    have := Nat.mod_lt y.toNat (Nat.two_pow_pos w)
    rw [BitVec.toNat_ushiftRight, Nat.shiftRight_eq_div_pow, BitVec.toNat_add, hmask, one_toNat,
      Nat.mod_eq_of_lt (by omega), Nat.pow_one]
  rw [hfin, mofSize]
  rcases Nat.mod_two_eq_zero_or_one (bits.toNat / 2 ^ w) with h0 | h1
  · have hz : (bits >>> w) &&& 1 = 0 := BitVec.eq_of_toNat_eq (by rw [hb, h0]; rfl)
    rw [hz, if_neg (by omega)]
    simp
  · have hz : (bits >>> w) &&& 1 = 1 := BitVec.eq_of_toNat_eq (by rw [hb, h1, one_toNat])
    have hones : bits ^^^ (0 - 1) = ~~~bits := by simp [BitVec.neg_one_eq_allOnes]
    have hsplit : (2 : Nat) ^ build.legBits = 2 ^ w * 2 ^ (build.legBits - w) := by
      rw [← Nat.pow_add]
      congr 1
      omega
    have hdm := Nat.div_add_mod bits.toNat (2 ^ w)
    have hx := Nat.mod_lt bits.toNat (Nat.two_pow_pos w)
    have hq : bits.toNat / 2 ^ w < 2 ^ (build.legBits - w) := by
      apply Nat.div_lt_of_lt_mul
      rw [← hsplit]
      exact bits.isLt
    have hnot : 2 ^ build.legBits - 1 - bits.toNat =
        2 ^ w * (2 ^ (build.legBits - w) - 1 - bits.toNat / 2 ^ w) +
          (2 ^ w - 1 - bits.toNat % 2 ^ w) := by
      rw [Nat.mul_sub, Nat.mul_sub, ← hsplit]
      have : 2 ^ w * (bits.toNat / 2 ^ w + 1) ≤ 2 ^ w * 2 ^ (build.legBits - w) :=
        Nat.mul_le_mul_left _ hq
      rw [Nat.mul_add, ← hsplit] at this
      omega
    rw [hz, if_pos h1, hones, BitVec.toNat_not, hnot, Nat.mul_add_mod,
      Nat.mod_eq_of_lt (by omega)]

theorem negMask_toNat (hw : 2 ≤ w) (hw' : w ≤ 8) :
    ((bits &&& ((1 : Leg build) <<< w)) >>> 2).toNat = bits.toNat / 2 ^ w % 2 * 2 ^ (w - 2) := by
  obtain ⟨v, rfl⟩ : ∃ v, w = v + 2 := ⟨w - 2, by omega⟩
  rw [BitVec.toNat_ushiftRight, BitVec.toNat_and, one_shl_toNat hw', Nat.and_two_pow,
    Nat.toNat_testBit, Nat.shiftRight_eq_div_pow, Nat.add_sub_cancel, Nat.pow_add 2 v 2,
    ← Nat.mul_assoc, Nat.mul_div_cancel _ (by omega)]

/-- The entry of a window: within the table, less than `w` doubles, and the digit. -/
theorem mofEntry_spec (hw : 3 ≤ w) (hw' : w ≤ 8) :
    (mofEntry w bits).1 < 1 + 2 ^ (w - 1) ∧ (mofEntry w bits).2 < w ∧
      tableCoef w (mofEntry w bits).1 * 2 ^ (mofEntry w bits).2 = mofDigit w bits.toNat ∧
      ∀ j, j + 1 ≤ w → 2 ^ (j + 1) ∣ bits.toNat → j ≤ (mofEntry w bits).2 := by
  have hpow := pow_window hw
  have hz := @z_toNat build w bits hw'
  have hle := mofSize_le (by omega) (w := w) bits.toNat
  have hsize : mofSize w bits.toNat < 129 := by
    have : 2 ^ (w - 1) ≤ 2 ^ 7 := Nat.pow_le_pow_right (by omega) (by omega)
    omega
  unfold mofEntry
  dsimp only
  rw [hz, mofDigit_eq (by omega)]
  generalize ((((bits ^^^ (0 - ((bits >>> w) &&& 1))) &&& (((1 : Leg build) <<< w) - 1)) + 1) >>> 1)
    = z at *
  by_cases h0 : z = 0
  · have hzero : mofSize w bits.toNat = 0 := by rw [← hz, h0]; rfl
    simp only [h0, if_true, hzero, mofLut_zero]
    refine ⟨by simp, by omega, by simp [tableCoef], fun j hj _ => by omega⟩
  · have hne : mofSize w bits.toNat ≠ 0 := by
      intro h
      rw [← hz] at h
      exact h0 (BitVec.eq_of_toNat_eq (by simpa using h))
    obtain ⟨h1, hodd⟩ := mofLut_spec ⟨mofSize w bits.toNat, hsize⟩ hne
    simp only at h1 hodd
    have hdvd : ∀ {j}, j + 1 ≤ w → 2 ^ (j + 1) ∣ bits.toNat → 2 ^ j ∣ mofSize w bits.toNat :=
      dvd_mofSize
    simp only [h0, if_false, negMask_toNat (by omega) hw']
    generalize mofLut.getD (mofSize w bits.toNat) (0, 0) = e at *
    generalize mofSize w bits.toNat = size at *
    have hafter : e.2 ≤ w - 1 := by
      rw [← Nat.pow_le_pow_iff_right (a := 2) (by omega)]
      refine le_trans (Nat.le_mul_of_pos_right _ (by omega : 0 < 2 * e.1 - 1)) ?_
      rw [hodd]
      exact hle
    have hindex : 2 * e.1 - 1 ≤ size := by
      rw [← hodd]
      exact Nat.le_mul_of_pos_left _ (Nat.two_pow_pos _)
    have hcoef : (2 * (e.1 : ℤ) - 1) * 2 ^ e.2 = size := by
      rw [← hodd]
      push_cast [Nat.cast_sub (by omega : 1 ≤ 2 * e.1)]
      ring
    refine ⟨?_, by omega, ?_, fun j hj hd => ?_⟩
    · rcases Nat.mod_two_eq_zero_or_one (bits.toNat / 2 ^ w) with h | h <;> rw [h] <;> omega
    · unfold tableCoef
      rcases Nat.mod_two_eq_zero_or_one (bits.toNat / 2 ^ w) with h | h <;> rw [h]
      · rw [Nat.zero_mul, Nat.add_zero, if_neg (by omega), if_pos (by omega), if_neg (by omega)]
        exact hcoef
      · rw [Nat.one_mul, if_neg (by omega), if_neg (by omega), if_pos rfl]
        push_cast
        linear_combination -hcoef
    · by_contra hlt
      have h2 : 2 ^ (e.2 + 1) ∣ 2 ^ e.2 * (2 * e.1 - 1) := by
        rw [hodd]
        exact (pow_dvd_pow 2 (by omega)).trans (hdvd hj hd)
      rw [Nat.pow_succ] at h2
      have := Nat.dvd_of_mul_dvd_mul_left (Nat.two_pow_pos _) h2
      omega

end Digits

/-! ## Windows -/

section Windows

variable {w K : Nat} {k : List (Leg build)} {p : Position} {lastLeg : Leg build}

/-- The digit only depends on the bits of the window and the one above. -/
theorem mofDigit_congr {m n : Nat} (h : m % 2 ^ (w + 1) = n % 2 ^ (w + 1)) :
    mofDigit w m = mofDigit w n := by
  have hmod : ∀ i : Nat, i % 2 ^ w = i % 2 ^ (w + 1) % 2 ^ w := fun i =>
    (Nat.mod_mod_of_dvd i (pow_dvd_pow 2 (by omega))).symm
  have hdiv : ∀ i : Nat, i / 2 ^ w % 2 = i % 2 ^ (w + 1) / 2 ^ w := fun i => by
    rw [Nat.pow_succ, Nat.mod_mul_right_div_self]
  rw [mofDigit, mofDigit, hmod m, hmod n, hdiv m, hdiv n, h]

theorem div_pow_add (K a b : Nat) : K / 2 ^ (a + b) = K / 2 ^ a / 2 ^ b := by
  rw [Nat.pow_add, Nat.div_div_eq_div_mul]

/-- The legs of a number. -/
def Scalar (k : List (Leg build)) (K : Nat) : Prop :=
  ∀ n, n < k.length → (k.getD n 0).toNat = K / 2 ^ (build.legBits * n) % 2 ^ build.legBits

/-- The bits that are left. -/
def remaining (legBits w : Nat) (p : Position) : Nat := legBits * p.legs + (legBits + w - p.offset)

/-- The loop is within the scalar. -/
structure MulInv (w K : Nat) (k : List (Leg build)) (p : Position) (lastLeg : Leg build) : Prop where
  legs : p.legs ≤ k.length
  lower : w < p.offset
  upper : p.offset ≤ build.legBits + w
  last : lastLeg.toNat = K / 2 ^ (build.legBits * p.legs) % 2 ^ build.legBits

/-- What a window gives that is not the last. -/
structure NextWindow (w K : Nat) (k : List (Leg build)) (p p' : Position)
    (r : Leg build × Leg build) : Prop where
  enough : w ≤ remaining build.legBits w p
  digit : mofDigit w r.1.toNat = mofDigit w (K / 2 ^ (remaining build.legBits w p - w))
  inv : MulInv w K k { p' with offset := p'.offset + w } r.2
  left : remaining build.legBits w { p' with offset := p'.offset + w } =
    remaining build.legBits w p - w

/-- What the last window gives. -/
structure LastWindow (w K : Nat) (p p' : Position) (r : Leg build × Leg build) : Prop where
  short : remaining build.legBits w p < w
  digit : mofDigit w r.1.toNat = mofDigit w (K * 2 ^ (w - remaining build.legBits w p))
  zeroes : 2 ^ (w - remaining build.legBits w p) ∣ r.1.toNat
  skip : p'.doublesSkip = w - remaining build.legBits w p - 1
  done : Position.next build.legBits w { p' with offset := p'.offset + w } = none

theorem within_spec (h : MulInv w K k p lastLeg) (hw' : w ≤ 8) (hin : p.offset ≤ build.legBits) :
    NextWindow w K k p p ((Window.within (build.legBits - p.offset)).bits k lastLeg) := by
  have hrem : remaining build.legBits w p - w =
      build.legBits * p.legs + (build.legBits - p.offset) := by
    unfold remaining
    omega
  have hlow := h.lower
  refine ⟨by unfold remaining; omega, mofDigit_congr ?_, ⟨h.legs, ?_, ?_, h.last⟩, ?_⟩
  · have hsplit : (2 : Nat) ^ build.legBits =
        2 ^ (build.legBits - p.offset) * 2 ^ p.offset := by
      rw [← Nat.pow_add]
      congr 1
      omega
    have hbits : ((Window.within (build.legBits - p.offset)).bits k lastLeg).1.toNat =
        K / 2 ^ (build.legBits * p.legs) / 2 ^ (build.legBits - p.offset) % 2 ^ p.offset := by
      simp only [Window.bits]
      rw [BitVec.toNat_ushiftRight, Nat.shiftRight_eq_div_pow, h.last, hsplit,
        Nat.mod_mul_right_div_self]
    rw [hbits, hrem, div_pow_add]
    exact Nat.mod_mod_of_dvd _ (pow_dvd_pow 2 (by omega))
  · simp only
    omega
  · simp only
    omega
  · rw [hrem]
    unfold remaining
    simp only
    omega

/-- The low bits of a shifted leg, with bits of the next one below. -/
theorem shl_or_toNat {x y : Leg build} {shift : Nat} (hs : shift ≤ build.legBits) :
    (x <<< shift ||| y >>> (build.legBits - shift)).toNat =
      x.toNat * 2 ^ shift % 2 ^ build.legBits + y.toNat / 2 ^ (build.legBits - shift) := by
  have hlt : y.toNat / 2 ^ (build.legBits - shift) < 2 ^ shift := by
    apply Nat.div_lt_of_lt_mul
    rw [← Nat.pow_add, Nat.sub_add_cancel hs]
    exact y.isLt
  have hsplit : (2 : Nat) ^ build.legBits = 2 ^ shift * 2 ^ (build.legBits - shift) := by
    rw [← Nat.pow_add]
    congr 1
    omega
  rw [BitVec.toNat_or, BitVec.toNat_shiftLeft, BitVec.toNat_ushiftRight, Nat.shiftLeft_eq,
    Nat.shiftRight_eq_div_pow, Nat.mul_comm x.toNat, hsplit, Nat.mul_mod_mul_left,
    ← Nat.two_pow_add_eq_or_of_lt hlt]

/-- The bits of a number on the border of two legs. -/
theorem div_straddle {M shift B : Nat} (hs : shift ≤ B) :
    M / 2 ^ (B - shift) = M / 2 ^ B * 2 ^ shift + M % 2 ^ B / 2 ^ (B - shift) := by
  have hsplit : (2 : Nat) ^ B = 2 ^ (B - shift) * 2 ^ shift := by
    rw [← Nat.pow_add]
    congr 1
    omega
  conv_lhs => rw [← Nat.div_add_mod M (2 ^ B)]
  rw [show 2 ^ B * (M / 2 ^ B) = 2 ^ (B - shift) * (M / 2 ^ B * 2 ^ shift) by rw [hsplit]; ring,
    Nat.mul_add_div (Nat.two_pow_pos _)]

theorem straddle_spec (h : MulInv w K k p lastLeg) (hk : Scalar k K) (hw' : w ≤ 8) {leg : Nat}
    (hleg : p.legs = leg + 1) (hout : build.legBits < p.offset) :
    NextWindow w K k p { p with legs := leg, offset := p.offset - build.legBits }
      ((Window.straddle leg (p.offset - build.legBits)).bits k lastLeg) := by
  have hbits := build.legBits_ge
  have hup := h.upper
  have hlegs := h.legs
  obtain ⟨shift, hshift⟩ : ∃ shift, p.offset = build.legBits + shift :=
    ⟨p.offset - build.legBits, by omega⟩
  have hsub : p.offset - build.legBits = shift := by omega
  have hnew := hk leg (by omega)
  have hmul : build.legBits * (leg + 1) = build.legBits * leg + build.legBits := by ring
  have hrem : remaining build.legBits w p - w =
      build.legBits * leg + (build.legBits - shift) := by
    unfold remaining
    rw [hleg, hmul]
    omega
  rw [hsub]
  refine ⟨?_, mofDigit_congr ?_, ⟨by simp only; omega, ?_, ?_, hnew⟩, ?_⟩
  · unfold remaining
    rw [hleg, hmul]
    omega
  · simp only [Window.bits]
    rw [shl_or_toNat (by omega), h.last, hnew, hrem, hleg, hmul, div_pow_add, div_pow_add]
    generalize K / 2 ^ (build.legBits * leg) = M
    rw [div_straddle (M := M) (by omega : shift ≤ build.legBits)]
    refine Nat.ModEq.add_right _ (Nat.ModEq.of_dvd (pow_dvd_pow 2 (by omega : w + 1 ≤ build.legBits)) ?_)
    exact (Nat.mod_modEq _ _).trans ((Nat.mod_modEq _ _).mul_right _)
  · simp only
    omega
  · simp only
    omega
  · unfold remaining
    rw [hleg, hmul]
    simp only
    omega

theorem padding_spec (h : MulInv w K k p lastLeg) (hw' : w ≤ 8) (hleg : p.legs = 0)
    (hout : build.legBits < p.offset) :
    LastWindow w K p { p with doublesSkip := p.offset - build.legBits - 1 }
      ((Window.padding (p.offset - build.legBits)).bits k lastLeg) := by
  have hbits := build.legBits_ge
  have hup := h.upper
  have hrem : w - remaining build.legBits w p = p.offset - build.legBits := by
    unfold remaining
    rw [hleg]
    omega
  have hlast := h.last
  rw [hleg, Nat.mul_zero, Nat.pow_zero, Nat.div_one] at hlast
  have hval : ((Window.padding (p.offset - build.legBits)).bits k lastLeg).1.toNat =
      K % 2 ^ build.legBits * 2 ^ (p.offset - build.legBits) % 2 ^ build.legBits := by
    simp only [Window.bits]
    rw [BitVec.toNat_shiftLeft, Nat.shiftLeft_eq, hlast]
  refine ⟨by unfold remaining; rw [hleg]; omega, mofDigit_congr ?_, ?_, by rw [hrem], ?_⟩
  · rw [hval, hrem]
    refine Nat.ModEq.of_dvd (pow_dvd_pow 2 (by omega : w + 1 ≤ build.legBits)) ?_
    exact (Nat.mod_modEq _ _).trans ((Nat.mod_modEq _ _).mul_right _)
  · rw [hval, hrem, Nat.dvd_mod_iff (pow_dvd_pow 2 (by omega))]
    exact Nat.dvd_mul_left _ _
  · unfold Position.next
    simp only [hleg]
    rw [if_neg (by omega), if_neg (by omega)]

/-- The top of the loop, for a scalar. -/
theorem MulInv.next (h : MulInv w K k p lastLeg) (hk : Scalar k K) (hw' : w ≤ 8) :
    ∃ window p', p.next build.legBits w = some (window, p') ∧
      (NextWindow w K k p p' (window.bits k lastLeg) ∨
        LastWindow w K p p' (window.bits k lastLeg)) := by
  unfold Position.next
  by_cases hin : p.offset ≤ build.legBits
  · exact ⟨_, _, if_pos hin, .inl (within_spec h hw' hin)⟩
  · rw [if_neg hin]
    cases hleg : p.legs with
    | zero =>
      refine ⟨_, _, if_pos h.upper, .inr ?_⟩
      have := padding_spec h hw' hleg (by omega)
      rwa [hleg] at this
    | succ leg =>
      refine ⟨_, _, rfl, .inl ?_⟩
      exact straddle_spec h hk hw' hleg (by omega)

end Windows

/-! ## The loops -/

section Loops

variable {w : Nat} {P Q : G}

theorem doubles_smul (n : Nat) (c : ℤ) : doubles n (c • P) = (c * 2 ^ n) • P := by
  induction n generalizing c with
  | zero => simp [doubles]
  | succ n ih =>
    rw [doubles, ← add_smul, ih, pow_succ]
    congr 1
    ring

theorem doublesBefore_smul {n : Nat} (hn : n ≠ 0) (c : ℤ) :
    doublesBefore n (c • P) = some ((c * 2 ^ n) • P) := by
  rw [doublesBefore, if_neg hn, doubles_smul]

theorem Precomputed.load {t : Table G} (h : Precomputed w P t) {i : Nat} (hi : i < 1 + 2 ^ (w - 1)) :
    t.load i = some (tableCoef w i • P) := by
  rw [Table.load, if_pos (by rw [h.entries]; exact hi), h.points i (by rw [h.entries]; exact hi)]

/-- A digit that is added, in terms of the multiples with the doubles to come. -/
theorem coef_step {c coef digit V : ℤ} {before after : Nat} (hafter : after < w)
    (hc : c * 2 ^ before = V) (hcoef : coef * 2 ^ after = digit) :
    (c * 2 ^ (before + (w - after)) + coef) * 2 ^ after = 2 ^ w * V + digit := by
  have hpow : (2 : ℤ) ^ w = 2 ^ (w - after) * 2 ^ after := by
    rw [← pow_add]
    congr 1
    omega
  rw [pow_add, hpow]
  linear_combination 2 ^ (w - after) * 2 ^ after * hc + hcoef

theorem halfUp_mul_pow (K : Nat) {pad : Nat} (hpad : 1 ≤ pad) :
    halfUp (K * 2 ^ pad) = K * 2 ^ (pad - 1) := by
  obtain ⟨j, rfl⟩ : ∃ j, pad = j + 1 := ⟨pad - 1, by omega⟩
  have : (K * 2 ^ (j + 1) + 1) / 2 = K * 2 ^ j := by
    rw [Nat.pow_succ, ← Nat.mul_assoc]
    omega
  rw [halfUp, this]
  push_cast
  rfl

/-- After the last window the doubles that are left make up for the padding. -/
theorem trailing_coef {c : ℤ} {K after pad : Nat} (hpad : 1 ≤ pad) (hle : pad - 1 ≤ after)
    (hc : c * 2 ^ after = halfUp (K * 2 ^ pad)) : c * 2 ^ (after - (pad - 1)) = K := by
  rw [halfUp_mul_pow K hpad] at hc
  have hpow : (2 : ℤ) ^ after = 2 ^ (after - (pad - 1)) * 2 ^ (pad - 1) := by
    rw [← pow_add]
    congr 1
    omega
  rw [hpow, ← mul_assoc] at hc
  exact mul_right_cancel₀ (by positivity) hc

omit [AddCommGroup G] in
theorem window_div {w K rem : Nat} (h : w ≤ rem) :
    K / 2 ^ (rem - w) / 2 ^ w = K / 2 ^ rem := by
  rw [← div_pow_add]
  congr 2
  omega

omit [AddCommGroup G] in
theorem padding_div {w K rem : Nat} (h : rem < w) : K * 2 ^ (w - rem) / 2 ^ w = K / 2 ^ rem := by
  have hpow : (2 : Nat) ^ w = 2 ^ rem * 2 ^ (w - rem) := by
    rw [← Nat.pow_add]
    congr 1
    omega
  rw [hpow, Nat.mul_div_mul_right _ _ (Nat.two_pow_pos _)]

theorem trailingDoubles_smul {before skip : Nat} (hle : skip ≤ before) (c : ℤ) :
    trailingDoubles before skip (c • P) = (c * 2 ^ (before - skip)) • P := by
  unfold trailingDoubles
  split
  · exact doubles_smul _ _
  · rw [show before - skip = 0 by omega, pow_zero, mul_one]

theorem mulLoop_spec {t : Table G} (ht : Precomputed w P t) (hw : 3 ≤ w) (hw' : w ≤ 8) {K : Nat}
    {k : List (Leg build)} (hk : Scalar k K) : ∀ {fuel : Nat} {p : Position} {lastLeg : Leg build}
      {before : Nat} {c : ℤ}, MulInv w K k p lastLeg → remaining build.legBits w p + 2 ≤ fuel →
        c * 2 ^ before = halfUp (K / 2 ^ remaining build.legBits w p) →
          mulLoop t w k fuel p lastLeg before (c • P) = some ((K : ℤ) • P) := by
  intro fuel
  induction fuel with
  | zero => intro p _ _ _ _ hfuel; omega
  | succ fuel ih =>
    intro p lastLeg before c h hfuel hc
    obtain ⟨window, p', hnext, hwindow⟩ := h.next hk hw'
    have hentry := @mofEntry_spec build w (window.bits k lastLeg).1 hw hw'
    obtain ⟨hindex, hafter, hdigit, hzeroes⟩ := hentry
    have hrun : mulLoop t w k (fuel + 1) p lastLeg before (c • P) =
        mulLoop t w k fuel { p' with offset := p'.offset + w } (window.bits k lastLeg).2
          (mofEntry w (window.bits k lastLeg).1).2
          ((c * 2 ^ (before + (w - (mofEntry w (window.bits k lastLeg).1).2)) +
            tableCoef w (mofEntry w (window.bits k lastLeg).1).1) • P) := by
      simp only [mulLoop, hnext]
      rw [doublesBefore_smul (by omega), Option.bind_eq_bind, Option.bind_some, ht.load hindex,
        Option.bind_some, add_smul]
    have hstep := coef_step hafter hc hdigit
    have h1w : 1 ≤ w := by omega
    rw [hrun]
    rcases hwindow with hn | hl
    · refine ih hn.inv (by rw [hn.left]; have := hn.enough; omega) ?_
      rw [hstep, hn.left, hn.digit, halfUp_window h1w (K / 2 ^ (remaining build.legBits w p - w)),
        window_div hn.enough]
    · obtain ⟨f, rfl⟩ : ∃ f, fuel = f + 1 := ⟨fuel - 1, by omega⟩
      have hshort := hl.short
      have hpad : 1 ≤ w - remaining build.legBits w p := by omega
      have hz := hzeroes (w - remaining build.legBits w p - 1) (by omega) (by
        rw [show w - remaining build.legBits w p - 1 + 1 = w - remaining build.legBits w p by omega]
        exact hl.zeroes)
      rw [hl.digit, ← padding_div hshort, ← halfUp_window h1w] at hstep
      simp only [mulLoop, hl.done]
      rw [hl.skip, trailingDoubles_smul hz, trailing_coef hpad hz hstep]

theorem doubles_add (n : Nat) (a b : G) : doubles n (a + b) = doubles n a + doubles n b := by
  induction n generalizing a b with
  | zero => rfl
  | succ n ih =>
    rw [doubles, doubles, doubles, ← ih]
    congr 1
    abel

theorem doubles_smul_add (n : Nat) (c e : ℤ) :
    doubles n (c • P + e • Q) = (c * 2 ^ n) • P + (e * 2 ^ n) • Q := by
  rw [doubles_add, doubles_smul, doubles_smul]

theorem siAdd_eq (add1 add2 out : G) (after1 after2 : Nat) :
    siAdd add1 add2 after1 after2 out =
      some (doubles (after1 - after2) (out + add1) + add2) := by
  unfold siAdd
  split
  · next hne =>
    rw [doublesBefore, if_neg hne]
    rfl
  · next heq =>
    rw [not_not] at heq
    rw [heq]
    rfl

/-- The multiples of both points after the additions of a window, the first with more doubles to
come. -/
theorem si_coef_step {c e coef1 coef2 digit1 digit2 V1 V2 : ℤ} {before after1 after2 : Nat}
    (hafter : after1 < w) (hle : after2 ≤ after1) (hc : c * 2 ^ before = V1)
    (he : e * 2 ^ before = V2) (h1 : coef1 * 2 ^ after1 = digit1) (h2 : coef2 * 2 ^ after2 = digit2) :
    ((c * 2 ^ (before + (w - after1)) + coef1) * 2 ^ (after1 - after2)) * 2 ^ after2 =
        2 ^ w * V1 + digit1 ∧
      (e * 2 ^ (before + (w - after1)) * 2 ^ (after1 - after2) + coef2) * 2 ^ after2 =
        2 ^ w * V2 + digit2 := by
  constructor
  · rw [← coef_step hafter hc h1, mul_assoc, ← pow_add, Nat.sub_add_cancel hle]
  · rw [← coef_step (w := w) (by omega) he h2, mul_assoc e, ← pow_add,
      show before + (w - after1) + (after1 - after2) = before + (w - after2) by omega]

/-- One window of `PtSiMultiply`. -/
theorem siMulLoop_step {tP tQ : Table G} (hP : Precomputed w P tP) (hQ : Precomputed w Q tQ)
    (hw : 3 ≤ w) (hw' : w ≤ 8) {k l : List (Leg build)} {fuel : Nat} {p p' : Position}
    {lastLegK lastLegL : Leg build} {before : Nat} {c e VK VL : ℤ} {window : Window}
    (hnext : p.next build.legBits w = some (window, p')) (hc : c * 2 ^ before = VK)
    (he : e * 2 ^ before = VL) :
    ∃ c' e' after, siMulLoop tP tQ w k l (fuel + 1) p lastLegK lastLegL before (c • P + e • Q) =
        siMulLoop tP tQ w k l fuel { p' with offset := p'.offset + w } (window.bits k lastLegK).2
          (window.bits l lastLegL).2 after (c' • P + e' • Q) ∧
      c' * 2 ^ after = 2 ^ w * VK + mofDigit w (window.bits k lastLegK).1.toNat ∧
      e' * 2 ^ after = 2 ^ w * VL + mofDigit w (window.bits l lastLegL).1.toNat ∧
      after = min (mofEntry w (window.bits k lastLegK).1).2
        (mofEntry w (window.bits l lastLegL).1).2 := by
  obtain ⟨hindexK, hafterK, hdigitK, -⟩ := mofEntry_spec hw hw'
  obtain ⟨hindexL, hafterL, hdigitL, -⟩ := mofEntry_spec hw hw'
  rw [siMulLoop, hnext]
  simp only
  rw [hP.load hindexK, Option.bind_eq_bind, Option.bind_some, hQ.load hindexL, Option.bind_some]
  generalize mofEntry w (window.bits k lastLegK).1 = entryK at *
  generalize mofEntry w (window.bits l lastLegL).1 = entryL at *
  by_cases hle : entryL.2 ≤ entryK.2
  · obtain ⟨h1, h2⟩ := si_coef_step hafterK hle hc he hdigitK hdigitL
    refine ⟨_, _, entryL.2, ?_, h1, h2, by omega⟩
    rw [if_pos hle, doublesBefore, if_neg (by omega), Option.bind_some, siAdd_eq, Option.bind_some,
      doubles_smul_add, add_right_comm, ← add_smul, doubles_smul_add, add_assoc, ← add_smul]
  · obtain ⟨h1, h2⟩ := si_coef_step hafterL (by omega) he hc hdigitL hdigitK
    refine ⟨_, _, entryK.2, ?_, h2, h1, by omega⟩
    rw [if_neg hle, doublesBefore, if_neg (by omega), Option.bind_some, siAdd_eq, Option.bind_some,
      doubles_smul_add, add_assoc, ← add_smul, doubles_smul_add, add_right_comm, ← add_smul]

theorem trailingDoubles_smul_add {before skip : Nat} (hle : skip ≤ before) (c e : ℤ) :
    trailingDoubles before skip (c • P + e • Q) =
      (c * 2 ^ (before - skip)) • P + (e * 2 ^ (before - skip)) • Q := by
  unfold trailingDoubles
  split
  · exact doubles_smul_add _ _ _
  · rw [show before - skip = 0 by omega, pow_zero, mul_one, mul_one]

theorem siMulLoop_spec {tP tQ : Table G} (hP : Precomputed w P tP) (hQ : Precomputed w Q tQ)
    (hw : 3 ≤ w) (hw' : w ≤ 8) {K M : Nat} {k l : List (Leg build)} (hk : Scalar k K)
    (hl : Scalar l M) : ∀ {fuel : Nat} {p : Position} {lastLegK lastLegL : Leg build}
      {before : Nat} {c e : ℤ}, MulInv w K k p lastLegK → MulInv w M l p lastLegL →
        remaining build.legBits w p + 2 ≤ fuel →
        c * 2 ^ before = halfUp (K / 2 ^ remaining build.legBits w p) →
        e * 2 ^ before = halfUp (M / 2 ^ remaining build.legBits w p) →
          siMulLoop tP tQ w k l fuel p lastLegK lastLegL before (c • P + e • Q) =
            some ((K : ℤ) • P + (M : ℤ) • Q) := by
  intro fuel
  have h1w : 1 ≤ w := by omega
  induction fuel with
  | zero => intro p _ _ _ _ _ _ _ hfuel; omega
  | succ fuel ih =>
    intro p lastLegK lastLegL before c e h g hfuel hc he
    obtain ⟨window, p', hnext, hwindow⟩ := h.next hk hw'
    obtain ⟨window', p'', hnext', hwindow'⟩ := g.next hl hw'
    rw [hnext] at hnext'
    obtain ⟨rfl, rfl⟩ := Prod.mk.inj (Option.some.inj hnext')
    obtain ⟨c', e', after, hrun, hc', he', hmin⟩ := siMulLoop_step hP hQ hw hw' (k := k) (l := l)
      hnext hc he
    rw [hrun]
    rcases hwindow with hn | hlast
    · rcases hwindow' with hn' | hlast'
      · refine ih hn.inv hn'.inv (by rw [hn.left]; have := hn.enough; omega) ?_ ?_
        · rw [hc', hn.left, hn.digit, halfUp_window h1w (K / 2 ^ (remaining build.legBits w p - w)),
            window_div hn.enough]
        · rw [he', hn.left, hn'.digit, halfUp_window h1w (M / 2 ^ (remaining build.legBits w p - w)),
            window_div hn.enough]
      · exact absurd hlast'.short (Nat.not_lt.mpr hn.enough)
    · rcases hwindow' with hn' | hlast'
      · exact absurd hlast.short (Nat.not_lt.mpr hn'.enough)
      · obtain ⟨f, rfl⟩ : ∃ f, fuel = f + 1 := ⟨fuel - 1, by omega⟩
        have hshort := hlast.short
        have hpad : 1 ≤ w - remaining build.legBits w p := by omega
        have hsucc : w - remaining build.legBits w p - 1 + 1 = w - remaining build.legBits w p := by
          omega
        have hzK := (mofEntry_spec hw hw').2.2.2
          (w - remaining build.legBits w p - 1) (by omega) (by rw [hsucc]; exact hlast.zeroes)
        have hzL := (mofEntry_spec hw hw').2.2.2
          (w - remaining build.legBits w p - 1) (by omega) (by rw [hsucc]; exact hlast'.zeroes)
        have hz : w - remaining build.legBits w p - 1 ≤ after := by omega
        rw [hlast.digit, ← padding_div hshort, ← halfUp_window h1w] at hc'
        rw [hlast'.digit, ← padding_div hshort, ← halfUp_window h1w] at he'
        simp only [siMulLoop, hlast.done]
        rw [hlast.skip, trailingDoubles_smul_add hz, trailing_coef hpad hz hc',
          trailing_coef hpad hz he']

end Loops

/-! ## Scalars -/

section Scalars

variable {w : Nat} {k : List (Leg build)} {msbK : u8}

/-- A scalar of a register with one more bit at the top. -/
def scalarValue (k : List (Leg build)) (msbK : u8) : Nat :=
  value k + msbK.toNat * 2 ^ (build.legBits * k.length)

theorem scalar_scalarValue (k : List (Leg build)) (msbK : u8) :
    Scalar k (scalarValue k msbK) := by
  intro n hn
  have hget : k.getD n 0 = k[n] := by simp [hn]
  have htake : (k.take n).length = n := by
    rw [List.length_take]
    omega
  have hsplit : value k = value (k.take n) +
      (2 ^ build.legBits) ^ n * (k[n].toNat + 2 ^ build.legBits * value (k.drop (n + 1))) := by
    have := value_append (k.take n) (k.drop n)
    rwa [List.take_append_drop, htake, List.drop_eq_getElem_cons hn, value_cons] at this
  have hlt := value_lt (k.take n)
  rw [htake] at hlt
  have htop : 2 ^ (build.legBits * k.length) = (2 ^ build.legBits) ^ n *
      (2 ^ build.legBits * 2 ^ (build.legBits * (k.length - n - 1))) := by
    rw [← pow_mul, ← Nat.pow_add, ← Nat.pow_add]
    congr 1
    obtain ⟨j, hj⟩ : ∃ j, k.length = n + 1 + j := ⟨k.length - (n + 1), by omega⟩
    rw [hj, show n + 1 + j - n - 1 = j by omega]
    ring
  have hvalue : scalarValue k msbK = value (k.take n) + (2 ^ build.legBits) ^ n * (k[n].toNat +
      2 ^ build.legBits * (value (k.drop (n + 1)) +
        msbK.toNat * 2 ^ (build.legBits * (k.length - n - 1)))) := by
    rw [scalarValue, hsplit, htop]
    ring
  have hpow : 2 ^ (build.legBits * n) = (2 ^ build.legBits) ^ n := pow_mul _ _ _
  rw [hget, hvalue, hpow, Nat.add_mul_div_left _ _ (by positivity), Nat.div_eq_of_lt hlt,
    Nat.zero_add, Nat.add_mul_mod_self_left, Nat.mod_eq_of_lt k[n].isLt]

theorem scalarValue_div (k : List (Leg build)) (msbK : u8) :
    scalarValue k msbK / 2 ^ (build.legBits * k.length) = msbK.toNat := by
  have hlt := value_lt k
  rw [← pow_mul] at hlt
  rw [scalarValue, Nat.add_mul_div_right _ _ (Nat.two_pow_pos _), Nat.div_eq_of_lt hlt,
    Nat.zero_add]

theorem msb_toNat (hmsb : msbK.toNat ≤ 1) :
    (msbK.setWidth build.legBits : Leg build).toNat = msbK.toNat := by
  have := two_le_pow_legBits build
  rw [BitVec.toNat_setWidth, Nat.mod_eq_of_lt (by omega)]

theorem mulInv_start (k : List (Leg build)) (hmsb : msbK.toNat ≤ 1) :
    MulInv w (scalarValue k msbK) k ⟨k.length, build.legBits + w, 0⟩
      (msbK.setWidth build.legBits) := by
  have := two_le_pow_legBits build
  refine ⟨Nat.le_refl _, ?_, Nat.le_refl _, ?_⟩
  · have := build.legBits_ge
    simp only
    omega
  · simp only
    rw [msb_toNat hmsb, scalarValue_div, Nat.mod_eq_of_lt (by omega)]

theorem remaining_start (k : List (Leg build)) :
    remaining build.legBits w ⟨k.length, build.legBits + w, 0⟩ = build.legBits * k.length := by
  simp [remaining]

theorem halfUp_start (k : List (Leg build)) (hmsb : msbK.toNat ≤ 1) :
    (msbK.toNat : ℤ) * 2 ^ 0 = halfUp (scalarValue k msbK /
      2 ^ remaining build.legBits w ⟨k.length, build.legBits + w, 0⟩) := by
  rw [remaining_start, scalarValue_div, halfUp]
  omega

/-- The point that is copied first. -/
theorem Precomputed.load_start {P : G} {t : Table G} (h : Precomputed w P t)
    (hmsb : msbK.toNat ≤ 1) :
    t.load (if (msbK.setWidth build.legBits : Leg build) ≠ 0 then 1 else 0) =
      some ((msbK.toNat : ℤ) • P) := by
  have hpos := Nat.two_pow_pos (w - 1)
  have hpos' := Nat.two_pow_pos (w - 2)
  have hzero : (msbK.setWidth build.legBits : Leg build) = 0 ↔ msbK.toNat = 0 := by
    rw [← BitVec.toNat_inj, msb_toNat hmsb]
    simp
  rcases Nat.le_one_iff_eq_zero_or_eq_one.mp hmsb with h0 | h1
  · rw [if_neg (by rw [not_not]; exact hzero.mpr h0), h.load (by omega), h0]
    simp [tableCoef]
  · rw [if_pos (by rw [Ne, hzero]; omega), h.load (by omega), h1, tableCoef, if_neg (by omega),
      if_pos (by omega)]
    norm_num

theorem ptMultiply_eq {P : G} {t : Table G} (h : Precomputed w P t) (hw : 3 ≤ w) (hw' : w ≤ 8)
    (hmsb : msbK.toNat ≤ 1) {fuel : Nat} (hfuel : build.legBits * k.length + 2 ≤ fuel) :
    ptMultiply fuel t w k msbK = some (scalarValue k msbK • P) := by
  unfold ptMultiply
  dsimp only
  rw [h.load_start hmsb, Option.bind_eq_bind, Option.bind_some,
    mulLoop_spec h hw hw' (scalar_scalarValue k msbK) (mulInv_start k hmsb)
      (by rw [remaining_start]; exact hfuel) (halfUp_start k hmsb), natCast_zsmul]

theorem ptSiMultiply_eq {P Q : G} {tP tQ : Table G} (hP : Precomputed w P tP)
    (hQ : Precomputed w Q tQ) (hw : 3 ≤ w) (hw' : w ≤ 8) {l : List (Leg build)} {msbL : u8}
    (hlen : k.length = l.length) (hmsbK : msbK.toNat ≤ 1) (hmsbL : msbL.toNat ≤ 1) {fuel : Nat}
    (hfuel : build.legBits * k.length + 2 ≤ fuel) :
    ptSiMultiply fuel tP tQ w k msbK l msbL =
      some (scalarValue k msbK • P + scalarValue l msbL • Q) := by
  unfold ptSiMultiply
  have hL := mulInv_start (w := w) l hmsbL
  have hstart := halfUp_start (w := w) l hmsbL
  rw [← hlen] at hL hstart
  dsimp only
  rw [hP.load_start hmsbK, Option.bind_eq_bind, Option.bind_some,
    hQ.load_start hmsbL, Option.bind_some, siMulLoop_spec hP hQ hw hw' (scalar_scalarValue k msbK)
      (scalar_scalarValue l msbL) (mulInv_start k hmsbK) hL (by rw [remaining_start]; exact hfuel)
      (halfUp_start k hmsbK) hstart, natCast_zsmul, natCast_zsmul]

/-! ## The reference multiplier -/

/-- `RefMul` has seen the bits of `V`. -/
def RefInv (P : G) (V : Nat) (s : Bool × G) : Prop :=
  (s.1 = true ↔ V ≠ 0) ∧ (s.1 = true → s.2 = V • P)

theorem RefInv.step {P : G} {V : Nat} {s : Bool × G} (h : RefInv P V s) (bit : Bool) :
    RefInv P (2 * V + if bit then 1 else 0)
      (if bit then if s.1 then (true, P + (s.2 + s.2)) else (true, P) else (s.1, s.2 + s.2)) := by
  obtain ⟨seen, out⟩ := s
  obtain ⟨hseen, hout⟩ := h
  simp only at hseen hout ⊢
  cases bit with
  | true =>
    cases seen with
    | true =>
      refine ⟨by simp, fun _ => ?_⟩
      simp only [if_true, hout rfl]
      module
    | false =>
      have hV : V = 0 := by simpa using hseen
      subst hV
      exact ⟨by simp, fun _ => by simp⟩
  | false =>
    refine ⟨?_, fun hs => ?_⟩
    · simp only [Bool.false_eq_true, if_false, hseen]
      omega
    · simp only [Bool.false_eq_true, if_false] at hs ⊢
      rw [hout hs]
      module

theorem refMulLeg_spec {P : G} {K n : Nat} {leg : Leg build}
    (hleg : leg.toNat = K / 2 ^ (build.legBits * n) % 2 ^ build.legBits) :
    ∀ {j : Nat} {s : Bool × G}, j ≤ build.legBits →
      RefInv P (K / 2 ^ (build.legBits * n + j)) s →
        RefInv P (K / 2 ^ (build.legBits * n)) (refMulLeg P leg j s) := by
  intro j
  induction j with
  | zero => exact fun _ h => h
  | succ j ih =>
    intro s hj h
    have hshl : ((1 : Leg build) <<< j).toNat = 2 ^ j := by
      rw [BitVec.toNat_shiftLeft, Nat.shiftLeft_eq, one_toNat, Nat.one_mul,
        Nat.mod_eq_of_lt (Nat.pow_lt_pow_right (by omega) (by omega))]
    have hbit : (leg &&& ((1 : Leg build) <<< j) ≠ 0) ↔
        K / 2 ^ (build.legBits * n + j) % 2 = 1 := by
      have hsplit : (2 : Nat) ^ build.legBits = 2 ^ j * 2 ^ (build.legBits - j) := by
        rw [← Nat.pow_add]
        congr 1
        omega
      have hlow : leg.toNat / 2 ^ j % 2 = K / 2 ^ (build.legBits * n + j) % 2 := by
        rw [hleg, div_pow_add, hsplit, Nat.mod_mul_right_div_self]
        exact Nat.mod_mod_of_dvd _ (dvd_pow_self 2 (by omega))
      rw [Ne, ← BitVec.toNat_inj, BitVec.toNat_and, hshl, Nat.and_two_pow, Nat.toNat_testBit, hlow]
      have hpos := Nat.two_pow_pos j
      rcases Nat.mod_two_eq_zero_or_one (K / 2 ^ (build.legBits * n + j)) with h0 | h1
      · simp [h0]
      · simp [h1]
    have hdouble : K / 2 ^ (build.legBits * n + j) =
        2 * (K / 2 ^ (build.legBits * n + (j + 1))) +
          if K / 2 ^ (build.legBits * n + j) % 2 = 1 then 1 else 0 := by
      rw [← Nat.add_assoc, div_pow_add K _ 1, Nat.pow_one]
      split <;> omega
    rw [refMulLeg]
    refine ih (by omega) ?_
    have hstep := h.step (decide (K / 2 ^ (build.legBits * n + j) % 2 = 1))
    simp only [decide_eq_true_eq] at hstep
    rw [← hdouble] at hstep
    simp only [hbit]
    exact hstep

theorem refMulLegs_spec {P : G} {K : Nat} (hk : Scalar k K) :
    ∀ {n : Nat} {s : Bool × G}, n ≤ k.length → RefInv P (K / 2 ^ (build.legBits * n)) s →
      RefInv P K (refMulLegs P k n s) := by
  intro n
  induction n with
  | zero =>
    intro s _ h
    rwa [Nat.mul_zero, Nat.pow_zero, Nat.div_one] at h
  | succ n ih =>
    intro s hn h
    refine ih (by omega) (refMulLeg_spec (hk n (by omega)) (Nat.le_refl _) ?_)
    rwa [← Nat.mul_succ]

theorem refMul_eq {P : G} (hmsb : msbK.toNat ≤ 1) (hne : scalarValue k msbK ≠ 0) (out : G) :
    refMul P k msbK out = scalarValue k msbK • P := by
  have hstart : RefInv P (scalarValue k msbK / 2 ^ (build.legBits * k.length))
      (if msbK ≠ 0 then (true, P) else (false, out)) := by
    rw [scalarValue_div]
    have hzero : msbK = 0 ↔ msbK.toNat = 0 := by
      rw [← BitVec.toNat_inj]
      simp
    by_cases h0 : msbK = 0
    · rw [if_neg (by simpa using h0), hzero.mp h0]
      exact ⟨by simp, by simp⟩
    · have h1 : msbK.toNat = 1 := by
        rw [hzero] at h0
        omega
      rw [if_pos h0, h1]
      exact ⟨by simp, by simp⟩
  have h := refMulLegs_spec (scalar_scalarValue k msbK) (Nat.le_refl _) hstart
  exact h.2 (h.1.mpr hne)

/-- **Scalar multiplication.** With tables made by `PtMultiplyPrecomp`, `PtMultiply` gives the multiple
of a point and `PtSiMultiply` the sum of two, without a look outside of the tables; for scalars that
are not zero `PtMultiply` is `RefMul`. -/
theorem scalar_multiplication (hw : 3 ≤ w) (hw' : w ≤ 8) (k l : List (Leg build))
    (hlen : k.length = l.length) (hmsbK : msbK.toNat ≤ 1) {msbL : u8} (hmsbL : msbL.toNat ≤ 1)
    (P Q : G) (memoryP memoryQ : Nat → G) (out : G) :
    ∃ tP tQ, ptMultiplyPrecomp P w (ptMultiplyPrecompAlloc w memoryP) = some tP ∧
      ptMultiplyPrecomp Q w (ptMultiplyPrecompAlloc w memoryQ) = some tQ ∧
      tP.entries = 1 + 2 ^ (w - 1) ∧ tQ.entries = 1 + 2 ^ (w - 1) ∧
      ∀ fuel, build.legBits * k.length + 2 ≤ fuel →
        ptMultiply fuel tP w k msbK = some (scalarValue k msbK • P) ∧
        ptSiMultiply fuel tP tQ w k msbK l msbL =
          some (scalarValue k msbK • P + scalarValue l msbL • Q) ∧
        (scalarValue k msbK ≠ 0 → ptMultiply fuel tP w k msbK = some (refMul P k msbK out)) := by
  obtain ⟨tP, htP, hP⟩ := ptMultiplyPrecomp_spec hw P memoryP
  obtain ⟨tQ, htQ, hQ⟩ := ptMultiplyPrecomp_spec hw Q memoryQ
  refine ⟨tP, tQ, htP, htQ, hP.entries, hQ.entries, fun fuel hfuel => ?_⟩
  have hmul := ptMultiply_eq (k := k) hP hw hw' hmsbK hfuel
  refine ⟨hmul, ptSiMultiply_eq hP hQ hw hw' hlen hmsbK hmsbL hfuel, fun hne => ?_⟩
  rw [hmul, refMul_eq hmsbK hne]

/-- One leg of 64 bits, with the top bit set for the first scalar. -/
theorem scalar_multiplication_one :
    ∃ tP tQ, ptMultiplyPrecomp (5 : ℤ) 3 (ptMultiplyPrecompAlloc 3 (fun _ => 0)) = some tP ∧
      ptMultiplyPrecomp (7 : ℤ) 3 (ptMultiplyPrecompAlloc 3 (fun _ => 0)) = some tQ ∧
      ptSiMultiply 66 tP tQ 3 [(11 : Leg ⟨true, true, false⟩)] 1 [3] 0 =
        some ((11 + 2 ^ 64) * 5 + 3 * 7) := by
  obtain ⟨tP, tQ, htP, htQ, -, -, h⟩ := @scalar_multiplication ⟨true, true, false⟩ ℤ _ 3
    1 (by decide) (by decide) [11] [3] rfl (by decide) 0 (by decide) 5 7 (fun _ => 0) (fun _ => 0) 0
  refine ⟨tP, tQ, htP, htQ, ?_⟩
  rw [(h 66 (by decide)).2.1]
  rfl

end Scalars

end Libcat.Math.PtMultiply
