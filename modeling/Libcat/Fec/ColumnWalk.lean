import Libcat.Fec.NextPrime
import Libcat.Lib.Weyl
import Libcat.Math.BitMath

/-!
# The columns of a row

A row of the check matrix is a weight, a first column and a step. `IterateNextColumn` walks from a
column to the next one: a Weyl walk modulo the next prime that skips what is not a column. The walk of
a row never comes back to a column, up to as many columns as there are.
-/

namespace Libcat.Fec.ColumnWalk

open Weyl NextPrime

section Model

/-- `IterateNextColumn`. -/
def iterateNextColumn (x b p a : Nat) : Nat :=
  let x := (x + a) % p
  if x ≥ b then
    let distance := p - x
    if a ≥ distance then a - distance
    else (a <<< 16 - distance) % a
  else x

/-- The first columns of a walk, from `x` on. -/
def walk (b p a : Nat) : Nat → Nat → List Nat
  | 0, _ => []
  | weight + 1, x => x :: walk b p a weight (iterateNextColumn x b p a)

structure Abyssinian where
  x : u64
  y : u64

def Abyssinian.step (o : Abyssinian) : Abyssinian where
  x := 0xfffd21a7 * (o.x.setWidth 32).setWidth 64 + (o.x >>> 32)
  y := 0xfffd1361 * (o.y.setWidth 32).setWidth 64 + (o.y >>> 32)

/-- The hash of a seed in `Initialize`. -/
def mix (seed : u64) : u64 :=
  let seed := seed * 0xff51afd7ed558ccd
  let seed := seed ^^^ (seed >>> 33)
  let seed := seed * 0xc4ceb9fe1a85ec53
  seed ^^^ (seed >>> 33)

/-- `Initialize`, with the first output discarded. -/
def Abyssinian.start (x y : u32) : Abyssinian :=
  let x := x + y
  let y := y + x
  Abyssinian.step ⟨mix (0x9368e53c2f6af274 ^^^ x.setWidth 64),
    mix (0x586dcd208f7cd3fd ^^^ y.setWidth 64)⟩

/-- `Next`. -/
def Abyssinian.next (o : Abyssinian) : u32 × Abyssinian :=
  let o := o.step
  ((o.x.setWidth 32).rotateLeft 7 + o.y.setWidth 32, o)

def MAX_WEIGHT_1 : Nat := 4096

def WEIGHT_DIST : List u32 := [0x00000000, 0x80000000, 0xaaaaaaaa, 0xc0000000, 0xcccccccc, 0xd5555555, 0xdb6db6db, 0xe0000000,
  0xe38e38e3, 0xe6666666, 0xe8ba2e8b, 0xeaaaaaaa, 0xec4ec4ec, 0xedb6db6d, 0xeeeeeeee, 0xefffffff,
  0xf0f0f0f0, 0xf1c71c71, 0xf286bca1, 0xf3333333, 0xf3cf3cf3, 0xf45d1745, 0xf4de9bd3, 0xf5555555,
  0xf5c28f5c, 0xf6276276, 0xf684bda1, 0xf6db6db6, 0xf72c234f, 0xf7777777, 0xf7bdef7b, 0xf7ffffff,
  0xf83e0f83, 0xf8787878, 0xf8af8af8, 0xf8e38e38, 0xf914c1ba, 0xf9435e50, 0xf96f96f9, 0xf9999999,
  0xf9c18f9c, 0xf9e79e79, 0xfa0be82f, 0xfa2e8ba2, 0xfa4fa4fa, 0xfa6f4de9, 0xfa8d9df5, 0xfaaaaaaa,
  0xfac687d6, 0xfae147ae, 0xfafafafa, 0xfb13b13b, 0xfb2b78c1, 0xfb425ed0, 0xfb586fb5, 0xfb6db6db,
  0xfb823ee0, 0xfb9611a7, 0xfba93868, 0xfbbbbbbb, 0xfbcda3ac, 0xfbdef7bd, 0xfbefbefb, 0xffffffff]

/-- `(u32)((1./128) * 0xffffffff)`. -/
def P1 : u32 := 0x01ffffff

/-- The loop of `GeneratePeelRowWeight`; the last entry of the table stops it. -/
def weightFrom (rv : u32) : List u32 → Nat → Nat
  | [], weight => weight
  | entry :: table, weight => if rv > entry then weightFrom rv table (weight + 1) else weight + 1

/-- `GeneratePeelRowWeight`. -/
def generatePeelRowWeight (rv : u32) (peel_column_count : Nat) : Nat :=
  if peel_column_count ≤ MAX_WEIGHT_1 ∧ rv < P1 then 1
  else
    let rv := if peel_column_count ≤ MAX_WEIGHT_1 then rv - P1 else rv
    if rv ≤ WEIGHT_DIST.getD 1 0 then 2
    else if rv ≤ WEIGHT_DIST.getD 2 0 then 3
    else weightFrom rv (WEIGHT_DIST.drop 3) 3

/-- The column generators of a row. -/
structure Generators where
  peel_weight : Nat
  peel_a : Nat
  peel_x0 : Nat
  mix_a : Nat
  mix_x0 : Nat

/-- `GeneratePeelRow`. -/
def generatePeelRow (id p_seed : u32) (peel_column_count mix_column_count : Nat) : Generators :=
  let prng := Abyssinian.start id p_seed
  let (rv, prng) := prng.next
  let weight := generatePeelRowWeight rv peel_column_count
  let max_weight := peel_column_count / 2
  let (rv, prng) := prng.next
  let mix := prng.next.1
  { peel_weight := if weight > max_weight then max_weight else weight
    peel_a := (rv.setWidth 16).toNat % (peel_column_count - 1) + 1
    peel_x0 := (rv >>> 16).toNat % peel_column_count
    mix_a := (mix.setWidth 16).toNat % (mix_column_count - 1) + 1
    mix_x0 := (mix >>> 16).toNat % mix_column_count }

end Model

section Spec

variable {b p a x : Nat}

/-- `IterateNextColumn` finds the next point of the walk that is a column. -/
theorem iterateNextColumn_firstReturn (ha : 0 < a) (hab : a < b) (hbp : b ≤ p) (hp : p ≤ 0x10000) :
    FirstReturn (fun x => iterateNextColumn x b p a) b p a := by
  intro x hx
  show ∃ j, 0 < j ∧ iterateNextColumn x b p a = _ ∧ iterateNextColumn x b p a < b ∧ _
  unfold iterateNextColumn
  have hy : (x + a) % p < p := Nat.mod_lt _ (by omega)
  have hwalk : ∀ t, (x + (t + 1) * a) % p = ((x + a) % p + t * a) % p := fun t => by
    rw [Nat.mod_add_mod, Nat.succ_mul, Nat.add_assoc, Nat.add_comm a]
  set y := (x + a) % p with hydef
  by_cases hin : y ≥ b
  · -- the steps `t` from `y` to the end of the modulus
    obtain ⟨t, hlo, hhi⟩ : ∃ t, p - y ≤ t * a ∧ t * a < p - y + a := by
      refine ⟨(p - y + a - 1) / a, ?_, ?_⟩
      · have := Nat.lt_div_mul_add (a := p - y + a - 1) ha
        omega
      · have := Nat.div_mul_le_self (p - y + a - 1) a
        omega
    have hreturn : (x + (t + 1) * a) % p = t * a - (p - y) := by
      rw [hwalk, show y + t * a = t * a - (p - y) + p by omega, Nat.add_mod_right,
        Nat.mod_eq_of_lt (by omega)]
    have hresult : (if a ≥ p - y then a - (p - y) else (a <<< 16 - (p - y)) % a) =
        t * a - (p - y) := by
      by_cases hone : a ≥ p - y
      · have ht : t = 1 := by
          have h2 : t < 2 := by
            by_contra h
            have := Nat.mul_le_mul_right a (show 2 ≤ t by omega)
            omega
          rcases Nat.eq_zero_or_pos t with rfl | _
          · omega
          · omega
        rw [if_pos hone, ht, Nat.one_mul]
      · -- the rare case
        have ht : t ≤ 0x10000 := by
          by_contra h
          have := Nat.mul_le_mul_right a (show 0x10001 ≤ t by omega)
          omega
        have hsplit : a <<< 16 - (p - y) = t * a - (p - y) + a * (0x10000 - t) := by
          have hmul : a * 0x10000 = t * a + a * (0x10000 - t) := by
            rw [Nat.mul_comm t a, ← Nat.mul_add, Nat.add_sub_cancel' ht]
          rw [Nat.shiftLeft_eq, show 2 ^ 16 = 0x10000 from rfl, hmul]
          omega
        rw [if_neg hone, hsplit, Nat.add_mul_mod_self_left, Nat.mod_eq_of_lt (by omega)]
    simp only [if_pos hin, hresult]
    refine ⟨t + 1, Nat.succ_pos t, hreturn.symm, by omega, fun i hi hlt => ?_⟩
    obtain ⟨k, rfl⟩ := Nat.exists_eq_succ_of_ne_zero hi.ne'
    have hk : k * a + a ≤ t * a := by
      rw [← Nat.succ_mul]
      exact Nat.mul_le_mul_right a (by omega)
    rw [Nat.succ_eq_add_one, hwalk, Nat.mod_eq_of_lt (by omega)]
    omega
  · simp only [if_neg hin]
    exact ⟨1, Nat.one_pos, by rw [Nat.one_mul], Nat.not_le.mp hin, fun i hi hlt => absurd hi (by omega)⟩

theorem length_walk (b p a weight x : Nat) : (walk b p a weight x).length = weight := by
  induction weight generalizing x with
  | zero => rfl
  | succ weight ih =>
    unfold walk
    rw [List.length_cons, ih]

theorem walk_eq (b p a weight x : Nat) :
    walk b p a weight x = (List.range weight).map fun k => (fun x => iterateNextColumn x b p a)^[k] x := by
  induction weight generalizing x with
  | zero => rfl
  | succ weight ih =>
    unfold walk
    rw [ih, List.range_succ_eq_map, List.map_cons, List.map_map]
    rfl

theorem walk_lt (ha : 0 < a) (hab : a < b) (hbp : b ≤ p) (hp : p ≤ 0x10000) (hx : x < b)
    (weight : Nat) : ∀ c ∈ walk b p a weight x, c < b := by
  rw [walk_eq]
  intro c hc
  obtain ⟨k, -, rfl⟩ := List.mem_map.mp hc
  exact (iterateNextColumn_firstReturn ha hab hbp hp).iterate_lt hx k

/-- The first `b` columns of a walk differ. -/
theorem walk_nodup (ha : 0 < a) (hab : a < b) (hbp : b ≤ p) (hp : p ≤ 0x10000) (hprime : p.Prime)
    (hx : x < b) {weight : Nat} (hweight : weight ≤ b) : (walk b p a weight x).Nodup := by
  have hcop : Nat.Coprime a p :=
    ((Nat.Prime.coprime_iff_not_dvd hprime).mpr
      (Nat.not_dvd_of_pos_of_lt ha (hab.trans_le hbp))).symm
  have hinj := (iterateNextColumn_firstReturn ha hab hbp hp).injective hbp hcop hx
  rw [walk_eq]
  refine List.Nodup.map_on (fun k hk l hl heq => ?_) List.nodup_range
  have hk := List.mem_range.mp hk
  have hl := List.mem_range.mp hl
  exact hinj (Set.mem_Iio.mpr (by omega)) (Set.mem_Iio.mpr (by omega)) heq

/-- **The walk over `b` columns** does not come back to one in `b` steps, wherever it is, and the
modulus that `NextPrime16` gives for the block counts is one for it. -/
theorem walk_without_replacement :
    (∀ b p a x, 2 ≤ b → p.Prime → b ≤ p → p < 0x10000 → 1 ≤ a → a < b → x < b → ∀ m,
      (∀ c ∈ walk b p a b ((fun x => iterateNextColumn x b p a)^[m] x), c < b) ∧
        (walk b p a b ((fun x => iterateNextColumn x b p a)^[m] x)).Nodup) ∧
      ∀ b, 2 ≤ b → b ≤ 64000 →
        ∃ q, (∀ fuel, 64007 < fuel → nextPrime16 fuel b = some q) ∧ q.Prime ∧ b ≤ q ∧ q < 0x10000 := by
  constructor
  · intro b p a x _ hprime hbp hp ha hab hx m
    have hm := (iterateNextColumn_firstReturn ha hab hbp hp.le).iterate_lt hx m
    exact ⟨walk_lt ha hab hbp hp.le hm b, walk_nodup ha hab hbp hp.le hprime hm le_rfl⟩
  · intro b hge hle
    obtain ⟨q, hrun, hq, hbq, hmax⟩ := nextPrime16_spec hge hle
    exact ⟨q, hrun, hq, hbq, by omega⟩

/-- Ten columns modulo eleven. -/
theorem walk_without_replacement_ten : (walk 10 11 3 10 2).Nodup :=
  (walk_without_replacement.1 10 11 3 2 (by decide) (by norm_num) (by decide) (by decide) (by decide)
    (by decide) (by decide) 0).2

/-- A generator of columns: what `GeneratePeelRow` makes for `b` columns. -/
structure Valid (b weight a x : Nat) : Prop where
  weight_pos : 0 < weight
  weight_le : weight ≤ b / 2
  a_pos : 0 < a
  a_lt : a < b
  x_lt : x < b

variable {weight : Nat}

theorem Valid.walk_lt (h : Valid b weight a x) (hbp : b ≤ p) (hp : p ≤ 0x10000) :
    ∀ c ∈ walk b p a weight x, c < b :=
  ColumnWalk.walk_lt h.a_pos h.a_lt hbp hp h.x_lt weight

/-- A row has no column twice. -/
theorem Valid.walk_nodup (h : Valid b weight a x) (hbp : b ≤ p) (hp : p ≤ 0x10000) (hprime : p.Prime) :
    (walk b p a weight x).Nodup :=
  ColumnWalk.walk_nodup h.a_pos h.a_lt hbp hp hprime h.x_lt (by have := h.weight_le; omega)

theorem weightFrom_ge (rv : u32) (table : List u32) (weight : Nat) :
    weight ≤ weightFrom rv table weight := by
  induction table generalizing weight with
  | nil => exact le_rfl
  | cons entry table ih =>
    unfold weightFrom
    split
    · exact (Nat.le_succ _).trans (ih (weight + 1))
    · exact Nat.le_succ _

theorem generatePeelRowWeight_pos (rv : u32) (n : Nat) : 0 < generatePeelRowWeight rv n := by
  unfold generatePeelRowWeight
  dsimp only
  by_cases h1 : n ≤ MAX_WEIGHT_1 ∧ rv < P1
  · rw [if_pos h1]
    exact Nat.one_pos
  · rw [if_neg h1]
    set rv' := if n ≤ MAX_WEIGHT_1 then rv - P1 else rv with hrv
    by_cases h2 : rv' ≤ WEIGHT_DIST.getD 1 0
    · rw [if_pos h2]
      exact Nat.two_pos
    · rw [if_neg h2]
      by_cases h3 : rv' ≤ WEIGHT_DIST.getD 2 0
      · rw [if_pos h3]
        exact Nat.succ_pos 2
      · rw [if_neg h3]
        exact Nat.lt_of_lt_of_le (Nat.succ_pos 2) (weightFrom_ge _ _ _)

theorem generatePeelRow_valid (id p_seed : u32) {n : Nat} (hn : 2 ≤ n) (mix_column_count : Nat) :
    Valid n (generatePeelRow id p_seed n mix_column_count).peel_weight
      (generatePeelRow id p_seed n mix_column_count).peel_a
      (generatePeelRow id p_seed n mix_column_count).peel_x0 := by
  unfold generatePeelRow
  dsimp only
  set weight := generatePeelRowWeight (Abyssinian.start id p_seed).next.1 n with hweight
  have hpos : 0 < weight := generatePeelRowWeight_pos _ _
  refine ⟨?_, ?_, Nat.succ_pos _, ?_, Nat.mod_lt _ (by omega)⟩
  · split <;> omega
  · split <;> omega
  · have := Nat.mod_lt ((Abyssinian.start id p_seed).next.2.next.1.setWidth 16).toNat
      (show 0 < n - 1 by omega)
    omega

end Spec

end Libcat.Fec.ColumnWalk
