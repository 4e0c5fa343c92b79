import Mathlib.Data.BitVec
import Mathlib.Tactic

/-!
# 128-bit macros

The macros of `BigMath.hpp` on a pair of words. A platform has a version of its own of most of them:
`native` is the one over a 128-bit type, which assembly and intrinsics agree with, and `portable` the
default, by halves of a word. They agree on everything but `CAT_PMUL64`, whose default version adds
the two middle products in one word; `pmul64_eq_iff` says when.

A function that uses the macros takes them as an argument, in a monad: `checked` stops at a sum that
overflows, and what a checked run returns every other run returns (`Agrees`).
-/

namespace Libcat.Math.BigMath

/-- A 128-bit number, in two words. -/
@[ext] structure Wide where
  hi : BitVec 64
  lo : BitVec 64
  deriving DecidableEq, Repr

namespace Wide

def toNat (r : Wide) : Nat := r.hi.toNat * 2 ^ 64 + r.lo.toNat

theorem toNat_mk (hi lo : BitVec 64) : toNat ⟨hi, lo⟩ = hi.toNat * 2 ^ 64 + lo.toNat := rfl

theorem eq_of_toNat_eq {r x : Wide} (h : r.toNat = x.toNat) : r = x := by
  have := r.hi.isLt
  have := r.lo.isLt
  have := x.hi.isLt
  have := x.lo.isLt
  unfold toNat at h
  refine Wide.ext (BitVec.eq_of_toNat_eq ?_) (BitVec.eq_of_toNat_eq ?_) <;> omega

end Wide

/-! ## The default versions -/

/-- `CAT_MUL32`. -/
def mul32 (x y : BitVec 64) : BitVec 64 :=
  (x.setWidth 32).setWidth 64 * (y.setWidth 32).setWidth 64

/-- `CAT_ADD128`. -/
def add128 (r x : Wide) : Wide :=
  let lo := r.lo + x.lo
  let hi := r.hi + x.hi
  ⟨hi + (if lo < x.lo then 1 else 0), lo⟩

/-- `CAT_PADD128`. -/
def padd128 (r : Wide) (x : BitVec 64) : Wide :=
  let lo := r.lo + x
  ⟨r.hi + (if lo < x then 1 else 0), lo⟩

/-- `CAT_PMUL64`. -/
def pmul64 (x y : BitVec 64) : Wide :=
  let m := mul32 x (y >>> 32) + mul32 (x >>> 32) y
  add128 ⟨mul32 (x >>> 32) (y >>> 32), mul32 x y⟩ ⟨m >>> 32, m <<< 32⟩

/-- `CAT_MUL64`. -/
def mul64 (x y : BitVec 64) : Wide :=
  let m := mul32 x (y >>> 32)
  let n := mul32 (x >>> 32) y
  let r := add128 ⟨mul32 (x >>> 32) (y >>> 32), mul32 x y⟩ ⟨m >>> 32, m <<< 32⟩
  add128 r ⟨n >>> 32, n <<< 32⟩

/-- What `CAT_PMUL64` adds in one word. -/
def middle (x y : BitVec 64) : Nat :=
  x.toNat % 2 ^ 32 * (y.toNat / 2 ^ 32) + x.toNat / 2 ^ 32 * (y.toNat % 2 ^ 32)

/-! ## What they compute -/

theorem add128_toNat (r x : Wide) : (add128 r x).toNat = (r.toNat + x.toNat) % 2 ^ 128 := by
  have := r.hi.isLt
  have := r.lo.isLt
  have := x.hi.isLt
  have := x.lo.isLt
  simp only [add128, Wide.toNat, BitVec.lt_def, BitVec.toNat_add]
  split <;> simp only [BitVec.reduceToNat] <;> omega

theorem padd128_toNat (r : Wide) (x : BitVec 64) :
    (padd128 r x).toNat = (r.toNat + x.toNat) % 2 ^ 128 := by
  have := r.hi.isLt
  have := r.lo.isLt
  have := x.isLt
  simp only [padd128, Wide.toNat, BitVec.lt_def, BitVec.toNat_add]
  split <;> simp only [BitVec.reduceToNat] <;> omega

theorem half_toNat (x : BitVec 64) : ((x.setWidth 32).setWidth 64).toNat = x.toNat % 2 ^ 32 := by
  rw [BitVec.toNat_setWidth, BitVec.toNat_setWidth]
  omega

theorem mul32_toNat (x y : BitVec 64) :
    (mul32 x y).toNat = x.toNat % 2 ^ 32 * (y.toNat % 2 ^ 32) := by
  have hlt : x.toNat % 2 ^ 32 * (y.toNat % 2 ^ 32) < 2 ^ 32 * 2 ^ 32 :=
    Nat.mul_lt_mul'' (Nat.mod_lt _ (Nat.two_pow_pos 32)) (Nat.mod_lt _ (Nat.two_pow_pos 32))
  rw [mul32, BitVec.toNat_mul, half_toNat, half_toNat]
  exact Nat.mod_eq_of_lt (hlt.trans_eq (by norm_num))

theorem high_toNat (x : BitVec 64) : (x >>> 32).toNat = x.toNat / 2 ^ 32 := by
  rw [BitVec.toNat_ushiftRight, Nat.shiftRight_eq_div_pow]

/-- A word in the middle of a wide number. -/
theorem middle_toNat (m : BitVec 64) : Wide.toNat ⟨m >>> 32, m <<< 32⟩ = m.toNat * 2 ^ 32 := by
  have := m.isLt
  rw [Wide.toNat, high_toNat, BitVec.toNat_shiftLeft, Nat.shiftLeft_eq]
  omega

/-- A product by halves. -/
theorem mul_eq_halves (x y : BitVec 64) :
    x.toNat * y.toNat = x.toNat / 2 ^ 32 * (y.toNat / 2 ^ 32) * 2 ^ 64 + middle x y * 2 ^ 32 +
      x.toNat % 2 ^ 32 * (y.toNat % 2 ^ 32) := by
  conv_lhs => rw [← Nat.div_add_mod x.toNat (2 ^ 32), ← Nat.div_add_mod y.toNat (2 ^ 32)]
  unfold middle
  ring

theorem mul_lt_wide (x y : BitVec 64) : x.toNat * y.toNat < 2 ^ 128 := by
  calc x.toNat * y.toNat < 2 ^ 64 * 2 ^ 64 := Nat.mul_lt_mul'' x.isLt y.isLt
    _ = 2 ^ 128 := by norm_num

/-- The outer products of `CAT_PMUL64`. -/
theorem outer_toNat (x y : BitVec 64) :
    Wide.toNat ⟨mul32 (x >>> 32) (y >>> 32), mul32 x y⟩ =
      x.toNat / 2 ^ 32 * (y.toNat / 2 ^ 32) * 2 ^ 64 + x.toNat % 2 ^ 32 * (y.toNat % 2 ^ 32) := by
  have := x.isLt
  have := y.isLt
  rw [Wide.toNat, mul32_toNat, mul32_toNat, high_toNat, high_toNat,
    Nat.mod_eq_of_lt (a := x.toNat / 2 ^ 32) (by omega),
    Nat.mod_eq_of_lt (a := y.toNat / 2 ^ 32) (by omega)]

theorem mul64_toNat (x y : BitVec 64) : (mul64 x y).toNat = x.toNat * y.toNat := by
  have := x.isLt
  have := y.isLt
  have hsplit := mul_eq_halves x y
  have hlt := mul_lt_wide x y
  rw [mul64, add128_toNat, add128_toNat, outer_toNat, middle_toNat, middle_toNat, mul32_toNat,
    mul32_toNat, high_toNat, high_toNat, Nat.mod_eq_of_lt (a := y.toNat / 2 ^ 32) (by omega),
    Nat.mod_eq_of_lt (a := x.toNat / 2 ^ 32) (by omega), hsplit]
  unfold middle at hsplit ⊢
  omega

/-- `CAT_PMUL64` loses what its middle sum carries. -/
theorem pmul64_toNat (x y : BitVec 64) :
    (pmul64 x y).toNat + middle x y / 2 ^ 64 * 2 ^ 96 = x.toNat * y.toNat := by
  have := x.isLt
  have := y.isLt
  have hsplit := mul_eq_halves x y
  have hlt := mul_lt_wide x y
  rw [pmul64, add128_toNat, outer_toNat, middle_toNat, BitVec.toNat_add, mul32_toNat, mul32_toNat,
    high_toNat, high_toNat, Nat.mod_eq_of_lt (a := y.toNat / 2 ^ 32) (by omega),
    Nat.mod_eq_of_lt (a := x.toNat / 2 ^ 32) (by omega), ← middle, hsplit]
  omega

/-! ## A platform with a 128-bit type -/

def Wide.bits (r : Wide) : BitVec 128 := r.hi.setWidth 128 <<< 64 ||| r.lo.setWidth 128

def Wide.ofBits (t : BitVec 128) : Wide := ⟨(t >>> 64).setWidth 64, t.setWidth 64⟩

/-- `CAT_ADD128` over `u128`. -/
def nativeAdd128 (r x : Wide) : Wide := Wide.ofBits (r.bits + x.bits)

/-- `CAT_MUL64` over `u128`, and `CAT_PMUL64` there. -/
def nativeMul64 (x y : BitVec 64) : Wide := Wide.ofBits (x.setWidth 128 * y.setWidth 128)

theorem Wide.bits_toNat (r : Wide) : r.bits.toNat = r.toNat := by
  have := r.hi.isLt
  have hlo := r.lo.isLt
  rw [bits, BitVec.toNat_or, BitVec.toNat_shiftLeft, BitVec.toNat_setWidth, BitVec.toNat_setWidth,
    Nat.shiftLeft_eq, Nat.mod_eq_of_lt (a := r.hi.toNat) (by omega),
    Nat.mod_eq_of_lt (a := r.lo.toNat) (by omega),
    Nat.mod_eq_of_lt (a := r.hi.toNat * 2 ^ 64) (by omega), Nat.mul_comm,
    ← Nat.two_pow_add_eq_or_of_lt hlo, toNat, Nat.mul_comm]

theorem Wide.ofBits_toNat (t : BitVec 128) : (ofBits t).toNat = t.toNat := by
  have := t.isLt
  rw [ofBits, toNat, BitVec.toNat_setWidth, BitVec.toNat_setWidth, BitVec.toNat_ushiftRight,
    Nat.shiftRight_eq_div_pow]
  omega

theorem nativeAdd128_eq (r x : Wide) : nativeAdd128 r x = add128 r x := by
  refine Wide.eq_of_toNat_eq ?_
  rw [nativeAdd128, Wide.ofBits_toNat, BitVec.toNat_add, Wide.bits_toNat, Wide.bits_toNat,
    add128_toNat]

theorem nativeMul64_eq (x y : BitVec 64) : nativeMul64 x y = mul64 x y := by
  have := x.isLt
  have := y.isLt
  refine Wide.eq_of_toNat_eq ?_
  rw [nativeMul64, Wide.ofBits_toNat, BitVec.toNat_mul, BitVec.toNat_setWidth,
    BitVec.toNat_setWidth, Nat.mod_eq_of_lt (a := x.toNat) (by omega),
    Nat.mod_eq_of_lt (a := y.toNat) (by omega), mul64_toNat]
  exact Nat.mod_eq_of_lt (mul_lt_wide x y)

/-- **`CAT_PMUL64`** is the same on every platform when its middle sum fits a word, and only then. -/
theorem pmul64_eq_iff (x y : BitVec 64) : pmul64 x y = nativeMul64 x y ↔ middle x y < 2 ^ 64 := by
  have hlost := pmul64_toNat x y
  have hnative : (nativeMul64 x y).toNat = x.toNat * y.toNat := by
    rw [nativeMul64_eq, mul64_toNat]
  constructor
  · intro heq
    rw [heq, hnative] at hlost
    omega
  · intro hfits
    refine Wide.eq_of_toNat_eq ?_
    rw [hnative]
    omega

/-- The pre-condition the header gives for `CAT_PMUL64` is enough. -/
theorem middle_lt_of_msb {x y : BitVec 64} (hx : x.msb = false) (hy : y.msb = false) :
    middle x y < 2 ^ 64 := by
  have hx' : x.toNat < 2 ^ 63 := BitVec.toNat_lt_of_msb_false hx
  have hy' : y.toNat < 2 ^ 63 := BitVec.toNat_lt_of_msb_false hy
  have hleft : x.toNat % 2 ^ 32 * (y.toNat / 2 ^ 32) < 2 ^ 32 * 2 ^ 31 :=
    Nat.mul_lt_mul'' (Nat.mod_lt _ (Nat.two_pow_pos 32)) (by omega)
  have hright : x.toNat / 2 ^ 32 * (y.toNat % 2 ^ 32) < 2 ^ 31 * 2 ^ 32 :=
    Nat.mul_lt_mul'' (by omega) (Nat.mod_lt _ (Nat.two_pow_pos 32))
  unfold middle
  omega

/-! ## Code over the macros -/

/-- The macros a function is compiled with. -/
structure Macros (m : Type → Type) where
  add128 : Wide → Wide → m Wide
  padd128 : Wide → BitVec 64 → m Wide
  pmul64 : BitVec 64 → BitVec 64 → m Wide

def portable : Macros Id where
  add128 := add128
  padd128 := padd128
  pmul64 := pmul64

def native : Macros Id where
  add128 := nativeAdd128
  padd128 := padd128
  pmul64 := nativeMul64

/-- What a build makes of the macros. -/
inductive Platform where
  | portable
  | native
  deriving DecidableEq, Repr

def Platform.macros : Platform → Macros Id
  | .portable => BigMath.portable
  | .native => BigMath.native

/-- The default versions, stopping where a sum overflows. -/
def checked : Macros Option where
  add128 r x := if r.toNat + x.toNat < 2 ^ 128 then some (add128 r x) else none
  padd128 r x := if r.toNat + x.toNat < 2 ^ 128 then some (padd128 r x) else none
  pmul64 x y := if middle x y < 2 ^ 64 then some (pmul64 x y) else none

/-- As `checked`, with the pre-condition of `CAT_PMUL64` as the header states it. -/
def documented : Macros Option where
  add128 := checked.add128
  padd128 := checked.padd128
  pmul64 x y := if x.msb = false ∧ y.msb = false then some (pmul64 x y) else none

theorem checked_add128 {r x : Wide} (h : r.toNat + x.toNat < 2 ^ 128) :
    ∃ v, checked.add128 r x = some v ∧ v.toNat = r.toNat + x.toNat := by
  refine ⟨add128 r x, if_pos h, ?_⟩
  rw [add128_toNat, Nat.mod_eq_of_lt h]

theorem checked_padd128 {r : Wide} {x : BitVec 64} (h : r.toNat + x.toNat < 2 ^ 128) :
    ∃ v, checked.padd128 r x = some v ∧ v.toNat = r.toNat + x.toNat := by
  refine ⟨padd128 r x, if_pos h, ?_⟩
  rw [padd128_toNat, Nat.mod_eq_of_lt h]

theorem checked_pmul64 {x y : BitVec 64} (h : middle x y < 2 ^ 64) :
    ∃ v, checked.pmul64 x y = some v ∧ v.toNat = x.toNat * y.toNat := by
  refine ⟨pmul64 x y, if_pos h, ?_⟩
  have := pmul64_toNat x y
  omega

/-- What `x` returns, if it does, is `y`. -/
def Returns {α : Type} (x : Option α) (y : Id α) : Prop := ∀ v, x = some v → y = v

namespace Returns

variable {α β : Type}

theorem pure (v : α) : Returns (Pure.pure v) (Pure.pure v) := fun _ h => Option.some.inj h

theorem bind {x : Option α} {y : Id α} {f : α → Option β} {g : α → Id β} (hx : Returns x y)
    (hf : ∀ v, Returns (f v) (g v)) : Returns (x >>= f) (y >>= g) := by
  intro v h
  obtain ⟨u, hu, hv⟩ := Option.bind_eq_some_iff.mp h
  have hy : y = u := hx u hu
  rw [hy]
  exact hf u v hv

end Returns

/-- `N` computes what `M` does wherever that returns. -/
structure Agrees (M : Macros Option) (N : Macros Id) : Prop where
  add128 : ∀ r x, Returns (M.add128 r x) (N.add128 r x)
  padd128 : ∀ r x, Returns (M.padd128 r x) (N.padd128 r x)
  pmul64 : ∀ x y, Returns (M.pmul64 x y) (N.pmul64 x y)

theorem bind_eq_some {α β : Type} {x : Option α} {f : α → Option β} {u : α} {v : β}
    (hx : x = some u) (hf : f u = some v) : (x >>= f) = some v :=
  Option.bind_eq_some_iff.mpr ⟨u, hx, hf⟩

theorem returns_ite {α : Type} {P : Prop} [Decidable P] {u : α} {y : Id α} (h : P → y = u) :
    Returns (if P then some u else none) y := by
  intro v hv
  split at hv
  · next hP => exact (h hP).trans (Option.some.inj hv)
  · cases hv

theorem agrees_checked (platform : Platform) : Agrees checked platform.macros := by
  cases platform with
  | portable =>
    exact {
      add128 := fun _ _ => returns_ite fun _ => rfl
      padd128 := fun _ _ => returns_ite fun _ => rfl
      pmul64 := fun _ _ => returns_ite fun _ => rfl }
  | native =>
    exact {
      add128 := fun r x => returns_ite fun _ => nativeAdd128_eq r x
      padd128 := fun _ _ => returns_ite fun _ => rfl
      pmul64 := fun x y => returns_ite fun h => ((pmul64_eq_iff x y).mpr h).symm }

end Libcat.Math.BigMath
