import Libcat.Lib.Bytes
import Libcat.Math.BigMath
import Libcat.Math.BitMath

/-!
# VHash

`SetKey` and `Hash`. A message is cut into pieces of 128 bytes, `NH512` and `NH128` make a number of
126 bits of each, and `PolyStep` takes them one by one into a polynomial in the key, modulo
`2^127 - 1`. The accumulator keeps up to 128 bits and is brought into range only at the end, by
`Level3Hash`.

The code runs over the macros it is compiled with. `polyStep_checked` is the step: over the checked
macros it returns, whatever the accumulator, since a masked key leaves the carries room. So the
run over any macros that agree with these returns the same (`accumulate_checked`).
-/

namespace Libcat.Crypt.VHash

open Math.BigMath

def m62 : u64 := 0x3fffffffffffffff
def m63 : u64 := 0x7fffffffffffffff
def m64 : u64 := 0xffffffffffffffff
def mpoly : u64 := 0x1fffffff1fffffff
def p64 : u64 := 0xfffffffffffffeff

def nhBytes : Nat := 128
def nhKeyWords : Nat := nhBytes / 8

/-- The words in memory, the lowest byte first. -/
def getLE (data : List u8) (i : Nat) : u64 := Bytes.ofBytes ((data.drop (8 * i)).take 8)

/-! ## The hash of a piece -/

/-- The product at word `i`. Its sum and product do not depend on the platform: `nativeAdd128_eq`,
`nativeMul64_eq`. -/
def nhMul (data : List u8) (key : List u64) (i : Nat) : Wide :=
  mul64 (getLE data i + key.getD i 0) (getLE data (i + 1) + key.getD (i + 1) 0)

/-- The loop of `NH128`, past its first product. -/
def nh128Loop (data : List u8) (key : List u64) : Nat → Nat → Wide → Wide
  | 0, _, r => r
  | n + 1, i, r => nh128Loop data key n (i + 2) (add128 r (nhMul data key i))

/-- `NH128`. -/
def nh128 (data : List u8) (key : List u64) (words : Nat) : Wide :=
  nh128Loop data key (words / 2 - 1) 2 (nhMul data key 0)

/-- The loop of `NH512`. -/
def nh512Loop (data : List u8) (key : List u64) : Nat → Nat → Wide → Wide
  | 0, _, r => r
  | n + 1, i, r =>
    let r := add128 r (nhMul data key i)
    let r := add128 r (nhMul data key (i + 2))
    let r := add128 r (nhMul data key (i + 4))
    let r := add128 r (nhMul data key (i + 6))
    nh512Loop data key n (i + 8) r

/-- `NH512`. -/
def nh512 (data : List u8) (key : List u64) (words : Nat) : Wide :=
  nh512Loop data key (words / 8) 0 ⟨0, 0⟩

/-! ## The polynomial -/

section Poly

variable {m : Type → Type} [Monad m] (M : Macros m)

/-- `PolyStep`. -/
def polyStep (k a p : Wide) : m Wide := do
  let t3 ← M.pmul64 a.lo k.hi
  let t2 ← M.pmul64 a.hi k.lo
  let t1 ← M.pmul64 a.hi (k.hi <<< 1)
  let a ← M.pmul64 a.lo k.lo
  -- twice the product of the high words
  let a ← M.add128 a t1
  let t2 ← M.add128 t2 t3
  -- the high word of `a` is the low word of the sum at that place
  let s ← M.padd128 ⟨t2.hi, a.hi⟩ t2.lo
  let t2Hi := (s.hi <<< 1) + (s.lo >>> 63)
  let a ← M.add128 ⟨s.lo &&& m63, a.lo⟩ p
  M.padd128 a t2Hi

/-- Whether the modulus is reached. -/
def wrapped (p : Wide) : u64 :=
  (if p.hi > m63 then 1 else 0) + (if p.hi = m63 ∧ p.lo = m64 then 1 else 0)

/-- The reduction at the start of `Level3Hash`. -/
def level3Reduce (p : Wide) (len : u64) : m Wide := do
  let t := p.hi >>> 63
  let p ← M.add128 ⟨p.hi &&& m63, p.lo⟩ ⟨len, t⟩
  let p ← M.padd128 p (wrapped p)
  pure ⟨p.hi &&& m63, p.lo⟩

end Poly

/-- The rest of `Level3Hash`. -/
def level3Rest (p k : Wide) : u64 :=
  let t := p.hi + (p.lo >>> 32)
  let t := t + (t >>> 32)
  let t := t + (if t.setWidth 32 > (0xfffffffe : u32) then 1 else 0)
  let pHi := p.hi + (t >>> 32)
  let pLo := p.lo + (pHi <<< 32)
  let pHi := pHi + k.hi
  let pHi := pHi + (if pHi < k.hi then 257 else 0)
  let pLo := pLo + k.lo
  let pLo := pLo + (if pLo < k.lo then 257 else 0)
  let r := mul64 pHi pLo
  let s := padd128 ⟨r.hi >>> 56, r.lo⟩ r.hi
  let s := padd128 s (r.hi <<< 8)
  let t := s.hi + (s.hi <<< 8)
  let rLo := s.lo + t
  let rLo := rLo + (if rLo < t then 257 else 0)
  rLo + (if rLo > p64 - 1 then 257 else 0)

/-! ## Keys and messages -/

/-- A key that is set. -/
structure Key where
  /-- `_nhkey`. -/
  nhkey : List u64
  /-- `_polykey`, its first word the high one. -/
  polykey : Wide
  /-- `_l3key`, the same way. -/
  l3key : Wide
  hi_masked : polykey.hi &&& mpoly = polykey.hi
  lo_masked : polykey.lo &&& mpoly = polykey.lo

theorem and_mask (x : u64) : x &&& mpoly &&& mpoly = x &&& mpoly := by
  rw [BitVec.and_assoc, BitVec.and_self]

/-- `SetKey`. -/
def setKey (key : Vector u8 160) : Key where
  nhkey := (List.range nhKeyWords).map (getLE key.toList)
  polykey := ⟨getLE key.toList nhKeyWords &&& mpoly, getLE key.toList (nhKeyWords + 1) &&& mpoly⟩
  l3key := ⟨getLE key.toList (nhKeyWords + 2), getLE key.toList (nhKeyWords + 3)⟩
  hi_masked := and_mask _
  lo_masked := and_mask _

variable (h : Key)

/-- The 126 bits that are taken of a piece. -/
def mask126 (r : Wide) : Wide := ⟨r.hi &&& m62, r.lo⟩

/-- A whole block. -/
def block (data : List u8) : Wide := mask126 (nh512 data h.nhkey nhKeyWords)

/-- What remains, copied out and filled up. -/
def rest (data : List u8) (remains : Nat) : Wide :=
  let temp := data.take remains ++ List.replicate (nhBytes - remains) 0
  let dataWords := 2 * ((remains + 16 - 1) / 16)
  mask126 (nh128 temp h.nhkey dataWords)

section Hash

variable {m : Type → Type} [Monad m] (M : Macros m)

/-- The loop of `Hash`, which moves `data` on. -/
def blockLoop : Nat → List u8 → Wide → m (Wide × List u8)
  | 0, data, c => pure (c, data)
  | blocks + 1, data, c => do
    let c ← polyStep M h.polykey c (block h data)
    blockLoop blocks (data.drop nhBytes) c

/-- `Hash` up to the calls of `Level3Hash`. -/
def compress (data : List u8) : m Wide :=
  let blocks := data.length / nhBytes
  let remains := data.length % nhBytes
  if blocks > 0 then do
    let c ← M.add128 (block h data) h.polykey
    let (c, data) ← blockLoop h M (blocks - 1) (data.drop nhBytes) c
    if remains ≠ 0 then polyStep M h.polykey c (rest h data remains) else pure c
  else if remains ≠ 0 then
    M.add128 (rest h data remains) h.polykey
  else
    pure h.polykey

/-- `Hash`. -/
def hash (data : List u8) : m u64 := do
  let c ← compress h M data
  let p ← level3Reduce M c (BitVec.ofNat 64 data.length)
  pure (level3Rest p h.l3key)

end Hash

/-! ## Masked words -/

theorem and_toNat_lt {x mask : u64} (h : x &&& mask = x) : x.toNat % 2 ^ 32 ≤ mask.toNat % 2 ^ 32 ∧
    x.toNat / 2 ^ 32 ≤ mask.toNat / 2 ^ 32 := by
  have hx : x.toNat = x.toNat &&& mask.toNat := by rw [← BitVec.toNat_and, h]
  constructor
  · rw [hx, Nat.and_mod_two_pow]
    exact Nat.and_le_right
  · rw [hx, Nat.and_div_two_pow]
    exact Nat.and_le_right

/-- The middle sum fits when the halves of a factor are short. -/
theorem middle_lt {x y : u64} (hlow : y.toNat % 2 ^ 32 < 2 ^ 30) (hhigh : y.toNat / 2 ^ 32 < 2 ^ 30) :
    middle x y < 2 ^ 64 := by
  have := x.isLt
  have hleft : x.toNat % 2 ^ 32 * (y.toNat / 2 ^ 32) < 2 ^ 32 * 2 ^ 30 :=
    Nat.mul_lt_mul'' (Nat.mod_lt _ (Nat.two_pow_pos 32)) hhigh
  have hright : x.toNat / 2 ^ 32 * (y.toNat % 2 ^ 32) < 2 ^ 32 * 2 ^ 30 :=
    Nat.mul_lt_mul'' (by omega) hlow
  unfold middle
  omega

/-- A masked word, and twice it. -/
theorem masked_lt {k : u64} (hk : k &&& mpoly = k) : k.toNat % 2 ^ 32 < 2 ^ 29 ∧ k.toNat / 2 ^ 32 < 2 ^ 29 := by
  have := and_toNat_lt hk
  simp only [mpoly, BitVec.reduceToNat] at this
  omega

theorem twice_toNat {k : u64} (hk : k &&& mpoly = k) : (k <<< 1).toNat = 2 * k.toNat := by
  have := masked_lt hk
  rw [BitVec.toNat_shiftLeft, Nat.shiftLeft_eq]
  omega

theorem middle_masked (x : u64) {k : u64} (hk : k &&& mpoly = k) :
    middle x k < 2 ^ 64 ∧ middle x (k <<< 1) < 2 ^ 64 := by
  obtain ⟨hlow, hhigh⟩ := masked_lt hk
  have htwice := twice_toNat hk
  exact ⟨middle_lt (by omega) (by omega), middle_lt (by omega) (by omega)⟩

theorem and_m63_toNat (x : u64) : (x &&& m63).toNat = x.toNat % 2 ^ 63 := by
  rw [m63, BitVec.toNat_and, show (0x7fffffffffffffff : u64).toNat = 2 ^ 63 - 1 from rfl,
    Nat.and_two_pow_sub_one_eq_mod]

theorem top_toNat (x : u64) : (x >>> 63).toNat = x.toNat / 2 ^ 63 := by
  rw [BitVec.toNat_ushiftRight, Nat.shiftRight_eq_div_pow]

theorem mask126_lt (r : Wide) : (mask126 r).toNat < 2 ^ 126 := by
  have := r.lo.isLt
  have hhi : (r.hi &&& m62).toNat < 2 ^ 62 := by
    rw [m62, BitVec.toNat_and]
    exact Nat.and_le_right.trans_lt (by decide)
  rw [mask126, Wide.toNat_mk]
  omega

/-! ## One step -/

/-- A product by words. -/
theorem wide_mul (a k : Wide) : a.toNat * k.toNat =
    a.hi.toNat * k.hi.toNat * 2 ^ 128 + (a.hi.toNat * k.lo.toNat + a.lo.toNat * k.hi.toNat) * 2 ^ 64 +
      a.lo.toNat * k.lo.toNat := by
  have hsplit (A B K L W : Nat) :
      (A * W + B) * (K * W + L) = A * K * (W * W) + (A * L + B * K) * W + B * L := by ring
  have hsq : (2 : Nat) ^ 64 * 2 ^ 64 = 2 ^ 128 := by norm_num
  rw [Wide.toNat, Wide.toNat, hsplit, hsq]

theorem polyStep_checked {k : Wide} (hhi : k.hi &&& mpoly = k.hi) (hlo : k.lo &&& mpoly = k.lo)
    (a : Wide) {p : Wide} (hp : p.toNat < 2 ^ 126) :
    ∃ r, polyStep checked k a p = some r ∧
      r.toNat ≡ a.toNat * k.toNat + p.toNat [MOD 2 ^ 127 - 1] ∧
      r.toNat < 2 ^ 127 + 2 ^ 126 + 2 ^ 64 := by
  obtain ⟨t3, et3, h3⟩ := checked_pmul64 (middle_masked a.lo hhi).1
  obtain ⟨t2, et2, h2⟩ := checked_pmul64 (middle_masked a.hi hlo).1
  obtain ⟨t1, et1, h1⟩ := checked_pmul64 (middle_masked a.hi hhi).2
  obtain ⟨b, eb, hb⟩ := checked_pmul64 (middle_masked a.lo hlo).1
  have hkhi := masked_lt hhi
  have hklo := masked_lt hlo
  have hbound {x y : u64} (hy : y.toNat < 2 ^ 61) : x.toNat * y.toNat < 2 ^ 125 := by
    calc x.toNat * y.toNat < 2 ^ 64 * 2 ^ 61 := Nat.mul_lt_mul'' x.isLt hy
      _ = 2 ^ 125 := by norm_num
  have h3' := hbound (x := a.lo) (y := k.hi) (by omega)
  have h2' := hbound (x := a.hi) (y := k.lo) (by omega)
  have h1' := hbound (x := a.hi) (y := k.hi) (by omega)
  have hb' := hbound (x := a.lo) (y := k.lo) (by omega)
  rw [twice_toNat hhi, Nat.mul_left_comm] at h1
  -- the sums, one after the other
  obtain ⟨low, elow, hlow⟩ := checked_add128 (r := b) (x := t1) (by omega)
  obtain ⟨cross, ecross, hcross⟩ := checked_add128 (r := t2) (x := t3) (by omega)
  have hlowWords : low.toNat = low.hi.toNat * 2 ^ 64 + low.lo.toNat := rfl
  have hcrossWords : cross.toNat = cross.hi.toNat * 2 ^ 64 + cross.lo.toNat := rfl
  have := low.hi.isLt
  have := low.lo.isLt
  have := cross.lo.isLt
  obtain ⟨s, es, hs⟩ := checked_padd128 (r := ⟨cross.hi, low.hi⟩) (x := cross.lo) (by
    rw [Wide.toNat_mk]
    omega)
  rw [Wide.toNat_mk cross.hi low.hi] at hs
  have hsWords : s.toNat = s.hi.toNat * 2 ^ 64 + s.lo.toNat := rfl
  have := s.lo.isLt
  have hcarry : ((s.hi <<< 1) + (s.lo >>> 63)).toNat = 2 * s.hi.toNat + s.lo.toNat / 2 ^ 63 := by
    rw [BitVec.toNat_add, BitVec.toNat_shiftLeft, top_toNat, Nat.shiftLeft_eq]
    omega
  have hfits := ((s.hi <<< 1) + (s.lo >>> 63)).isLt
  obtain ⟨sum, esum, hsum⟩ := checked_add128 (r := ⟨s.lo &&& m63, low.lo⟩) (x := p) (by
    rw [Wide.toNat_mk, and_m63_toNat]
    omega)
  rw [Wide.toNat_mk (s.lo &&& m63), and_m63_toNat] at hsum
  obtain ⟨r, er, hr⟩ := checked_padd128 (r := sum) (x := (s.hi <<< 1) + (s.lo >>> 63)) (by omega)
  refine ⟨r, ?_, ?_, by omega⟩
  · exact bind_eq_some et3 (bind_eq_some et2 (bind_eq_some et1 (bind_eq_some eb
      (bind_eq_some elow (bind_eq_some ecross (bind_eq_some es (bind_eq_some esum er)))))))
  · -- what the two folds at `2 ^ 127` leave out
    have hfold : a.toNat * k.toNat + p.toNat = r.toNat +
        (2 * (a.hi.toNat * k.hi.toNat) + 2 * s.hi.toNat + s.lo.toNat / 2 ^ 63) * (2 ^ 127 - 1) := by
      rw [wide_mul]
      omega
    rw [hfold]
    exact (Nat.add_mul_mod_self_right _ _ _).symm

theorem wrapped_toNat (p : Wide) : (wrapped p).toNat = if 2 ^ 127 - 1 ≤ p.toNat then 1 else 0 := by
  have hp : p.toNat = p.hi.toNat * 2 ^ 64 + p.lo.toNat := rfl
  have := p.lo.isLt
  have hm63 : m63.toNat = 2 ^ 63 - 1 := rfl
  have hm64 : m64.toNat = 2 ^ 64 - 1 := rfl
  have hover : p.hi > m63 ↔ 2 ^ 63 - 1 < p.hi.toNat := by rw [gt_iff_lt, BitVec.lt_def, hm63]
  have hall : p.hi = m63 ∧ p.lo = m64 ↔ p.toNat = 2 ^ 127 - 1 := by
    rw [← BitVec.toNat_inj, ← BitVec.toNat_inj, hm63, hm64]
    omega
  unfold wrapped
  by_cases h : p.hi > m63
  · have hhi := hover.mp h
    rw [if_pos h, if_neg (fun h' => by have := hall.mp h'; omega), if_pos (by omega)]
    rfl
  · have hhi := mt hover.mpr h
    rw [if_neg h]
    by_cases h' : p.hi = m63 ∧ p.lo = m64
    · rw [if_pos h', if_pos (hall.mp h').ge]
      rfl
    · have hne := mt hall.mpr h'
      rw [if_neg h', if_neg (by omega)]
      rfl

/-- The reduction of `Level3Hash` is complete. -/
theorem level3Reduce_checked (p : Wide) {len : u64} (hlen : len.toNat < 2 ^ 62) :
    ∃ r, level3Reduce checked p len = some r ∧
      r.toNat = (p.toNat + len.toNat * 2 ^ 64) % (2 ^ 127 - 1) := by
  have hp : p.toNat = p.hi.toNat * 2 ^ 64 + p.lo.toNat := rfl
  have := p.hi.isLt
  have := p.lo.isLt
  obtain ⟨q, eq, hq⟩ := checked_add128 (r := ⟨p.hi &&& m63, p.lo⟩) (x := ⟨len, p.hi >>> 63⟩) (by
    rw [Wide.toNat_mk, Wide.toNat_mk, and_m63_toNat, top_toNat]
    omega)
  rw [Wide.toNat_mk (p.hi &&& m63), Wide.toNat_mk len, and_m63_toNat, top_toNat] at hq
  have hbit : p.hi.toNat / 2 ^ 63 ≤ 1 := by omega
  have hqlt : q.toNat < 2 ^ 127 + 2 ^ 126 + 1 := by
    have := Nat.mod_lt p.hi.toNat (Nat.two_pow_pos 63)
    omega
  have hone := wrapped_toNat q
  generalize ht : wrapped q = t at hone
  obtain ⟨r, er, hr⟩ := checked_padd128 (r := q) (x := t) (by
    split at hone <;> omega)
  refine ⟨⟨r.hi &&& m63, r.lo⟩, ?_, ?_⟩
  · refine bind_eq_some eq ?_
    rw [← ht] at er
    exact bind_eq_some er rfl
  · have hrWords : r.toNat = r.hi.toNat * 2 ^ 64 + r.lo.toNat := rfl
    have := r.hi.isLt
    have := r.lo.isLt
    have hfold : p.toNat + len.toNat * 2 ^ 64 =
        q.toNat + p.hi.toNat / 2 ^ 63 * (2 ^ 127 - 1) := by omega
    rw [Wide.toNat_mk, and_m63_toNat, hfold, Nat.add_mul_mod_self_right]
    split at hone
    · next hge =>
      have hsub : q.toNat - (2 ^ 127 - 1) < 2 ^ 127 - 1 := by omega
      rw [Nat.mod_eq_sub_mod hge, Nat.mod_eq_of_lt hsub]
      omega
    · next hlt =>
      rw [Nat.mod_eq_of_lt (Nat.lt_of_not_le hlt)]
      omega

/-! ## Runs -/

/-- The numbers a message is made into. -/
def pieces (data : List u8) : List Wide :=
  (List.range (data.length / nhBytes)).map (fun i => block h (data.drop (nhBytes * i))) ++
    if data.length % nhBytes ≠ 0 then
      [rest h (data.drop (nhBytes * (data.length / nhBytes))) (data.length % nhBytes)]
    else []

section Accumulate

variable {m : Type → Type} [Monad m] (M : Macros m)

/-- The accumulator past the given pieces. -/
def accumulate (k : Wide) : List Wide → m Wide
  | [] => pure k
  | p :: ps => do
    let c ← M.add128 p k
    ps.foldlM (polyStep M k) c

theorem accumulate_snoc [LawfulMonad m] (k : Wide) {ps : List Wide} (hps : ps ≠ []) (p : Wide) :
    accumulate M k (ps ++ [p]) = accumulate M k ps >>= fun c => polyStep M k c p := by
  cases ps with
  | nil => exact absurd rfl hps
  | cons q ps =>
    simp only [List.cons_append, accumulate, List.foldlM_append, List.foldlM_cons, List.foldlM_nil,
      bind_assoc, bind_pure]

theorem blockLoop_eq [LawfulMonad m] (n : Nat) : ∀ (data : List u8) (c : Wide),
    blockLoop h M n data c =
      ((List.range n).map fun i => block h (data.drop (nhBytes * i))).foldlM (polyStep M h.polykey) c
        >>= fun c => pure (c, data.drop (nhBytes * n)) := by
  induction n with
  | zero =>
    intro data c
    simp [blockLoop]
  | succ n ih =>
    intro data c
    simp only [blockLoop, ih, List.range_succ_eq_map, List.map_cons, List.map_map, List.foldlM_cons,
      bind_assoc, Nat.mul_zero, List.drop_zero, List.drop_drop, Function.comp_def, Nat.mul_succ,
      Nat.add_comm nhBytes]

/-- `Hash` takes the pieces one by one. -/
theorem compress_eq [LawfulMonad m] (data : List u8) :
    compress h M data = accumulate M h.polykey (pieces h data) := by
  unfold compress pieces
  cases hblocks : data.length / nhBytes with
  | zero =>
    by_cases hrest : data.length % nhBytes = 0
    · simp [hrest, accumulate]
    · simp [hrest, accumulate]
  | succ blocks =>
    simp only [Nat.succ_pos, gt_iff_lt, if_true, Nat.add_sub_cancel, blockLoop_eq, bind_assoc,
      pure_bind, List.range_succ_eq_map, List.map_cons, List.map_map, List.cons_append, accumulate,
      Nat.mul_zero, List.drop_zero, List.drop_drop, Function.comp_def, Nat.mul_succ,
      Nat.add_comm nhBytes, List.foldlM_append]
    by_cases hrest : data.length % nhBytes = 0
    · simp [hrest]
    · simp [hrest]

end Accumulate

theorem pieces_lt {data : List u8} {p : Wide} (hp : p ∈ pieces h data) : p.toNat < 2 ^ 126 := by
  rcases List.mem_append.mp hp with hblock | hrest
  · obtain ⟨i, _, rfl⟩ := List.mem_map.mp hblock
    exact mask126_lt _
  · split at hrest
    · rw [List.mem_singleton.mp hrest]
      exact mask126_lt _
    · cases hrest

/-- The polynomial, from the front. -/
def horner (k : Wide) (c : Nat) (ps : List Wide) : Nat :=
  ps.foldl (fun c p => c * k.toNat + p.toNat) c

theorem horner_modEq {n c c' : Nat} (k : Wide) (ps : List Wide) (hc : c ≡ c' [MOD n]) :
    horner k c ps ≡ horner k c' ps [MOD n] := by
  induction ps generalizing c c' with
  | nil => exact hc
  | cons p ps ih => exact ih ((hc.mul_right _).add_right _)

theorem foldlM_checked {k : Wide} (hhi : k.hi &&& mpoly = k.hi) (hlo : k.lo &&& mpoly = k.lo)
    {ps : List Wide} (hps : ∀ p ∈ ps, p.toNat < 2 ^ 126) (c : Wide) :
    ∃ r, ps.foldlM (polyStep checked k) c = some r ∧
      r.toNat ≡ horner k c.toNat ps [MOD 2 ^ 127 - 1] := by
  induction ps generalizing c with
  | nil => exact ⟨c, rfl, Nat.ModEq.refl _⟩
  | cons p ps ih =>
    obtain ⟨c', estep, hstep, -⟩ := polyStep_checked hhi hlo c (hps p List.mem_cons_self)
    obtain ⟨r, erest, hrest⟩ := ih (fun q hq => hps q (List.mem_cons_of_mem _ hq)) c'
    refine ⟨r, ?_, hrest.trans (horner_modEq k ps hstep)⟩
    rw [List.foldlM_cons]
    exact bind_eq_some estep erest

/-- No run over the checked macros stops, and it evaluates the polynomial. -/
theorem accumulate_checked {p : Wide} {ps : List Wide} (hps : ∀ q ∈ p :: ps, q.toNat < 2 ^ 126) :
    ∃ r, accumulate checked h.polykey (p :: ps) = some r ∧
      r.toNat ≡ horner h.polykey (p.toNat + h.polykey.toNat) ps [MOD 2 ^ 127 - 1] := by
  have hp := hps p List.mem_cons_self
  have hkey : h.polykey.toNat < 2 ^ 125 := by
    have := masked_lt h.hi_masked
    have := h.polykey.lo.isLt
    unfold Wide.toNat
    omega
  obtain ⟨c, efirst, hfirst⟩ := checked_add128 (r := p) (x := h.polykey) (by omega)
  obtain ⟨r, erest, hrest⟩ :=
    foldlM_checked h.hi_masked h.lo_masked (fun q hq => hps q (List.mem_cons_of_mem _ hq)) c
  rw [hfirst] at hrest
  exact ⟨r, bind_eq_some efirst erest, hrest⟩

/-! ## The same on every platform -/

section Platforms

variable {N : Macros Id} (hN : Agrees checked N)

include hN

theorem polyStep_returns (k a p : Wide) : Returns (polyStep checked k a p) (polyStep N k a p) :=
  (hN.pmul64 _ _).bind fun _ => (hN.pmul64 _ _).bind fun _ => (hN.pmul64 _ _).bind fun _ =>
    (hN.pmul64 _ _).bind fun _ => (hN.add128 _ _).bind fun _ => (hN.add128 _ _).bind fun _ =>
      (hN.padd128 _ _).bind fun _ => (hN.add128 _ _).bind fun _ => hN.padd128 _ _

theorem foldlM_returns (k : Wide) (ps : List Wide) (c : Wide) :
    Returns (ps.foldlM (polyStep checked k) c) (ps.foldlM (polyStep N k) c) := by
  induction ps generalizing c with
  | nil => exact Returns.pure c
  | cons p ps ih =>
    rw [List.foldlM_cons, List.foldlM_cons]
    exact (polyStep_returns hN k c p).bind ih

theorem accumulate_returns (k : Wide) (ps : List Wide) :
    Returns (accumulate checked k ps) (accumulate N k ps) := by
  cases ps with
  | nil => exact Returns.pure k
  | cons p ps => exact (hN.add128 _ _).bind (foldlM_returns hN k ps)

theorem level3Reduce_returns (p : Wide) (len : u64) :
    Returns (level3Reduce checked p len) (level3Reduce N p len) :=
  (hN.add128 _ _).bind fun _ => (hN.padd128 _ _).bind fun _ => Returns.pure _

end Platforms

theorem hash_returns {N : Macros Id} (hN : Agrees checked N) (data : List u8) :
    Returns (hash h checked data) (hash h N data) := by
  unfold hash
  rw [compress_eq, compress_eq]
  exact (accumulate_returns hN _ _).bind fun c =>
    (level3Reduce_returns hN c _).bind fun _ => Returns.pure _

theorem compress_checked (data : List u8) : ∃ c, compress h checked data = some c := by
  rw [compress_eq]
  cases hpieces : pieces h data with
  | nil => exact ⟨h.polykey, rfl⟩
  | cons p ps =>
    obtain ⟨c, hrun, -⟩ := accumulate_checked h (fun q hq =>
      pieces_lt h (by rwa [hpieces]))
    exact ⟨c, hrun⟩

/-- What `Hash` gives `Level3Hash` is the polynomial of the pieces, at the key. -/
theorem compress_polynomial {data : List u8} {p : Wide} {ps : List Wide}
    (hpieces : pieces h data = p :: ps) (platform : Platform) :
    ∃ c : Wide, compress h platform.macros data = c ∧
      c.toNat ≡ horner h.polykey (p.toNat + h.polykey.toNat) ps [MOD 2 ^ 127 - 1] := by
  obtain ⟨c, hrun, hmod⟩ := accumulate_checked h (fun q hq =>
    pieces_lt h (by rwa [hpieces]))
  refine ⟨c, ?_, hmod⟩
  rw [compress_eq, hpieces]
  exact accumulate_returns (agrees_checked platform) h.polykey (p :: ps) c hrun

/-- **The polynomial of `Hash`.** Each `PolyStep` of a run multiplies by the key and adds the next
piece, modulo `2^127 - 1`, `Level3Hash` reduces to the canonical value, and no run over the checked
macros stops, so that all platforms compute the same hash. -/
theorem hash_polynomial (key : Vector u8 160) (data : List u8) (platform : Platform)
    (hlen : data.length < 2 ^ 31) :
    let h := setKey key
    let k := h.polykey
    let M := platform.macros
    let len := BitVec.ofNat 64 data.length
    let c : Wide := compress h M data
    let r : Wide := level3Reduce M c len
    c = accumulate M k (pieces h data) ∧
    (∀ pre p post, pieces h data = pre ++ p :: post → pre ≠ [] →
      let a : Wide := accumulate M k pre
      let a' : Wide := accumulate M k (pre ++ [p])
      polyStep M k a p = a' ∧ polyStep checked k a p = some a' ∧
        a'.toNat ≡ a.toNat * k.toNat + p.toNat [MOD 2 ^ 127 - 1] ∧
        a'.toNat < 2 ^ 127 + 2 ^ 126 + 2 ^ 64) ∧
    compress h checked data = some c ∧
    level3Reduce checked c len = some r ∧
    r.toNat = (c.toNat + data.length * 2 ^ 64) % (2 ^ 127 - 1) ∧
    hash h checked data = some (hash h M data) := by
  intro h k M len c r
  have hagrees := agrees_checked platform
  have hlenNat : len.toNat = data.length := by
    rw [BitVec.toNat_ofNat]
    exact Nat.mod_eq_of_lt (by omega)
  have hcompress : c = accumulate M k (pieces h data) := compress_eq h M data
  obtain ⟨c', hrun⟩ := compress_checked h data
  have hc : c' = c := by
    rw [hcompress]
    rw [compress_eq] at hrun
    exact (accumulate_returns hagrees k (pieces h data) c' hrun).symm
  rw [hc] at hrun
  have hlenLt : len.toNat < 2 ^ 62 := by omega
  obtain ⟨r', hreduce, hvalue⟩ := level3Reduce_checked c hlenLt
  have hr : r' = r := (level3Reduce_returns hagrees c len r' hreduce).symm
  rw [hr] at hreduce hvalue
  rw [hlenNat] at hvalue
  have hhash : hash h checked data = some (level3Rest r h.l3key) :=
    bind_eq_some hrun (bind_eq_some hreduce rfl)
  refine ⟨hcompress, fun pre p post hsplit hpre => ?_, hrun, hreduce, hvalue, ?_⟩
  · intro a a'
    have hp : p.toNat < 2 ^ 126 := pieces_lt h (by
      rw [hsplit]
      exact List.mem_append_right _ List.mem_cons_self)
    have hstep : a' = polyStep M k a p := accumulate_snoc M k hpre p
    obtain ⟨b, hb, hmod, hlt⟩ := polyStep_checked h.hi_masked h.lo_masked a hp
    have hsame : polyStep M k a p = b := polyStep_returns hagrees k a p b hb
    rw [hsame] at hstep
    rw [hstep]
    exact ⟨hsame, hb, hmod, hlt⟩
  · rw [hhash]
    exact congrArg some (hash_returns h hagrees data _ hhash).symm

/-- A block whose hash has its low word in the top bit, and one more byte. -/
def topBit : List u8 := [0, 0, 0, 0, 0, 0, 0, 0x80, 1] ++ List.replicate 120 0

theorem topBit_length : topBit.length = 129 := by
  rw [topBit, List.length_append, List.length_replicate]
  rfl

/-- The one step of this message, on a platform that multiplies by halves. -/
theorem hash_polynomial_topBit :
    let h := setKey (Vector.replicate 160 0)
    let a : Wide := accumulate portable h.polykey [block h topBit]
    let p := rest h (topBit.drop nhBytes) 1
    hash h checked topBit = some (hash h portable topBit) ∧
      polyStep checked h.polykey a p = some (polyStep portable h.polykey a p) := by
  intro h a p
  have hall := hash_polynomial (Vector.replicate 160 0) topBit .portable (by
    rw [topBit_length]
    decide)
  have hpieces : pieces h topBit = [block h topBit, p] := by
    unfold pieces
    rw [topBit_length]
    rfl
  obtain ⟨hstep, hchecked, -⟩ := hall.2.1 [block h topBit] p [] hpieces (List.cons_ne_nil _ _)
  exact ⟨hall.2.2.2.2.2, hchecked.trans (congrArg some hstep.symm)⟩

/-- The pre-condition that the header gives for `CAT_PMUL64` is not met. -/
theorem not_documented :
    ¬ ∀ (key : Vector u8 160) (data : List u8), data.length < 2 ^ 31 →
      (compress (setKey key) documented data).isSome := by
  intro hall
  have hnone : (compress (setKey (Vector.replicate 160 0)) documented topBit).isSome = false := by
    decide +kernel
  have hsome := hall (Vector.replicate 160 0) topBit (by
    rw [topBit_length]
    decide)
  rw [hnone] at hsome
  cases hsome

end Libcat.Crypt.VHash
