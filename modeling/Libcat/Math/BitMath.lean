import Libcat.Lib.Serial

/-!
# Counter reconstruction

`ReconstructCounter` of `BitMath.hpp`: a 32- or 64-bit counter from its low bits and the last
accepted value. `reconstructCounter_eq` gives the value as an offset from the center and
`reconstructCounter_of_window` says that every counter value inside the window around the center
is recovered from its low bits; by `reconstructCounter_inWindow` no value outside it is returned.
-/

namespace Libcat

open Serial

abbrev u8 := BitVec 8
abbrev u16 := BitVec 16
abbrev u32 := BitVec 32
abbrev u64 := BitVec 64

/-- `ReconstructCounter(bits, center_count, partial_low_bits)`. -/
def reconstructCounter {w : Nat} (bits : Nat) (centerCount : BitVec w) (partialLowBits : u32) :
    BitVec w :=
  let ivMsb : u32 := 1#32 <<< bits
  let ivMask : u32 := ivMsb - 1
  let diff : u32 := partialLowBits - (centerCount &&& ivMask.setWidth w).setWidth 32
  ((centerCount &&& ~~~ ivMask.setWidth w) ||| partialLowBits.setWidth w)
    - (((ivMsb >>> 1) - (diff &&& ivMask)) &&& ivMsb).setWidth w
    + (diff &&& ivMsb).setWidth w

/-- `ReconstructCounter<BITS>(center_count, partial_low_bits)`, the template. -/
def reconstructCounterAt {w : Nat} (BITS : Nat) (center_count : BitVec w) (partial_low_bits : u32) :
    BitVec w :=
  let IV_MSB : u32 := 1#32 <<< BITS
  let IV_MASK : u32 := IV_MSB - 1
  let diff : u32 := partial_low_bits - (center_count &&& IV_MASK.setWidth w).setWidth 32
  ((center_count &&& ~~~ IV_MASK.setWidth w) ||| partial_low_bits.setWidth w)
    - (((IV_MSB >>> 1) - (diff &&& IV_MASK)) &&& IV_MSB).setWidth w
    + (diff &&& IV_MSB).setWidth w

/-- `BiasedReconstructCounter<BITS>(now, future_tolerance, partial_low_bits)`. -/
def biasedReconstructCounter {w : Nat} (BITS : Nat) (now : BitVec w)
    (future_tolerance partial_low_bits : u32) : BitVec w :=
  let IV_OFFSET : u32 := 1#32 <<< (BITS - 1)
  reconstructCounterAt BITS (now - IV_OFFSET.setWidth w + future_tolerance.setWidth w) partial_low_bits

section Masks

variable {w bits : Nat}

theorem two_pow_lt (hb : bits ≤ 30) : 2 ^ bits < 2 ^ 32 :=
  Nat.pow_lt_pow_right (by omega) (by omega)

theorem ivMsb_toNat (hb : bits ≤ 30) : (1#32 <<< bits).toNat = 2 ^ bits := by
  have := two_pow_lt hb
  rw [BitVec.toNat_shiftLeft, Nat.shiftLeft_eq]
  simp only [BitVec.toNat_ofNat]
  omega

theorem ivMask_toNat (hb : bits ≤ 30) : (1#32 <<< bits - 1).toNat = 2 ^ bits - 1 := by
  have h1 : 0 < 2 ^ bits := Nat.two_pow_pos bits
  have h2 := two_pow_lt hb
  rw [BitVec.toNat_sub, ivMsb_toNat hb, show (1 : u32).toNat = 1 from rfl]
  omega

theorem and_ivMask_toNat (hb : bits ≤ 30) (hw : 32 ≤ w) (x : BitVec w) :
    (x &&& (1#32 <<< bits - 1).setWidth w).toNat = x.toNat % 2 ^ bits := by
  have h2 := two_pow_lt hb
  have h3 : 2 ^ 32 ≤ 2 ^ w := Nat.pow_le_pow_right (by omega) hw
  rw [BitVec.toNat_and, BitVec.toNat_setWidth, ivMask_toNat hb, Nat.mod_eq_of_lt (by omega),
    Nat.and_two_pow_sub_one_eq_mod]

theorem and_ivMsb_toNat (hb : bits ≤ 30) (x : u32) :
    (x &&& 1#32 <<< bits).toNat = x.toNat / 2 ^ bits % 2 * 2 ^ bits := by
  rw [BitVec.toNat_and, ivMsb_toNat hb, Nat.and_two_pow, Nat.toNat_testBit]

theorem setWidth_and_ivMask (hb : bits ≤ 30) (hw : 32 ≤ w) {y : u32} (hy : y.toNat < 2 ^ bits) :
    y.setWidth w &&& (1#32 <<< bits - 1).setWidth w = y.setWidth w := by
  have h3 : 2 ^ 32 ≤ 2 ^ w := Nat.pow_le_pow_right (by omega) hw
  apply BitVec.eq_of_toNat_eq
  rw [and_ivMask_toNat hb hw, BitVec.toNat_setWidth,
    Nat.mod_eq_of_lt (by omega : y.toNat < 2 ^ w), Nat.mod_eq_of_lt hy]

end Masks

/-- The value as an offset `d` from the center, `d` the residue of the low bits behind it. -/
theorem reconstructCounter_eq {w bits : Nat} (h1 : 1 ≤ bits) (hb : bits ≤ 30) (hw : 32 ≤ w)
    (center : BitVec w) (low : u32) (hp : low.toNat < 2 ^ bits) :
    reconstructCounter bits center low =
      let d := (low.toNat + 2 ^ bits - center.toNat % 2 ^ bits) % 2 ^ bits
      if d ≤ 2 ^ (bits - 1) then center + BitVec.ofNat w d
      else center + BitVec.ofNat w d - BitVec.ofNat w (2 ^ bits) := by
  simp only [reconstructCounter]
  rw [replace_low (setWidth_and_ivMask hb hw hp)]
  have hM := Nat.two_pow_pos bits
  have h2 : 2 ^ 32 = 2 * 2 ^ (31 - bits) * 2 ^ bits := by
    rw [Nat.mul_assoc, ← Nat.pow_add, ← Nat.pow_succ']; congr 1; omega
  have hK := Nat.two_pow_pos (31 - bits)
  have hhalf : 2 ^ bits = 2 * 2 ^ (bits - 1) := by
    rw [← Nat.pow_succ']; congr 1; omega
  have hc := Nat.mod_lt center.toNat hM
  obtain ⟨hd1, hd2⟩ := sub_bits hM hK hp hc
  have hdiff : (low - (center &&& (1#32 <<< bits - 1).setWidth w).setWidth 32).toNat =
      (2 * 2 ^ (31 - bits) * 2 ^ bits - center.toNat % 2 ^ bits + low.toNat) %
        (2 * 2 ^ (31 - bits) * 2 ^ bits) := by
    rw [BitVec.toNat_sub, BitVec.toNat_setWidth, and_ivMask_toNat hb hw, ← h2]
    congr 2
    have := two_pow_lt hb
    omega
  generalize low - (center &&& (1#32 <<< bits - 1).setWidth w).setWidth 32 = diff at hdiff
  have hmask : (diff &&& 1#32 <<< bits - 1).toNat =
      (low.toNat + 2 ^ bits - center.toNat % 2 ^ bits) % 2 ^ bits := by
    have := and_ivMask_toNat hb (Nat.le_refl 32) diff
    rw [BitVec.setWidth_eq] at this
    rw [this, hdiff, hd1]
  have hY : (diff &&& 1#32 <<< bits).toNat =
      (if low.toNat < center.toNat % 2 ^ bits then 1 else 0) * 2 ^ bits := by
    rw [and_ivMsb_toNat hb, hdiff, hd2]
  generalize hd : (low.toNat + 2 ^ bits - center.toNat % 2 ^ bits) % 2 ^ bits = d at hmask
  have hdlt : d < 2 ^ bits := hd ▸ Nat.mod_lt _ hM
  have hX : (1#32 <<< bits >>> 1 - (diff &&& 1#32 <<< bits - 1) &&& 1#32 <<< bits).toNat =
      (if 2 ^ (bits - 1) < d then 1 else 0) * 2 ^ bits := by
    rw [and_ivMsb_toNat hb, BitVec.toNat_sub, hmask, BitVec.toNat_ushiftRight, ivMsb_toNat hb, h2,
      Nat.shiftRight_eq_div_pow, show 2 ^ bits / 2 ^ 1 = 2 ^ (bits - 1) by omega,
      (sub_bits hM hK (by omega : 2 ^ (bits - 1) < 2 ^ bits) hdlt).2]
  have ofN : ∀ x : u32, x.setWidth w = BitVec.ofNat w x.toNat := fun x => by
    rw [BitVec.ofNat_toNat]
  have hcm : center &&& (1#32 <<< bits - 1).setWidth w =
      BitVec.ofNat w (center.toNat % 2 ^ bits) := by
    rw [← and_ivMask_toNat hb hw, BitVec.ofNat_toNat, BitVec.setWidth_eq]
  rw [hcm, ofN low, ofN, ofN (diff &&& 1#32 <<< bits), hX, hY]
  -- the wrap of the low bits below the center's is what the last term pays back
  have key : BitVec.ofNat w low.toNat +
      BitVec.ofNat w ((if low.toNat < center.toNat % 2 ^ bits then 1 else 0) * 2 ^ bits) =
      BitVec.ofNat w d + BitVec.ofNat w (center.toNat % 2 ^ bits) := by
    rw [← BitVec.ofNat_add, ← BitVec.ofNat_add]
    congr 1
    split
    · rw [Nat.mod_eq_of_lt (by omega)] at hd; omega
    · rw [show low.toNat + 2 ^ bits - center.toNat % 2 ^ bits =
        low.toNat - center.toNat % 2 ^ bits + 2 ^ bits by omega, Nat.add_mod_right,
        Nat.mod_eq_of_lt (by omega)] at hd
      omega
  by_cases h : d ≤ 2 ^ (bits - 1)
  · rw [if_pos h, if_neg (by omega : ¬ 2 ^ (bits - 1) < d), Nat.zero_mul, BitVec.sub_zero]
    linear_combination key
  · rw [if_neg h, if_pos (by omega : 2 ^ (bits - 1) < d), Nat.one_mul]
    linear_combination key

theorem toNat_add_ahead {w : Nat} (center target : BitVec w) :
    target.toNat = (center.toNat + ahead target center) % 2 ^ w := by
  conv_lhs => rw [← add_ahead target center, BitVec.toNat_add, BitVec.toNat_ofNat]
  rw [Nat.mod_eq_of_lt (ahead_lt target center)]

/-- Every counter value inside the window is recovered from its low bits. -/
theorem reconstructCounter_of_window {w bits : Nat} (h1 : 1 ≤ bits) (hb : bits ≤ 30) (hw : 32 ≤ w)
    {center target : BitVec w} {low : u32} (hlow : low.toNat = target.toNat % 2 ^ bits)
    (h : InWindow bits center target) : reconstructCounter bits center low = target := by
  have hM := Nat.two_pow_pos bits
  rw [reconstructCounter_eq h1 hb hw center low (hlow ▸ Nat.mod_lt _ hM)]
  have hdvd : 2 ^ bits ∣ 2 ^ w := Nat.pow_dvd_pow 2 (by omega)
  have hhalf : 2 ^ bits = 2 * 2 ^ (bits - 1) := by
    rw [← Nat.pow_succ']; congr 1; omega
  have hle : 2 ^ bits ≤ 2 ^ w := Nat.le_of_dvd (Nat.two_pow_pos w) hdvd
  have hd := sub_mod_of_add hdvd hM (toNat_add_ahead center target)
  rw [← hlow] at hd
  have hlt := ahead_lt target center
  obtain ⟨hlo, hhi⟩ := h
  rw [BitVec.toInt_eq_toNat_cond, show (target - center).toNat = ahead target center from rfl]
    at hlo hhi
  push_cast at hlo hhi
  simp only [hd]
  have hcast : (2 : Int) ^ (bits - 1) = ((2 ^ (bits - 1) : Nat) : Int) := by push_cast; rfl
  rw [hcast] at hlo hhi
  generalize 2 ^ (bits - 1) = half at *
  by_cases hs : ahead target center ≤ half
  · rw [Nat.mod_eq_of_lt (by omega), if_pos hs, add_ahead]
  · have hcw : (2 : Int) ^ w = ((2 ^ w : Nat) : Int) := by push_cast; rfl
    rw [hcw] at hlo hhi
    have hbig : 2 ^ w - half < ahead target center := by
      split at hhi
      · omega
      · split at hlo <;> omega
    -- the target lies `2 ^ w - ahead` behind the center
    obtain ⟨K, hK⟩ := hdvd
    have hback : ahead target center % 2 ^ bits = ahead target center + 2 ^ bits - 2 ^ w := by
      have : 2 ^ w = 2 ^ bits * (K - 1) + 2 ^ bits := by
        have hKpos : 0 < K := Nat.pos_of_mul_pos_left (hK ▸ Nat.two_pow_pos w)
        rw [hK]; conv_lhs => rw [show K = K - 1 + 1 by omega, Nat.mul_succ]
      rw [show ahead target center = (ahead target center + 2 ^ bits - 2 ^ w) + 2 ^ bits * (K - 1)
        by omega, Nat.add_mul_mod_self_left, Nat.mod_eq_of_lt (by omega)]
      omega
    rw [hback, if_neg (by omega)]
    have e : BitVec.ofNat w (ahead target center + 2 ^ bits - 2 ^ w) =
        BitVec.ofNat w (ahead target center) + BitVec.ofNat w (2 ^ bits) := by
      apply BitVec.eq_of_toNat_eq
      rw [← BitVec.ofNat_add, BitVec.toNat_ofNat, BitVec.toNat_ofNat]
      conv_rhs => rw [show ahead target center + 2 ^ bits =
        (ahead target center + 2 ^ bits - 2 ^ w) + 2 ^ w by omega, Nat.add_mod_right]
    rw [e, ← add_assoc, add_sub_cancel_right, add_ahead]

/-- The reconstructed value always lies in the window. -/
theorem reconstructCounter_inWindow {w bits : Nat} (h1 : 1 ≤ bits) (hb : bits ≤ 30) (hw : 32 ≤ w)
    (center : BitVec w) {low : u32} (hp : low.toNat < 2 ^ bits) :
    InWindow bits center (reconstructCounter bits center low) := by
  have hM := Nat.two_pow_pos bits
  have hhalf : 2 ^ bits = 2 * 2 ^ (bits - 1) := by
    rw [← Nat.pow_succ']; congr 1; omega
  have hw4 : 4 * 2 ^ bits ≤ 2 ^ w := by
    rw [show 4 * 2 ^ bits = 2 ^ (bits + 2) by rw [Nat.pow_add]; omega]
    exact Nat.pow_le_pow_right (by omega) (by omega)
  rw [reconstructCounter_eq h1 hb hw center low hp]
  have hd : (low.toNat + 2 ^ bits - center.toNat % 2 ^ bits) % 2 ^ bits < 2 ^ bits :=
    Nat.mod_lt _ hM
  simp only
  generalize (low.toNat + 2 ^ bits - center.toNat % 2 ^ bits) % 2 ^ bits = d at hd
  unfold InWindow
  have hcast : (2 : Int) ^ (bits - 1) = ((2 ^ (bits - 1) : Nat) : Int) := by push_cast; rfl
  rw [hcast]
  generalize 2 ^ (bits - 1) = half at *
  by_cases h : d ≤ half
  · rw [if_pos h, show center + BitVec.ofNat w d - center = BitVec.ofNat w d by ring,
      BitVec.toInt_eq_toNat_of_lt (by rw [BitVec.toNat_ofNat, Nat.mod_eq_of_lt (by omega)]; omega),
      BitVec.toNat_ofNat, Nat.mod_eq_of_lt (by omega)]
    omega
  · rw [if_neg h, show center + BitVec.ofNat w d - BitVec.ofNat w (2 ^ bits) - center =
      BitVec.ofNat w d - BitVec.ofNat w (2 ^ bits) by ring]
    have e : BitVec.ofNat w d - BitVec.ofNat w (2 ^ bits) = BitVec.ofInt w (d - 2 ^ bits) := by
      rw [show (d : Int) - 2 ^ bits = (d : Int) + -((2 ^ bits : Nat) : Int) by push_cast; ring,
        BitVec.ofInt_add, BitVec.ofInt_neg, BitVec.ofInt_natCast, BitVec.ofInt_natCast]
      ring
    rw [e, BitVec.toInt_ofInt, Int.bmod_eq_of_le] <;>
      rw [show (2 : Int) ^ bits = ((2 ^ bits : Nat) : Int) by push_cast; rfl] <;> omega

/-- The low bits of the value are the given ones. -/
theorem reconstructCounter_mod {w bits : Nat} (h1 : 1 ≤ bits) (hb : bits ≤ 30) (hw : 32 ≤ w)
    (center : BitVec w) {low : u32} (hp : low.toNat < 2 ^ bits) :
    (reconstructCounter bits center low).toNat % 2 ^ bits = low.toNat := by
  have hM := Nat.two_pow_pos bits
  have hdvd : 2 ^ bits ∣ 2 ^ w := Nat.pow_dvd_pow 2 (by omega)
  have hle : 2 ^ bits ≤ 2 ^ w := Nat.le_of_dvd (Nat.two_pow_pos w) hdvd
  have hc := Nat.mod_lt center.toNat hM
  have hadd : ∀ d, (center + BitVec.ofNat w d).toNat % 2 ^ bits =
      (center.toNat % 2 ^ bits + d) % 2 ^ bits := fun d => by
    rw [BitVec.toNat_add, BitVec.toNat_ofNat, Nat.add_mod_mod, Nat.mod_mod_of_dvd _ hdvd,
      Nat.mod_add_mod]
  have hlow : ∀ d, d = (low.toNat + 2 ^ bits - center.toNat % 2 ^ bits) % 2 ^ bits →
      (center.toNat % 2 ^ bits + d) % 2 ^ bits = low.toNat := by
    rintro d rfl
    rw [Nat.add_mod_mod, show center.toNat % 2 ^ bits +
      (low.toNat + 2 ^ bits - center.toNat % 2 ^ bits) = low.toNat + 2 ^ bits by omega,
      Nat.add_mod_right, Nat.mod_eq_of_lt hp]
  rw [reconstructCounter_eq h1 hb hw center low hp]
  simp only
  split
  · rw [hadd, hlow _ rfl]
  · -- a multiple of the modulus is taken off, which the wrap of the counter does not disturb
    have hlt : 2 ^ bits < 2 ^ w := Nat.pow_lt_pow_right (by omega) (by omega)
    obtain ⟨K, hK⟩ := hdvd
    have hwrap : 2 ^ w - 2 ^ bits % 2 ^ w = 2 ^ bits * (K - 1) := by
      rw [Nat.mod_eq_of_lt hlt, hK, Nat.mul_sub, Nat.mul_one]
    rw [BitVec.toNat_sub, BitVec.toNat_ofNat, Nat.mod_mod_of_dvd _ ⟨K, hK⟩, hwrap, Nat.mul_add_mod,
      hadd, hlow _ rfl]

/-- `target` is one of `center + lo`, …, `center + hi`, computed modulo `2 ^ w`. -/
def Among {w : Nat} (center : BitVec w) (lo hi : Int) (target : BitVec w) : Prop :=
  ∃ k : Int, lo ≤ k ∧ k ≤ hi ∧ target = center + BitVec.ofInt w k

theorem inWindow_iff {w bits : Nat} (h1 : 1 ≤ bits) (hw : bits + 2 ≤ w) {center target : BitVec w} :
    InWindow bits center target ↔ Among center (-2 ^ (bits - 1) + 1) (2 ^ (bits - 1)) target := by
  have hpow : 4 * 2 ^ bits ≤ 2 ^ w := by
    rw [show 4 * 2 ^ bits = 2 ^ (bits + 2) by rw [Nat.pow_add]; omega]
    exact Nat.pow_le_pow_right (by omega) hw
  have hhalf : 2 ^ bits = 2 * 2 ^ (bits - 1) := by
    rw [← Nat.pow_succ']; congr 1; omega
  have hcast : (2 : Int) ^ (bits - 1) = ((2 ^ (bits - 1) : Nat) : Int) := by push_cast; rfl
  unfold InWindow Among
  rw [hcast]
  generalize 2 ^ (bits - 1) = half at *
  constructor
  · rintro ⟨hlo, hhi⟩
    refine ⟨(target - center).toInt, by omega, hhi, ?_⟩
    rw [BitVec.ofInt_toInt]; ring
  · rintro ⟨k, hlo, hhi, rfl⟩
    rw [add_sub_cancel_left, BitVec.toInt_ofInt, Int.bmod_eq_of_le (by omega) (by omega)]
    omega

theorem reconstructCounter_iff {w bits : Nat} (h1 : 1 ≤ bits) (hb : bits ≤ 30) (hw : 32 ≤ w)
    {low : u32} (hp : low.toNat < 2 ^ bits) (center target : BitVec w) :
    target = reconstructCounter bits center low ↔
      Among center (-2 ^ (bits - 1) + 1) (2 ^ (bits - 1)) target ∧
        target.toNat % 2 ^ bits = low.toNat := by
  rw [← inWindow_iff h1 (by omega)]
  constructor
  · rintro rfl
    exact ⟨reconstructCounter_inWindow h1 hb hw center hp, reconstructCounter_mod h1 hb hw center hp⟩
  · rintro ⟨hin, hmod⟩
    exact (reconstructCounter_of_window h1 hb hw hmod.symm hin).symm

/-- Moving the center moves the window. -/
theorem among_sub_add {w : Nat} {now target : BitVec w} {lo hi : Int} (offset tolerance : Nat) :
    Among (now - BitVec.ofNat w offset + BitVec.ofNat w tolerance) lo hi target ↔
      Among now (lo - offset + tolerance) (hi - offset + tolerance) target := by
  have hcenter : ∀ k : Int, now - BitVec.ofNat w offset + BitVec.ofNat w tolerance + BitVec.ofInt w k =
      now + BitVec.ofInt w (k - offset + tolerance) := fun k => by
    rw [show k - offset + tolerance = k + -(offset : Int) + tolerance by ring, BitVec.ofInt_add,
      BitVec.ofInt_add, BitVec.ofInt_neg, BitVec.ofInt_natCast, BitVec.ofInt_natCast]
    ring
  constructor
  · rintro ⟨k, hlo, hhi, rfl⟩
    exact ⟨k - offset + tolerance, by omega, by omega, hcenter k⟩
  · rintro ⟨k, hlo, hhi, rfl⟩
    refine ⟨k + offset - tolerance, by omega, by omega, ?_⟩
    rw [hcenter]
    congr 2
    ring

/-- **Counter reconstruction.** The value is the only one with the low bits in the window around the
center, by the template and at run time, and with a bias in the window that ends at the tolerance. -/
theorem counter_reconstruction {w bits : Nat} (hw : w = 32 ∨ w = 64) (h1 : 1 ≤ bits) (hb : bits ≤ 30)
    (low : u32) (hlow : low.toNat < 2 ^ bits) :
    (∀ center target : BitVec w, target = reconstructCounter bits center low ↔
      Among center (-2 ^ (bits - 1) + 1) (2 ^ (bits - 1)) target ∧
        target.toNat % 2 ^ bits = low.toNat) ∧
    (∀ center : BitVec w, reconstructCounterAt bits center low = reconstructCounter bits center low) ∧
    ∀ (now target : BitVec w) (tolerance : u32),
      target = biasedReconstructCounter bits now tolerance low ↔
        Among now (-2 ^ bits + tolerance.toNat + 1) tolerance.toNat target ∧
          target.toNat % 2 ^ bits = low.toNat := by
  have hw' : 32 ≤ w := by omega
  refine ⟨reconstructCounter_iff h1 hb hw' hlow, fun _ => rfl, fun now target tolerance => ?_⟩
  have hoffset : (1#32 <<< (bits - 1)).setWidth w = BitVec.ofNat w (2 ^ (bits - 1)) := by
    rw [← ivMsb_toNat (by omega : bits - 1 ≤ 30), BitVec.ofNat_toNat]
  have htolerance : tolerance.setWidth w = BitVec.ofNat w tolerance.toNat := by
    rw [BitVec.ofNat_toNat]
  have hcenter : biasedReconstructCounter bits now tolerance low = reconstructCounter bits
      (now - BitVec.ofNat w (2 ^ (bits - 1)) + BitVec.ofNat w tolerance.toNat) low := by
    rw [← hoffset, ← htolerance]
    rfl
  have hhalf : (2 : Int) ^ bits = 2 * 2 ^ (bits - 1) := by
    rw [← pow_succ']; congr 1; omega
  rw [hcenter, reconstructCounter_iff h1 hb hw' hlow, among_sub_add]
  push_cast
  rw [hhalf]
  ring_nf

theorem counter_reconstruction_sixteen : (65541 : u64) = reconstructCounter 16 65530 5 :=
  ((counter_reconstruction (.inr rfl) (by decide) (by decide) 5 (by decide)).1 65530 65541).mpr
    ⟨⟨11, by decide, by decide, rfl⟩, rfl⟩

end Libcat
