import Libcat.Math.BitMath
import Libcat.Lib.Run

/-!
# The anti-replay window

`IsValidIV` and `AcceptIV` of `AuthenticatedEncryption.cpp`. `remote_iv` is the newest IV
accepted and bit `d` of the 1024-bit map stands for the IV `remote_iv - d`. The right shift by
`64 - bit_shift` is the x86-64 one, whose count is taken modulo 64: C++ leaves the shift by 64
that a jump by a multiple of 64 makes undefined.

`jumpWindow_bit` is the map after a forward jump bit by bit: the old map moved up by the jump and,
for a jump by a multiple of 64, a second copy of it moved up by 64 more. The second copy marks IVs
that were never received, so it costs deliveries, never replay protection.
-/

namespace Libcat.Crypt

open Serial

def bitmapBits : Nat := 1024

def bitmapWords : Nat := bitmapBits / 64

/-- The receiving half of `AuthenticatedEncryption`. `ivBitmap` is indexed below `bitmapWords`. -/
structure Remote where
  acceptOutOfOrder : Bool
  remoteIv : u64
  ivBitmap : Nat → u64

/-- `x >> n` of a 64-bit word on x86-64. -/
def shr64 (x : u64) (n : Nat) : u64 := x >>> (n % 64)

/-- `(int)x` of a 64-bit word. -/
def toInt32 (x : u64) : Int := (x.setWidth 32).toInt

/-- `AuthenticatedEncryption::IsValidIV`. -/
def isValidIV (s : Remote) (iv : u64) : Bool :=
  let delta := toInt32 (s.remoteIv - iv)
  if 0 ≤ delta then
    if !s.acceptOutOfOrder then false
    else if (bitmapBits : Int) ≤ delta then false
    else
      let d := delta.toNat
      let map := s.ivBitmap (d >>> 6)
      let mask : u64 := 1#64 <<< (d % 64)
      if map &&& mask ≠ 0 then false else true
  else true

/-- The replay window shift: words `ii` down to `word_shift + 1`, each from the word below. -/
def shiftWindow (wordShift bitShift : Nat) : Nat → (Nat → u64) → u64 → (Nat → u64) × u64
  | 0, map, last => (map, last)
  | ii + 1, map, last =>
    if wordShift + 1 ≤ ii + 1 then
      let x := map (ii + 1 - wordShift - 1)
      let y := (last <<< bitShift) ||| shr64 x (64 - bitShift)
      shiftWindow wordShift bitShift ii (Function.update map (ii + 1) y) x
    else (map, last)

/-- The map after a jump of `delta < bitmapBits` into the future. -/
def jumpWindow (map : Nat → u64) (delta : Nat) : Nat → u64 :=
  let wordShift := delta >>> 6
  let bitShift := delta % 64
  let r := shiftWindow wordShift bitShift (bitmapWords - 1) map (map (bitmapWords - 1 - wordShift))
  let shifted := Function.update r.1 wordShift (r.2 <<< bitShift)
  -- zero the words skipped
  let zeroed := fun ii => if ii < wordShift then 0 else shifted ii
  Function.update zeroed 0 (zeroed 0 ||| 1)

/-- `AuthenticatedEncryption::AcceptIV`. -/
def acceptIV (s : Remote) (iv : u64) : Remote :=
  let delta := toInt32 (iv - s.remoteIv)
  if 0 < delta then
    if (bitmapBits : Int) ≤ delta then
      { s with ivBitmap := fun ii => if ii = 0 then 1 else 0, remoteIv := iv }
    else { s with ivBitmap := jumpWindow s.ivBitmap delta.toNat, remoteIv := iv }
  else
    let d := (-delta).toNat
    { s with ivBitmap :=
        Function.update s.ivBitmap (d >>> 6) (s.ivBitmap (d >>> 6) ||| 1#64 <<< (d % 64)) }

/-- Bit `d` of the map. -/
def bit (map : Nat → u64) (d : Nat) : Bool := (map (d / 64)).getLsbD (d % 64)

/-! ## The shift, word by word -/

section Shift

variable {ws bs : Nat} {map : Nat → u64}

theorem shiftWindow_spec (old : Nat → u64) :
    ∀ ii, ws ≤ ii → ∀ map last, (∀ j ≤ ii, map j = old j) → last = old (ii - ws) →
      (shiftWindow ws bs ii map last).2 = old 0 ∧
      ∀ j, (shiftWindow ws bs ii map last).1 j =
        if ws < j ∧ j ≤ ii then (old (j - ws) <<< bs) ||| shr64 (old (j - ws - 1)) (64 - bs)
        else map j := by
  intro ii
  induction ii with
  | zero =>
    intro h map last _ hl
    simp only [shiftWindow]
    refine ⟨by rw [hl]; congr 1; omega, fun j => ?_⟩
    rw [if_neg (by omega)]
  | succ ii ih =>
    intro h map last hm hl
    by_cases hw : ws + 1 ≤ ii + 1
    · simp only [shiftWindow, hw, if_true]
      have hx : map (ii + 1 - ws - 1) = old (ii - ws) := by rw [hm _ (by omega)]; congr 1; omega
      obtain ⟨h1, h2⟩ := ih (by omega)
        (Function.update map (ii + 1) ((last <<< bs) ||| shr64 (map (ii + 1 - ws - 1)) (64 - bs)))
        (map (ii + 1 - ws - 1))
        (fun j hj => by rw [Function.update_of_ne (by omega), hm j (by omega)]) hx
      refine ⟨h1, fun j => ?_⟩
      rw [h2 j]
      by_cases hj : j = ii + 1
      · subst hj
        rw [if_neg (by omega), if_pos (by omega), Function.update_self, hl, hx]
        congr 2; congr 1; omega
      · rw [Function.update_of_ne hj]
        by_cases hc : ws < j ∧ j ≤ ii
        · rw [if_pos hc, if_pos (by omega)]
        · rw [if_neg hc, if_neg (by omega)]
    · have e : ws = ii + 1 := by omega
      simp only [shiftWindow, hw, if_false]
      refine ⟨by rw [hl]; congr 1; omega, fun j => ?_⟩
      rw [if_neg (by omega)]

/-- Word `j` of the map after a jump. -/
theorem jumpWindow_word {delta : Nat} (hd : delta < bitmapBits) {j : Nat} (hj : j < bitmapWords) :
    jumpWindow map delta j =
      (if j < delta / 64 then 0
        else if j = delta / 64 then map 0 <<< (delta % 64)
        else (map (j - delta / 64) <<< (delta % 64)) |||
          shr64 (map (j - delta / 64 - 1)) (64 - delta % 64)) ||| (if j = 0 then 1 else 0) := by
  simp only [bitmapBits, bitmapWords] at hd hj
  have hs : delta >>> 6 = delta / 64 := Nat.shiftRight_eq_div_pow delta 6
  obtain ⟨h2, h1⟩ := shiftWindow_spec map (1024 / 64 - 1)
    (by omega) map (map (1024 / 64 - 1 - delta / 64)) (fun _ _ => rfl) rfl
  have hz : ∀ k, k < 16 → (if k < delta / 64 then 0
      else Function.update (shiftWindow (delta / 64) (delta % 64) (1024 / 64 - 1) map
        (map (1024 / 64 - 1 - delta / 64))).1 (delta / 64)
        ((shiftWindow (delta / 64) (delta % 64) (1024 / 64 - 1) map
          (map (1024 / 64 - 1 - delta / 64))).2 <<< (delta % 64)) k) =
      if k < delta / 64 then 0
        else if k = delta / 64 then map 0 <<< (delta % 64)
        else (map (k - delta / 64) <<< (delta % 64)) |||
          shr64 (map (k - delta / 64 - 1)) (64 - delta % 64) := by
    intro k hk
    by_cases hlt : k < delta / 64
    · rw [if_pos hlt, if_pos hlt]
    · rw [if_neg hlt, if_neg hlt]
      by_cases he : k = delta / 64
      · subst he; rw [Function.update_self, if_pos rfl, h2]
      · rw [Function.update_of_ne he, if_neg he, h1, if_pos (by omega)]
  simp only [jumpWindow, hs, bitmapBits, bitmapWords]
  by_cases h0 : j = 0
  · subst h0
    rw [Function.update_self, hz 0 (by omega)]
    simp
  · rw [Function.update_of_ne h0, hz j (by omega)]
    simp [h0]

theorem getLsbD_shr64 (x : u64) (n i : Nat) : (shr64 x n).getLsbD i = x.getLsbD (n % 64 + i) := by
  simp [shr64]

theorem getLsbD_lowBit (i : Nat) :
    (if i / 64 = 0 then (1 : u64) else 0).getLsbD (i % 64) = decide (i = 0) := by
  have hb : i % 64 < 64 := Nat.mod_lt _ (by omega)
  by_cases h : i / 64 = 0
  · rw [if_pos h, show (1 : u64) = 1#64 from rfl, BitVec.getLsbD_one]
    simp; omega
  · rw [if_neg h]; simp; omega

/-- The map after a forward jump, bit by bit. -/
theorem jumpWindow_bit {delta i : Nat} (h0 : 0 < delta) (hd : delta < bitmapBits)
    (hi : i < bitmapBits) :
    bit (jumpWindow map delta) i =
      (decide (i = 0) || (decide (delta ≤ i) && bit map (i - delta)) ||
        (decide (delta % 64 = 0 ∧ delta + 64 ≤ i) && bit map (i - delta - 64))) := by
  simp only [bitmapBits] at hd hi
  have hb : i % 64 < 64 := Nat.mod_lt _ (by omega)
  unfold bit
  rw [jumpWindow_word (by simpa [bitmapBits] using hd) (by simp [bitmapWords, bitmapBits]; omega)]
  rw [BitVec.getLsbD_or, getLsbD_lowBit]
  by_cases hlt : i / 64 < delta / 64
  · have : ¬ delta ≤ i := by omega
    rw [if_pos hlt]
    simp [this]; omega
  rw [if_neg hlt]
  by_cases he : i / 64 = delta / 64
  · -- the lowest word that keeps old bits
    rw [if_pos he, BitVec.getLsbD_shiftLeft]
    have h64 : ¬ (delta + 64 ≤ i) := by omega
    by_cases hle : delta ≤ i
    · have e1 : (i - delta) / 64 = 0 := by omega
      have e2 : (i - delta) % 64 = i % 64 - delta % 64 := by omega
      have e3 : ¬ i % 64 < delta % 64 := by omega
      simp [hle, h64, e1, e2, e3, hb, Bool.or_comm]
    · have e3 : i % 64 < delta % 64 := by omega
      simp [hle, h64, e3]
  · rw [if_neg he, BitVec.getLsbD_or, BitVec.getLsbD_shiftLeft, getLsbD_shr64]
    have hle : delta ≤ i := by omega
    by_cases hz : delta % 64 = 0
    · -- a shift by 64, which x86-64 makes a shift by 0
      have e1 : (i - delta) / 64 = i / 64 - delta / 64 := by omega
      have e2 : (i - delta) % 64 = i % 64 := by omega
      have e3 : (i - delta - 64) / 64 = i / 64 - delta / 64 - 1 := by omega
      have e4 : (i - delta - 64) % 64 = i % 64 := by omega
      have e5 : delta + 64 ≤ i := by omega
      have e6 : i ≠ 0 := by omega
      simp [hz, hle, e1, e2, e3, e4, e5, e6, hb]
    · have e6 : i ≠ 0 := by omega
      have e7 : (64 - delta % 64) % 64 = 64 - delta % 64 := by omega
      rw [e7]
      by_cases hlo : i % 64 < delta % 64
      · have e1 : (i - delta) / 64 = i / 64 - delta / 64 - 1 := by omega
        have e2 : (i - delta) % 64 = 64 - delta % 64 + i % 64 := by omega
        simp [hz, hle, e1, e2, e6, hlo]
      · have e1 : (i - delta) / 64 = i / 64 - delta / 64 := by omega
        have e2 : (i - delta) % 64 = i % 64 - delta % 64 := by omega
        have e3 : (map (i / 64 - delta / 64 - 1)).getLsbD (64 - delta % 64 + i % 64) = false :=
          BitVec.getLsbD_of_ge _ _ (by omega)
        simp [hz, hle, e1, e2, e3, e6, hlo, hb]

end Shift

/-! ## One packet -/

/-- What the receiving half sees of a packet after the truncated IV was de-obfuscated: `Decrypt`
from the reconstruction of the IV on (`IV_BITS` is 24). `macValid` is the outcome of the MAC
check; the IV is returned when the packet is accepted. -/
def receivePacket (s : Remote) (truncIv : BitVec 24) (macValid : Bool) : Remote × Option u64 :=
  let iv := reconstructCounter 24 s.remoteIv (truncIv.setWidth 32)
  if isValidIV s iv && macValid then (acceptIV s iv, some iv) else (s, none)

theorem receivePacket_eq (s : Remote) (t : BitVec 24) (m : Bool) :
    receivePacket s t m =
      if isValidIV s (reconstructCounter 24 s.remoteIv (t.setWidth 32)) && m then
        (acceptIV s (reconstructCounter 24 s.remoteIv (t.setWidth 32)),
          some (reconstructCounter 24 s.remoteIv (t.setWidth 32)))
      else (s, none) := rfl

theorem toInt32_ofInt {d : Int} (h1 : -2 ^ 31 ≤ d) (h2 : d < 2 ^ 31) :
    toInt32 (BitVec.ofInt 64 d) = d := by
  have e : (BitVec.ofInt 64 d).setWidth 32 = BitVec.ofInt 32 d := by
    apply BitVec.eq_of_toNat_eq
    rw [BitVec.toNat_setWidth, BitVec.toNat_ofInt, BitVec.toNat_ofInt]
    omega
  rw [toInt32, e, BitVec.toInt_ofInt]
  apply Int.bmod_eq_of_le <;> simp <;> omega

/-- Offsets from `remote_iv`, read back by `IsValidIV` and `AcceptIV`. -/
theorem toInt32_offset (r : u64) {d : Int} (h1 : -2 ^ 31 < d) (h2 : d < 2 ^ 31) :
    toInt32 (r + BitVec.ofInt 64 d - r) = d ∧ toInt32 (r - (r + BitVec.ofInt 64 d)) = -d := by
  rw [show r + BitVec.ofInt 64 d - r = BitVec.ofInt 64 d by ring,
    show r - (r + BitVec.ofInt 64 d) = BitVec.ofInt 64 (-d) by rw [BitVec.ofInt_neg]; ring]
  exact ⟨toInt32_ofInt (by omega) (by omega), toInt32_ofInt (by omega) (by omega)⟩

theorem and_bit_eq_zero (x : u64) (b : Nat) (hb : b < 64) :
    x &&& 1#64 <<< b = 0 ↔ x.getLsbD b = false := by
  rw [show 1#64 <<< b = BitVec.twoPow 64 b from rfl, BitVec.and_twoPow]
  by_cases h : x.getLsbD b = true
  · simp only [h, if_true]
    constructor
    · intro e
      have := congrArg (·.getLsbD b) e
      simp [hb] at this
    · intro e; cases e
  · simp [h]

/-- Marking the IV of a late packet. -/
theorem bit_update (map : Nat → u64) {d i : Nat} :
    bit (Function.update map (d >>> 6) (map (d >>> 6) ||| 1#64 <<< (d % 64))) i =
      (decide (i = d) || bit map i) := by
  have hs : d >>> 6 = d / 64 := Nat.shiftRight_eq_div_pow d 6
  have hd : d % 64 < 64 := Nat.mod_lt _ (by omega)
  have hi : i % 64 < 64 := Nat.mod_lt _ (by omega)
  unfold bit
  rw [hs]
  by_cases hw : i / 64 = d / 64
  · rw [hw, Function.update_self, BitVec.getLsbD_or, show 1#64 <<< (d % 64) =
      BitVec.twoPow 64 (d % 64) from rfl, BitVec.getLsbD_twoPow]
    have : (d % 64 = i % 64) ↔ i = d := by omega
    simp [hd, this, Bool.or_comm]
  · rw [Function.update_of_ne hw]
    have : i ≠ d := fun e => hw (by rw [e])
    simp [this]

/-- The map after a jump into the future. -/
def moveWindow (map : Nat → u64) (delta : Nat) : Nat → u64 :=
  if bitmapBits ≤ delta then fun ii => if ii = 0 then 1 else 0 else jumpWindow map delta

/-- `IsValidIV` of an IV at a signed distance from `remote_iv`. -/
theorem isValidIV_offset (s : Remote) {d : Int} (h1 : -2 ^ 31 < d) (h2 : d < 2 ^ 31) :
    isValidIV s (s.remoteIv + BitVec.ofInt 64 d) =
      (decide (0 < d) ||
        (s.acceptOutOfOrder && decide (-d < bitmapBits) && !bit s.ivBitmap (-d).toNat)) := by
  obtain ⟨-, hd⟩ := toInt32_offset s.remoteIv h1 h2
  simp only [isValidIV, hd]
  by_cases hpos : 0 < d
  · rw [if_neg (by omega)]; simp [hpos]
  rw [if_pos (by omega)]
  cases hacc : s.acceptOutOfOrder with
  | false => simp [hpos]
  | true =>
    by_cases hbig : (bitmapBits : Int) ≤ -d
    · simp [hbig, hpos, show ¬ -d < bitmapBits by omega]
    · simp only [Bool.not_true, Bool.false_eq_true, if_false, hbig]
      have hs : (-d).toNat >>> 6 = (-d).toNat / 64 := Nat.shiftRight_eq_div_pow _ 6
      have hb := and_bit_eq_zero (s.ivBitmap ((-d).toNat / 64)) ((-d).toNat % 64)
        (Nat.mod_lt _ (by omega))
      rw [hs]
      cases hbit : (s.ivBitmap ((-d).toNat / 64)).getLsbD ((-d).toNat % 64) with
      | false => rw [if_neg (by rw [ne_eq, hb, hbit]; simp)]; simp [hpos, bit, hbit]; omega
      | true => rw [if_pos (by rw [ne_eq, hb, hbit]; simp)]; simp [hpos, bit, hbit]

/-- `AcceptIV` of an IV at a signed distance from `remote_iv`. -/
theorem acceptIV_offset (s : Remote) {d : Int} (h1 : -2 ^ 31 < d) (h2 : d < 2 ^ 31) :
    acceptIV s (s.remoteIv + BitVec.ofInt 64 d) =
      if 0 < d then
        { s with remoteIv := s.remoteIv + BitVec.ofInt 64 d
                 ivBitmap := moveWindow s.ivBitmap d.toNat }
      else
        { s with
          ivBitmap := Function.update s.ivBitmap ((-d).toNat >>> 6)
            (s.ivBitmap ((-d).toNat >>> 6) ||| 1#64 <<< ((-d).toNat % 64)) } := by
  obtain ⟨hd, -⟩ := toInt32_offset s.remoteIv h1 h2
  simp only [acceptIV, hd]
  by_cases hpos : 0 < d
  · simp only [hpos, if_true, moveWindow]
    by_cases hbig : (bitmapBits : Int) ≤ d
    · rw [if_pos hbig, if_pos (by omega)]
    · rw [if_neg hbig, if_neg (by omega)]
  · simp only [hpos, if_false]

/-- What one packet can do. Its IV lies `delta` from `remote_iv`, within the truncation window. -/
theorem receivePacket_cases (s : Remote) (t : BitVec 24) (m : Bool) :
    receivePacket s t m = (s, none) ∨
    (∃ delta : Nat, 0 < delta ∧ delta ≤ 2 ^ 23 ∧
      receivePacket s t m =
        ({ s with
            remoteIv := s.remoteIv + BitVec.ofInt 64 delta
            ivBitmap := moveWindow s.ivBitmap delta },
          some (s.remoteIv + BitVec.ofInt 64 delta))) ∨
    (∃ d : Nat, d < bitmapBits ∧ s.acceptOutOfOrder = true ∧ bit s.ivBitmap d = false ∧
      receivePacket s t m =
        ({ s with ivBitmap :=
            Function.update s.ivBitmap (d >>> 6) (s.ivBitmap (d >>> 6) ||| 1#64 <<< (d % 64)) },
          some (s.remoteIv + BitVec.ofInt 64 (-d)))) := by
  have ht : (t.setWidth 32).toNat < 2 ^ 24 := by
    have : t.toNat < 2 ^ 24 := t.isLt
    rw [BitVec.toNat_setWidth]; omega
  obtain ⟨hlo, hhi⟩ := reconstructCounter_inWindow (by omega) (by omega) (by omega)
    s.remoteIv ht
  rw [receivePacket_eq]
  generalize reconstructCounter 24 s.remoteIv (t.setWidth 32) = iv at *
  have hiv : iv = s.remoteIv + BitVec.ofInt 64 (iv - s.remoteIv).toInt := by
    rw [BitVec.ofInt_toInt]; ring
  generalize (iv - s.remoteIv).toInt = delta at *
  subst hiv
  by_cases hv : (isValidIV s (s.remoteIv + BitVec.ofInt 64 delta) && m) = true
  · rw [if_pos hv, acceptIV_offset s (by omega) (by omega)]
    rw [isValidIV_offset s (by omega) (by omega)] at hv
    by_cases hpos : 0 < delta
    · -- in the future: the window moves
      obtain ⟨n, rfl⟩ : ∃ n : Nat, delta = n := ⟨delta.toNat, by omega⟩
      refine .inr (.inl ⟨n, by omega, by omega, ?_⟩)
      rw [if_pos hpos, Int.toNat_natCast]
    · -- in the past: recorded, and not seen before
      obtain ⟨n, rfl⟩ : ∃ n : Nat, delta = -n := ⟨(-delta).toNat, by omega⟩
      rw [if_neg hpos]
      simp only [hpos, decide_false, Bool.false_or, Int.neg_neg, Int.toNat_natCast,
        Bool.and_eq_true, decide_eq_true_eq, Bool.not_eq_true'] at hv ⊢
      exact .inr (.inr ⟨n, by omega, hv.1.1.1, hv.1.2, rfl⟩)
  · exact .inl (if_neg hv)

/-- The farthest jump: half the truncation window. -/
theorem receivePacket_leap (s : Remote) :
    receivePacket s ((s.remoteIv + 2 ^ 23).setWidth 24) true =
      ({ s with ivBitmap := fun ii => if ii = 0 then 1 else 0, remoteIv := s.remoteIv + 2 ^ 23 },
        some (s.remoteIv + 2 ^ 23)) := by
  have hiv : reconstructCounter 24 s.remoteIv
      (((s.remoteIv + 2 ^ 23).setWidth 24).setWidth 32) = s.remoteIv + 2 ^ 23 := by
    apply reconstructCounter_of_window (by omega) (by omega) (by omega)
    · simp only [BitVec.toNat_setWidth]; omega
    · rw [InWindow, add_sub_cancel_left]; decide
  have hoff : s.remoteIv + 2 ^ 23 = s.remoteIv + BitVec.ofInt 64 (2 ^ 23) := rfl
  rw [receivePacket_eq, hiv, hoff, isValidIV_offset s (by omega) (by omega),
    acceptIV_offset s (by omega) (by omega)]
  rfl

-- from here on a packet is what the two lemmas above say of it
attribute [irreducible] receivePacket

/-! ## Runs -/

inductive RemoteInput where
  | packet (truncIv : BitVec 24) (macValid : Bool)
  | allowOutOfOrder (allowed : Bool)

/-- The log has one entry for each packet: its IV when it was accepted. -/
def remoteStep (s : Remote) : RemoteInput → Remote × List (Option u64)
  | .packet t m => ((receivePacket s t m).1, [(receivePacket s t m).2])
  | .allowOutOfOrder b => ({ s with acceptOutOfOrder := b }, [])

theorem remoteStep_packet {s s' : Remote} {t : BitVec 24} {m : Bool} {o : Option u64}
    (hr : receivePacket s t m = (s', o)) : remoteStep s (.packet t m) = (s', [o]) := by
  rw [remoteStep, hr]

def RemoteInput.isPacket : RemoteInput → Bool
  | .packet _ _ => true
  | .allowOutOfOrder _ => false

/-- The IVs accepted over a run, in order. -/
def acceptedIVs (s : Remote) (inputs : List RemoteInput) : List u64 :=
  (Run.exec remoteStep s inputs).2.filterMap id

theorem length_log (inputs : List RemoteInput) (s : Remote) :
    (Run.exec remoteStep s inputs).2.length = inputs.countP RemoteInput.isPacket := by
  induction inputs generalizing s with
  | nil => rfl
  | cons i inputs ih =>
    rw [Run.exec_cons_snd, List.length_append, ih]
    cases i with
    | packet t m => simp [remoteStep, RemoteInput.isPacket, List.countP_cons, Nat.add_comm]
    | allowOutOfOrder b => simp [remoteStep, RemoteInput.isPacket]

/-- The window against the unwrapped positions `ps` of the accepted IVs, `remote_iv` standing at
position `R` after `n` packets. -/
structure Tracked (n : Nat) (s : Remote) (R : Int) (ps : List Int) : Prop where
  remote : s.remoteIv = BitVec.ofInt 64 R
  le : ∀ p ∈ ps, p ≤ R
  seen : ∀ p ∈ ps, R - p < bitmapBits → bit s.ivBitmap (R - p).toNat = true
  near : ∀ p ∈ ps, R + 2 ^ 23 ≤ p + 1023 + n * 2 ^ 23

theorem bit_reset {d : Nat} : bit (fun ii => if ii = 0 then 1 else 0) d = decide (d = 0) :=
  getLsbD_lowBit d

/-- A forward jump loses no bit of an IV that stays inside the window. -/
theorem bit_jump {map : Nat → u64} {delta i : Nat} (h0 : 0 < delta) (hi : i + delta < bitmapBits)
    (hb : bit map i = true) :
    bit (moveWindow map delta) (i + delta) = true := by
  rw [moveWindow, if_neg (by omega), jumpWindow_bit h0 (by omega) hi]
  simp [hb]

theorem bit_jump_zero {map : Nat → u64} {delta : Nat} (h0 : 0 < delta) :
    bit (moveWindow map delta) 0 = true := by
  unfold moveWindow
  split
  · rw [bit_reset]; rfl
  · rw [jumpWindow_bit h0 (by omega) (by decide)]; rfl

/-- One packet keeps the window in step with the accepted positions. -/
theorem Tracked.packet {n : Nat} {s s' : Remote} {R : Int} {ps : List Int} (h : Tracked n s R ps)
    {t : BitVec 24} {m : Bool} {o : Option u64} (hr : receivePacket s t m = (s', o)) :
    (s' = s ∧ o = none) ∨
    ∃ R' p, o = some (BitVec.ofInt 64 p) ∧ p ∉ ps ∧ p ≤ R' ∧ R ≤ p + 1023 ∧
      Tracked (n + 1) s' R' (ps ++ [p]) := by
  rcases receivePacket_cases s t m with e | ⟨delta, h0, h23, e⟩ | ⟨d, hd, hacc, hbit, e⟩ <;>
    rw [e, Prod.mk.injEq] at hr <;> obtain ⟨rfl, rfl⟩ := hr
  · exact .inl ⟨rfl, rfl⟩
  · refine .inr ⟨R + delta, R + delta, ?_, ?_, by omega, by omega, ?_⟩
    · rw [BitVec.ofInt_add, h.remote]
    · intro hp
      have := h.le _ hp
      omega
    · refine ⟨by simp only [h.remote, BitVec.ofInt_add], ?_, ?_, ?_⟩
      · intro p hp
        rcases List.mem_append.mp hp with hp | hp
        · have := h.le p hp; omega
        · simp at hp; omega
      · intro p hp hw
        rcases List.mem_append.mp hp with hp | hp
        · have hle := h.le p hp
          have := bit_jump (i := (R - p).toNat) h0 (by omega)
            (h.seen p hp (by omega))
          rwa [show (R - p).toNat + delta = (R + delta - p).toNat by omega] at this
        · simp at hp
          subst hp
          rw [show (R + delta - (R + delta)).toNat = 0 by omega]
          exact bit_jump_zero h0
      · intro p hp
        rcases List.mem_append.mp hp with hp | hp
        · have := h.near p hp; push_cast; omega
        · simp at hp; push_cast; omega
  · have hdb : d < 1024 := hd
    refine .inr ⟨R, R - d, ?_, ?_, by omega, by omega, ?_⟩
    · rw [h.remote, show R - (d : Int) = R + -(d : Int) by ring, BitVec.ofInt_add]
    · intro hp
      have := h.seen _ hp (by omega)
      rw [show (R - (R - (d : Int))).toNat = d by omega, hbit] at this
      cases this
    · refine ⟨h.remote, ?_, ?_, ?_⟩
      · intro p hp
        rcases List.mem_append.mp hp with hp | hp
        · exact h.le p hp
        · simp at hp; omega
      · intro p hp hw
        simp only [bit_update]
        rcases List.mem_append.mp hp with hp | hp
        · simp [h.seen p hp hw]
        · simp at hp
          simp; omega
      · intro p hp
        rcases List.mem_append.mp hp with hp | hp
        · have := h.near p hp; push_cast; omega
        · simp at hp; push_cast; omega

theorem Tracked.mono {n k : Nat} {s : Remote} {R : Int} {ps : List Int} (h : Tracked n s R ps)
    (hk : n ≤ k) : Tracked k s R ps :=
  ⟨h.remote, h.le, h.seen, fun p hp => by have := h.near p hp; omega⟩

/-- Positions less than one turn of the counter apart have different IVs. -/
theorem ofInt_ne {p q : Int} (hne : p ≠ q) (h1 : p - q < 2 ^ 64) (h2 : q - p < 2 ^ 64) :
    BitVec.ofInt 64 p ≠ BitVec.ofInt 64 q := by
  intro e
  have := congrArg BitVec.toNat e
  rw [BitVec.toNat_ofInt, BitVec.toNat_ofInt] at this
  omega

/-- The packets of one turn of the counter, when each moves `remote_iv` as far as it can. -/
def turnPackets : Nat := 2 ^ 41

theorem turnPackets_eq : turnPackets = 2199023255552 := rfl

attribute [irreducible] turnPackets

/-- The state and the log of a run, against the positions of the accepted IVs. -/
def RunTracked (s : Remote) (log : List (Option u64)) : Prop :=
  ∃ R ps, log.filterMap id = ps.map (BitVec.ofInt 64) ∧ Tracked log.length s R ps ∧
    (log.length ≤ turnPackets → (ps.map (BitVec.ofInt 64)).Nodup)

theorem RunTracked.reject {s : Remote} {log : List (Option u64)} (h : RunTracked s log) :
    RunTracked s (log ++ [none]) := by
  obtain ⟨R, ps, hlog, ht, hnd⟩ := h
  have hlen : (log ++ [none]).length = log.length + 1 := List.length_append
  refine ⟨R, ps, ?_, ?_, fun hl => hnd (by omega)⟩
  · rw [List.filterMap_append, hlog]; simp
  · rw [hlen]; exact ht.mono (by omega)

theorem RunTracked.accept {s s' : Remote} {log : List (Option u64)} {R R' p : Int} {ps : List Int}
    (hlog : log.filterMap id = ps.map (BitVec.ofInt 64)) (ht : Tracked log.length s R ps)
    (hnd : log.length ≤ turnPackets → (ps.map (BitVec.ofInt 64)).Nodup) (hnew : p ∉ ps)
    (hpR : p ≤ R') (hRp : R ≤ p + 1023) (ht' : Tracked (log.length + 1) s' R' (ps ++ [p])) :
    RunTracked s' (log ++ [some (BitVec.ofInt 64 p)]) := by
  have hlen : (log ++ [some (BitVec.ofInt 64 p)]).length = log.length + 1 := List.length_append
  refine ⟨R', ps ++ [p], ?_, ?_, fun hl => ?_⟩
  · rw [List.filterMap_append, hlog, List.map_append]; rfl
  · rw [hlen]; exact ht'
  · rw [hlen] at hl
    rw [List.map_append, List.nodup_append]
    refine ⟨hnd (by omega), List.nodup_singleton _, ?_⟩
    intro a ha b hb
    obtain ⟨q, hq, rfl⟩ := List.mem_map.mp ha
    obtain rfl : b = BitVec.ofInt 64 p := List.mem_singleton.mp hb
    have hle := ht.le q hq
    have hnear := ht'.near q (List.mem_append_left _ hq)
    have hturn := turnPackets_eq
    exact ofInt_ne (fun e => hnew (e ▸ hq)) (by omega) (by omega)

theorem RunTracked.step {s : Remote} {log : List (Option u64)} (h : RunTracked s log)
    (i : RemoteInput) : RunTracked (remoteStep s i).1 (log ++ (remoteStep s i).2) := by
  cases i with
  | allowOutOfOrder b =>
    obtain ⟨R, ps, hlog, ht, hnd⟩ := h
    rw [remoteStep, List.append_nil]
    exact ⟨R, ps, hlog, ⟨ht.remote, ht.le, ht.seen, ht.near⟩, hnd⟩
  | packet t m =>
    obtain ⟨s', o, hr⟩ : ∃ s' o, receivePacket s t m = (s', o) := ⟨_, _, Prod.mk.eta.symm⟩
    rw [remoteStep_packet hr]
    have h' := h
    obtain ⟨R, ps, hlog, ht, hnd⟩ := h'
    rcases ht.packet hr with ⟨rfl, rfl⟩ | ⟨R', p, rfl, hnew, hpR, hRp, ht'⟩
    · exact h.reject
    · exact RunTracked.accept hlog ht hnd hnew hpR hRp ht'

/-- `remote_iv` never moves back. -/
theorem remoteStep_mono (s : Remote) (i : RemoteInput) :
    0 ≤ ((remoteStep s i).1.remoteIv - s.remoteIv).toInt := by
  cases i with
  | allowOutOfOrder b => simp [remoteStep]
  | packet t m =>
    have hsame : (s.remoteIv - s.remoteIv).toInt = 0 := by simp
    rcases receivePacket_cases s t m with e | ⟨delta, h0, h23, e⟩ | ⟨d, hd, hacc, hbit, e⟩ <;>
      rw [remoteStep_packet e]
    · rw [hsame]
    · have hd : (BitVec.ofInt 64 (delta : Int)).toInt = delta := by
        rw [BitVec.toInt_ofInt]
        apply Int.bmod_eq_of_le
        · simp
        · simp; omega
      rw [add_sub_cancel_left, hd]
      omega
    · rw [hsame]

/-- **Replay protection.** Over any run of at most `2 ^ 41` packets, with any truncated IVs, any
MAC outcomes and any setting of `AllowOutOfOrder`, no IV is accepted twice, and `remote_iv` never
moves back in serial order. -/
theorem accepted_ivs_nodup (s : Remote) (inputs : List RemoteInput)
    (hn : inputs.countP RemoteInput.isPacket ≤ 2 ^ 41) :
    (acceptedIVs s inputs).Nodup ∧
    ∀ pre i post, inputs = pre ++ i :: post →
      0 ≤ ((remoteStep (Run.exec remoteStep s pre).1 i).1.remoteIv -
        (Run.exec remoteStep s pre).1.remoteIv).toInt := by
  refine ⟨?_, fun pre i post _ => remoteStep_mono _ i⟩
  have h0 : RunTracked s [] :=
    ⟨s.remoteIv.toInt, [], rfl, ⟨by rw [BitVec.ofInt_toInt], by simp, by simp, by simp⟩, by simp⟩
  obtain ⟨R, ps, hlog, -, hnd⟩ := Run.exec_inv' (fun s l a h => h.step a) inputs s [] h0
  rw [List.nil_append] at hlog hnd
  rw [length_log] at hnd
  rw [acceptedIVs, hlog]
  exact hnd (turnPackets_eq ▸ hn)

/-- A receiver that has seen nothing. -/
def freshRemote : Remote := { acceptOutOfOrder := true, remoteIv := 0, ivBitmap := fun _ => 0 }

theorem accepted_ivs_nodup_replay :
    let inputs := [.packet 1 true, .packet 1 true, .allowOutOfOrder false, .packet 3 true]
    acceptedIVs freshRemote inputs = [1, 3] ∧ (acceptedIVs freshRemote inputs).Nodup :=
  ⟨by decide +kernel, (accepted_ivs_nodup freshRemote _ (by decide)).1⟩

/-- Packets that each jump half the truncation window. -/
def leaps : u64 → Nat → List RemoteInput
  | _, 0 => []
  | iv, n + 1 => .packet ((iv + 2 ^ 23).setWidth 24) true :: leaps (iv + 2 ^ 23) n

theorem acceptedIVs_leaps (n : Nat) (s : Remote) :
    acceptedIVs s (leaps s.remoteIv n) =
      (List.range n).map fun k => s.remoteIv + BitVec.ofNat 64 ((k + 1) * 2 ^ 23) := by
  induction n generalizing s with
  | zero => rfl
  | succ n ih =>
    rw [acceptedIVs, leaps, Run.exec_cons_snd, remoteStep_packet (receivePacket_leap s),
      List.filterMap_append]
    have := ih { s with ivBitmap := fun ii => if ii = 0 then 1 else 0,
                        remoteIv := s.remoteIv + 2 ^ 23 }
    rw [acceptedIVs] at this
    rw [this, List.range_succ_eq_map, List.map_cons, List.map_map]
    refine congrArg₂ List.cons rfl (List.map_congr_left fun k _ => ?_)
    simp only [Function.comp_apply, Nat.succ_eq_add_one]
    rw [show (k + 1 + 1) * 2 ^ 23 = 2 ^ 23 + (k + 1) * 2 ^ 23 by ring, BitVec.ofNat_add, ← add_assoc]
    rfl

/-- The `2 ^ 41 + 1`st leap accepts the IV of the first one again. -/
theorem leaps_accepted_twice :
    ¬ (acceptedIVs freshRemote (leaps freshRemote.remoteIv (2 ^ 41 + 1))).Nodup := by
  rw [acceptedIVs_leaps]
  intro h
  have := List.inj_on_of_nodup_map h (x := 0) (y := 2 ^ 41) (List.mem_range.mpr (by omega))
    (List.mem_range.mpr (by omega)) (by decide)
  omega

/-! ## Exactness

What the map should be after a jump, when it is: the second copy that a jump by a multiple of 64
makes must fall on bits that the first copy sets. -/

/-- The old map moved up by the jump, with bit 0 for the new IV. -/
def Shifted (old new : Nat → u64) (delta : Nat) : Prop :=
  ∀ i < bitmapBits, bit new i = (decide (i = 0) || (decide (delta ≤ i) && bit old (i - delta)))

/-- After a jump by a multiple of 64, every set bit that stays in the map when it is moved 64 too far
is 64 below a set bit. -/
def NoSecondCopy (old : Nat → u64) (delta : Nat) : Prop :=
  delta % 64 = 0 → ∀ d, delta + 64 + d < bitmapBits → bit old d = true → bit old (d + 64) = true

theorem jumpWindow_shifted_iff (map : Nat → u64) {delta : Nat} (h0 : 0 < delta)
    (hd : delta < bitmapBits) : Shifted map (jumpWindow map delta) delta ↔ NoSecondCopy map delta := by
  constructor
  · intro h hmul d hin hbit
    have hcopy := h (delta + 64 + d) hin
    rw [jumpWindow_bit h0 hd hin] at hcopy
    have e₁ : delta + 64 + d - delta = d + 64 := by omega
    have e₂ : delta + 64 + d - delta - 64 = d := by omega
    rw [e₁] at hcopy e₂
    rw [e₂, hbit] at hcopy
    have hne : ¬ delta + 64 + d = 0 := by omega
    have hle : delta ≤ delta + 64 + d := by omega
    have hle' : delta + 64 ≤ delta + 64 + d := by omega
    simpa [hmul, hne, hle, hle'] using hcopy
  · intro h i hi
    rw [jumpWindow_bit h0 hd hi]
    by_cases hcopy : delta % 64 = 0 ∧ delta + 64 ≤ i
    · cases hb : bit map (i - delta - 64) with
      | false => simp
      | true =>
        have hset := h hcopy.1 (i - delta - 64) (by omega) hb
        rw [show i - delta - 64 + 64 = i - delta by omega] at hset
        have hle : delta ≤ i := by omega
        simp [hset, hle]
    · simp [hcopy]

theorem acceptIV_jump (s : Remote) {delta : Nat} (h0 : 0 < delta) (hd : delta < bitmapBits) :
    acceptIV s (s.remoteIv + BitVec.ofNat 64 delta) =
      { s with
        remoteIv := s.remoteIv + BitVec.ofNat 64 delta
        ivBitmap := jumpWindow s.ivBitmap delta } := by
  have hlt : delta < 1024 := hd
  rw [← BitVec.ofInt_natCast, acceptIV_offset s (by omega) (by omega), if_pos (by omega),
    Int.toNat_natCast, moveWindow, if_neg (by omega)]

/-- Every bit of the map stands for an IV that was accepted. -/
def ExactWindow (s : Remote) (accepted : List u64) : Prop :=
  ∀ d < bitmapBits, bit s.ivBitmap d = true → s.remoteIv - BitVec.ofNat 64 d ∈ accepted

/-- The guard of a run: a genuine packet that jumps ahead by less than the size of the map makes no
second copy. -/
def JumpsExactly (s : Remote) : RemoteInput → Prop
  | .packet t m => m = true → ∀ delta, 0 < delta → delta < bitmapBits →
      reconstructCounter 24 s.remoteIv (t.setWidth 32) = s.remoteIv + BitVec.ofNat 64 delta →
      NoSecondCopy s.ivBitmap delta
  | .allowOutOfOrder _ => True

theorem receivePacket_some {s s' : Remote} {t : BitVec 24} {m : Bool} {iv : u64}
    (h : receivePacket s t m = (s', some iv)) :
    m = true ∧ iv = reconstructCounter 24 s.remoteIv (t.setWidth 32) := by
  rw [receivePacket_eq] at h
  split at h
  · rename_i hv
    rw [Prod.mk.injEq, Option.some.injEq] at h
    rw [Bool.and_eq_true] at hv
    exact ⟨hv.2, h.2.symm⟩
  · cases (Prod.mk.inj h).2

theorem ExactWindow.mono {s : Remote} {as bs : List u64} (h : ExactWindow s as)
    (hsub : ∀ a ∈ as, a ∈ bs) : ExactWindow s bs :=
  fun d hd hb => hsub _ (h d hd hb)

theorem ExactWindow.step {s : Remote} {log : List (Option u64)} {i : RemoteInput}
    (h : ExactWindow s (log.filterMap id)) (hok : JumpsExactly s i) :
    ExactWindow (remoteStep s i).1 ((log ++ (remoteStep s i).2).filterMap id) := by
  have hsub : ∀ l : List (Option u64), ∀ a ∈ log.filterMap id, a ∈ (log ++ l).filterMap id := by
    intro l a ha
    rw [List.filterMap_append]
    exact List.mem_append_left _ ha
  cases i with
  | allowOutOfOrder b => exact h.mono (hsub _)
  | packet t m =>
    rcases receivePacket_cases s t m with e | ⟨delta, h0, h23, e⟩ | ⟨d, hd, hacc, hbit, e⟩ <;>
      rw [remoteStep_packet e]
    · exact h.mono (hsub _)
    · -- the window moves ahead
      obtain ⟨hm, hiv⟩ := receivePacket_some e
      rw [BitVec.ofInt_natCast] at hiv ⊢
      intro i hi hb
      by_cases hbig : bitmapBits ≤ delta
      · simp only [moveWindow, if_pos hbig, bit_reset, decide_eq_true_eq] at hb
        subst hb
        simp
      · have hshift := (jumpWindow_shifted_iff s.ivBitmap h0 (by omega)).mpr
          (hok hm delta h0 (by omega) hiv.symm)
        simp only [moveWindow, if_neg hbig] at hb
        rw [hshift i hi, Bool.or_eq_true, Bool.and_eq_true, decide_eq_true_eq, decide_eq_true_eq] at hb
        rcases hb with rfl | ⟨hle, hb⟩
        · simp
        · have hold := hsub [some (s.remoteIv + BitVec.ofNat 64 delta)] _
            (h (i - delta) (by omega) hb)
          have hsame : s.remoteIv + BitVec.ofNat 64 delta - BitVec.ofNat 64 i =
              s.remoteIv - BitVec.ofNat 64 (i - delta) := by
            obtain ⟨k, rfl⟩ := Nat.exists_eq_add_of_le hle
            rw [Nat.add_sub_cancel_left, BitVec.ofNat_add]
            ring
          rw [hsame]
          exact hold
    · -- an IV of the past is recorded
      intro i hi hb
      simp only [bit_update, Bool.or_eq_true, decide_eq_true_eq] at hb
      rcases hb with rfl | hb
      · rw [List.filterMap_append]
        apply List.mem_append_right
        rw [BitVec.ofInt_neg, BitVec.ofInt_natCast]
        simp [sub_eq_add_neg]
      · exact hsub _ _ (h i hi hb)

/-- An IV behind `remote_iv` whose bit is clear is accepted. -/
theorem receivePacket_past (s : Remote) {d : Nat} (hd : d < bitmapBits)
    (hacc : s.acceptOutOfOrder = true) (hbit : bit s.ivBitmap d = false) :
    (receivePacket s ((s.remoteIv - BitVec.ofNat 64 d).setWidth 24) true).2 =
      some (s.remoteIv - BitVec.ofNat 64 d) := by
  have hlt : d < 1024 := hd
  have hoff : s.remoteIv - BitVec.ofNat 64 d = s.remoteIv + BitVec.ofInt 64 (-(d : Int)) := by
    rw [BitVec.ofInt_neg, BitVec.ofInt_natCast, sub_eq_add_neg]
  have hsmall : (BitVec.ofInt 64 (-(d : Int))).toInt = -(d : Int) := by
    rw [BitVec.toInt_ofInt]
    apply Int.bmod_eq_of_le
    · simp; omega
    · simp; omega
  have hiv : reconstructCounter 24 s.remoteIv
      (((s.remoteIv - BitVec.ofNat 64 d).setWidth 24).setWidth 32) = s.remoteIv - BitVec.ofNat 64 d := by
    apply reconstructCounter_of_window (by omega) (by omega) (by omega)
    · simp only [BitVec.toNat_setWidth]; omega
    · rw [InWindow, hoff, add_sub_cancel_left, hsmall]
      constructor <;> omega
  rw [receivePacket_eq, hiv, hoff, isValidIV_offset s (by omega) (by omega)]
  simp [hacc, hbit, hlt, bitmapBits]

/-- A jump leaves an exact window exactly if it makes no second copy; and in a run from a clear map
whose jumps make none, a genuine packet inside the window is accepted unless its IV was. -/
theorem replay_window_exact (s : Remote) :
    (∀ delta, 0 < delta → delta < bitmapBits →
      (Shifted s.ivBitmap (acceptIV s (s.remoteIv + BitVec.ofNat 64 delta)).ivBitmap delta ↔
        NoSecondCopy s.ivBitmap delta)) ∧
    ∀ inputs : List RemoteInput, (∀ d < bitmapBits, bit s.ivBitmap d = false) →
      Run.Guarded remoteStep JumpsExactly s inputs →
      (Run.exec remoteStep s inputs).1.acceptOutOfOrder = true →
      ∀ d < bitmapBits,
        (Run.exec remoteStep s inputs).1.remoteIv - BitVec.ofNat 64 d ∉ acceptedIVs s inputs →
        (receivePacket (Run.exec remoteStep s inputs).1
          (((Run.exec remoteStep s inputs).1.remoteIv - BitVec.ofNat 64 d).setWidth 24) true).2 =
            some ((Run.exec remoteStep s inputs).1.remoteIv - BitVec.ofNat 64 d) := by
  constructor
  · intro delta h0 hd
    rw [acceptIV_jump s h0 hd]
    exact jumpWindow_shifted_iff s.ivBitmap h0 hd
  · intro inputs hclear hg hacc d hd hnew
    have hexact := Run.exec_inv (fun s l => ExactWindow s (l.filterMap id))
      (fun s l i h hok => h.step hok) inputs s []
      (fun d hd hb => by rw [hclear d hd] at hb; cases hb) hg
    rw [List.nil_append] at hexact
    apply receivePacket_past _ hd hacc
    cases hb : bit (Run.exec remoteStep s inputs).1.ivBitmap d with
    | false => rfl
    | true => exact absurd (hexact d hd hb) hnew

/-- A receiver that accepted IV 101 and nothing else. -/
def remote101 : Remote := (Run.exec remoteStep freshRemote [.packet 101 true]).1

/-- Packets 101 and 165: the jump by 64 marks 37, which was never received, and it is rejected. -/
theorem not_replay_window_exact :
    ¬ Shifted remote101.ivBitmap
      (acceptIV remote101 (remote101.remoteIv + BitVec.ofNat 64 64)).ivBitmap 64 ∧
    acceptedIVs freshRemote [.packet 101 true, .packet 165 true, .packet 37 true] = [101, 165] := by
  refine ⟨?_, by decide +kernel⟩
  intro h
  have hbit := h 128 (by decide)
  revert hbit
  decide +kernel

end Libcat.Crypt
