import Libcat.Sphynx.Ack
import Libcat.Sphynx.WaitRuns

/-!
# Reading an acknowledgement back

What `OnACK` does with the fields that `WriteACK` writes. A rollup has 21 bits of an id, which are
enough near to the ids of the sent list; a range has its distance from the last id and its length, in
one to three bytes each.

- `readTail_number`, `readRange_of_drop`: the numbers are read back from the bytes.
- `AckInv.rollup_eq`, `AckInv.range_eq`: which nodes a field removes, exactly.
- `BetweenRanges`: what holds from range to range, `AckInv.part`: what a rollup and its ranges remove.
-/

namespace Libcat.Sphynx

open Serial Intrusive

/-! ## Numbers in bytes -/

section Bytes

/-- The bits of a byte of a field, as arithmetic: all 256 bytes are tried once. -/
theorem byte_bits (x : u8) :
    hasBit x 0x80 = decide (128 ≤ x.toNat) ∧ hasBit x 1 = decide (x.toNat % 2 = 1) ∧
      hasBit x 2 = decide (x.toNat / 2 % 2 = 1) ∧ (x &&& 0x7f).toNat = x.toNat % 128 ∧
      (x ||| 0x80).toNat = 128 + x.toNat % 128 ∧ ((x >>> 2) &&& 31).toNat = x.toNat / 4 % 32 := by
  revert x
  decide +kernel

theorem hasBit_top (x : u8) : hasBit x 0x80 = decide (128 ≤ x.toNat) := (byte_bits x).1

theorem hasBit_one (x : u8) : hasBit x 1 = decide (x.toNat % 2 = 1) := (byte_bits x).2.1

theorem hasBit_two (x : u8) : hasBit x 2 = decide (x.toNat / 2 % 2 = 1) := (byte_bits x).2.2.1

theorem low_seven (x : u8) : (x &&& 0x7f).toNat = x.toNat % 128 := (byte_bits x).2.2.2.1

theorem or_top (x : u8) : (x ||| 0x80).toNat = 128 + x.toNat % 128 := (byte_bits x).2.2.2.2.1

theorem hdr_low (x : u8) : ((x >>> 2) &&& 31).toNat = x.toNat / 4 % 32 := (byte_bits x).2.2.2.2.2

/-- A number with no bits behind the mask. -/
theorem and_not_mask {k : Nat} (hk : k < 32) (x : u32) :
    x &&& ~~~ (BitVec.ofNat 32 (2 ^ k - 1)) = 0 ↔ x.toNat < 2 ^ k := by
  have hpow : 2 ^ k < 2 ^ 32 := Nat.pow_lt_pow_right (by omega) hk
  have hmask : ∀ i, (BitVec.ofNat 32 (2 ^ k - 1)).getLsbD i = decide (i < k) := by
    intro i
    rw [BitVec.getLsbD, BitVec.toNat_ofNat, Nat.mod_eq_of_lt (by omega), Nat.testBit_two_pow_sub_one]
  constructor
  · intro h
    refine Nat.lt_pow_two_of_testBit _ fun i hi => ?_
    by_cases hlt : i < 32
    · have hbit := congrArg (BitVec.getLsbD · i) h
      rw [BitVec.getLsbD_and, BitVec.getLsbD_not, hmask, decide_eq_true hlt,
        decide_eq_false (Nat.not_lt.mpr hi), Bool.not_false, Bool.and_true, Bool.and_true] at hbit
      rw [← BitVec.getLsbD, hbit]
      exact BitVec.getLsbD_zero
    · exact BitVec.getLsbD_of_ge x i (Nat.le_of_not_lt hlt)
  · intro h
    refine BitVec.eq_of_getLsbD_eq fun i hi => ?_
    rw [BitVec.getLsbD_and, BitVec.getLsbD_not, hmask]
    by_cases hik : i < k
    · simp [hik]
    · have hle : 2 ^ k ≤ 2 ^ i := Nat.pow_le_pow_right Nat.two_pos (Nat.le_of_not_lt hik)
      have : x.getLsbD i = false := Nat.testBit_lt_two_pow (h.trans_le hle)
      simp [this]

end Bytes


section Fields

variable {msg rest : List u8} {pos : Nat}

theorem getElem?_of_drop {b : u8} (h : msg.drop pos = b :: rest) : msg[pos]? = some b := by
  rw [← Nat.add_zero pos, ← List.getElem?_drop, h]
  rfl

theorem drop_succ {b : u8} (h : msg.drop pos = b :: rest) : msg.drop (pos + 1) = rest := by
  rw [← List.drop_drop, h]
  rfl

theorem readTail_one {first : u8} (hfirst : first.toNat < 128) (base : u32)
    (shift shift' dataBytes : Nat) :
    readTail msg first base shift shift' pos dataBytes = some (some (base, pos, dataBytes)) := by
  rw [readTail, hasBit_top, decide_eq_false (by omega), if_neg Bool.false_ne_true]
  rfl

theorem readTail_two {first b : u8} (hfirst : 128 ≤ first.toNat) (hb : b.toNat < 128)
    (h : msg.drop pos = b :: rest) (base : u32) (shift shift' : Nat) :
    readTail msg first base shift shift' pos (rest.length + 1) =
      some (some (base + b.setWidth 32 <<< shift, pos + 1, rest.length)) := by
  have hlow : b &&& 0x7f = b := BitVec.eq_of_toNat_eq (by rw [low_seven, Nat.mod_eq_of_lt hb])
  rw [readTail, hasBit_top, decide_eq_true hfirst, if_pos rfl, if_pos (by omega),
    getElem?_of_drop h]
  simp only [Option.bind_eq_bind, Option.bind_some]
  rw [hasBit_top, decide_eq_false (by omega), if_neg Bool.false_ne_true, hlow]
  rfl

theorem readTail_three {first b c : u8} (hfirst : 128 ≤ first.toNat) (hb : 128 ≤ b.toNat)
    (h : msg.drop pos = b :: c :: rest) (base : u32) (shift shift' : Nat) :
    readTail msg first base shift shift' pos (rest.length + 2) =
      some (some (base + (b &&& 0x7f).setWidth 32 <<< shift + c.setWidth 32 <<< shift', pos + 2,
        rest.length)) := by
  rw [readTail, hasBit_top, decide_eq_true hfirst, if_pos rfl, if_pos (by omega),
    getElem?_of_drop h]
  simp only [Option.bind_eq_bind, Option.bind_some]
  rw [hasBit_top, decide_eq_true hb, if_pos rfl, if_pos (by omega),
    getElem?_of_drop (drop_succ h)]
  rfl

/-- The bytes of a number behind its first `bits` bits. -/
def numberTail (bits : Nat) (v : u32) : List u8 :=
  if v.toNat < 2 ^ bits then []
  else if v.toNat < 2 ^ (bits + 7) then [(v >>> bits).setWidth 8]
  else [(v >>> bits).setWidth 8 ||| 0x80, (v >>> (bits + 7)).setWidth 8]

/-- A number is read back, whatever it is added to. -/
theorem readTail_number {bits : Nat} (hbits : bits ≤ 7) {v low : u32} {first : u8}
    (hv : v.toNat < 2 ^ (bits + 15)) (hlow : low.toNat = v.toNat % 2 ^ bits)
    (hfirst : 128 ≤ first.toNat ↔ 2 ^ bits ≤ v.toNat)
    (h : msg.drop pos = numberTail bits v ++ rest) (base : u32) :
    readTail msg first (base + low) bits (bits + 7) pos (rest.length + (numberTail bits v).length) =
      some (some (base + v, pos + (numberTail bits v).length, rest.length)) := by
  have hpow : 2 ^ (bits + 7) = 2 ^ bits * 128 := Nat.pow_add 2 bits 7
  have hpow' : 2 ^ (bits + 15) = 2 ^ bits * 128 * 256 := by rw [← hpow, ← Nat.pow_add 2 _ 8]
  have hpos := Nat.two_pow_pos bits
  have hle : 2 ^ bits ≤ 2 ^ 7 := Nat.pow_le_pow_right Nat.two_pos hbits
  have hshift : ∀ n, (v >>> n).toNat = v.toNat / 2 ^ n := fun n => by
    rw [BitVec.toNat_ushiftRight, Nat.shiftRight_eq_div_pow]
  have hsplit := Nat.div_add_mod v.toNat (2 ^ bits)
  have hsplit' : v.toNat / 2 ^ (bits + 7) = v.toNat / 2 ^ bits / 128 := by
    rw [hpow, Nat.div_div_eq_div_mul]
  have hq : v.toNat / 2 ^ bits < 128 * 256 := by
    rw [Nat.div_lt_iff_lt_mul hpos]
    rw [hpow'] at hv
    rw [Nat.mul_comm, ← Nat.mul_assoc]
    exact hv
  generalize hmul : 2 ^ bits = m at *
  generalize hquot : v.toNat / m = q at *
  have hmq : m * q < 2 ^ 32 := by
    have := v.isLt
    omega
  unfold numberTail at h ⊢
  rw [hmul] at h ⊢
  by_cases hone : v.toNat < m
  · rw [if_pos hone] at h ⊢
    have heq : low = v := BitVec.eq_of_toNat_eq (by rw [hlow, Nat.mod_eq_of_lt hone])
    rw [readTail_one (by omega), heq]
    rfl
  · rw [if_neg hone] at h ⊢
    have hmore : 128 ≤ first.toNat := hfirst.mpr (Nat.le_of_not_lt hone)
    by_cases htwo : v.toNat < 2 ^ (bits + 7)
    · rw [if_pos htwo] at h ⊢
      rw [List.singleton_append] at h
      have hq' : q < 128 := by
        rw [← hquot, Nat.div_lt_iff_lt_mul hpos]
        omega
      have hb : ((v >>> bits).setWidth 8 : u8).toNat = q := by
        rw [BitVec.toNat_setWidth, hshift, hmul, hquot]
        omega
      rw [List.length_singleton, readTail_two hmore (by omega) h, BitVec.add_assoc]
      have hsum : low + ((v >>> bits).setWidth 8 : u8).setWidth 32 <<< bits = v := by
        refine BitVec.eq_of_toNat_eq ?_
        rw [BitVec.toNat_add, BitVec.toNat_shiftLeft, BitVec.toNat_setWidth, hb, Nat.shiftLeft_eq,
          hmul, Nat.mod_eq_of_lt (by omega : q < 2 ^ 32), Nat.mul_comm, Nat.mod_eq_of_lt hmq, hlow]
        omega
      rw [hsum]
    · rw [if_neg htwo] at h ⊢
      have hbyte := or_top ((v >>> bits).setWidth 8)
      have hmid : ((v >>> bits).setWidth 8 : u8).toNat = q % 256 := by
        rw [BitVec.toNat_setWidth, hshift, hmul, hquot]
      have hc : ((v >>> (bits + 7)).setWidth 8 : u8).toNat = q / 128 := by
        rw [BitVec.toNat_setWidth, hshift, hsplit']
        omega
      have hrun := readTail_three hmore (by omega) h (base + low) bits (bits + 7)
      rw [BitVec.add_assoc, BitVec.add_assoc] at hrun
      have hsum : low + ((((v >>> bits).setWidth 8 ||| 0x80) &&& 0x7f : u8).setWidth 32 <<< bits +
            ((v >>> (bits + 7)).setWidth 8 : u8).setWidth 32 <<< (bits + 7)) = v := by
        have hparts : q % 128 * m + q / 128 * (m * 128) = m * q := by
          calc q % 128 * m + q / 128 * (m * 128) = m * (128 * (q / 128) + q % 128) := by ring
            _ = m * q := by rw [Nat.div_add_mod]
        refine BitVec.eq_of_toNat_eq ?_
        rw [BitVec.toNat_add, BitVec.toNat_add, BitVec.toNat_shiftLeft, BitVec.toNat_shiftLeft,
          BitVec.toNat_setWidth, BitVec.toNat_setWidth, low_seven, hbyte, hmid, hc, Nat.shiftLeft_eq,
          Nat.shiftLeft_eq, hmul, hpow, Nat.mod_eq_of_lt (by omega : q / 128 < 2 ^ 32),
          Nat.mod_eq_of_lt (by omega : (128 + q % 256 % 128) % 128 < 2 ^ 32),
          show (128 + q % 256 % 128) % 128 = q % 128 by omega, hlow]
        generalize q % 128 * m = x at *
        generalize q / 128 * (m * 128) = y at *
        omega
      rw [hsum] at hrun
      exact hrun

theorem ackStart_eq (startOffset endOffset : u32) :
    ∃ hdr, ackStart startOffset endOffset = hdr :: numberTail 5 startOffset ∧
      hasBit hdr 1 = false ∧ hasBit hdr 2 = !decide (endOffset = 0) ∧
      ((hdr >>> 2) &&& 31).toNat = startOffset.toNat % 32 ∧
      (128 ≤ hdr.toNat ↔ 32 ≤ startOffset.toNat) := by
  have h5 : startOffset &&& ~~~ 0x1f = 0 ↔ startOffset.toNat < 2 ^ 5 :=
    and_not_mask (by decide : 5 < 32) startOffset
  have h12 : startOffset &&& ~~~ 0xfff = 0 ↔ startOffset.toNat < 2 ^ (5 + 7) :=
    and_not_mask (by decide : 12 < 32) startOffset
  -- the first byte: the flag below the low bits
  obtain ⟨flag, hflag, hhdr⟩ : ∃ flag, (flag = 0 ∧ endOffset = 0 ∨ flag = 2 ∧ endOffset ≠ 0) ∧
      (((if endOffset = 0 then 0 else 2) ||| startOffset <<< 2).setWidth 8 : u8).toNat =
        (flag + 4 * startOffset.toNat) % 256 := by
    have hor : ∀ n < 4, (((n : Nat) : u32) ||| startOffset <<< 2).toNat % 256 =
        (n + 4 * startOffset.toNat) % 256 := by
      intro n hn
      have hn' : ((n : Nat) : u32).toNat = n := by
        rw [BitVec.natCast_eq_ofNat, BitVec.toNat_ofNat]
        omega
      have hmul : startOffset.toNat * 2 ^ 2 % 2 ^ 32 = 2 ^ 2 * (startOffset.toNat % 2 ^ 30) := by
        omega
      rw [BitVec.toNat_or, hn', BitVec.toNat_shiftLeft, Nat.shiftLeft_eq, Nat.or_comm, hmul,
        ← Nat.two_pow_add_eq_or_of_lt hn]
      omega
    by_cases h : endOffset = 0
    · refine ⟨0, .inl ⟨rfl, h⟩, ?_⟩
      rw [if_pos h, BitVec.toNat_setWidth]
      exact hor 0 (by decide)
    · refine ⟨2, .inr ⟨rfl, h⟩, ?_⟩
      rw [if_neg h, BitVec.toNat_setWidth]
      exact hor 2 (by decide)
  unfold ackStart numberTail
  simp only [h5, h12]
  generalize ((if endOffset = 0 then 0 else 2) ||| startOffset <<< 2).setWidth 8 = hdr at hhdr ⊢
  have htwo : ∀ x : u8, x.toNat / 2 % 2 = flag / 2 → hasBit x 2 = !decide (endOffset = 0) := by
    intro x hx
    rw [hasBit_two, hx]
    rcases hflag with ⟨rfl, h⟩ | ⟨rfl, h⟩
    · rw [decide_eq_true h]
      rfl
    · rw [decide_eq_false h]
      rfl
  have hmore : (startOffset >>> 5 ||| 0x80).setWidth 8 = (startOffset >>> 5).setWidth 8 ||| 0x80 :=
    BitVec.setWidth_or
  have htop := or_top hdr
  by_cases hs : startOffset.toNat < 2 ^ 5
  · refine ⟨hdr, by rw [if_pos hs, if_pos hs], ?_, htwo hdr (by omega), ?_, by omega⟩
    · rw [hasBit_one, decide_eq_false (by omega)]
    · rw [hdr_low]
      omega
  · refine ⟨hdr ||| 0x80, ?_, ?_, htwo _ (by omega), ?_, by omega⟩
    · rw [if_neg hs, if_neg hs, hmore]
      split <;> rfl
    · rw [hasBit_one, decide_eq_false (by omega)]
    · rw [hdr_low]
      omega

theorem ackEnd_eq {endOffset : u32} (h : endOffset ≠ 0) :
    ∃ hdr, ackEnd endOffset = hdr :: numberTail 7 endOffset ∧
      (hdr &&& 0x7f).toNat = endOffset.toNat % 128 ∧ (128 ≤ hdr.toNat ↔ 128 ≤ endOffset.toNat) := by
  have h7 : endOffset &&& ~~~ 0x7f = 0 ↔ endOffset.toNat < 2 ^ 7 :=
    and_not_mask (by decide : 7 < 32) endOffset
  have h14 : endOffset &&& ~~~ 0x3fff = 0 ↔ endOffset.toNat < 2 ^ (7 + 7) :=
    and_not_mask (by decide : 14 < 32) endOffset
  have hhdr : (endOffset.setWidth 8 : u8).toNat = endOffset.toNat % 256 := BitVec.toNat_setWidth _ _
  have htop := or_top (endOffset.setWidth 8)
  have hmore : ∀ x : u32, (x ||| 0x80).setWidth 8 = x.setWidth 8 ||| 0x80 :=
    fun x => BitVec.setWidth_or
  unfold ackEnd numberTail
  simp only [h7, h14, if_neg h, hmore]
  by_cases hs : endOffset.toNat < 2 ^ 7
  · refine ⟨endOffset.setWidth 8, by rw [if_pos hs, if_pos hs], ?_, by omega⟩
    rw [low_seven]
    omega
  · refine ⟨endOffset.setWidth 8 ||| 0x80, ?_, ?_, by omega⟩
    · rw [if_neg hs, if_neg hs]
      split <;> rfl
    · rw [low_seven]
      omega

/-- A range is read back, from wherever the last one ended. -/
theorem readRange_of_drop {startOffset endOffset : u32} (hstart : startOffset.toNat < 2 ^ 20)
    (hend : endOffset.toNat < 2 ^ 20)
    (h : msg.drop pos = ackStart startOffset endOffset ++ ackEnd endOffset ++ rest) :
    ∃ hdr more, msg.drop pos = hdr :: more ∧ hasBit hdr 1 = false ∧
      ∀ last, readRange msg hdr last (pos + 1) more.length =
        some (some (last + startOffset, last + startOffset + endOffset,
          pos + (ackStart startOffset endOffset ++ ackEnd endOffset).length, rest.length)) := by
  obtain ⟨hdr, hbytes, hrange, hmore, hlow, htop⟩ := ackStart_eq startOffset endOffset
  rw [hbytes, List.append_assoc, List.cons_append] at h
  refine ⟨hdr, _, h, hrange, fun last => ?_⟩
  have hlow' : (((hdr >>> 2) &&& 31).setWidth 32 : u32).toNat = startOffset.toNat % 2 ^ 5 := by
    rw [BitVec.toNat_setWidth, hlow]
    omega
  have hread : readTail msg hdr (last + ((hdr >>> 2) &&& 31).setWidth 32) 5 12 (pos + 1)
      (numberTail 5 startOffset ++ (ackEnd endOffset ++ rest)).length =
      some (some (last + startOffset, pos + 1 + (numberTail 5 startOffset).length,
        (ackEnd endOffset ++ rest).length)) := by
    rw [List.length_append, Nat.add_comm (numberTail 5 startOffset).length]
    exact readTail_number (by decide : 5 ≤ 7) hstart hlow' htop (drop_succ h) last
  rw [hbytes, readRange, hread]
  simp only [Option.bind_eq_bind, Option.bind_some]
  by_cases hzero : endOffset = 0
  · rw [hmore, decide_eq_true hzero, Bool.not_true, if_neg Bool.false_ne_true, hzero, ackEnd,
      if_pos rfl, add_zero, List.nil_append, List.append_nil, List.length_cons, Nat.add_right_comm]
    rfl
  · obtain ⟨hdr', hbytes', hlow₂, htop₂⟩ := ackEnd_eq hzero
    have hnext : msg.drop (pos + 1 + (numberTail 5 startOffset).length) =
        hdr' :: (numberTail 7 endOffset ++ rest) := by
      rw [← List.drop_drop, drop_succ h, List.drop_left, hbytes', List.cons_append]
    have hlow₂' : ((hdr' &&& 0x7f).setWidth 32 : u32).toNat = endOffset.toNat % 2 ^ 7 := by
      rw [BitVec.toNat_setWidth, hlow₂]
      omega
    have hread' := readTail_number (by decide : 7 ≤ 7) (hend.trans (by decide)) hlow₂' htop₂
      (drop_succ hnext) (last + startOffset)
    rw [Nat.add_comm rest.length, ← List.length_append] at hread'
    rw [hmore, decide_eq_false hzero, Bool.not_false, if_pos rfl, hbytes', List.cons_append,
      List.length_cons, if_pos (by omega), getElem?_of_drop hnext]
    simp only [Option.bind_some, Nat.add_sub_cancel]
    rw [hread']
    have hlen : pos + 1 + (numberTail 5 startOffset).length + 1 + (numberTail 7 endOffset).length =
        pos + (hdr :: (numberTail 5 startOffset ++ hdr' :: numberTail 7 endOffset)).length := by
      simp only [List.length_append, List.length_cons]
      omega
    rw [List.cons_append, ← hlen]
    rfl

end Fields

/-! ## Distances -/

section Distances

variable {r x y : u32}

/-- Distances between ids that are near to a third one. -/
theorem toInt_sub_of_near (hx : -2 ^ 20 < (x - r).toInt ∧ (x - r).toInt < 2 ^ 20)
    (hy : -2 ^ 20 < (y - r).toInt ∧ (y - r).toInt < 2 ^ 20) :
    (x - y).toInt = (x - r).toInt - (y - r).toInt := by
  have hsub : x - y = (x - r) - (y - r) := by ring
  rw [hsub, BitVec.toInt_sub]
  exact Int.bmod_eq_of_le (by omega) (by omega)

theorem toInt_of_ahead (h : ahead x r < 2 ^ 20) : (x - r).toInt = ahead x r :=
  BitVec.toInt_eq_toNat_of_lt (by rw [ahead] at h; omega)

theorem near_of_ahead (h : ahead x r < 2 ^ 20) :
    -2 ^ 20 < (x - r).toInt ∧ (x - r).toInt < 2 ^ 20 := by
  rw [toInt_of_ahead h]
  omega

theorem toNat_sub_of_ahead (h : ahead y r ≤ ahead x r) :
    (x - y).toNat = ahead x r - ahead y r := by
  have hsub : x - y = (x - r) - (y - r) := by ring
  rw [hsub]
  exact BitVec.toNat_sub_of_le (BitVec.le_def.mpr h)

end Distances

/-! ## Loops over a sorted list -/

section Sorted

variable {α : Type} {p q : α → Bool}

theorem takeWhile_eq_filter {l : List α} (h : l.Pairwise fun a b => p b → p a) :
    l.takeWhile p = l.filter p ∧ l.dropWhile p = l.filter fun a => !p a := by
  induction l with
  | nil => exact ⟨rfl, rfl⟩
  | cons a l ih =>
    obtain ⟨ha, hl⟩ := List.pairwise_cons.mp h
    by_cases hp : p a = true
    · obtain ⟨htake, hdrop⟩ := ih hl
      rw [List.takeWhile_cons_of_pos hp, List.filter_cons_of_pos hp, List.dropWhile_cons_of_pos hp,
        List.filter_cons_of_neg (by simp [hp]), htake, hdrop]
      exact ⟨rfl, rfl⟩
    · -- none behind it either
      have hnone : ∀ b ∈ a :: l, ¬p b = true := by
        intro b hb
        rcases List.mem_cons.mp hb with rfl | hb
        · exact hp
        · exact fun hpb => hp (ha b hb hpb)
      rw [List.takeWhile_cons_of_neg hp, List.dropWhile_cons_of_neg hp,
        List.filter_eq_nil_iff.mpr hnone]
      refine ⟨rfl, (List.filter_eq_self.mpr fun b hb => ?_).symm⟩
      rw [Bool.not_eq_true', Bool.eq_false_iff]
      exact hnone b hb

/-- What is left of a sorted list when the part between two bounds is gone. -/
theorem skip_and_free {l : List α} (hp : l.Pairwise fun a b => p b → p a)
    (hq : l.Pairwise fun a b => q b → q a) :
    l.takeWhile p ++ (l.dropWhile p).dropWhile q = l.filter fun a => p a || !q a := by
  induction l with
  | nil => rfl
  | cons a l ih =>
    obtain ⟨ha, hp'⟩ := List.pairwise_cons.mp hp
    by_cases hpa : p a = true
    · rw [List.takeWhile_cons_of_pos hpa, List.dropWhile_cons_of_pos hpa,
        List.filter_cons_of_pos (by rw [hpa]; rfl), List.cons_append,
        ih hp' (List.pairwise_cons.mp hq).2]
    · rw [List.takeWhile_cons_of_neg hpa, List.dropWhile_cons_of_neg hpa, List.nil_append,
        (takeWhile_eq_filter hq).2]
      refine List.filter_congr fun b hb => ?_
      have hpb : p b = false := by
        rw [← Bool.not_eq_true]
        rcases List.mem_cons.mp hb with rfl | hb
        · exact hpa
        · exact fun hpb => hpa (ha b hb hpb)
      rw [hpb, Bool.false_or]

end Sorted

/-! ## The loops of OnACK, exactly -/

section Exact

variable {ν μ : Type} [DecidableEq ν] [DecidableEq μ]

omit [DecidableEq ν] in
/-- The nodes that are freed are the first ones that meet the condition. -/
theorem SentLists.freeWhile_eq (cond : u32 → Bool) : ∀ {list : List ν} {fuel : Nat}
    {s : SentLists ν μ} {p : Option ν}, list.length < fuel → Seg s.next p list none →
      ∃ fragCount l, releasedNodes l = list.takeWhile (fun n => cond (s.id n)) ∧
        freeWhile cond fuel p s =
          some ((list.dropWhile fun n => cond (s.id n)).head?,
            { s with fragCount := fragCount }, l) := by
  intro list
  induction list with
  | nil =>
    rintro fuel s p hfuel rfl
    obtain ⟨fuel, rfl⟩ : ∃ f, fuel = f + 1 := ⟨fuel - 1, by omega⟩
    exact ⟨s.fragCount, [], rfl, rfl⟩
  | cons n list ih =>
    rintro fuel s p hfuel ⟨rfl, hseg⟩
    obtain ⟨fuel, rfl⟩ : ∃ f, fuel = f + 1 := ⟨fuel - 1, by omega⟩
    rw [freeWhile]
    by_cases hcond : cond (s.id n) = true
    · obtain ⟨fragCount, l, hfree, hl⟩ := freeSentNode_spec n s
      obtain ⟨fragCount', l', hl', hrun⟩ :=
        @ih fuel { s with fragCount := fragCount } _ (Nat.lt_of_succ_lt_succ hfuel) hseg
      refine ⟨fragCount', l ++ l', ?_, ?_⟩
      · rw [releasedNodes] at hl hl' ⊢
        rw [List.filterMap_append, hl, hl',
          List.takeWhile_cons_of_pos (p := fun n => cond (s.id n)) hcond]
        rfl
      · rw [if_pos hcond, List.dropWhile_cons_of_pos (p := fun n => cond (s.id n)) hcond]
        dsimp only
        rw [hfree, hrun]
        rfl
    · rw [if_neg hcond, List.takeWhile_cons_of_neg (p := fun n => cond (s.id n)) hcond,
        List.dropWhile_cons_of_neg (p := fun n => cond (s.id n)) hcond]
      exact ⟨s.fragCount, [], rfl, rfl⟩

/-- The node is before the start of a range. -/
def SentLists.under (s : SentLists ν μ) (startAckId : u32) (n : ν) : Bool :=
  (s.id n - startAckId).toInt < 0

/-- The node is not behind the end of a range. -/
def SentLists.upTo (s : SentLists ν μ) (endAckId : u32) (n : ν) : Bool :=
  0 ≤ (endAckId - s.id n).toInt

/-- The node is before a rollup. -/
def SentLists.rolled (s : SentLists ν μ) (ackId : u32) (n : ν) : Bool :=
  0 < (ackId - s.id n).toInt

omit [DecidableEq ν] [DecidableEq μ] in
theorem SentLists.skipUnder_eq {s : SentLists ν μ} (startAckId : u32) : ∀ {list : List ν}
    {fuel : Nat} {p : Option ν}, list.length < fuel → Seg s.next p list none →
      s.skipUnder startAckId fuel p = some (list.dropWhile (s.under startAckId)).head? := by
  intro list
  induction list with
  | nil =>
    rintro fuel p hfuel rfl
    obtain ⟨fuel, rfl⟩ : ∃ f, fuel = f + 1 := ⟨fuel - 1, by omega⟩
    rfl
  | cons n list ih =>
    rintro fuel p hfuel ⟨rfl, hseg⟩
    obtain ⟨fuel, rfl⟩ : ∃ f, fuel = f + 1 := ⟨fuel - 1, by omega⟩
    rw [skipUnder]
    by_cases hunder : (s.id n - startAckId).toInt < 0
    · have hpos : s.under startAckId n = true := decide_eq_true hunder
      rw [if_pos hunder, List.dropWhile_cons_of_pos hpos]
      exact ih (Nat.lt_of_succ_lt_succ hfuel) hseg
    · have hneg : ¬s.under startAckId n = true := fun h => hunder (of_decide_eq_true h)
      rw [if_neg hunder, List.dropWhile_cons_of_neg hneg]
      rfl

variable {msg : List u8} {sent lists : Nat → List ν} {a : AckState ν μ}

omit [DecidableEq μ] in
/-- The cursor moves, and the last id. -/
theorem AckInv.move (h : AckInv msg sent a lists) {pos dataBytes : Nat} {lastAckId : u32}
    {node : Option ν} (hcur : pos + dataBytes = msg.length)
    (hnode : ∀ n, node = some n → a.stream < numStreams ∧ n ∈ lists a.stream) :
    AckInv msg sent
      { a with pos := pos, dataBytes := dataBytes, lastAckId := lastAckId, node := node } lists :=
  ⟨h.wellFormed, h.sub, h.count, hcur, hnode⟩

/-- What a field leaves: the cursor behind it, and all that is no list as it was. -/
structure AckState.After (a : AckState ν μ) (pos dataBytes : Nat) (a' : AckState ν μ) : Prop where
  pos : a'.pos = pos
  dataBytes : a'.dataBytes = dataBytes
  id : a'.lists.id = a.lists.id
  stream : a'.stream = a.stream
  expected : a'.lists.sendNextRemoteExpected = a.lists.sendNextRemoteExpected

/-- A range, from a node at hand: the nodes before it are skipped and those in it are freed. -/
theorem AckInv.range_eq (h : AckInv msg sent a lists) {fuel : Nat}
    (hfuel : ∀ i < numStreams, (sent i).length < fuel) {l m : List ν} (hs : a.stream < numStreams)
    (hl : lists a.stream = l ++ m) (hnode : a.node = m.head?) {ida : u8} {pos dataBytes : Nat}
    {startAckId endAckId : u32} (hread : readRange msg ida a.lastAckId a.pos a.dataBytes =
      some (some (startAckId, endAckId, pos, dataBytes))) (hcur : pos + dataBytes = msg.length) :
    ∃ a', ackRange msg fuel ida a = some (a', true) ∧ a.After pos dataBytes a' ∧
      AckInv msg sent a' (Function.update lists a.stream
        (l ++ m.takeWhile (a.lists.under startAckId) ++
          (m.dropWhile (a.lists.under startAckId)).dropWhile (a.lists.upTo endAckId))) ∧
      a'.node = ((m.dropWhile (a.lists.under startAckId)).dropWhile (a.lists.upTo endAckId)).head? ∧
      (m ≠ [] → a'.lastAckId = endAckId) := by
  have hlinked := h.wellFormed.linked _ hs
  have hlen := h.length_lt hfuel _ hs
  unfold ackRange
  simp only [hread, Option.bind_eq_bind, Option.bind_some]
  cases m with
  | nil =>
    rw [hnode]
    have hsame : Function.update lists a.stream (l ++ [] ++ []) = lists := by
      rw [List.append_assoc, List.append_nil, ← hl, Function.update_eq_self]
    refine ⟨_, rfl, ⟨rfl, rfl, rfl, rfl, rfl⟩, ?_, rfl, fun hne => absurd rfl hne⟩
    rw [List.takeWhile_nil, List.dropWhile_nil, List.dropWhile_nil, hsame]
    exact h.move hcur fun n hn => absurd hn (Option.some_ne_none n).symm
  | cons n rest =>
    rw [hnode]
    simp only [List.head?_cons]
    -- the nodes from the one at hand on
    have hseg : Intrusive.Seg a.lists.next (some n) (n :: rest) none := by
      have hnext := hlinked.next
      rw [hl] at hnext
      obtain ⟨q, -, hq⟩ := Intrusive.Seg.append.mp hnext
      have hq' := hq
      rw [hq.1] at hq'
      exact hq'
    have hlen' : (n :: rest).length < fuel := by
      rw [hl, List.length_append] at hlen
      omega
    have hskip := SentLists.skipUnder_eq startAckId hlen' hseg
    simp only [hskip, Option.bind_some]
    have hparts : n :: rest = (n :: rest).takeWhile (a.lists.under startAckId) ++
        (n :: rest).dropWhile (a.lists.under startAckId) := List.takeWhile_append_dropWhile.symm
    generalize (n :: rest).takeWhile (a.lists.under startAckId) = skipped at hparts ⊢
    generalize (n :: rest).dropWhile (a.lists.under startAckId) = m at hparts ⊢
    rw [hparts] at hl hseg hlen'
    cases m with
    | nil =>
      have hsame : Function.update lists a.stream (l ++ skipped ++ []) = lists := by
        rw [List.append_assoc, ← hl, Function.update_eq_self]
      refine ⟨_, rfl, ⟨rfl, rfl, rfl, rfl, rfl⟩, ?_, rfl, fun _ => rfl⟩
      rw [List.dropWhile_nil, hsame]
      exact h.move hcur fun n hn => absurd hn (Option.some_ne_none n).symm
    | cons n' m =>
      obtain ⟨q, -, hq⟩ := Intrusive.Seg.append.mp hseg
      obtain ⟨rfl, hq⟩ := hq
      have hmem : n' ∈ lists a.stream := by
        rw [hl]
        simp
      have h' : AckInv msg sent
          { a with pos := pos, dataBytes := dataBytes, lastAckId := endAckId, node := some n' }
          lists := h.move hcur fun n'' hn => by
        cases hn
        exact ⟨hs, hmem⟩
      simp only [List.head?_cons]
      by_cases hin : 0 ≤ (endAckId - a.lists.id n').toInt
      · rw [if_pos hin]
        have hlen'' : (n' :: m).length < fuel := by
          rw [List.length_append] at hlen'
          omega
        obtain ⟨fragCount, released, hreleased, hrun⟩ := SentLists.freeWhile_eq
          (fun id => decide (0 ≤ (endAckId - id).toInt)) (s := a.lists) hlen'' ⟨rfl, hq⟩
        simp only [hrun, Option.bind_some]
        have hupTo : (fun n => decide (0 ≤ (endAckId - a.lists.id n).toInt)) =
            a.lists.upTo endAckId := rfl
        rw [hupTo] at hreleased ⊢
        have hl' : lists a.stream = (l ++ skipped) ++ ((n' :: m).takeWhile (a.lists.upTo endAckId) ++
            (n' :: m).dropWhile (a.lists.upTo endAckId)) := by
          rw [hl, List.takeWhile_append_dropWhile, List.append_assoc]
        have hprev : a.lists.prev n' = (l ++ skipped).getLast? := by
          rw [hl, ← List.append_assoc] at hlinked
          exact hlinked.prev_eq
        rw [hprev]
        exact ⟨_, rfl, ⟨rfl, rfl, rfl, rfl, rfl⟩, h'.cut hs hl' hreleased fragCount, rfl, fun _ => rfl⟩
      · rw [if_neg hin]
        have hneg : ¬a.lists.upTo endAckId n' = true := fun h => hin (of_decide_eq_true h)
        have hsame : Function.update lists a.stream (l ++ skipped ++ n' :: m) = lists := by
          rw [List.append_assoc, ← hl, Function.update_eq_self]
        rw [List.dropWhile_cons_of_neg hneg, hsame]
        exact ⟨_, rfl, ⟨rfl, rfl, rfl, rfl, rfl⟩, h', rfl, fun _ => rfl⟩

/-- The bytes of a rollup. -/
def rollupBytes (stream : Nat) (rollup : u32) : List u8 := [
  (1 ||| BitVec.ofNat 32 stream <<< 1 ||| (rollup &&& 31) <<< 3).setWidth 8,
  (rollup >>> 5).setWidth 8, (rollup >>> 13).setWidth 8]

theorem rollup_hdr : ∀ stream < 4, ∀ low < 32,
    ((1 ||| BitVec.ofNat 32 stream <<< 1 ||| BitVec.ofNat 32 low <<< 3).setWidth 8 : u8).toNat =
      1 + 2 * stream + 8 * low := by
  decide +kernel

theorem hdr_stream (x : u8) : ((x >>> 1) &&& 3).toNat = x.toNat / 2 % 4 := by
  revert x
  decide +kernel

/-- A rollup is read back, up to the bits that it does not have. -/
theorem rollupBytes_read {stream : Nat} (hs : stream < numStreams) (rollup : u32) :
    ∃ ida idb idc, rollupBytes stream rollup = [ida, idb, idc] ∧ hasBit ida 1 = true ∧
      ((ida >>> 1) &&& 3).toNat = stream ∧
      (idc.setWidth 32 <<< 13 ||| idb.setWidth 32 <<< 5 ||| (ida >>> 3).setWidth 32 : u32).toNat =
        rollup.toNat % 2 ^ 21 := by
  have hlow : (rollup &&& 31) = BitVec.ofNat 32 (rollup.toNat % 32) := by
    refine BitVec.eq_of_toNat_eq ?_
    rw [BitVec.toNat_and, show (31 : u32).toNat = 2 ^ 5 - 1 from rfl, Nat.and_two_pow_sub_one_eq_mod,
      BitVec.toNat_ofNat]
    omega
  have hhdr := rollup_hdr stream hs (rollup.toNat % 32) (Nat.mod_lt _ (by decide))
  rw [← hlow] at hhdr
  have hs4 : stream < 4 := hs
  refine ⟨_, _, _, rfl, ?_, ?_, ?_⟩
  · rw [hasBit_one, hhdr]
    exact decide_eq_true (by omega)
  · rw [hdr_stream, hhdr]
    omega
  · have hida : (((1 ||| BitVec.ofNat 32 stream <<< 1 ||| (rollup &&& 31) <<< 3).setWidth 8 : u8) >>>
        3).toNat = rollup.toNat % 32 := by
      rw [BitVec.toNat_ushiftRight, Nat.shiftRight_eq_div_pow, hhdr]
      omega
    have hb : ∀ n, ((rollup >>> n).setWidth 8 : u8).toNat = rollup.toNat / 2 ^ n % 256 := by
      intro n
      rw [BitVec.toNat_setWidth, BitVec.toNat_ushiftRight, Nat.shiftRight_eq_div_pow]
    have hshift : ∀ (x : u8) (n : Nat), n ≤ 13 →
        (x.setWidth 32 <<< n : u32).toNat = 2 ^ n * x.toNat := by
      intro x n hn
      have hx := x.isLt
      have hpow : 2 ^ n ≤ 2 ^ 13 := Nat.pow_le_pow_right (by decide) hn
      have hlt : 2 ^ n * x.toNat < 2 ^ 32 := by
        calc 2 ^ n * x.toNat ≤ 2 ^ 13 * 255 := Nat.mul_le_mul hpow (by omega)
          _ < 2 ^ 32 := by decide
      rw [BitVec.toNat_shiftLeft, BitVec.toNat_setWidth, Nat.mod_eq_of_lt (by omega : x.toNat < 2 ^ 32),
        Nat.shiftLeft_eq, Nat.mul_comm, Nat.mod_eq_of_lt hlt]
    have hida32 : (((1 ||| BitVec.ofNat 32 stream <<< 1 ||| (rollup &&& 31) <<< 3).setWidth 8 >>> 3 :
        u8).setWidth 32 : u32).toNat = rollup.toNat % 32 := by
      rw [BitVec.toNat_setWidth, hida]
      omega
    rw [BitVec.toNat_or, BitVec.toNat_or, hshift _ 13 (by decide), hshift _ 5 (by decide), hida32,
      hb, hb,
      ← Nat.two_pow_add_eq_or_of_lt (by omega : 2 ^ 5 * (rollup.toNat / 2 ^ 5 % 256) < 2 ^ 13)]
    have hfive : 2 ^ 13 * (rollup.toNat / 2 ^ 13 % 256) + 2 ^ 5 * (rollup.toNat / 2 ^ 5 % 256) =
        2 ^ 5 * (2 ^ 8 * (rollup.toNat / 2 ^ 13 % 256) + rollup.toNat / 2 ^ 5 % 256) := by omega
    rw [hfive, ← Nat.two_pow_add_eq_or_of_lt (by omega : rollup.toNat % 32 < 2 ^ 5)]
    omega

/-- A rollup: the nodes before it are freed. Where the list is empty, the rollup is not noted. -/
theorem AckInv.rollup_eq (h : AckInv msg sent a lists) {fuel : Nat}
    (hfuel : ∀ i < numStreams, (sent i).length < fuel) {stream : Nat} (hs : stream < numStreams)
    {ida idb idc : u8} {rest : List u8} (hdrop : msg.drop a.pos = idb :: idc :: rest)
    (hbytes : a.dataBytes = rest.length + 2) (hstream : ((ida >>> 1) &&& 3).toNat = stream)
    {ackId : u32}
    (hlow : (idc.setWidth 32 <<< 13 ||| idb.setWidth 32 <<< 5 ||| (ida >>> 3).setWidth 32 : u32).toNat =
      ackId.toNat % 2 ^ 21)
    (hnear : ∀ n ∈ lists stream, InWindow 21 (a.lists.id n) ackId) :
    ∃ a', ackRollup msg fuel ida a = some (a', true) ∧ a'.pos = a.pos + 2 ∧
      a'.dataBytes = rest.length ∧ a'.lists.id = a.lists.id ∧ a'.stream = stream ∧
      a'.lists.sendNextRemoteExpected = (if lists stream = [] then a.lists.sendNextRemoteExpected
        else Function.update a.lists.sendNextRemoteExpected stream ackId) ∧
      AckInv msg sent a'
        (Function.update lists stream ((lists stream).dropWhile (a.lists.rolled ackId))) ∧
      a'.node = ((lists stream).dropWhile (a.lists.rolled ackId)).head? ∧
      (lists stream ≠ [] → a'.lastAckId = ackId) := by
  have hcur := h.cursor
  obtain ⟨_, hnack⟩ :=
    h.wellFormed.retransmitNegative (h.length_lt hfuel) a.stream a.lastAckId
  have hhead := (h.wellFormed.linked stream hs).next.head
  unfold ackRollup
  rw [if_pos (by omega), getElem?_of_drop hdrop, getElem?_of_drop (drop_succ hdrop)]
  simp only [hnack, Option.bind_eq_bind, Option.bind_some, hstream]
  cases hlist : lists stream with
  | nil =>
    rw [hlist] at hhead
    rw [hhead]
    have hsame : Function.update lists stream [] = lists := by
      rw [← hlist, Function.update_eq_self]
    refine ⟨_, rfl, rfl, by dsimp only; omega, rfl, rfl, by rw [if_pos rfl], ?_, rfl,
      fun hne => absurd rfl hne⟩
    rw [List.dropWhile_nil, hsame]
    refine ⟨h.wellFormed, h.sub, h.count, ?_, fun n hn => absurd hn (Option.some_ne_none n).symm⟩
    dsimp only
    omega
  | cons n list =>
    rw [hlist] at hhead
    rw [hhead]
    simp only [List.head?_cons]
    have hack : reconstructCounter 21 (a.lists.id n)
        (idc.setWidth 32 <<< 13 ||| idb.setWidth 32 <<< 5 ||| (ida >>> 3).setWidth 32) = ackId :=
      reconstructCounter_of_window (by decide) (by decide) le_rfl hlow
        (hnear n (by rw [hlist]; exact List.mem_cons_self))
    rw [hack]
    have h' : AckInv msg sent
        { a with
          lists :=
            { a.lists with
              sendNextRemoteExpected :=
                Function.update a.lists.sendNextRemoteExpected stream ackId }
          pos := a.pos + 2, dataBytes := a.dataBytes - 2, stream := stream, lastAckId := ackId
          node := some n } lists := by
      refine ⟨⟨h.wellFormed.linked, h.wellFormed.tail, h.wellFormed.nodup, h.wellFormed.disjoint⟩,
        h.sub, h.count, ?_, ?_⟩
      · dsimp only
        omega
      · rintro n' ⟨⟩
        exact ⟨hs, by rw [hlist]; exact List.mem_cons_self⟩
    by_cases hrolled : 0 < (ackId - a.lists.id n).toInt
    · rw [if_pos hrolled]
      have hseg := (h'.wellFormed.linked stream hs).next
      have hlen := h'.length_lt hfuel stream hs
      rw [hlist] at hseg hlen
      dsimp only at hseg
      rw [hhead] at hseg
      obtain ⟨fragCount, released, hreleased, hrun⟩ :=
        SentLists.freeWhile_eq (fun id => decide (0 < (ackId - id).toInt)) hlen
          (s := { a.lists with
            sendNextRemoteExpected :=
              Function.update a.lists.sendNextRemoteExpected stream ackId }) hseg
      rw [List.head?_cons] at hrun
      rw [hrun]
      have hl : lists stream = [] ++ ((n :: list).takeWhile (a.lists.rolled ackId) ++
          (n :: list).dropWhile (a.lists.rolled ackId)) := by
        rw [hlist, List.takeWhile_append_dropWhile, List.nil_append]
      have hcut := h'.cut hs hl hreleased fragCount
      rw [List.getLast?_nil, ← SentLists.removeBefore_eq, List.nil_append] at hcut
      refine ⟨_, rfl, rfl, by dsimp only; omega, rfl, rfl, ?_, hcut, rfl, fun _ => rfl⟩
      rw [if_neg (List.cons_ne_nil _ _)]
      rfl
    · rw [if_neg hrolled]
      have hneg : ¬a.lists.rolled ackId n = true := fun h => hrolled (of_decide_eq_true h)
      have hsame : Function.update lists stream (n :: list) = lists := by
        rw [← hlist, Function.update_eq_self]
      refine ⟨_, rfl, rfl, by dsimp only; omega, rfl, rfl, ?_, ?_, ?_, fun _ => rfl⟩
      · rw [if_neg (List.cons_ne_nil _ _)]
      · rw [List.dropWhile_cons_of_neg hneg, hsame]
        exact h'
      · rw [List.dropWhile_cons_of_neg hneg]
        rfl

/-- From one state of the loop over the fields to another. -/
def Reads (msg : List u8) (fuel : Nat) (a a' : AckState ν μ) : Prop :=
  ∃ c, c + a'.dataBytes ≤ a.dataBytes ∧ ∀ n, ackLoop msg fuel (n + c) a = ackLoop msg fuel n a'

theorem Reads.refl (msg : List u8) (fuel : Nat) (a : AckState ν μ) : Reads msg fuel a a :=
  ⟨0, by omega, fun _ => rfl⟩

theorem Reads.trans {fuel : Nat} {a a' a'' : AckState ν μ} (h : Reads msg fuel a a')
    (h' : Reads msg fuel a' a'') : Reads msg fuel a a'' := by
  obtain ⟨c, hc, hrun⟩ := h
  obtain ⟨c', hc', hrun'⟩ := h'
  refine ⟨c' + c, by omega, fun n => ?_⟩
  rw [← Nat.add_assoc, hrun, hrun']

theorem Reads.field {fuel : Nat} {a a' : AckState ν μ} (h : ackField msg fuel a = some (a', true))
    (hlt : a'.dataBytes < a.dataBytes) : Reads msg fuel a a' := by
  refine ⟨1, by omega, fun n => ?_⟩
  rw [ackLoop, if_neg (by omega), h]

/-- The bytes of ranges, each from the end of the one before it. -/
def rangeBytes : u32 → List (u32 × u32) → List u8
  | _, [] => []
  | last, (start, stop) :: ranges =>
    ackStart (start - last) (stop - start) ++ ackEnd (stop - start) ++ rangeBytes stop ranges

/-- Ranges in ascending order from `last` on, near to the rollup. -/
def Ascending (rollup : u32) : u32 → List (u32 × u32) → Prop
  | _, [] => True
  | last, (start, stop) :: ranges =>
    ahead last rollup ≤ ahead start rollup ∧ ahead start rollup ≤ ahead stop rollup ∧
      ahead stop rollup < 2 ^ 20 ∧ Ascending rollup stop ranges

/-- The id is in the range. -/
def InRange (range : u32 × u32) (id : u32) : Prop :=
  0 ≤ (id - range.1).toInt ∧ 0 ≤ (range.2 - id).toInt

instance (range : u32 × u32) (id : u32) : Decidable (InRange range id) :=
  inferInstanceAs (Decidable (_ ∧ _))

/-- The sent list of a stream is in ascending order of ids near to the rollup. -/
structure SentNear (rollup : u32) (id : ν → u32) (list : List ν) : Prop where
  near : ∀ n ∈ list, -2 ^ 20 < (id n - rollup).toInt ∧ (id n - rollup).toInt < 2 ^ 20
  sorted : list.Pairwise fun n n' => (id n - rollup).toInt < (id n' - rollup).toInt

omit [DecidableEq ν] in
theorem SentNear.sublist {rollup : u32} {id : ν → u32} {list list' : List ν}
    (h : SentNear rollup id list) (hsub : list'.Sublist list) : SentNear rollup id list' :=
  ⟨fun n hn => h.near n (hsub.subset hn), h.sorted.sublist hsub⟩

omit [DecidableEq ν] [DecidableEq μ] in
/-- A range takes its own nodes out of the nodes from the one at hand on. -/
theorem SentNear.free_range {rollup start stop : u32} {s : SentLists ν μ} {list : List ν}
    (h : SentNear rollup s.id list) (hstart : ahead start rollup < 2 ^ 20)
    (hstop : ahead stop rollup < 2 ^ 20) :
    list.takeWhile (s.under start) ++ (list.dropWhile (s.under start)).dropWhile (s.upTo stop) =
      list.filter fun n => ¬InRange (start, stop) (s.id n) := by
  have hdist : ∀ n ∈ list, (s.id n - start).toInt = (s.id n - rollup).toInt - ahead start rollup ∧
      (stop - s.id n).toInt = ahead stop rollup - (s.id n - rollup).toInt := by
    intro n hn
    have hs := toInt_of_ahead hstart
    have he := toInt_of_ahead hstop
    rw [← hs, ← he]
    exact ⟨toInt_sub_of_near (h.near n hn) (near_of_ahead hstart),
      toInt_sub_of_near (near_of_ahead hstop) (h.near n hn)⟩
  rw [skip_and_free]
  · refine List.filter_congr fun n _ => ?_
    rw [SentLists.under, SentLists.upTo, ← decide_not, ← Bool.decide_or]
    refine decide_eq_decide.mpr ?_
    rw [InRange, not_and_or, not_le, not_le]
  · refine h.sorted.imp_of_mem fun {n n'} hn hn' hlt hunder => ?_
    have hlt' := of_decide_eq_true hunder
    refine decide_eq_true ?_
    rw [(hdist n' hn').1] at hlt'
    rw [(hdist n hn).1]
    omega
  · refine h.sorted.imp_of_mem fun {n n'} hn hn' hlt hup => ?_
    have hle := of_decide_eq_true hup
    refine decide_eq_true ?_
    rw [(hdist n' hn').2] at hle
    rw [(hdist n hn).2]
    omega

/-- Between two ranges of a stream: the nodes behind the one at hand are below the last id. -/
structure BetweenRanges (msg : List u8) (sent : Nat → List ν) (stream : Nat) (rollup last : u32)
    (a : AckState ν μ) (lists : Nat → List ν) (l m : List ν) : Prop where
  inv : AckInv msg sent a lists
  stream_eq : a.stream = stream
  split : lists stream = l ++ m
  node : a.node = m.head?
  last_eq : m ≠ [] → a.lastAckId = last
  near : SentNear rollup a.lists.id (lists stream)
  below : ∀ n ∈ l, (a.lists.id n - rollup).toInt < ahead last rollup

omit [DecidableEq μ] in
/-- The nodes that were passed are in no range behind the last id. -/
theorem BetweenRanges.keeps {stream : Nat} {rollup last start stop : u32} {l m : List ν}
    (h : BetweenRanges msg sent stream rollup last a lists l m)
    (hle : ahead last rollup ≤ ahead start rollup) (hstart : ahead start rollup < 2 ^ 20) :
    l.filter (fun n => ¬InRange (start, stop) (a.lists.id n)) = l := by
  refine List.filter_eq_self.mpr fun n hn => decide_eq_true fun hin => ?_
  have hn' : n ∈ lists stream := by
    rw [h.split]
    exact List.mem_append_left _ hn
  have hdist := toInt_sub_of_near (h.near.near n hn') (near_of_ahead hstart)
  rw [toInt_of_ahead hstart] at hdist
  have hge := hin.1
  have := h.below n hn
  dsimp only at hge
  omega

/-- The field of a range: what is in it is gone. -/
theorem BetweenRanges.range {fuel : Nat} (hfuel : ∀ i < numStreams, (sent i).length < fuel)
    {stream : Nat} (hs : stream < numStreams) {rollup last start stop : u32} {l m : List ν}
    {rest : List u8} (h : BetweenRanges msg sent stream rollup last a lists l m)
    (hdrop : msg.drop a.pos =
      ackStart (start - last) (stop - start) ++ ackEnd (stop - start) ++ rest)
    (hle : ahead last rollup ≤ ahead start rollup) (hle' : ahead start rollup ≤ ahead stop rollup)
    (hlt : ahead stop rollup < 2 ^ 20) :
    ∃ a' l' m', Reads msg fuel a a' ∧ msg.drop a'.pos = rest ∧ a'.lists.id = a.lists.id ∧
      a'.lists.sendNextRemoteExpected = a.lists.sendNextRemoteExpected ∧
      BetweenRanges msg sent stream rollup stop a' (Function.update lists stream
        ((lists stream).filter fun n => ¬InRange (start, stop) (a.lists.id n))) l' m' := by
  obtain rfl := h.stream_eq
  have hstart : ahead start rollup < 2 ^ 20 := by omega
  have hcur := h.inv.cursor
  have hso : (start - last).toNat < 2 ^ 20 := by
    rw [toNat_sub_of_ahead hle]
    omega
  have heo : (stop - start).toNat < 2 ^ 20 := by
    rw [toNat_sub_of_ahead hle']
    omega
  obtain ⟨hdr, more, hmore, hbit, hread⟩ := readRange_of_drop hso heo hdrop
  -- the bytes that are left
  have hlen : a.dataBytes = more.length + 1 := by
    have := congrArg List.length hmore
    rw [List.length_drop, List.length_cons] at this
    omega
  have hlen' : (ackStart (start - last) (stop - start) ++ ackEnd (stop - start)).length +
      rest.length = a.dataBytes := by
    have := congrArg List.length hdrop
    rw [List.length_drop, List.length_append] at this
    omega
  have hbytes : 0 < (ackStart (start - last) (stop - start) ++ ackEnd (stop - start)).length := by
    obtain ⟨hdr', hstartBytes, -⟩ := ackStart_eq (start - last) (stop - start)
    rw [hstartBytes]
    exact Nat.succ_pos _
  have hmove : AckInv msg sent { a with pos := a.pos + 1, dataBytes := a.dataBytes - 1 } lists :=
    h.inv.move (by omega) h.inv.node
  have hread' := hread a.lastAckId
  rw [show more.length = a.dataBytes - 1 by omega] at hread'
  generalize hS : a.lastAckId + (start - last) = S at hread'
  generalize hE : S + (stop - start) = E at hread'
  obtain ⟨a', hrun, hafter, hinv, hnode, hlast⟩ :=
    hmove.range_eq hfuel hs h.split h.node hread' (by omega)
  have hfield : ackField msg fuel a = some (a', true) := by
    rw [ackField, getElem?_of_drop hmore]
    simp only [Option.bind_eq_bind, Option.bind_some]
    rw [hbit, if_neg Bool.false_ne_true]
    exact hrun
  have hid : a'.lists.id = a.lists.id := hafter.id
  dsimp only at hinv hnode
  -- the ids are those of the range, unless no node is left
  have hids : m ≠ [] → S = start ∧ E = stop := by
    intro hne
    have hS' : S = start := by
      rw [← hS, h.last_eq hne]
      ring
    exact ⟨hS', by rw [← hE, hS']; ring⟩
  have hkept : l ++ m.takeWhile (a.lists.under S) ++
      (m.dropWhile (a.lists.under S)).dropWhile (a.lists.upTo E) =
        (lists a.stream).filter fun n => ¬InRange (start, stop) (a.lists.id n) := by
    rw [h.split, List.filter_append, h.keeps hle hstart, List.append_assoc]
    by_cases hm : m = []
    · rw [hm]
      rfl
    · obtain ⟨rfl, rfl⟩ := hids hm
      have hnear := h.near
      rw [h.split] at hnear
      rw [(hnear.sublist (List.sublist_append_right l m)).free_range hstart hlt]
  rw [hkept] at hinv
  refine ⟨a', l ++ m.takeWhile (a.lists.under S),
    (m.dropWhile (a.lists.under S)).dropWhile (a.lists.upTo E), Reads.field hfield ?_, ?_, hid,
    hafter.expected, hinv, hafter.stream, ?_, hnode, fun hne => ?_, ?_, fun n hn => ?_⟩
  · rw [hafter.dataBytes]
    omega
  · rw [hafter.pos, ← List.drop_drop, hdrop, List.drop_left]
  · rw [Function.update_self, hkept]
  · have hm : m ≠ [] := fun hm => hne (by rw [hm]; rfl)
    rw [hlast hm, (hids hm).2]
  · rw [Function.update_self, hid]
    exact h.near.sublist List.filter_sublist
  · rw [hid]
    rcases List.mem_append.mp hn with hn | hn
    · have := h.below n hn
      omega
    · have hm : m ≠ [] := fun hm => by
        rw [hm] at hn
        exact absurd hn List.not_mem_nil
      have hunder := of_decide_eq_true (List.all_eq_true.mp List.all_takeWhile n hn)
      rw [(hids hm).1] at hunder
      have hn' : n ∈ lists a.stream := by
        rw [h.split]
        exact List.mem_append_right _ ((List.takeWhile_prefix _).subset hn)
      have hdist := toInt_sub_of_near (h.near.near n hn') (near_of_ahead hstart)
      rw [toInt_of_ahead hstart] at hdist
      omega

/-- The ranges of a stream: what is in one of them is gone. -/
theorem BetweenRanges.ranges {fuel : Nat} (hfuel : ∀ i < numStreams, (sent i).length < fuel)
    {stream : Nat} (hs : stream < numStreams) {rollup : u32} {rest : List u8}
    (ranges : List (u32 × u32)) : ∀ {lists : Nat → List ν} {a : AckState ν μ} {last : u32}
    {l m : List ν}, BetweenRanges msg sent stream rollup last a lists l m →
      msg.drop a.pos = rangeBytes last ranges ++ rest → Ascending rollup last ranges →
        ∃ a', Reads msg fuel a a' ∧ msg.drop a'.pos = rest ∧ a'.lists.id = a.lists.id ∧
          a'.lists.sendNextRemoteExpected = a.lists.sendNextRemoteExpected ∧
          AckInv msg sent a' (Function.update lists stream
            ((lists stream).filter fun n => ¬∃ p ∈ ranges, InRange p (a.lists.id n))) := by
  induction ranges with
  | nil =>
    intro lists a last l m h hdrop _
    refine ⟨a, Reads.refl msg fuel a, hdrop, rfl, rfl, ?_⟩
    have hall : (lists stream).filter (fun n => decide (¬∃ p ∈ ([] : List (u32 × u32)),
        InRange p (a.lists.id n))) = lists stream :=
      List.filter_eq_self.mpr fun n _ => decide_eq_true (by simp)
    rw [hall, Function.update_eq_self]
    exact h.inv
  | cons range ranges ih =>
    intro lists a last l m h hdrop hasc
    obtain ⟨start, stop⟩ := range
    obtain ⟨hle, hle', hlt, hasc'⟩ := hasc
    rw [rangeBytes, List.append_assoc] at hdrop
    obtain ⟨a₁, l', m', hreads, hrest, hid, hexpected, h₁⟩ := h.range hfuel hs hdrop hle hle' hlt
    obtain ⟨a₂, hreads', hrest', hid', hexpected', hinv⟩ := ih h₁ hrest hasc'
    refine ⟨a₂, hreads.trans hreads', hrest', hid'.trans hid, hexpected'.trans hexpected, ?_⟩
    rw [Function.update_self, Function.update_idem, List.filter_filter, hid] at hinv
    have hboth : (lists stream).filter
          (fun n => decide (¬∃ p ∈ (start, stop) :: ranges, InRange p (a.lists.id n))) =
        (lists stream).filter fun n => decide (¬∃ p ∈ ranges, InRange p (a.lists.id n)) &&
          decide (¬InRange (start, stop) (a.lists.id n)) := by
      refine List.filter_congr fun n _ => ?_
      rw [← Bool.decide_and]
      refine decide_eq_decide.mpr ?_
      rw [List.exists_mem_cons_iff, not_or, and_comm]
    rw [hboth]
    exact hinv

/-- What an acknowledgement of a stream says of an id: it is before the rollup, or in a range. -/
def Covered (rollup : u32) (ranges : List (u32 × u32)) (id : u32) : Prop :=
  0 < (rollup - id).toInt ∨ ∃ p ∈ ranges, InRange p id

instance (rollup : u32) (ranges : List (u32 × u32)) (id : u32) :
    Decidable (Covered rollup ranges id) :=
  inferInstanceAs (Decidable (_ ∨ _))

omit [DecidableEq ν] in
theorem SentNear.toInt_rollup {rollup : u32} {id : ν → u32} {list : List ν}
    (h : SentNear rollup id list) {n : ν} (hn : n ∈ list) :
    (rollup - id n).toInt = -(id n - rollup).toInt := by
  have hself : (rollup - rollup).toInt = 0 := by
    rw [sub_self]
    rfl
  have hdist := toInt_sub_of_near (x := rollup) (by rw [hself]; decide) (h.near n hn)
  rw [hself] at hdist
  omega

/-- A rollup and its ranges: the nodes that they cover are gone. -/
theorem AckInv.part (h : AckInv msg sent a lists) {fuel : Nat}
    (hfuel : ∀ i < numStreams, (sent i).length < fuel) {stream : Nat} (hs : stream < numStreams)
    {rollup : u32} {ranges : List (u32 × u32)} {rest : List u8}
    (hdrop : msg.drop a.pos = rollupBytes stream rollup ++ (rangeBytes rollup ranges ++ rest))
    (hasc : Ascending rollup rollup ranges) (hnear : SentNear rollup a.lists.id (lists stream)) :
    ∃ a', Reads msg fuel a a' ∧ msg.drop a'.pos = rest ∧ a'.lists.id = a.lists.id ∧
      a'.lists.sendNextRemoteExpected = (if lists stream = [] then a.lists.sendNextRemoteExpected
        else Function.update a.lists.sendNextRemoteExpected stream rollup) ∧
      AckInv msg sent a' (Function.update lists stream
        ((lists stream).filter fun n => ¬Covered rollup ranges (a.lists.id n))) := by
  obtain ⟨ida, idb, idc, hbytes, hbit, hstream, hlow⟩ := rollupBytes_read hs rollup
  rw [hbytes, List.cons_append, List.cons_append, List.cons_append, List.nil_append] at hdrop
  have hcur := h.cursor
  have hlen : a.dataBytes = (rangeBytes rollup ranges ++ rest).length + 3 := by
    have := congrArg List.length hdrop
    rw [List.length_drop] at this
    simp only [List.length_cons] at this
    omega
  have hmove : AckInv msg sent { a with pos := a.pos + 1, dataBytes := a.dataBytes - 1 } lists :=
    h.move (by omega) h.node
  have hwindow : ∀ n ∈ lists stream, InWindow 21 (a.lists.id n) rollup := by
    intro n hn
    have hself := hnear.toInt_rollup hn
    have := hnear.near n hn
    refine ⟨?_, ?_⟩
    · rw [hself]
      exact neg_lt_neg this.2
    · rw [hself]
      exact neg_le.mp this.1.le
  obtain ⟨a₁, hrun, hpos, hdata, hid, hstream', hexpected, hinv, hnode, hlast⟩ :=
    hmove.rollup_eq hfuel hs (drop_succ hdrop) (by dsimp only; omega) hstream hlow hwindow
  have hfield : ackField msg fuel a = some (a₁, true) := by
    rw [ackField, getElem?_of_drop hdrop]
    simp only [Option.bind_eq_bind, Option.bind_some]
    rw [if_pos hbit]
    exact hrun
  dsimp only at hid hpos hexpected hinv hnode
  -- the nodes before the rollup come first
  have hrolled : (lists stream).Pairwise fun n n' =>
      a.lists.rolled rollup n' → a.lists.rolled rollup n := by
    refine hnear.sorted.imp_of_mem fun {n n'} hn hn' hlt hroll => ?_
    have hpos := of_decide_eq_true hroll
    refine decide_eq_true ?_
    rw [hnear.toInt_rollup hn'] at hpos
    rw [hnear.toInt_rollup hn]
    omega
  have hleft := (takeWhile_eq_filter hrolled).2
  rw [hleft] at hinv hnode
  have hbetween : BetweenRanges msg sent stream rollup rollup a₁ (Function.update lists stream
      ((lists stream).filter fun n => !a.lists.rolled rollup n)) []
      ((lists stream).filter fun n => !a.lists.rolled rollup n) := by
    refine ⟨hinv, hstream', Function.update_self _ _ _, hnode, fun hne => hlast fun hnil => ?_, ?_,
      fun n hn => absurd hn List.not_mem_nil⟩
    · rw [hnil] at hne
      exact hne rfl
    · rw [Function.update_self, hid]
      exact hnear.sublist List.filter_sublist
  have hrest : msg.drop a₁.pos = rangeBytes rollup ranges ++ rest := by
    rw [hpos, Nat.add_assoc, ← List.drop_drop, hdrop]
    rfl
  obtain ⟨a₂, hreads, hrest', hid', hexpected', hinv'⟩ := hbetween.ranges hfuel hs ranges hrest hasc
  refine ⟨a₂, (Reads.field hfield (by omega)).trans hreads, hrest', hid'.trans hid,
    hexpected'.trans hexpected, ?_⟩
  rw [Function.update_self, Function.update_idem, List.filter_filter, hid] at hinv'
  convert hinv' using 3
  funext n
  rw [SentLists.rolled, ← decide_not, ← Bool.decide_and]
  refine decide_eq_decide.mpr ?_
  rw [Covered, not_or, and_comm]

end Exact

end Libcat.Sphynx
