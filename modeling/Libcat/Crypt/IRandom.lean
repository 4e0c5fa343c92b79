import Mathlib.Data.FinEnum
import Libcat.Math.BitMath

/-!
# Unbiased ranges

`IRandom::GenerateUnbiased`: the low bits of a word are taken as the offset if they are in the range;
if not, the word is shifted by one bit and tried again. A rejected window has its top bit set, so the
next one has the bit below: the tries depend on each other, and `generate_unbiased` says for which
ranges all offsets are as likely.
-/

namespace Libcat.Crypt.IRandom

section Model

/-- `BSR32`. -/
def bsr32 (x : u32) : Nat := Nat.log2 x.toNat

/-- `v`: the range rounded up to the next power of two less one. -/
def mask (available : Nat) : u32 := ((((1 : u32) <<< available) - 1) <<< 1) ||| 1

/-- `while (count--)`: the tries of one word. -/
def innerLoop (v range : u32) : Nat → u32 → Option u32
  | 0, _ => none
  | count + 1, y =>
    let z := y &&& v
    if z ≤ range then some z else innerLoop v range count (y >>> 1)

/-- The words from `trial` on, of which `n` may be used. -/
def trialLoop (low v range : u32) (available : Nat) (words : Nat → u32) : Nat → Nat → Option u32
  | 0, _ => none
  | n + 1, trial =>
    match innerLoop v range available (words trial) with
    | some z => some (low + z)
    | none => trialLoop low v range available words n (trial + 1)

/-- `GenerateUnbiased`; `none` is a division by zero. -/
def generateUnbiased (low high : u32) (words : Nat → u32) : Option u32 :=
  let range := high - low
  if range = 0 then some low
  else
    let available := bsr32 range
    let v := mask available
    let available := 32 - available
    match trialLoop low v range available words 16 0 with
    | some x => some x
    | none => if range + 1 = 0 then none else some (low + words 15 % (range + 1))

end Model

/-! ## One word -/

section Word

variable {n count : Nat} {v range y z : u32}

/-- `v` takes the low `n` bits. -/
def Masks (v : u32) (n : Nat) : Prop := ∀ y : u32, (y &&& v).toNat = y.toNat % 2 ^ n

theorem mask_masks {k : Nat} (hk : k < 32) : Masks (mask k) (k + 1) := by
  have hmask : ∀ k : Fin 32, (mask k).toNat = 2 ^ (k.val + 1) - 1 := by decide
  intro y
  rw [BitVec.toNat_and, hmask ⟨k, hk⟩, Nat.and_two_pow_sub_one_eq_mod]

theorem shift_toNat (y : u32) : (y >>> 1).toNat = y.toNat / 2 := by
  rw [BitVec.toNat_ushiftRight, Nat.shiftRight_eq_div_pow, pow_one]

theorem innerLoop_accept (hv : Masks v n) (h : y.toNat % 2 ^ n ≤ range.toNat) :
    innerLoop v range (count + 1) y = some (y &&& v) := by
  unfold innerLoop
  exact if_pos (by rw [BitVec.le_def, hv]; exact h)

theorem innerLoop_reject (hv : Masks v n) (h : range.toNat < y.toNat % 2 ^ n) :
    innerLoop v range (count + 1) y = innerLoop v range count (y >>> 1) := by
  rw [innerLoop]
  exact if_neg (by rw [BitVec.le_def, hv]; omega)

theorem innerLoop_le (h : innerLoop v range count y = some z) : z ≤ range := by
  induction count generalizing y with
  | zero => simp [innerLoop] at h
  | succ count ih =>
    unfold innerLoop at h
    dsimp only at h
    split at h
    · rename_i hle
      rwa [← Option.some_inj.mp h]
    · exact ih h

/-- The window after a shift keeps the bits but the lowest. -/
theorem half_window (y n : Nat) : y % 2 ^ n / 2 ≤ y / 2 % 2 ^ n := by
  rw [← Nat.mod_mul_right_div_self]
  refine Nat.div_le_div_right ?_
  calc y % 2 ^ n = y % (2 * 2 ^ n) % 2 ^ n := (Nat.mod_mod_of_dvd y (Nat.dvd_mul_left _ 2)).symm
    _ ≤ y % (2 * 2 ^ n) := Nat.mod_le _ _

/-- A window with one of its two top bits set does not lead to zero. -/
theorem innerLoop_ne_zero (hv : Masks v (n + 2)) (hrange : 2 ^ (n + 1) ≤ range.toNat)
    (hy : 2 ^ n ≤ y.toNat % 2 ^ (n + 2)) : innerLoop v range count y ≠ some 0 := by
  induction count generalizing y with
  | zero => simp [innerLoop]
  | succ count ih =>
    have hpos := Nat.two_pow_pos n
    rcases Nat.lt_or_ge range.toNat (y.toNat % 2 ^ (n + 2)) with hlt | hge
    · rw [innerLoop_reject hv hlt]
      refine ih ?_
      have hhalf := half_window y.toNat (n + 2)
      rw [shift_toNat]
      rw [pow_succ] at hrange
      omega
    · rw [innerLoop_accept hv hge]
      intro h
      have := congrArg BitVec.toNat (Option.some_inj.mp h)
      rw [hv, show (0 : u32).toNat = 0 from rfl] at this
      omega

/-- Zero comes from the first window only. -/
theorem innerLoop_zero (hv : Masks v (n + 2)) (hrange : 2 ^ (n + 1) ≤ range.toNat)
    (h : innerLoop v range count y = some 0) : y.toNat % 2 ^ (n + 2) = 0 := by
  rcases count with _ | count
  · simp [innerLoop] at h
  rcases Nat.lt_or_ge range.toNat (y.toNat % 2 ^ (n + 2)) with hlt | hge
  · have hhalf := half_window y.toNat (n + 2)
    rw [innerLoop_reject hv hlt] at h
    refine absurd h (innerLoop_ne_zero hv hrange ?_)
    rw [shift_toNat]
    rw [pow_succ] at hrange
    omega
  · rw [innerLoop_accept hv hge] at h
    rw [← hv, Option.some_inj.mp h]
    rfl

end Word

/-! ## Counting words -/

section Counting

variable {n : Nat} {v range z : u32}

/-- The number of words for which the inner loop returns `z`. -/
def wordsFor (v range : u32) (count : Nat) (z : u32) : Nat :=
  (Finset.univ.filter fun x => innerLoop v range count x = some z).card

/-- The words whose low bits are `z`. -/
def lowWords (n : Nat) (z : u32) : Finset u32 :=
  Finset.univ.filter fun x => x.toNat % 2 ^ n = z.toNat

theorem mem_lowWords {x : u32} : x ∈ lowWords n z ↔ x.toNat % 2 ^ n = z.toNat := by
  rw [lowWords, Finset.mem_filter, and_iff_right (Finset.mem_univ x)]

/-- Adding `z` goes from the words that end in zeroes to the words that end in `z`. -/
theorem card_lowWords (hn : n ≤ 32) (hz : z.toNat < 2 ^ n) :
    (lowWords n z).card = (lowWords n 0).card := by
  have hdvd : 2 ^ n ∣ 2 ^ 32 := pow_dvd_pow 2 hn
  refine (Finset.card_nbij' (· + z) (· - z) (fun x hx => ?_) (fun x hx => ?_) (fun x _ => ?_)
    fun x _ => ?_).symm
  · have hx : x.toNat % 2 ^ n = 0 := mem_lowWords.mp hx
    refine mem_lowWords.mpr ?_
    show (x + z).toNat % 2 ^ n = z.toNat
    rw [BitVec.toNat_add, Nat.mod_mod_of_dvd _ hdvd, Nat.add_mod, hx, Nat.zero_add, Nat.mod_mod,
      Nat.mod_eq_of_lt hz]
  · have hx : x.toNat % 2 ^ n = z.toNat := mem_lowWords.mp hx
    refine mem_lowWords.mpr ?_
    show (x - z).toNat % 2 ^ n = 0
    have hle : z ≤ x := by
      rw [BitVec.le_def, ← hx]
      exact Nat.mod_le _ _
    rw [BitVec.toNat_sub_of_le hle, ← hx]
    exact Nat.mod_eq_zero_of_dvd (Nat.dvd_sub_mod _)
  · exact BitVec.add_sub_cancel x z
  · exact BitVec.sub_add_cancel x z

/-- Every window is in the range. -/
theorem wordsFor_full (hv : Masks v n) (hfull : range.toNat + 1 = 2 ^ n) (count : Nat) (z : u32) :
    wordsFor v range (count + 1) z = (lowWords n z).card := by
  refine congrArg Finset.card (Finset.filter_congr fun x _ => ?_)
  have hlt := Nat.mod_lt x.toNat (Nat.two_pow_pos n)
  rw [innerLoop_accept hv (by omega), Option.some_inj, ← BitVec.toNat_inj, hv]

/-- One window, which is the word. -/
theorem wordsFor_word (hv : Masks v 32) (hz : z ≤ range) : wordsFor v range 1 z = 1 := by
  refine Finset.card_eq_one.mpr ⟨z, Finset.ext fun x => ?_⟩
  have hself : x &&& v = x := BitVec.eq_of_toNat_eq ((hv x).trans (Nat.mod_eq_of_lt x.isLt))
  rw [Finset.mem_filter, and_iff_right (Finset.mem_univ x), Finset.mem_singleton]
  unfold innerLoop
  dsimp only
  rw [hself]
  constructor
  · intro h
    split at h
    · exact Option.some_inj.mp h
    · simp [innerLoop] at h
  · rintro rfl
    rw [if_pos hz]

/-- With two windows or more, some of them not in the range, the largest number with the top bit clear
is likelier than zero: it also follows a window of ones. -/
theorem wordsFor_lt (hn : n + 2 ≤ 32) (hv : Masks v (n + 2)) (hrange : 2 ^ (n + 1) ≤ range.toNat)
    (hpart : range.toNat + 1 < 2 ^ (n + 2)) (count : Nat) :
    wordsFor v range (count + 2) 0 <
      wordsFor v range (count + 2) (BitVec.ofNat 32 (2 ^ (n + 1) - 1)) := by
  have hpow : 2 ^ (n + 2) ≤ 2 ^ 32 := Nat.pow_le_pow_right (by decide) hn
  have hdouble : 2 ^ (n + 2) = 2 * 2 ^ (n + 1) := pow_succ' 2 (n + 1)
  have hpos := Nat.two_pow_pos (n + 1)
  set z := BitVec.ofNat 32 (2 ^ (n + 1) - 1) with hz
  have hzval : z.toNat = 2 ^ (n + 1) - 1 := by
    rw [hz, BitVec.toNat_ofNat]
    exact Nat.mod_eq_of_lt (by omega)
  set ones := BitVec.ofNat 32 (2 ^ (n + 2) - 1) with hones
  have hval : ones.toNat = 2 ^ (n + 2) - 1 := by
    rw [hones, BitVec.toNat_ofNat]
    exact Nat.mod_eq_of_lt (by omega)
  have hfirst : ∀ x ∈ lowWords (n + 2) z, innerLoop v range (count + 2) x = some z := by
    intro x hx
    have hx := mem_lowWords.mp hx
    rw [innerLoop_accept hv (by omega), Option.some_inj, ← BitVec.toNat_inj, hv, hx]
  have hsecond : innerLoop v range (count + 2) ones = some z := by
    have hmod : ones.toNat % 2 ^ (n + 2) = 2 ^ (n + 2) - 1 := by
      rw [hval]
      exact Nat.mod_eq_of_lt (by omega)
    have hhalf : (ones >>> 1).toNat % 2 ^ (n + 2) = 2 ^ (n + 1) - 1 := by
      rw [shift_toNat, hval, show (2 ^ (n + 2) - 1) / 2 = 2 ^ (n + 1) - 1 by omega]
      exact Nat.mod_eq_of_lt (by omega)
    rw [innerLoop_reject hv (by omega), innerLoop_accept hv (by omega), Option.some_inj,
      ← BitVec.toNat_inj, hv, hhalf, hzval]
  calc wordsFor v range (count + 2) 0 ≤ (lowWords (n + 2) 0).card :=
        Finset.card_le_card fun x hx => mem_lowWords.mpr
          (innerLoop_zero hv hrange (Finset.mem_filter.mp hx).2)
    _ = (lowWords (n + 2) z).card := (card_lowWords hn (by omega)).symm
    _ < wordsFor v range (count + 2) z := by
        refine Finset.card_lt_card (Finset.ssubset_iff.mpr ⟨ones, fun h => ?_, fun x hx => ?_⟩)
        · have := mem_lowWords.mp h
          rw [hval, hzval, Nat.mod_eq_of_lt (by omega)] at this
          omega
        · refine Finset.mem_filter.mpr ⟨Finset.mem_univ x, ?_⟩
          rcases Finset.mem_insert.mp hx with rfl | hx
          · exact hsecond
          · exact hfirst x hx

end Counting

/-! ## Ranges -/

section Ranges

variable {low high range v x z : u32} {words : Nat → u32} {n trial available : Nat}

theorem trialLoop_some (h : trialLoop low v range available words n trial = some x) :
    ∃ z ≤ range, x = low + z := by
  induction n generalizing trial with
  | zero => simp [trialLoop] at h
  | succ n ih =>
    unfold trialLoop at h
    split at h
    · rename_i z hz
      exact ⟨z, innerLoop_le hz, (Option.some_inj.mp h).symm⟩
    · exact ih h

theorem offset_bounds (h : low < high) (hz : z ≤ high - low) : low ≤ low + z ∧ low + z ≤ high := by
  have hle : low ≤ high := BitVec.le_of_lt h
  rw [BitVec.le_def, BitVec.toNat_sub_of_le hle] at hz
  rw [BitVec.le_def] at hle
  have hhigh := high.isLt
  have hsum : (low + z).toNat = low.toNat + z.toNat := by
    rw [BitVec.toNat_add]
    exact Nat.mod_eq_of_lt (by omega)
  rw [BitVec.le_def, BitVec.le_def, hsum]
  omega

theorem range_pos (h : low < high) : 0 < (high - low).toNat := by
  rw [BitVec.toNat_sub_of_le (BitVec.le_of_lt h)]
  rw [BitVec.lt_def] at h
  omega

/-- The top bit of the range. -/
theorem bsr32_spec (h : 0 < range.toNat) :
    bsr32 range < 32 ∧ 2 ^ bsr32 range ≤ range.toNat ∧ range.toNat < 2 ^ (bsr32 range + 1) := by
  have hle := Nat.log2_self_le h.ne'
  refine ⟨?_, hle, Nat.lt_log2_self⟩
  exact (Nat.pow_lt_pow_iff_right (by decide)).mp (hle.trans_lt range.isLt)

/-- Whatever the words are, the value is in the range, and no division is by zero. -/
theorem generateUnbiased_bounds (h : low < high) (words : Nat → u32) :
    ∃ x, generateUnbiased low high words = some x ∧ low ≤ x ∧ x ≤ high := by
  have hpos := range_pos h
  obtain ⟨hbsr, -, hlt⟩ := bsr32_spec hpos
  have hne : high - low ≠ 0 := fun h0 => by
    rw [h0] at hpos
    exact absurd hpos (by decide)
  unfold generateUnbiased
  dsimp only
  rw [if_neg hne]
  cases htrial : trialLoop low (mask (bsr32 (high - low))) (high - low) (32 - bsr32 (high - low)) words
      16 0 with
  | some x =>
    obtain ⟨z, hz, rfl⟩ := trialLoop_some htrial
    exact ⟨_, rfl, offset_bounds h hz⟩
  | none =>
    have hwrap : (high - low).toNat + 1 < 2 ^ 32 := by
      by_contra hge
      have hall : (high - low).toNat = 2 ^ 32 - 1 := by
        have := (high - low).isLt
        omega
      have haccept := @innerLoop_accept _ (31 - bsr32 (high - low)) _ (high - low) (words 0)
        (mask_masks hbsr) (by
          rw [hall]
          have := Nat.mod_le (words 0).toNat (2 ^ (bsr32 (high - low) + 1))
          have := (words 0).isLt
          omega)
      rw [show 31 - bsr32 (high - low) + 1 = 32 - bsr32 (high - low) by omega] at haccept
      rw [trialLoop, haccept] at htrial
      exact absurd htrial (by simp)
    have hsucc : (high - low + 1).toNat = (high - low).toNat + 1 := by
      rw [BitVec.toNat_add, show (1 : u32).toNat = 1 from rfl]
      exact Nat.mod_eq_of_lt hwrap
    have hne1 : high - low + 1 ≠ 0 := fun h0 => by
      rw [h0, show (0 : u32).toNat = 0 from rfl] at hsucc
      omega
    dsimp only
    rw [if_neg hne1]
    refine ⟨_, rfl, offset_bounds h ?_⟩
    have := Nat.mod_lt (words 15).toNat (show 0 < (high - low).toNat + 1 by omega)
    rw [BitVec.le_def, BitVec.toNat_umod, hsucc]
    omega

/-- Every offset comes from as many words. -/
def Uniform (low high : u32) : Prop :=
  ∀ z z', z ≤ high - low → z' ≤ high - low →
    wordsFor (mask (bsr32 (high - low))) (high - low) (32 - bsr32 (high - low)) z =
      wordsFor (mask (bsr32 (high - low))) (high - low) (32 - bsr32 (high - low)) z'

theorem uniform_iff (h : low < high) :
    Uniform low high ↔ 2 ^ 31 ≤ (high - low).toNat ∨ ∃ j, (high - low).toNat + 1 = 2 ^ j := by
  have hpos := range_pos h
  unfold Uniform
  generalize high - low = range at *
  obtain ⟨hbsr, hle, hlt⟩ := bsr32_spec hpos
  have hv := mask_masks hbsr
  generalize bsr32 range = k at *
  constructor
  · intro huniform
    by_contra hnot
    rw [not_or] at hnot
    obtain ⟨hsmall, hpower⟩ := hnot
    have hpart : range.toNat + 1 < 2 ^ (k + 1) := Nat.lt_of_le_of_ne hlt fun heq => hpower ⟨_, heq⟩
    rcases k with _ | n
    · rw [pow_zero] at hle
      rw [Nat.zero_add, pow_one] at hpart
      omega
    · have hn : n + 1 < 31 :=
        (Nat.pow_lt_pow_iff_right (show 1 < 2 by decide)).mp (hle.trans_lt (Nat.lt_of_not_le hsmall))
      obtain ⟨count, hcount⟩ : ∃ c, 32 - (n + 1) = c + 2 := ⟨29 - n, by omega⟩
      have hlt := wordsFor_lt (by omega) hv hle hpart count
      rw [hcount] at huniform
      refine absurd (huniform 0 _ ?_ ?_) hlt.ne
      · rw [BitVec.le_def]
        exact Nat.zero_le _
      · rw [BitVec.le_def, BitVec.toNat_ofNat]
        exact (Nat.mod_le _ _).trans (by omega)
  · rintro (hlarge | ⟨j, hj⟩) z z' hz hz'
    · obtain rfl : k = 31 := by
        have := (Nat.pow_lt_pow_iff_right (show 1 < 2 by decide)).mp (hlarge.trans_lt hlt)
        omega
      rw [wordsFor_word hv hz, wordsFor_word hv hz']
    · obtain rfl : j = k + 1 := by
        have h1 := (Nat.pow_lt_pow_iff_right (show 1 < 2 by decide)).mp
          (hle.trans_lt (Nat.lt_of_succ_le hj.le))
        have h2 := (Nat.pow_le_pow_iff_right (show 1 < 2 by decide)).mp (hj.symm.le.trans hlt)
        omega
      rw [BitVec.le_def] at hz hz'
      rw [show 32 - k = 31 - k + 1 by omega, wordsFor_full hv hj, wordsFor_full hv hj]
      exact (card_lowWords (by omega) (by omega)).trans (card_lowWords (by omega) (by omega)).symm

/-- **Unbiased ranges.** Values are always in the range, and all as likely when there is one try to a
word, or none that fails. -/
theorem generate_unbiased (h : low < high) :
    (Uniform low high ∧
      ∀ words, ∃ x, generateUnbiased low high words = some x ∧ low ≤ x ∧ x ≤ high) ↔
    2 ^ 31 ≤ (high - low).toNat ∨ ∃ j, (high - low).toNat + 1 = 2 ^ j := by
  rw [← uniform_iff h]
  exact and_iff_left fun words => generateUnbiased_bounds h words

/-- From 1 to 4. -/
theorem generate_unbiased_example : Uniform 1 4 :=
  ((@generate_unbiased 1 4 (by decide)).mpr (.inr ⟨2, by decide⟩)).1

/-- From 0 to 2: 1 also comes from words whose low bits are ones. -/
theorem not_uniform_three : (0 : u32) < 2 ∧ ¬ Uniform 0 2 := by
  refine ⟨by decide, fun h => ?_⟩
  rcases (uniform_iff (by decide)).mp h with hlarge | ⟨j, hj⟩
  · exact absurd hlarge (by decide)
  · have hj : 3 = 2 ^ j := hj
    rcases j with _ | j
    · exact absurd hj (by decide)
    · rw [pow_succ] at hj
      omega

end Ranges

end Libcat.Crypt.IRandom
