import Libcat.Math.BigRTL

/-!
# Registers from strings

`LoadFromString` reads digits from the highest on: the register is multiplied by the base, and the digit
added. Only the multiplication is tested for overflow, and the range of lower-case letters ends at its
first; `load_from_string` says which strings are read right all the same.
-/

namespace Libcat.Math.LoadString

open Radix BigRTL

variable {build : Build}

section Model

/-- The digit that a character stands for. Characters from 128 on are in no range, with a sign or
without. -/
def digitValue (ch : u8) : Option Nat :=
  if '0'.toNat ≤ ch.toNat ∧ ch.toNat ≤ '9'.toNat then some (ch.toNat - '0'.toNat)
  else if 'A'.toNat ≤ ch.toNat ∧ ch.toNat ≤ 'Z'.toNat then some (ch.toNat - 'A'.toNat + 10)
  -- the source has this letter twice
  else if 'a'.toNat ≤ ch.toNat ∧ ch.toNat ≤ 'a'.toNat then some (ch.toNat - 'a'.toNat + 10)
  else none

/-- The loop, over the characters before the zero. -/
def loadLoop (base : Nat) : List u8 → List (Leg build) → Bool × List (Leg build)
  | [], out => (true, out)
  | ch :: chars, out =>
    match digitValue ch with
    | none => (false, out)
    | some mod =>
      if base ≤ mod then (false, out)
      else
        let r := multiplyX out (BitVec.ofNat build.legBits base)
        if r.1 ≠ 0 then (false, r.2)
        else loadLoop base chars (addX r.2 (BitVec.ofNat build.legBits mod)).2

/-- `LoadFromString`. -/
def loadFromString (build : Build) (library_legs base : Nat) (chars : List u8) :
    Bool × List (Leg build) :=
  loadLoop base chars (List.replicate library_legs 0)

end Model

/-! ## Numbers written in a base -/

/-- Digits and letters of either case. -/
def digitOf (ch : u8) : Option Nat :=
  if '0'.toNat ≤ ch.toNat ∧ ch.toNat ≤ '9'.toNat then some (ch.toNat - '0'.toNat)
  else if 'A'.toNat ≤ ch.toNat ∧ ch.toNat ≤ 'Z'.toNat then some (ch.toNat - 'A'.toNat + 10)
  else if 'a'.toNat ≤ ch.toNat ∧ ch.toNat ≤ 'z'.toNat then some (ch.toNat - 'a'.toNat + 10)
  else none

/-- Every character is a digit of the base. -/
def Written (base : Nat) (s : List u8) : Prop := ∀ ch ∈ s, ∃ d, digitOf ch = some d ∧ d < base

/-- The letters that the third range leaves out. -/
def LateLetter (ch : u8) : Prop := 'b'.toNat ≤ ch.toNat ∧ ch.toNat ≤ 'z'.toNat

/-- The number that goes on from `n`. -/
def numberFrom (base n : Nat) (s : List u8) : Nat :=
  s.foldl (fun n ch => n * base + (digitOf ch).getD 0) n

/-- The number a string writes. -/
def numberOf (base : Nat) (s : List u8) : Nat := numberFrom base 0 s

section Digits

variable {base n m : Nat} {s : List u8} {ch : u8} {d : Nat}

theorem digitValue_eq_some : digitValue ch = some d ↔ digitOf ch = some d ∧ ¬ LateLetter ch := by
  have h0 : '0'.toNat = 48 := rfl
  have h9 : '9'.toNat = 57 := rfl
  have hA : 'A'.toNat = 65 := rfl
  have hZ : 'Z'.toNat = 90 := rfl
  have ha : 'a'.toNat = 97 := rfl
  have hb : 'b'.toNat = 98 := rfl
  have hz : 'z'.toNat = 122 := rfl
  unfold digitValue digitOf LateLetter
  rw [h0, h9, hA, hZ, ha, hb, hz]
  split_ifs <;> simp only [Option.some.injEq, false_and, iff_self_and, false_iff] <;> omega

theorem numberFrom_cons (n : Nat) (ch : u8) (s : List u8) :
    numberFrom base n (ch :: s) = numberFrom base (n * base + (digitOf ch).getD 0) s := rfl

theorem numberFrom_append (n : Nat) (s t : List u8) :
    numberFrom base n (s ++ t) = numberFrom base (numberFrom base n s) t := List.foldl_append

theorem numberFrom_modEq {R : Nat} (h : n ≡ m [MOD R]) :
    numberFrom base n s ≡ numberFrom base m s [MOD R] := by
  induction s generalizing n m with
  | nil => exact h
  | cons ch s ih => exact ih ((h.mul_right base).add_right _)

theorem le_numberFrom (hbase : 0 < base) : n ≤ numberFrom base n s := by
  induction s generalizing n with
  | nil => exact le_rfl
  | cons ch s ih =>
    have hmul := Nat.le_mul_of_pos_right n hbase
    have := @ih (n * base + (digitOf ch).getD 0)
    rw [numberFrom_cons]
    omega

/-- A number is no less than its prefixes with a place more. -/
theorem mul_le_numberOf (hbase : 0 < base) (p : List u8) (ch : u8) (rest : List u8) :
    numberOf base p * base ≤ numberOf base (p ++ ch :: rest) := by
  have := le_numberFrom (n := numberOf base p * base + (digitOf ch).getD 0) (s := rest) hbase
  unfold numberOf at *
  rw [numberFrom_append, numberFrom_cons]
  omega

end Digits

/-! ## The loop -/

section Loop

variable {base : Nat} {s : List u8} {out : List (Leg build)}

/-- The sizes of registers. -/
def size (build : Build) (legs : Nat) : Nat := (2 ^ build.legBits) ^ legs

theorem value_lt_size (l : List (Leg build)) : value l < size build l.length := value_lt l

/-- No multiplication overflows, with digits added modulo the size. -/
def Multiplies (base R n : Nat) (s : List u8) : Prop :=
  ∀ p ch rest, s = p ++ ch :: rest → numberFrom base n p % R * base < R

theorem multiplies_cons {R n : Nat} {ch : u8} (hn : n < R) :
    Multiplies base R n (ch :: s) ↔
      n * base < R ∧ Multiplies base R ((n * base + (digitOf ch).getD 0) % R) s := by
  have hnext : ∀ p, numberFrom base ((n * base + (digitOf ch).getD 0) % R) p % R =
      numberFrom base n (ch :: p) % R := fun p => numberFrom_modEq (Nat.mod_modEq _ _)
  constructor
  · intro h
    refine ⟨?_, fun p c rest hs => ?_⟩
    · have h0 := h [] ch s rfl
      rwa [numberFrom, List.foldl_nil, Nat.mod_eq_of_lt hn] at h0
    · rw [hnext]
      exact h (ch :: p) c rest (by rw [hs]; rfl)
  · rintro ⟨h0, h⟩ p c rest hs
    rcases p with _ | ⟨c', p⟩
    · rwa [numberFrom, List.foldl_nil, Nat.mod_eq_of_lt hn]
    · obtain ⟨rfl, hrest⟩ := List.cons.inj hs
      rw [← hnext]
      exact h p c rest hrest

theorem ofNat_toNat {n : Nat} (h : n ≤ 36) : (BitVec.ofNat build.legBits n).toNat = n := by
  have hbits := Nat.pow_le_pow_right (show 0 < 2 by decide) (Build.legBits_ge build)
  exact Nat.mod_eq_of_lt (by omega)

/-- One digit, with its carry lost. -/
theorem value_digit {mod : Nat} (hbase : base ≤ 36) (hmod : mod < base) (hout : out ≠ []) :
    ((multiplyX out (BitVec.ofNat build.legBits base)).1 ≠ 0 ↔
        size build out.length ≤ value out * base) ∧
      (addX (multiplyX out (BitVec.ofNat build.legBits base)).2 (BitVec.ofNat build.legBits mod)).2.length =
        out.length ∧
      (value out * base < size build out.length →
        value (addX (multiplyX out (BitVec.ofNat build.legBits base)).2
            (BitVec.ofNat build.legBits mod)).2 =
          (value out * base + mod) % size build out.length) := by
  obtain ⟨hlen, hval⟩ := multiplyX_spec hout (BitVec.ofNat build.legBits base)
  rw [ofNat_toNat hbase, pow_mul] at hval
  set r := multiplyX out (BitVec.ofNat build.legBits base) with hr
  have hval : value r.2 + size build out.length * r.1.toNat = value out * base := by
    unfold size
    exact_mod_cast hval
  have hlow := value_lt_size r.2
  rw [hlen] at hlow
  have hne : r.2 ≠ [] := List.ne_nil_of_length_pos (hlen ▸ List.length_pos_of_ne_nil hout)
  obtain ⟨hlen', -, hsum⟩ := addX_spec hne (BitVec.ofNat build.legBits mod)
  rw [ofNat_toNat (by omega), hlen, pow_mul] at hsum
  have hsum : value (addX r.2 (BitVec.ofNat build.legBits mod)).2 +
      size build out.length * (addX r.2 (BitVec.ofNat build.legBits mod)).1.toNat =
        value r.2 + mod := by
    unfold size
    exact_mod_cast hsum
  have hlow' := value_lt_size (addX r.2 (BitVec.ofNat build.legBits mod)).2
  rw [hlen', hlen] at hlow'
  have hover : r.1 ≠ 0 ↔ size build out.length ≤ value out * base := by
    rw [ne_eq, ← BitVec.toNat_inj, show (0 : Leg build).toNat = 0 from BitVec.toNat_ofNat 0 _]
    constructor
    · intro hne
      have := Nat.le_mul_of_pos_right (size build out.length) (Nat.pos_of_ne_zero hne)
      omega
    · intro hle h0
      rw [h0] at hval
      omega
  refine ⟨hover, hlen'.trans hlen, fun hlt => ?_⟩
  have h0 : r.1 = 0 := by
    by_contra h
    exact absurd (hover.mp h) (Nat.not_le.mpr hlt)
  rw [h0, show (0 : Leg build).toNat = 0 from BitVec.toNat_ofNat 0 _, Nat.mul_zero] at hval
  rw [← hval, Nat.add_zero, ← hsum, Nat.add_mul_mod_self_left, Nat.mod_eq_of_lt hlow']

theorem loadLoop_spec (hbase : base ≤ 36) (hout : out ≠ []) :
    ((loadLoop base s out).1 = true ↔
      (Written base s ∧ ∀ ch ∈ s, ¬ LateLetter ch) ∧
        Multiplies base (size build out.length) (value out) s) ∧
    ((loadLoop base s out).1 = true →
      value (loadLoop base s out).2 = numberFrom base (value out) s % size build out.length) := by
  induction s generalizing out with
  | nil =>
    have hlt := Nat.mod_eq_of_lt (value_lt_size out)
    exact ⟨iff_of_true rfl ⟨⟨by simp [Written], by simp⟩, fun p ch rest h => by simp at h⟩,
      fun _ => hlt.symm⟩
  | cons ch s ih =>
    rw [multiplies_cons (value_lt_size out)]
    unfold loadLoop
    cases hdigit : digitValue ch with
    | none =>
      refine ⟨iff_of_false Bool.false_ne_true ?_, fun h => absurd h Bool.false_ne_true⟩
      rintro ⟨⟨hwritten, hletters⟩, -⟩
      obtain ⟨d, hd, -⟩ := hwritten ch (List.mem_cons_self ..)
      rw [digitValue_eq_some.mpr ⟨hd, hletters ch (List.mem_cons_self ..)⟩] at hdigit
      exact absurd hdigit (by simp)
    | some mod =>
      obtain ⟨hof, hletter⟩ := digitValue_eq_some.mp hdigit
      dsimp only
      by_cases hmod : base ≤ mod
      · rw [if_pos hmod]
        refine ⟨iff_of_false Bool.false_ne_true ?_, fun h => absurd h Bool.false_ne_true⟩
        rintro ⟨⟨hwritten, -⟩, -⟩
        obtain ⟨d, hd, hlt⟩ := hwritten ch (List.mem_cons_self ..)
        rw [hof] at hd
        have := Option.some_inj.mp hd
        omega
      · rw [if_neg hmod]
        obtain ⟨hover, hlen, hval⟩ := value_digit hbase (Nat.lt_of_not_le hmod) hout
        by_cases hcarry : (multiplyX out (BitVec.ofNat build.legBits base)).1 ≠ 0
        · rw [if_pos hcarry]
          refine ⟨iff_of_false Bool.false_ne_true ?_, fun h => absurd h Bool.false_ne_true⟩
          rintro ⟨-, hlt, -⟩
          exact absurd (hover.mp hcarry) (Nat.not_le.mpr hlt)
        · rw [if_neg hcarry]
          have hlt : value out * base < size build out.length :=
            Nat.lt_of_not_le fun h => hcarry (hover.mpr h)
          set next := (addX (multiplyX out (BitVec.ofNat build.legBits base)).2
            (BitVec.ofNat build.legBits mod)).2 with hnext
          obtain ⟨hiff, hvalue⟩ := @ih next
            (List.ne_nil_of_length_pos (hlen ▸ List.length_pos_of_ne_nil hout))
          rw [hlen, hval hlt] at hiff hvalue
          rw [hof, Option.getD_some]
          refine ⟨hiff.trans ⟨?_, ?_⟩, fun h => (hvalue h).trans ?_⟩
          · rintro ⟨⟨hwritten, hletters⟩, hmul⟩
            refine ⟨⟨?_, ?_⟩, hlt, hmul⟩
            · exact List.forall_mem_cons.mpr ⟨⟨mod, hof, Nat.lt_of_not_le hmod⟩, hwritten⟩
            · exact List.forall_mem_cons.mpr ⟨hletter, hletters⟩
          · rintro ⟨⟨hwritten, hletters⟩, -, hmul⟩
            exact ⟨⟨(List.forall_mem_cons.mp hwritten).2, (List.forall_mem_cons.mp hletters).2⟩, hmul⟩
          · rw [numberFrom_cons, hof, Option.getD_some]
            exact numberFrom_modEq (Nat.mod_modEq _ _)

end Loop

/-! ## The strings that are read right -/

section Strings

variable {base L : Nat} {s : List u8}

theorem loadFromString_spec (build : Build) (hL : 0 < L) (hbase : base ≤ 36) (s : List u8) :
    ((loadFromString build L base s).1 = true ↔
      (Written base s ∧ ∀ ch ∈ s, ¬ LateLetter ch) ∧ Multiplies base (size build L) 0 s) ∧
    ((loadFromString build L base s).1 = true →
      value (loadFromString build L base s).2 = numberOf base s % size build L) := by
  have hzero : value (List.replicate L (0 : Leg build)) = 0 :=
    value_eq_zero.mpr fun _ hx => List.eq_of_mem_replicate hx
  have hspec := @loadLoop_spec build base s (List.replicate L 0) hbase
    (List.ne_nil_of_length_pos (by simpa using hL))
  rwa [hzero, List.length_replicate] at hspec

/-- A number below the size has no prefix that overflows. -/
theorem multiplies_of_lt {R : Nat} (hbase : 0 < base) (h : numberOf base s < R) :
    Multiplies base R 0 s := by
  rintro p ch rest rfl
  have hle := mul_le_numberOf hbase p ch rest
  have hmod : numberFrom base 0 p % R ≤ numberOf base p := Nat.mod_le _ _
  exact ((Nat.mul_le_mul_right base hmod).trans hle).trans_lt h

/-- **Strings.** A string is read as it should be when a character is no digit at all, when the number
fits and has no letter after `a` in lower case, and when a number that does not fit has such a letter or
a prefix that overflows in a multiplication. -/
theorem load_from_string (build : Build) (hL : 0 < L) (hbase : 2 ≤ base ∧ base ≤ 36) (s : List u8) :
    (((loadFromString build L base s).1 = true ↔
        Written base s ∧ numberOf base s < size build L) ∧
      ((loadFromString build L base s).1 = true →
        value (loadFromString build L base s).2 = numberOf base s)) ↔
    ¬ Written base s ∨
      (numberOf base s < size build L ∧ ∀ ch ∈ s, ¬ LateLetter ch) ∨
      (size build L ≤ numberOf base s ∧ ((∃ ch ∈ s, LateLetter ch) ∨
        ∃ p ch rest, s = p ++ ch :: rest ∧
          size build L ≤ numberOf base p % size build L * base)) := by
  obtain ⟨hiff, hval⟩ := loadFromString_spec build hL hbase.2 s
  by_cases hwritten : Written base s
  · rcases Nat.lt_or_ge (numberOf base s) (size build L) with hlt | hge
    · have hmul := multiplies_of_lt (by omega) hlt
      rw [Nat.mod_eq_of_lt hlt] at hval
      constructor
      · rintro ⟨hright, -⟩
        exact .inr (.inl ⟨hlt, (hiff.mp (hright.mpr ⟨hwritten, hlt⟩)).1.2⟩)
      · rintro (h | ⟨-, hletters⟩ | ⟨h, -⟩)
        · exact absurd hwritten h
        · exact ⟨iff_of_true (hiff.mpr ⟨⟨hwritten, hletters⟩, hmul⟩) ⟨hwritten, hlt⟩, hval⟩
        · exact absurd hlt (Nat.not_lt.mpr h)
    · have hfalse : ((loadFromString build L base s).1 = true ↔
          Written base s ∧ numberOf base s < size build L) ↔
          ¬ (loadFromString build L base s).1 = true :=
        ⟨fun h ht => absurd (h.mp ht).2 (Nat.not_lt.mpr hge),
          fun h => iff_of_false h fun hs => absurd hs.2 (Nat.not_lt.mpr hge)⟩
      have hnot : ¬ (loadFromString build L base s).1 = true ↔
          (∃ ch ∈ s, LateLetter ch) ∨ ∃ p ch rest, s = p ++ ch :: rest ∧
            size build L ≤ numberOf base p % size build L * base := by
        rw [hiff]
        unfold Multiplies numberOf
        constructor
        · intro h
          by_contra hnone
          rw [not_or] at hnone
          refine h ⟨⟨hwritten, fun ch hch hl => hnone.1 ⟨ch, hch, hl⟩⟩, fun p ch rest hs => ?_⟩
          exact Nat.lt_of_not_le fun hle => hnone.2 ⟨p, ch, rest, hs, hle⟩
        · rintro (⟨ch, hch, hl⟩ | ⟨p, ch, rest, hs, hle⟩) ⟨⟨-, hletters⟩, hmul⟩
          · exact hletters ch hch hl
          · exact absurd (hmul p ch rest hs) (Nat.not_lt.mpr hle)
      constructor
      · rintro ⟨hright, -⟩
        exact .inr (.inr ⟨hge, hnot.mp (hfalse.mp hright)⟩)
      · rintro (h | ⟨h, -⟩ | ⟨-, h⟩)
        · exact absurd hwritten h
        · exact absurd h (Nat.not_lt.mpr hge)
        · exact ⟨hfalse.mpr (hnot.mpr h), fun ht => absurd ht (hnot.mpr h)⟩
  · refine iff_of_true ⟨iff_of_false (fun h => hwritten (hiff.mp h).1.1) fun h => hwritten h.1, ?_⟩
      (.inl hwritten)
    exact fun h => absurd (hiff.mp h).1.1 hwritten

/-- `FF` in base 16. -/
theorem load_from_string_example :
    value (loadFromString ⟨false, true, false⟩ 1 16 [70, 70]).2 = 255 := by
  have hright := (@load_from_string 16 1 ⟨false, true, false⟩ (by decide) (by decide)
    [70, 70]).mpr (.inr (.inl ⟨by decide, by unfold LateLetter; decide⟩))
  exact (hright.2 (by decide)).trans (by decide)

/-- `b` in base 16 is refused, and `4294967296` in base 10 is read into 32 bits as `0`. -/
theorem load_from_string_wrong :
    ¬ ((loadFromString ⟨false, true, false⟩ 1 16 [98]).1 = true ↔
        Written 16 [98] ∧ numberOf 16 [98] < size ⟨false, true, false⟩ 1) ∧
      ¬ ((loadFromString ⟨false, true, false⟩ 1 10
            [52, 50, 57, 52, 57, 54, 55, 50, 57, 54]).1 = true ↔
          Written 10 [52, 50, 57, 52, 57, 54, 55, 50, 57, 54] ∧
            numberOf 10 [52, 50, 57, 52, 57, 54, 55, 50, 57, 54] < size ⟨false, true, false⟩ 1) := by
  constructor
  · intro h
    exact absurd (h.mpr ⟨by simp [Written]; decide, by decide⟩) (by decide)
  · intro h
    exact absurd (h.mp (by decide)).2 (by decide)

end Strings

end Libcat.Math.LoadString
