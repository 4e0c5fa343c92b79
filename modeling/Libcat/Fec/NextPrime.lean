import Mathlib.Data.Nat.Prime.Basic
import Mathlib.Tactic

/-!
# NextPrime16

The smallest prime from a block count on, by trial division. A table leads from a number to the next
one without the factors 2, 3, 5 and 7; the bound for the trial divisors follows the candidates up.
-/

namespace Libcat.Fec.NextPrime

section Model

def SQQ_TABLE : List Nat := [0, 16, 22, 27, 32, 35, 39, 42, 45, 48, 50, 53, 55, 57, 59, 61, 64, 65, 67, 69, 71, 73, 75, 76,
  78, 80, 81, 83, 84, 86, 87, 89, 90, 91, 93, 94, 96, 97, 98, 99, 101, 102, 103, 104, 106, 107,
  108, 109, 110, 112, 113, 114, 115, 116, 117, 118, 119, 120, 121, 122, 123, 124, 125, 126, 128,
  128, 129, 130, 131, 132, 133, 134, 135, 136, 137, 138, 139, 140, 141, 142, 143, 144, 144, 145,
  146, 147, 148, 149, 150, 150, 151, 152, 153, 154, 155, 155, 156, 157, 158, 159, 160, 160, 161,
  162, 163, 163, 164, 165, 166, 167, 167, 168, 169, 170, 170, 171, 172, 173, 173, 174, 175, 176,
  176, 177, 178, 178, 179, 180, 181, 181, 182, 183, 183, 184, 185, 185, 186, 187, 187, 188, 189,
  189, 190, 191, 192, 192, 193, 193, 194, 195, 195, 196, 197, 197, 198, 199, 199, 200, 201, 201,
  202, 203, 203, 204, 204, 205, 206, 206, 207, 208, 208, 209, 209, 210, 211, 211, 212, 212, 213,
  214, 214, 215, 215, 216, 217, 217, 218, 218, 219, 219, 220, 221, 221, 222, 222, 223, 224, 224,
  225, 225, 226, 226, 227, 227, 228, 229, 229, 230, 230, 231, 231, 232, 232, 233, 234, 234, 235,
  235, 236, 236, 237, 237, 238, 238, 239, 240, 240, 241, 241, 242, 242, 243, 243, 244, 244, 245,
  245, 246, 246, 247, 247, 248, 248, 249, 249, 250, 250, 251, 251, 252, 252, 253, 253, 254, 254,
  255]

def SIEVE_TABLE_SIZE : Nat := 2 * 3 * 5 * 7

def SIEVE_TABLE : List Nat := [1, 0, 9, 8, 7, 6, 5, 4, 3, 2, 1, 0, 1, 0, 3, 2, 1, 0, 1, 0, 3, 2, 1, 0, 5, 4, 3, 2, 1, 0, 1, 0,
  5, 4, 3, 2, 1, 0, 3, 2, 1, 0, 1, 0, 3, 2, 1, 0, 5, 4, 3, 2, 1, 0, 5, 4, 3, 2, 1, 0, 1, 0, 5, 4,
  3, 2, 1, 0, 3, 2, 1, 0, 1, 0, 5, 4, 3, 2, 1, 0, 3, 2, 1, 0, 5, 4, 3, 2, 1, 0, 7, 6, 5, 4, 3, 2,
  1, 0, 3, 2, 1, 0, 1, 0, 3, 2, 1, 0, 1, 0, 3, 2, 1, 0, 7, 6, 5, 4, 3, 2, 1, 0, 5, 4, 3, 2, 1, 0,
  3, 2, 1, 0, 5, 4, 3, 2, 1, 0, 1, 0, 3, 2, 1, 0, 5, 4, 3, 2, 1, 0, 1, 0, 5, 4, 3, 2, 1, 0, 5, 4,
  3, 2, 1, 0, 3, 2, 1, 0, 1, 0, 3, 2, 1, 0, 5, 4, 3, 2, 1, 0, 1, 0, 5, 4, 3, 2, 1, 0, 3, 2, 1, 0,
  1, 0, 3, 2, 1, 0, 1, 0, 9, 8, 7, 6, 5, 4, 3, 2, 1, 0]

/-- With the number at the end that stops every search. -/
def PRIMES_UNDER_256 : List Nat := [11, 13, 17, 19, 23, 29, 31, 37, 41, 43, 47, 53, 59, 61, 67, 71, 73, 79, 83, 89, 97, 101, 103,
  107, 109, 113, 127, 131, 137, 139, 149, 151, 157, 163, 167, 173, 179, 181, 191, 193, 197, 199,
  211, 223, 227, 229, 233, 239, 241, 251, 32767]

/-- `SquareRoot16`. -/
def squareRoot16 (x : Nat) : Nat :=
  if 0x100 ≤ x then
    let r :=
      if 0x1000 ≤ x then
        if 0x4000 ≤ x then SQQ_TABLE.getD (x >>> 8) 0 + 1
        else SQQ_TABLE.getD (x >>> 6) 0 >>> 1 + 1
      else if 0x400 ≤ x then SQQ_TABLE.getD (x >>> 4) 0 >>> 2 + 1
      else SQQ_TABLE.getD (x >>> 2) 0 >>> 3 + 1
    if r * r > x then r - 1 else r
  else SQQ_TABLE.getD x 0 >>> 4

/-- The search of the trial divisors: `n` is prime, or has a factor. -/
def trial (n p_max : Nat) : List Nat → Bool
  | [] => true
  | p :: primes =>
    if p > p_max then true
    else if n % p = 0 then false
    else trial n p_max primes

/-- The loop over the candidates. -/
def nextLoop : Nat → Nat → Nat → Nat → Option Nat
  | 0, _, _, _ => none
  | fuel + 1, offset, n, p_max =>
    if trial n p_max PRIMES_UNDER_256 then some n
    else
      let offset := if offset ≥ SIEVE_TABLE_SIZE then offset - SIEVE_TABLE_SIZE else offset
      let next := SIEVE_TABLE.getD offset 0
      let n := (n + next + 1) % 0x10000
      nextLoop fuel (offset + next + 1) n (if p_max * p_max < n then p_max + 1 else p_max)

/-- `NextPrime16`. -/
def nextPrime16 (fuel n : Nat) : Option Nat :=
  match n with
  | 0 | 1 => some 1
  | 2 => some 2
  | 3 => some 3
  | 4 | 5 => some 5
  | 6 | 7 => some 7
  | n =>
    let offset := n % SIEVE_TABLE_SIZE
    let next := SIEVE_TABLE.getD offset 0
    let n := (n + next) % 0x10000
    nextLoop fuel (offset + next + 1) n (squareRoot16 n)

end Model

section Spec

variable {n p_max : Nat}

/-- A check of a table, entry by entry. -/
theorem table_check {l : List Nat} {f : Nat → Nat → Bool}
    (h : l.zipIdx.all (fun x => f x.1 x.2) = true) {k : Nat} (hk : k < l.length) :
    f (l.getD k 0) k = true := by
  have hmem : (l.getD k 0, k) ∈ l.zipIdx := by
    rw [List.mem_zipIdx_iff_getElem?, List.getD_eq_getElem?_getD, List.getElem?_eq_getElem hk]
    rfl
  exact List.all_eq_true.mp h _ hmem

/-- The table has the distance to the next number prime to 210, which is in the same block. -/
theorem sieve_table : ∀ o < 210, o + SIEVE_TABLE.getD o 0 < 210 ∧ SIEVE_TABLE.getD o 0 ≤ 9 ∧
    Nat.Coprime (o + SIEVE_TABLE.getD o 0) 210 ∧
    ∀ i < SIEVE_TABLE.getD o 0, ¬Nat.Coprime (o + i) 210 := fun o ho =>
  have hlen : SIEVE_TABLE.length = 210 := by decide +kernel
  of_decide_eq_true (table_check (l := SIEVE_TABLE)
    (f := fun t o => decide (o + t < 210 ∧ t ≤ 9 ∧ Nat.Coprime (o + t) 210 ∧
      ∀ i < t, ¬Nat.Coprime (o + i) 210)) (by decide +kernel) (hlen.symm ▸ ho))

/-- The roots of the table are off by less than one, after the correction. -/
theorem sqq_table : ∀ k < 256,
    (64 ≤ k → SQQ_TABLE.getD k 0 ^ 2 ≤ 256 * k ∧ 256 * k + 255 < (SQQ_TABLE.getD k 0 + 2) ^ 2) ∧
    (64 ≤ k → (SQQ_TABLE.getD k 0 >>> 1) ^ 2 ≤ 64 * k ∧
      64 * k + 63 < (SQQ_TABLE.getD k 0 >>> 1 + 2) ^ 2) ∧
    (64 ≤ k → (SQQ_TABLE.getD k 0 >>> 2) ^ 2 ≤ 16 * k ∧
      16 * k + 15 < (SQQ_TABLE.getD k 0 >>> 2 + 2) ^ 2) ∧
    (64 ≤ k → (SQQ_TABLE.getD k 0 >>> 3) ^ 2 ≤ 4 * k ∧
      4 * k + 3 < (SQQ_TABLE.getD k 0 >>> 3 + 2) ^ 2) ∧
    (SQQ_TABLE.getD k 0 >>> 4) ^ 2 ≤ k ∧ k < (SQQ_TABLE.getD k 0 >>> 4 + 1) ^ 2 := fun k hk =>
  have hlen : SQQ_TABLE.length = 256 := by decide +kernel
  of_decide_eq_true (table_check (l := SQQ_TABLE)
    (f := fun t k => decide (
      (64 ≤ k → t ^ 2 ≤ 256 * k ∧ 256 * k + 255 < (t + 2) ^ 2) ∧
      (64 ≤ k → (t >>> 1) ^ 2 ≤ 64 * k ∧ 64 * k + 63 < (t >>> 1 + 2) ^ 2) ∧
      (64 ≤ k → (t >>> 2) ^ 2 ≤ 16 * k ∧ 16 * k + 15 < (t >>> 2 + 2) ^ 2) ∧
      (64 ≤ k → (t >>> 3) ^ 2 ≤ 4 * k ∧ 4 * k + 3 < (t >>> 3 + 2) ^ 2) ∧
      (t >>> 4) ^ 2 ≤ k ∧ k < (t >>> 4 + 1) ^ 2)) (by decide +kernel) (hlen.symm ▸ hk))

/-- The rounding step. -/
theorem corrected_root {x r : Nat} (hlo : r ^ 2 ≤ x) (hhi : x < (r + 2) ^ 2) :
    let s := if (r + 1) * (r + 1) > x then r + 1 - 1 else r + 1
    s ^ 2 ≤ x ∧ x < (s + 1) ^ 2 := by
  intro s
  by_cases h : (r + 1) * (r + 1) > x
  · have hs : s = r := if_pos h
    rw [hs, pow_two (r + 1)]
    exact ⟨hlo, h⟩
  · have hs : s = r + 1 := if_neg h
    rw [hs, pow_two (r + 1)]
    exact ⟨Nat.not_lt.mp h, hhi⟩

/-- `SquareRoot16` is the integer square root. -/
theorem squareRoot16_spec {x : Nat} (hx : x < 0x10000) :
    squareRoot16 x ^ 2 ≤ x ∧ x < (squareRoot16 x + 1) ^ 2 := by
  have hdiv : ∀ s, x >>> s = x / 2 ^ s := Nat.shiftRight_eq_div_pow x
  unfold squareRoot16
  by_cases hlow : 0x100 ≤ x
  · rw [if_pos hlow]
    by_cases h1000 : 0x1000 ≤ x
    · by_cases h4000 : 0x4000 ≤ x
      · obtain ⟨hlo, hhi⟩ := (sqq_table (x >>> 8) (by rw [hdiv]; omega)).1 (by rw [hdiv]; omega)
        rw [hdiv] at hlo hhi
        simp only [if_pos h1000, if_pos h4000, hdiv]
        exact corrected_root (by omega) (by omega)
      · obtain ⟨hlo, hhi⟩ := (sqq_table (x >>> 6) (by rw [hdiv]; omega)).2.1 (by rw [hdiv]; omega)
        rw [hdiv] at hlo hhi
        simp only [if_pos h1000, if_neg h4000, hdiv]
        exact corrected_root (by omega) (by omega)
    · by_cases h400 : 0x400 ≤ x
      · obtain ⟨hlo, hhi⟩ := (sqq_table (x >>> 4) (by rw [hdiv]; omega)).2.2.1 (by rw [hdiv]; omega)
        rw [hdiv] at hlo hhi
        simp only [if_neg h1000, if_pos h400, hdiv]
        exact corrected_root (by omega) (by omega)
      · obtain ⟨hlo, hhi⟩ := (sqq_table (x >>> 2) (by rw [hdiv]; omega)).2.2.2.1 (by rw [hdiv]; omega)
        rw [hdiv] at hlo hhi
        simp only [if_neg h1000, if_neg h400, hdiv]
        exact corrected_root (by omega) (by omega)
  · rw [if_neg hlow]
    exact (sqq_table x (by omega)).2.2.2.2

/-- Every prime below 256 divides 210 or is on the list. -/
theorem mem_primes {q : Nat} (hq : q.Prime) (hlt : q < 256) : q ∣ 210 ∨ q ∈ PRIMES_UNDER_256 := by
  -- what is not on the list has one of the first prime factors
  have hall : (List.range 256).all (fun q => Nat.ble q 1 ||
      [2, 3, 5, 7, 11, 13].any (fun d => Nat.beq (q % d) 0 && !Nat.beq q d) ||
      Nat.beq (210 % q) 0 || PRIMES_UNDER_256.any (Nat.beq q)) = true := by decide +kernel
  have hcheck := List.all_eq_true.mp hall q (List.mem_range.mpr hlt)
  simp only [Bool.or_eq_true, Nat.ble_eq, Nat.beq_eq, List.any_eq_true, Bool.and_eq_true,
    Bool.not_eq_true', or_assoc] at hcheck
  rcases hcheck with hone | ⟨d, hd, hmod, hne⟩ | hdvd | ⟨p, hp, rfl⟩
  · exact absurd hone (Nat.not_le.mpr hq.one_lt)
  · have hd1 : d ≠ 1 := by
      rintro rfl
      simp at hd
    have hqd := ((Nat.dvd_prime hq).mp (Nat.dvd_of_mod_eq_zero hmod)).resolve_left hd1
    rw [hqd, Nat.beq_refl] at hne
    exact absurd hne (by decide)
  · exact .inl (Nat.dvd_of_mod_eq_zero hdvd)
  · exact .inr hp

theorem trial_accepts {primes : List Nat} (hsorted : primes.Pairwise (· < ·))
    (h : trial n p_max primes = true) : ∀ p ∈ primes, p ≤ p_max → ¬p ∣ n := by
  induction primes with
  | nil => exact fun p hp => absurd hp List.not_mem_nil
  | cons q primes ih =>
    obtain ⟨hhead, htail⟩ := List.pairwise_cons.mp hsorted
    unfold trial at h
    by_cases hq : q > p_max
    · rintro p hp hle -
      rcases List.mem_cons.mp hp with rfl | hp
      · omega
      · have := hhead p hp
        omega
    · rw [if_neg hq] at h
      by_cases hdvd : n % q = 0
      · rw [if_pos hdvd] at h
        exact absurd h Bool.false_ne_true
      · rw [if_neg hdvd] at h
        rintro p hp hle hpn
        rcases List.mem_cons.mp hp with rfl | hp
        · exact hdvd (Nat.mod_eq_zero_of_dvd hpn)
        · exact ih htail h p hp hle hpn

theorem trial_rejects {primes : List Nat} (h : trial n p_max primes = false) :
    ∃ p ∈ primes, p ≤ p_max ∧ p ∣ n := by
  induction primes with
  | nil => exact absurd h.symm Bool.false_ne_true
  | cons q primes ih =>
    unfold trial at h
    by_cases hq : q > p_max
    · rw [if_pos hq] at h
      exact absurd h.symm Bool.false_ne_true
    · rw [if_neg hq] at h
      by_cases hdvd : n % q = 0
      · exact ⟨q, List.mem_cons_self, Nat.not_lt.mp hq, Nat.dvd_of_mod_eq_zero hdvd⟩
      · rw [if_neg hdvd] at h
        obtain ⟨p, hp, hle, hpn⟩ := ih h
        exact ⟨p, List.mem_cons_of_mem _ hp, hle, hpn⟩

/-- A candidate of the loop: without the factors of 210, the trial divisors up to its root. -/
structure Candidate (offset n p_max : Nat) : Prop where
  ge : 8 ≤ n
  le : n ≤ 64007
  coprime : Nat.Coprime n 210
  offset_eq : offset = n % 210 + 1
  root : n < (p_max + 1) ^ 2
  lt : p_max < n
  max_le : p_max ≤ 253

variable {offset : Nat}

theorem Candidate.prime (h : Candidate offset n p_max)
    (htrial : trial n p_max PRIMES_UNDER_256 = true) : n.Prime := by
  by_contra hn
  have hge := h.ge
  have hfac := Nat.minFac_prime (show n ≠ 1 by omega)
  have hsq := Nat.minFac_sq_le_self (show 0 < n by omega) hn
  have hle : n.minFac ≤ p_max := Nat.lt_succ_iff.mp (lt_of_pow_lt_pow_left₀ 2 (Nat.zero_le _)
    (hsq.trans_lt h.root))
  rcases mem_primes hfac (by have := h.max_le; omega) with hsmall | hmem
  · have hone := Nat.dvd_gcd (Nat.minFac_dvd n) hsmall
    rw [h.coprime] at hone
    exact hfac.one_lt.ne' (Nat.dvd_one.mp hone)
  · exact trial_accepts (by decide) htrial _ hmem hle (Nat.minFac_dvd n)

/-- A prime candidate is not rejected. -/
theorem Candidate.accepted (h : Candidate offset n p_max) (hn : n.Prime) :
    trial n p_max PRIMES_UNDER_256 = true := by
  by_contra hfalse
  obtain ⟨p, hp, hle, hdvd⟩ := trial_rejects (Bool.not_eq_true _ ▸ hfalse)
  have hone : p ≠ 1 := by
    rintro rfl
    revert hp
    decide
  have := ((Nat.dvd_prime hn).mp hdvd).resolve_left hone
  have := h.lt
  omega

/-- The next candidate from `m` on does not pass a number prime to 210. -/
theorem next_candidate {m top : Nat} (htop : Nat.Coprime top 210) (hm : m ≤ top) :
    Nat.Coprime (m + SIEVE_TABLE.getD (m % 210) 0) 210 ∧
      (m + SIEVE_TABLE.getD (m % 210) 0) % 210 = m % 210 + SIEVE_TABLE.getD (m % 210) 0 ∧
      m + SIEVE_TABLE.getD (m % 210) 0 ≤ top ∧ SIEVE_TABLE.getD (m % 210) 0 ≤ 9 := by
  obtain ⟨hlt, hnine, hcop, hskip⟩ := sieve_table (m % 210) (Nat.mod_lt _ (by omega))
  have hmod : (m + SIEVE_TABLE.getD (m % 210) 0) % 210 = m % 210 + SIEVE_TABLE.getD (m % 210) 0 := by
    omega
  refine ⟨?_, hmod, ?_, hnine⟩
  · have hmodEq : m + SIEVE_TABLE.getD (m % 210) 0 ≡ m % 210 + SIEVE_TABLE.getD (m % 210) 0
        [MOD 210] := (Nat.mod_modEq m 210).symm.add_right _
    exact hmodEq.gcd_eq.trans hcop
  · by_contra hgt
    apply hskip (top - m) (by omega)
    have hmodEq : m % 210 + (top - m) ≡ top [MOD 210] := by
      have := (Nat.mod_modEq m 210).add_right (top - m)
      rwa [Nat.add_sub_cancel' hm] at this
    exact hmodEq.gcd_eq.trans htop

/-- Of the offset only what it is modulo the table is used. -/
theorem offset_wraps (n : Nat) : (if n % 210 + 1 ≥ SIEVE_TABLE_SIZE
    then n % 210 + 1 - SIEVE_TABLE_SIZE else n % 210 + 1) = (n + 1) % 210 := by
  rw [show SIEVE_TABLE_SIZE = 210 from rfl]
  split <;> omega

theorem Candidate.next (h : Candidate offset n p_max)
    (htrial : ¬trial n p_max PRIMES_UNDER_256 = true) :
    ∃ next, SIEVE_TABLE.getD (if offset ≥ SIEVE_TABLE_SIZE then offset - SIEVE_TABLE_SIZE else offset) 0 =
        next ∧ (n + next + 1) % 0x10000 = n + next + 1 ∧
      Candidate ((if offset ≥ SIEVE_TABLE_SIZE then offset - SIEVE_TABLE_SIZE else offset) + next + 1)
        (n + next + 1) (if p_max * p_max < n + next + 1 then p_max + 1 else p_max) := by
  have hle := h.le
  have hge := h.ge
  have hmax := h.max_le
  have hlt := h.lt
  have hn : n ≠ 64007 := by
    rintro rfl
    exact htrial (h.accepted (by norm_num))
  have heleven : 11 ≤ p_max := by
    obtain ⟨p, hp, hpmax, -⟩ := trial_rejects (Bool.not_eq_true _ ▸ htrial)
    have : ∀ p ∈ PRIMES_UNDER_256, 11 ≤ p := by decide
    exact (this p hp).trans hpmax
  have hoffset : (if offset ≥ SIEVE_TABLE_SIZE then offset - SIEVE_TABLE_SIZE else offset) =
      (n + 1) % 210 := by
    rw [h.offset_eq]
    exact offset_wraps n
  rw [hoffset]
  obtain ⟨hcop, hmod, hle', hnine⟩ :=
    next_candidate (show Nat.Coprime 64007 210 by decide) (show n + 1 ≤ 64007 by omega)
  set next := SIEVE_TABLE.getD ((n + 1) % 210) 0 with hnext
  have hsum : n + next + 1 = n + 1 + next := by omega
  refine ⟨next, rfl, by omega, by omega, by omega, by rwa [hsum], by omega, ?_, ?_, ?_⟩
  · have hroot := h.root
    split
    · nlinarith
    · nlinarith
  · split
    · omega
    · omega
  · split
    · nlinarith
    · exact hmax

/-- By the distance to 64007, a prime that no candidate passes. -/
theorem nextLoop_spec (h : Candidate offset n p_max) :
    ∃ q, (∀ fuel, 64007 - n < fuel → nextLoop fuel offset n p_max = some q) ∧ q.Prime ∧ n ≤ q ∧
      q ≤ 64007 := by
  induction hk : 64007 - n using Nat.strong_induction_on generalizing offset n p_max with
  | _ k ih =>
    subst hk
    by_cases htrial : trial n p_max PRIMES_UNDER_256 = true
    · refine ⟨n, fun fuel hfuel => ?_, h.prime htrial, le_rfl, h.le⟩
      obtain ⟨f, rfl⟩ := Nat.exists_eq_succ_of_ne_zero (Nat.zero_lt_of_lt hfuel).ne'
      unfold nextLoop
      exact if_pos htrial
    · obtain ⟨next, hnext, hwrap, hcand⟩ := h.next htrial
      have hle := hcand.le
      obtain ⟨q, hrun, hq, hge, hmax⟩ := ih _ (by omega) hcand rfl
      refine ⟨q, fun fuel hfuel => ?_, hq, by omega, hmax⟩
      obtain ⟨f, rfl⟩ := Nat.exists_eq_succ_of_ne_zero (Nat.zero_lt_of_lt hfuel).ne'
      unfold nextLoop
      rw [if_neg htrial]
      simp only [hnext, hwrap]
      exact hrun f (by omega)

/-- `NextPrime16` of every block count is a prime from there on. -/
theorem nextPrime16_spec (hge : 2 ≤ n) (hle : n ≤ 64000) :
    ∃ q, (∀ fuel, 64007 < fuel → nextPrime16 fuel n = some q) ∧ q.Prime ∧ n ≤ q ∧ q ≤ 64007 := by
  by_cases hsmall : n < 8
  · interval_cases n
    · exact ⟨2, fun _ _ => rfl, by norm_num, by omega, by omega⟩
    · exact ⟨3, fun _ _ => rfl, by norm_num, by omega, by omega⟩
    · exact ⟨5, fun _ _ => rfl, by norm_num, by omega, by omega⟩
    · exact ⟨5, fun _ _ => rfl, by norm_num, by omega, by omega⟩
    · exact ⟨7, fun _ _ => rfl, by norm_num, by omega, by omega⟩
    · exact ⟨7, fun _ _ => rfl, by norm_num, by omega, by omega⟩
  · obtain ⟨hcop, hmod, hle', hnine⟩ :=
      next_candidate (show Nat.Coprime 64007 210 by decide) (show n ≤ 64007 by omega)
    set next := SIEVE_TABLE.getD (n % 210) 0 with hnext
    obtain ⟨hlo, hhi⟩ := squareRoot16_spec (show n + next < 0x10000 by omega)
    have hcand : Candidate (n % 210 + next + 1) (n + next) (squareRoot16 (n + next)) := by
      refine ⟨by omega, hle', hcop, by omega, hhi, ?_, ?_⟩
      · nlinarith
      · nlinarith
    obtain ⟨q, hrun, hq, hge', hmax⟩ := nextLoop_spec hcand
    refine ⟨q, fun fuel hfuel => ?_, hq, by omega, hmax⟩
    have hwrap : (n + next) % 0x10000 = n + next := by omega
    unfold nextPrime16
    split <;> first | omega | skip
    simp only [show SIEVE_TABLE_SIZE = 210 from rfl, ← hnext, hwrap]
    exact hrun fuel (by omega)

/-- The prime 65521 stops every search, whatever the bound for the trial divisors. -/
theorem trial_top : trial 65521 p_max PRIMES_UNDER_256 = true := by
  by_contra hfalse
  obtain ⟨p, hp, -, hdvd⟩ := trial_rejects (Bool.not_eq_true _ ▸ hfalse)
  have hprime : Nat.Prime 65521 := by norm_num
  have hsmall : ∀ p ∈ PRIMES_UNDER_256, p ≠ 1 ∧ p ≠ 65521 := by decide
  rcases (Nat.dvd_prime hprime).mp hdvd with hone | htop
  · exact (hsmall p hp).1 hone
  · exact (hsmall p hp).2 htop

theorem nextLoop_ends (hle : n ≤ 65521) (hoff : offset = n % 210 + 1) :
    ∃ q, ∀ fuel, 65521 - n < fuel → nextLoop fuel offset n p_max = some q := by
  induction hk : 65521 - n using Nat.strong_induction_on generalizing offset n p_max with
  | _ k ih =>
    subst hk
    by_cases htrial : trial n p_max PRIMES_UNDER_256 = true
    · refine ⟨n, fun fuel hfuel => ?_⟩
      obtain ⟨f, rfl⟩ := Nat.exists_eq_succ_of_ne_zero (Nat.zero_lt_of_lt hfuel).ne'
      unfold nextLoop
      exact if_pos htrial
    · have hn : n ≠ 65521 := by
        rintro rfl
        exact htrial trial_top
      obtain ⟨-, hmod, hle', -⟩ :=
        next_candidate (show Nat.Coprime 65521 210 by decide) (show n + 1 ≤ 65521 by omega)
      set next := SIEVE_TABLE.getD ((n + 1) % 210) 0 with hnext
      have hsum : n + next + 1 = n + 1 + next := by omega
      have hwrap : (n + next + 1) % 0x10000 = n + 1 + next := by omega
      obtain ⟨q, hrun⟩ : ∃ q, ∀ fuel, 65521 - (n + 1 + next) < fuel →
          nextLoop fuel ((n + 1) % 210 + next + 1) (n + 1 + next)
            (if p_max * p_max < n + 1 + next then p_max + 1 else p_max) = some q :=
        ih (65521 - (n + 1 + next)) (by omega) hle' (by omega) rfl
      refine ⟨q, fun fuel hfuel => ?_⟩
      obtain ⟨f, rfl⟩ := Nat.exists_eq_succ_of_ne_zero (Nat.zero_lt_of_lt hfuel).ne'
      unfold nextLoop
      rw [if_neg htrial]
      simp only [hoff, offset_wraps, ← hnext, hwrap]
      exact hrun f (by omega)

theorem nextLoop_mono {fuel q : Nat} (k : Nat) (h : nextLoop fuel offset n p_max = some q) :
    nextLoop (fuel + k) offset n p_max = some q := by
  induction fuel generalizing offset n p_max with
  | zero => exact absurd h (by simp [nextLoop])
  | succ fuel ih =>
    rw [Nat.add_right_comm]
    unfold nextLoop at h ⊢
    by_cases htrial : trial n p_max PRIMES_UNDER_256 = true
    · rw [if_pos htrial] at h ⊢
      exact h
    · rw [if_neg htrial] at h ⊢
      exact ih h

/-- `NextPrime16` returns for every argument. From 65522 on the search wraps around to 1. -/
theorem nextPrime16_ends (hn : n < 0x10000) :
    ∃ q, ∀ fuel, 0x10000 ≤ fuel → nextPrime16 fuel n = some q := by
  by_cases hsmall : n < 8
  · interval_cases n
    all_goals exact ⟨_, fun _ _ => rfl⟩
  · have hloop : ∀ fuel, nextPrime16 fuel n = nextLoop fuel
        (n % 210 + SIEVE_TABLE.getD (n % 210) 0 + 1) ((n + SIEVE_TABLE.getD (n % 210) 0) % 0x10000)
        (squareRoot16 ((n + SIEVE_TABLE.getD (n % 210) 0) % 0x10000)) := by
      intro fuel
      unfold nextPrime16
      split <;> first | omega | rfl
    by_cases htop : n ≤ 65521
    · obtain ⟨-, hmod, hle, -⟩ := next_candidate (show Nat.Coprime 65521 210 by decide) htop
      set next := SIEVE_TABLE.getD (n % 210) 0 with hnext
      have hwrap : (n + next) % 0x10000 = n + next := by omega
      rw [hwrap] at hloop
      obtain ⟨q, hrun⟩ : ∃ q, ∀ fuel, 65521 - (n + next) < fuel →
          nextLoop fuel (n % 210 + next + 1) (n + next) (squareRoot16 (n + next)) = some q :=
        nextLoop_ends hle (by omega)
      exact ⟨q, fun fuel hfuel => (hloop fuel).trans (hrun fuel (by omega))⟩
    · have hall : ∀ k < 14, (nextPrime16 4 (65522 + k)).isSome = true := by decide +kernel
      have hsome := hall (n - 65522) (by omega)
      rw [show 65522 + (n - 65522) = n by omega, hloop] at hsome
      obtain ⟨q, hq⟩ := Option.isSome_iff_exists.mp hsome
      refine ⟨q, fun fuel hfuel => ?_⟩
      rw [hloop fuel, show fuel = 4 + (fuel - 4) by omega]
      exact nextLoop_mono _ hq

end Spec

end Libcat.Fec.NextPrime
