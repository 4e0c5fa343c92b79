import Libcat.Math.BitMath

/-!
# Cookies

`CookieJar`: a cookie is a keyed hash of an address and of the bin of the clock it was made in, with
the low bits of the bin beside it. The verifier takes the last bin with these low bits that is not
ahead of its own (`reconstructEpoch_eq_iff`).

The clock has 32 bits and its range is not a whole number of bins: the bins begin anew at zero when
it wraps, in the middle of a bin. `lifetime_iff` says for which times a cookie lives as long as it
should.
-/

namespace Libcat.Crypt.CookieJar

def expireTime : Nat := 4000
def binCount : Nat := 16
def binTime : Nat := expireTime / binCount
def binMask : u32 := BitVec.ofNat 32 (binCount - 1)

/-- The bin of a time of `Clock::msec_fast`. -/
def getEpoch (now : u32) : u32 := now / BitVec.ofNat 32 binTime

def reconstructEpoch (now cookie : u32) : u32 :=
  let epoch := getEpoch now
  let cookieBin := cookie &&& binMask
  let cookieEpoch := (epoch &&& ~~~binMask) ||| cookieBin
  if epoch &&& binMask < cookieBin then cookieEpoch - BitVec.ofNat 32 binCount else cookieEpoch

section Jar

variable {α : Type*} (hash : α → u32 → u32) (address : α)

def generate (now : u32) : u32 :=
  let epoch := getEpoch now
  hash address epoch <<< 4 ||| (epoch &&& binMask)

def verify (now cookie : u32) : Bool :=
  hash address (reconstructEpoch now cookie) <<< 4 == cookie &&& ~~~binMask

/-- The time `elapsed` milliseconds later. -/
def later (t : u32) (elapsed : Nat) : u32 := t + BitVec.ofNat 32 elapsed

/-- The bins that begin in the meantime. -/
def binsBetween (t : u32) (elapsed : Nat) : Nat := (t.toNat + elapsed) / binTime - t.toNat / binTime

/-- A cookie is accepted for `binCount` bins, and then only where the hashes of its bin and of the
one that it is taken for agree in the bits a cookie has. -/
def Lifetime (t : u32) (elapsed : Nat) : Prop :=
  let cookie := generate hash address t
  let now := later t elapsed
  (binsBetween t elapsed < binCount → verify hash address now cookie = true) ∧
    (binCount ≤ binsBetween t elapsed → verify hash address now cookie = true →
      reconstructEpoch now cookie ≠ getEpoch t ∧
        (hash address (reconstructEpoch now cookie)).setWidth 28 =
          (hash address (getEpoch t)).setWidth 28)

end Jar

/-- The clock does not wrap, or the cookie is too old and the clock not back at its bins. -/
def InTime (t : u32) (elapsed : Nat) : Prop :=
  t.toNat + elapsed < 2 ^ 32 ∨
    binCount ≤ binsBetween t elapsed ∧
      ¬((getEpoch t).toNat ≤ (getEpoch (later t elapsed)).toNat ∧
        (getEpoch (later t elapsed)).toNat < (getEpoch t).toNat + binCount)

/-! ## Bins -/

theorem getEpoch_toNat (now : u32) : (getEpoch now).toNat = now.toNat / 250 := by
  rw [getEpoch, BitVec.toNat_udiv]
  rfl

theorem getEpoch_lt (now : u32) : (getEpoch now).toNat < 17179870 := by
  have := now.isLt
  rw [getEpoch_toNat]
  omega

theorem and_binMask_toNat (x : u32) : (x &&& binMask).toNat = x.toNat % 16 := by
  rw [BitVec.toNat_and]
  exact Nat.and_two_pow_sub_one_eq_mod x.toNat 4

theorem and_not_binMask_toNat (x : u32) : (x &&& ~~~binMask).toNat = x.toNat - x.toNat % 16 := by
  have hsum : (x &&& ~~~binMask) + (x &&& binMask) = x := by
    have hzero : (x &&& ~~~binMask) &&& (x &&& binMask) = 0#32 := by
      ext i hi
      simp only [BitVec.getElem_and, BitVec.getElem_not, BitVec.getElem_zero]
      cases x[i] <;> cases binMask[i] <;> rfl
    rw [BitVec.add_eq_or_of_and_eq_zero _ _ hzero]
    ext i hi
    simp only [BitVec.getElem_or, BitVec.getElem_and, BitVec.getElem_not]
    cases x[i] <;> cases binMask[i] <;> rfl
  have hx := congrArg BitVec.toNat hsum
  have hlt := x.isLt
  rw [BitVec.toNat_add, and_binMask_toNat] at hx
  have hle : (x &&& ~~~binMask).toNat ≤ x.toNat := by
    rw [BitVec.toNat_and]
    exact Nat.and_le_left
  have hdiv : (x &&& ~~~binMask).toNat + x.toNat % 16 < 2 ^ 32 ∨
      (x &&& ~~~binMask).toNat + x.toNat % 16 = x.toNat + 2 ^ 32 := by omega
  omega

/-- The bins of a time and of a cookie, put together. -/
theorem merge_toNat (x b : u32) :
    ((x &&& ~~~binMask) ||| (b &&& binMask)).toNat = x.toNat - x.toNat % 16 + b.toNat % 16 := by
  have hzero : (x &&& ~~~binMask) &&& (b &&& binMask) = 0#32 := by
    ext i hi
    simp only [BitVec.getElem_and, BitVec.getElem_not, BitVec.getElem_zero]
    cases x[i] <;> cases b[i] <;> cases binMask[i] <;> rfl
  have hlt := x.isLt
  rw [← BitVec.add_eq_or_of_and_eq_zero _ _ hzero, BitVec.toNat_add, and_not_binMask_toNat,
    and_binMask_toNat, Nat.mod_eq_of_lt]
  omega

/-- **The verifier's bin** is the one the cookie was made in as long as that is one of the last
`binCount` bins. -/
theorem reconstructEpoch_eq_iff (now epoch cookie : u32) (hepoch : epoch.toNat < 17179870)
    (hcookie : cookie &&& binMask = epoch &&& binMask) :
    reconstructEpoch now cookie = epoch ↔
      epoch.toNat ≤ (getEpoch now).toNat ∧ (getEpoch now).toNat < epoch.toNat + binCount := by
  have hnow := getEpoch_lt now
  have hbin := congrArg BitVec.toNat hcookie
  rw [and_binMask_toNat, and_binMask_toNat] at hbin
  simp only [← BitVec.toNat_inj, reconstructEpoch, BitVec.lt_def, and_binMask_toNat, binCount]
  split
  · rw [BitVec.toNat_sub, merge_toNat, hbin]
    simp only [BitVec.toNat_ofNat]
    omega
  · rw [merge_toNat, hbin]
    omega

/-! ## Cookies -/

theorem shiftLeft_and_binMask (x : u32) : x <<< 4 &&& binMask = 0#32 := by
  rw [← BitVec.toNat_inj, and_binMask_toNat, BitVec.toNat_shiftLeft, Nat.shiftLeft_eq,
    BitVec.toNat_ofNat]
  omega

theorem shiftLeft_four_inj (x y : u32) :
    x <<< 4 = y <<< 4 ↔ x.setWidth 28 = y.setWidth 28 := by
  rw [← BitVec.toNat_inj, ← BitVec.toNat_inj, BitVec.toNat_shiftLeft, BitVec.toNat_shiftLeft,
    Nat.shiftLeft_eq, Nat.shiftLeft_eq, BitVec.toNat_setWidth, BitVec.toNat_setWidth]
  omega

section Cookie

variable {α : Type*} (hash : α → u32 → u32) (address : α)

theorem generate_and_binMask (now : u32) :
    generate hash address now &&& binMask = getEpoch now &&& binMask := by
  have hlow := shiftLeft_and_binMask (hash address (getEpoch now))
  rw [generate, BitVec.and_comm, BitVec.and_or_distrib_left, BitVec.and_comm, hlow,
    BitVec.zero_or, BitVec.and_comm, BitVec.and_assoc, BitVec.and_self]

theorem generate_and_not_binMask (now : u32) :
    generate hash address now &&& ~~~binMask = hash address (getEpoch now) <<< 4 := by
  have hlow := shiftLeft_and_binMask (hash address (getEpoch now))
  rw [generate]
  generalize hash address (getEpoch now) <<< 4 = high at hlow ⊢
  ext i hi
  have hbit := congrArg (fun b : u32 => b[i]) hlow
  simp only [BitVec.getElem_or, BitVec.getElem_and, BitVec.getElem_not,
    BitVec.getElem_zero] at hbit ⊢
  generalize binMask[i] = m at hbit ⊢
  generalize high[i] = h at hbit ⊢
  cases m <;> cases h <;> simp_all

/-- A cookie is accepted where the hash of the bin it is taken for has the bits that it holds. -/
theorem verify_iff (t now : u32) :
    verify hash address now (generate hash address t) = true ↔
      (hash address (reconstructEpoch now (generate hash address t))).setWidth 28 =
        (hash address (getEpoch t)).setWidth 28 := by
  rw [verify, beq_iff_eq, generate_and_not_binMask, shiftLeft_four_inj]

theorem reconstructEpoch_generate (t now : u32) :
    reconstructEpoch now (generate hash address t) = getEpoch t ↔
      (getEpoch t).toNat ≤ (getEpoch now).toNat ∧
        (getEpoch now).toNat < (getEpoch t).toNat + binCount :=
  reconstructEpoch_eq_iff now (getEpoch t) _ (getEpoch_lt t) (generate_and_binMask hash address t)

end Cookie

/-- In one run of the clock the bins between two times are the difference of their bins. -/
theorem getEpoch_later (t : u32) (elapsed : Nat) (hwrap : t.toNat + elapsed < 2 ^ 32) :
    (getEpoch (later t elapsed)).toNat = (getEpoch t).toNat + binsBetween t elapsed := by
  rw [getEpoch_toNat, getEpoch_toNat, later, BitVec.toNat_add, BitVec.toNat_ofNat, binsBetween,
    show binTime = 250 from rfl]
  omega

/-- Just after the clock wraps its bin is far behind the one that a cookie was made in. -/
theorem getEpoch_later_of_wrap (t : u32) (elapsed : Nat) (hwrap : 2 ^ 32 ≤ t.toNat + elapsed)
    (hbins : binsBetween t elapsed < binCount) :
    (getEpoch (later t elapsed)).toNat < (getEpoch t).toNat := by
  have ht := t.isLt
  rw [binsBetween, show binTime = 250 from rfl, show binCount = 16 from rfl] at hbins
  rw [getEpoch_toNat, getEpoch_toNat, later, BitVec.toNat_add, BitVec.toNat_ofNat]
  omega

/-- **A cookie lives for `binCount` bins**, whatever the hash, exactly where the clock's wrap does
not come in between. -/
theorem lifetime_iff {α : Type*} (address : α) (t : u32) (elapsed : Nat) :
    (∀ hash : α → u32 → u32, Lifetime hash address t elapsed) ↔ InTime t elapsed := by
  constructor
  · intro hlife
    by_cases hwrap : t.toNat + elapsed < 2 ^ 32
    · exact Or.inl hwrap
    -- a hash that tells the cookie's bin from the others
    let hash : α → u32 → u32 := fun _ epoch => if epoch = getEpoch t then 0#32 else 1#32
    have hnow := reconstructEpoch_generate hash address t (later t elapsed)
    have hverify := verify_iff hash address t (later t elapsed)
    obtain ⟨hfresh, hstale⟩ := hlife hash
    by_cases hbins : binsBetween t elapsed < binCount
    · have hbehind := getEpoch_later_of_wrap t elapsed (Nat.le_of_not_lt hwrap) hbins
      have hmiss : reconstructEpoch (later t elapsed) (generate hash address t) ≠ getEpoch t :=
        fun h => absurd (hnow.mp h).1 (Nat.not_le.mpr hbehind)
      have hsame := hverify.mp (hfresh hbins)
      simp only [hash, if_neg hmiss, if_pos] at hsame
      exact absurd hsame (by decide)
    · refine Or.inr ⟨Nat.le_of_not_lt hbins, fun hwindow => ?_⟩
      have hback := hnow.mpr hwindow
      have haccept := hverify.mpr (by rw [hback])
      exact (hstale (Nat.le_of_not_lt hbins) haccept).1 hback
  · intro htime hash
    have hnow := reconstructEpoch_generate hash address t (later t elapsed)
    have hverify := verify_iff hash address t (later t elapsed)
    refine ⟨fun hbins => ?_, fun hbins haccept => ⟨?_, hverify.mp haccept⟩⟩
    · obtain hwrap | ⟨hmany, -⟩ := htime
      · have hlater := getEpoch_later t elapsed hwrap
        rw [hverify, hnow.mpr (by omega)]
      · omega
    · rw [Ne, hnow]
      obtain hwrap | ⟨-, hout⟩ := htime
      · have hlater := getEpoch_later t elapsed hwrap
        omega
      · exact hout

/-- A cookie of the clock's last millisecond is refused one millisecond later. -/
theorem refused_after_wrap :
    ¬∀ (hash : Unit → u32 → u32) (t : u32) (elapsed : Nat), Lifetime hash () t elapsed := by
  intro h
  have hlife := h (fun _ epoch => epoch) (BitVec.ofNat 32 (2 ^ 32 - 1)) 1
  exact absurd (hlife.1 (by decide)) (by decide)

end Libcat.Crypt.CookieJar
