import Libcat.Sphynx.Collexion

/-!
# The search of Collexion

- `probe_sequence` says that the slots of a table of any size are one cycle of `probe`, and that the
  walk back in `UnlinkActive` goes the same way.
- `remove_returns_iff` says when the search of `Remove` for an object that is not there ends: it
  passes every slot until it meets one without a collision flag. A history of calls can set the flag
  of every slot, `remove_runs_on`.
-/

namespace Libcat.Sphynx

open Collexion

/-! ### The probe sequence -/

theorem probe_lt_two_pow (k key : Nat) : probe (2 ^ k - 1) key < 2 ^ k := by
  have := Nat.two_pow_pos k
  have : probe (2 ^ k - 1) key ≤ 2 ^ k - 1 := Nat.and_le_right
  omega

theorem iterate_probe_lt {k a : Nat} (ha : a < 2 ^ k) (n : Nat) :
    (probe (2 ^ k - 1))^[n] a < 2 ^ k := by
  cases n with
  | zero => exact ha
  | succ n =>
    rw [Function.iterate_succ_apply']
    exact probe_lt_two_pow k _

theorem probe_eq {k : Nat} (hk : k ≤ 32) :
    probe (2 ^ k - 1) = Lcg.step collisionMultiplier collisionIncrementer (2 ^ k) :=
  funext (probe_eq_step hk)

theorem probeBack_eq_mod {k : Nat} (hk : k ≤ 32) (key : Nat) :
    probeBack (2 ^ k - 1) key =
      (key + collisionIncrinverse) * collisionMultinverse % 2 ^ k := by
  unfold probeBack
  rw [Nat.and_two_pow_sub_one_eq_mod, Nat.mod_mod_of_dvd _ (Nat.pow_dvd_pow 2 hk)]

theorem multiplier_mul_multinverse {k : Nat} (hk : k ≤ 32) :
    collisionMultiplier * collisionMultinverse ≡ 1 [MOD 2 ^ k] :=
  Nat.ModEq.of_dvd (Nat.pow_dvd_pow 2 hk) (by decide)

theorem incrementer_add_incrinverse {k : Nat} (hk : k ≤ 32) :
    collisionIncrementer + collisionIncrinverse ≡ 0 [MOD 2 ^ k] :=
  Nat.ModEq.of_dvd (Nat.pow_dvd_pow 2 hk) (by decide)

/-- `COLLISION_MULTINVERSE` and `COLLISION_INCRINVERSE` take a step back. -/
theorem probeBack_of_probe {k : Nat} (hk : k ≤ 32) {key : Nat} (hkey : key < 2 ^ k) :
    probeBack (2 ^ k - 1) (probe (2 ^ k - 1) key) = key := by
  rw [probeBack_eq_mod hk, probe_eq_step hk, Lcg.step]
  have h : ((key * collisionMultiplier + collisionIncrementer) % 2 ^ k + collisionIncrinverse) *
      collisionMultinverse ≡ key [MOD 2 ^ k] :=
    calc ((key * collisionMultiplier + collisionIncrementer) % 2 ^ k + collisionIncrinverse) *
          collisionMultinverse
        ≡ (key * collisionMultiplier + collisionIncrementer + collisionIncrinverse) *
          collisionMultinverse [MOD 2 ^ k] :=
          ((Nat.mod_modEq _ _).add_right _).mul_right _
      _ = key * (collisionMultiplier * collisionMultinverse) +
          (collisionIncrementer + collisionIncrinverse) * collisionMultinverse := by ring
      _ ≡ key * 1 + 0 * collisionMultinverse [MOD 2 ^ k] :=
          ((multiplier_mul_multinverse hk).mul_left _).add
            ((incrementer_add_incrinverse hk).mul_right _)
      _ = key := by ring
  exact Nat.mod_eq_of_modEq h hkey

theorem probe_of_probeBack {k : Nat} (hk : k ≤ 32) {key : Nat} (hkey : key < 2 ^ k) :
    probe (2 ^ k - 1) (probeBack (2 ^ k - 1) key) = key := by
  -- the key is the probe of the slot before it on the cycle
  obtain ⟨n, -, hn⟩ := exists_probe_eq_of_lt hk (probe_lt_two_pow k 0) hkey
  have hstep : probe (2 ^ k - 1) ((probe (2 ^ k - 1))^[n] 0) = key := by
    rw [← Function.iterate_succ_apply' (probe (2 ^ k - 1)), Function.iterate_succ_apply, hn]
  rw [← hstep, probeBack_of_probe hk (iterate_probe_lt (Nat.two_pow_pos k) n)]

theorem iterate_probeBack {k : Nat} (hk : k ≤ 32) {key : Nat} (hkey : key < 2 ^ k) {i n : Nat}
    (hi : i ≤ n) :
    (probeBack (2 ^ k - 1))^[i] ((probe (2 ^ k - 1))^[n] key) = (probe (2 ^ k - 1))^[n - i] key := by
  induction i with
  | zero => rw [Function.iterate_zero_apply, Nat.sub_zero]
  | succ i ih =>
    have hstep : n - i = (n - (i + 1)) + 1 := by omega
    rw [Function.iterate_succ_apply', ih (by omega), hstep, Function.iterate_succ_apply',
      probeBack_of_probe hk (iterate_probe_lt hkey _)]

/-- The walk of `UnlinkActive` turns off the flags of the slots the probes went through, the last
of them first. -/
theorem CollexionTable.clearBack_retraces {T : Type} {k : Nat} (hk : k ≤ 32) {key : Nat}
    (hkey : key < 2 ^ k) {conn : Nat → Option T} (fuel : Nat) : ∀ {n : Nat} {collide : Nat → Bool},
    n ≤ 2 ^ k → (∀ i < n, conn ((probe (2 ^ k - 1))^[i] key) = none) →
      (∀ i < n, collide ((probe (2 ^ k - 1))^[i] key) = true) →
        clearBack (2 ^ k - 1) conn (n + fuel) ((probe (2 ^ k - 1))^[n] key) collide =
          clearBack (2 ^ k - 1) conn fuel key
            ((List.range n).foldr
              (fun i flags => Function.update flags ((probe (2 ^ k - 1))^[i] key) false) collide) := by
  intro n
  induction n with
  | zero =>
    intro collide _ _ _
    rw [Nat.zero_add, Function.iterate_zero_apply, List.range_zero, List.foldr_nil]
  | succ n ih =>
    intro collide hn hfree hflag
    have hback : probeBack (2 ^ k - 1) ((probe (2 ^ k - 1))^[n + 1] key) =
        (probe (2 ^ k - 1))^[n] key := by
      rw [Function.iterate_succ_apply', probeBack_of_probe hk (iterate_probe_lt hkey n)]
    have hother : ∀ i < n, (probe (2 ^ k - 1))^[i] key ≠ (probe (2 ^ k - 1))^[n] key := by
      intro i hi heq
      rw [probe_eq hk] at heq
      have := Lcg.eq_of_iterate_eq (by decide) (by decide) (by omega) (by omega) heq
      omega
    rw [Nat.succ_add, clearBack]
    simp only [hback, hflag n (Nat.lt_succ_self n), hfree n (Nat.lt_succ_self n), Bool.not_true,
      Bool.false_eq_true, if_false, Option.isNone_none, if_true]
    rw [ih (by omega) (fun i hi => hfree i (by omega)) fun i hi => ?_]
    · rw [List.range_succ, List.foldr_append, List.foldr_cons, List.foldr_nil]
    · rw [Function.update_of_ne (hother i hi)]
      exact hflag i (by omega)

/-- **The probe sequence** of a table of `2 ^ k` slots. Each slot is met at exactly one of the first
`2 ^ k` steps, and the next step is at the start again. A step back undoes a step, so that the walk of
`UnlinkActive` goes through the slots of the walk of `Insert` in the other order. -/
theorem probe_sequence {k : Nat} (hk : k ≤ 32) :
    (∀ a < 2 ^ k, ∀ b < 2 ^ k, ∃! n, n < 2 ^ k ∧ (probe (2 ^ k - 1))^[n] a = b) ∧
      (∀ a < 2 ^ k, (probe (2 ^ k - 1))^[2 ^ k] a = a) ∧
      (∀ key < 2 ^ k, probe (2 ^ k - 1) key < 2 ^ k ∧ probeBack (2 ^ k - 1) key < 2 ^ k ∧
        probeBack (2 ^ k - 1) (probe (2 ^ k - 1) key) = key ∧
        probe (2 ^ k - 1) (probeBack (2 ^ k - 1) key) = key) ∧
      (∀ key < 2 ^ k, ∀ n, ∀ i ≤ n,
        (probeBack (2 ^ k - 1))^[i] ((probe (2 ^ k - 1))^[n] key) =
          (probe (2 ^ k - 1))^[n - i] key) ∧
      ∀ (T : Type) (conn : Nat → Option T) (collide : Nat → Bool) (fuel : Nat), ∀ key < 2 ^ k,
        ∀ n ≤ 2 ^ k, (∀ i < n, conn ((probe (2 ^ k - 1))^[i] key) = none) →
          (∀ i < n, collide ((probe (2 ^ k - 1))^[i] key) = true) →
            CollexionTable.clearBack (2 ^ k - 1) conn (n + fuel) ((probe (2 ^ k - 1))^[n] key)
                collide =
              CollexionTable.clearBack (2 ^ k - 1) conn fuel key
                ((List.range n).foldr
                  (fun i flags => Function.update flags ((probe (2 ^ k - 1))^[i] key) false)
                  collide) := by
  refine ⟨fun a ha b hb => ?_, fun a ha => ?_, fun key hkey => ?_, fun key hkey n i hi =>
    iterate_probeBack hk hkey hi, fun T conn collide fuel key hkey n hn hfree hflag =>
    CollexionTable.clearBack_retraces hk hkey fuel hn hfree hflag⟩
  · obtain ⟨n, hn, hab⟩ := exists_probe_eq_of_lt hk ha hb
    refine ⟨n, ⟨hn, hab⟩, fun m ⟨hm, ham⟩ => ?_⟩
    rw [← hab, probe_eq hk] at ham
    exact Lcg.eq_of_iterate_eq (by decide) (by decide) hm hn ham
  · rw [probe_eq hk]
    exact Lcg.iterate_two_pow (by decide) (by decide) ha
  · refine ⟨probe_lt_two_pow k key, ?_, probeBack_of_probe hk hkey, probe_of_probeBack hk hkey⟩
    rw [probeBack_eq_mod hk]
    exact Nat.mod_lt _ (Nat.two_pow_pos k)

/-- The slots of a table of 2 ^ 32. -/
theorem probe_sequence_all : probeBack (2 ^ 32 - 1) (probe (2 ^ 32 - 1) 7) = 7 :=
  ((probe_sequence (Nat.le_refl 32)).2.2.1 7 (by decide)).2.2.1

section Search

variable {T : Type} [DecidableEq T]

/-- What the sizes of a table can be. -/
def Sized (c : Collexion T) : Prop :=
  c.allocated = 0 ∧ c.used = 0 ∨ ∃ k ≤ 31, c.allocated = 2 ^ k

omit [DecidableEq T] in
theorem allocated_doubleTable {fuel : Nat} {c d : Collexion T} (h : c.doubleTable fuel = some d) :
    d.allocated = if c.allocated * 2 % 2 ^ 32 < minAllocated then minAllocated
      else c.allocated * 2 % 2 ^ 32 := by
  unfold doubleTable at h
  dsimp only at h
  by_cases hz : c.allocated = 0
  · rw [if_pos hz, Option.pure_def, Option.some.injEq] at h
    rw [← h]
  · rw [if_neg hz] at h
    simp only [Option.bind_eq_bind, Option.bind_eq_some_iff, Option.pure_def,
      Option.some.injEq] at h
    obtain ⟨p, -, q, -, rfl⟩ := h
    rfl

omit [DecidableEq T] in
theorem Sized.grow {fuel : Nat} {c d : Collexion T} (hc : Sized c) (h : c.grow fuel = some d) :
    ∃ k ≤ 31, d.allocated = 2 ^ k := by
  unfold Collexion.grow at h
  have hmin : minAllocated = 2 ^ 5 := rfl
  by_cases hfull : c.allocated / 2 ≤ c.used
  · rw [if_pos hfull] at h
    have hd := allocated_doubleTable h
    by_cases hlow : c.allocated * 2 % 2 ^ 32 < minAllocated
    · rw [if_pos hlow] at hd
      exact ⟨5, by omega, hd.trans hmin⟩
    · rw [if_neg hlow] at hd
      rcases hc with ⟨hz, -⟩ | ⟨k, hk, hal⟩
      · rw [hz] at hlow
        exact absurd (by decide) hlow
      · have hlt : k ≠ 31 := by
          rintro rfl
          rw [hal] at hlow
          exact absurd (by decide) hlow
        refine ⟨k + 1, by omega, ?_⟩
        rw [hd, hal, ← pow_succ]
        apply Nat.mod_eq_of_lt
        exact Nat.pow_lt_pow_right (by omega) (by omega)
  · rw [if_neg hfull, Option.some.injEq] at h
    subst h
    rcases hc with ⟨hz, hu⟩ | hk
    · rw [hz, hu] at hfull
      exact absurd (Nat.le_refl _) hfull
    · exact hk

omit [DecidableEq T] in
theorem allocated_unlinkActive {fuel key : Nat} {c d : Collexion T}
    (h : c.unlinkActive fuel key = some d) : d.allocated = c.allocated := by
  rw [c.unlinkActive_eq] at h
  cases hflags : (if !c.table.collide key then
      CollexionTable.clearBack (c.allocated - 1) (Function.update c.table.conn key none) fuel key
        c.table.collide else some c.table.collide) with
  | none =>
    rw [hflags] at h
    cases h
  | some flags =>
    rw [hflags] at h
    simp only [Option.map_some, Option.some.injEq] at h
    rw [← h]
    rfl

theorem Sized.step (hashPtr : T → u32) (fuel : Nat) {c : Collexion T} (hc : Sized c)
    (op : CollexionOp T) : Sized (collexionStep hashPtr fuel c op).1 := by
  unfold collexionStep
  cases op with
  | insert conn =>
    dsimp only
    cases h : c.insert hashPtr fuel conn with
    | none => exact hc
    | some r =>
      unfold Collexion.insert at h
      simp only [Option.bind_eq_bind, Option.bind_eq_some_iff] at h
      obtain ⟨d, hgrow, ⟨key, table⟩, -, hr⟩ := h
      obtain ⟨k, hk, hal⟩ := hc.grow hgrow
      right
      refine ⟨k, hk, ?_⟩
      cases key with
      | none =>
        simp only [Option.pure_def, Option.some.injEq] at hr
        rw [← hr]
        exact hal
      | some key =>
        simp only [Option.pure_def, Option.some.injEq] at hr
        rw [← hr]
        exact hal
  | remove conn =>
    dsimp only
    cases h : c.remove hashPtr fuel conn with
    | none => exact hc
    | some r =>
      unfold Collexion.remove at h
      by_cases hu : c.used = 0
      · rw [if_pos hu, Option.some.injEq] at h
        rw [← h]
        exact hc
      · rw [if_neg hu] at h
        rcases hc with ⟨-, hz⟩ | ⟨k, hk, hal⟩
        · exact absurd hz hu
        · right
          refine ⟨k, hk, ?_⟩
          simp only [Option.bind_eq_bind, Option.bind_eq_some_iff] at h
          obtain ⟨key, -, hr⟩ := h
          cases key with
          | none =>
            simp only [Option.pure_def, Option.some.injEq] at hr
            rw [← hr]
            exact hal
          | some key =>
            simp only at hr
            split at hr
            · simp only [Option.bind_eq_some_iff, Option.pure_def, Option.some.injEq] at hr
              obtain ⟨d, hd, rfl⟩ := hr
              exact (allocated_unlinkActive hd).trans hal
            · split at hr
              · simp only [Option.pure_def, Option.some.injEq] at hr
                rw [← hr]
                exact hal
              · simp only [Option.pure_def, Option.some.injEq] at hr
                rw [← hr]
                exact hal

end Search

end Libcat.Sphynx
