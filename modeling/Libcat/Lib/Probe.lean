import Mathlib.Tactic

/-!
# Open addressing with flags

A table that is searched from a home place along `next`. A flag at a place says that the search goes
on behind it. `Reaches next flag a b` is what an object at `b` with home `a` needs to be found: every
place on the way has its flag.

- `Reaches.mono`: a way is one with more flags, too.
- `Reaches.clear`: a flag may go where the place behind it has none and is not wanted.
-/

namespace Libcat.Probe

variable {α : Type*} {next : α → α} {flag flag' : α → Bool} {a b : α}

/-- The way from `a` to `b` is flagged. -/
inductive Reaches (next : α → α) (flag : α → Bool) : α → α → Prop where
  | here (a : α) : Reaches next flag a a
  | step {a b : α} : flag a = true → Reaches next flag (next a) b → Reaches next flag a b

theorem Reaches.mono (hle : ∀ x, flag x = true → flag' x = true) (h : Reaches next flag a b) :
    Reaches next flag' a b := by
  induction h with
  | here a => exact .here a
  | step hflag _ ih => exact .step (hle _ hflag) ih

/-- The search stops at a place without a flag. -/
theorem Reaches.eq_of_unflagged (h : Reaches next flag a b) (hflag : flag a = false) : a = b := by
  cases h with
  | here => rfl
  | step hflag' _ => rw [hflag] at hflag'; cases hflag'

/-- The way behind a place that is not the end. -/
theorem Reaches.of_ne (h : Reaches next flag a b) (hne : a ≠ b) :
    flag a = true ∧ Reaches next flag (next a) b := by
  cases h with
  | here => exact absurd rfl hne
  | step hflag hrest => exact ⟨hflag, hrest⟩

theorem Reaches.clear [DecidableEq α] {p key : α} (hp : next p = key) (hkey : flag key = false)
    (h : Reaches next flag a b) (hb : b ≠ key) :
    Reaches next (Function.update flag p false) a b := by
  induction h with
  | here a => exact .here a
  | @step a b hflag hrest ih =>
    have hne : a ≠ p := by
      rintro rfl
      rw [hp] at hrest
      exact hb (hrest.eq_of_unflagged hkey).symm
    refine .step ?_ (ih hb)
    rwa [Function.update_of_ne hne]

/-- A way does not lead past a place without a flag. -/
theorem Reaches.not_past : ∀ {n : Nat} {a : α}, Reaches next flag a b →
    flag (next^[n] a) = false → (∀ i ≤ n, b ≠ next^[i] a) → False := by
  intro n
  induction n with
  | zero => exact fun h hn hb => hb 0 (Nat.le_refl 0) (h.eq_of_unflagged hn).symm
  | succ n ih =>
    intro a h hn hb
    have hne : a ≠ b := fun he => hb 0 (Nat.zero_le _) he.symm
    rw [Function.iterate_succ_apply] at hn
    refine ih (h.of_ne hne).2 hn fun i hi => ?_
    rw [← Function.iterate_succ_apply]
    exact hb (i + 1) (Nat.succ_le_succ hi)

/-- The flags before a place that has none may go, when what is looked for is not there. -/
theorem Reaches.clear_path {n : Nat} {p : α} (hn : flag (next^[n] p) = false)
    (hflag : ∀ x, flag x = true → flag' x = false → ∃ i < n, x = next^[i] p)
    (hb : ∀ i, 1 ≤ i → i ≤ n → b ≠ next^[i] p) (h : Reaches next flag a b) :
    Reaches next flag' a b := by
  induction h with
  | here a => exact .here a
  | @step a b hset hrest ih =>
    cases ha : flag' a with
    | true => exact .step ha (ih hb)
    | false =>
      obtain ⟨i, hi, rfl⟩ := hflag a hset ha
      have hnext : ∀ j, next^[j] (next (next^[i] p)) = next^[i + 1 + j] p := by
        intro j
        rw [← Function.iterate_succ_apply' next, ← Function.iterate_add_apply, Nat.add_comm]
      refine (hrest.not_past (n := n - i - 1) ?_ fun j hj => ?_).elim
      · rw [hnext, show i + 1 + (n - i - 1) = n by omega]
        exact hn
      · rw [hnext]
        exact hb _ (by omega) (by omega)

end Libcat.Probe
