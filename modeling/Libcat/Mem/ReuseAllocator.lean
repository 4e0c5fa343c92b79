import Libcat.Lib.Run
import Libcat.Mem.FreeLists

/-!
# The reuse allocator

`Acquire` and `ReleaseBatch` of any number of callers, in any order of their steps: a locked section is
a step, and so is a read of a list head without the lock. A caller in between does what it likes with
its buffers.

A call that steals the release list does not always hold the acquire lock, and the lists of two such calls
meet: the second one loses the first one. `reuse_allocator_keeps` says when that does not happen.
-/

namespace Libcat.Mem.ReuseAllocator

open Intrusive

variable {τ : Type}

section Model

/-- The next step of a call of `Acquire`. `held` is `acquire_lock_held`. -/
inductive Pc where
  | idle
  | lockAcquire
  | lookRelease (held : Bool)
  | lockRelease (held : Bool)
  | install (held : Bool) (last : Nat)
  | allocate (held : Bool)
  deriving DecidableEq

def Pc.held : Pc → Bool
  | .idle | .lockAcquire => false
  | .lookRelease held | .lockRelease held | .install held _ | .allocate held => held

/-- What the call has stolen. -/
def Pc.last : Pc → Option Nat
  | .install _ last => some last
  | _ => none

/-- The allocator, the `batch_next` pointers, the calls, and the buffers that callers have. Buffers are
numbered as they are created. -/
structure Pool (τ : Type) where
  next : Nat → Option Nat
  acquireHead : Option Nat
  releaseHead : Option Nat
  acquireLock : Option τ
  created : Nat
  pc : τ → Pc
  hands : τ → List Nat

def Pool.lists (s : Pool τ) : FreeLists τ where
  next := s.next
  acquireHead := s.acquireHead
  releaseHead := s.releaseHead
  stolen := fun t => (s.pc t).last
  hands := s.hands

/-- A step of an `Acquire`, a whole `ReleaseBatch`, or what a caller does with its buffers. -/
inductive Action (τ : Type) where
  | acquire (t : τ)
  | release (t : τ) (set : BatchSet Nat) (batch : List Nat)
  | write (t : τ) (buffer : Nat) (value : Option Nat)
  | pass (t t' : τ) (buffer : Nat)

variable [DecidableEq τ]

def Action.isAcquire (t : τ) : Action τ → Bool
  | .acquire t' => t' = t
  | _ => false

def initial (next : Nat → Option Nat) : Pool τ where
  next := next
  acquireHead := none
  releaseHead := none
  acquireLock := none
  created := 0
  pc := fun _ => .idle
  hands := fun _ => []

def Pool.goto (s : Pool τ) (t : τ) (pc : Pc) : Pool τ := { s with pc := Function.update s.pc t pc }

/-- `return buffer`. -/
def Pool.give (s : Pool τ) (t : τ) (buffer : Nat) : Pool τ × List (τ × Nat) :=
  ({ s.goto t .idle with hands := Function.update s.hands t (buffer :: s.hands t) }, [(t, buffer)])

/-- `Acquire`. A step that waits for the lock changes nothing. -/
def acquire (s : Pool τ) (t : τ) : Pool τ × List (τ × Nat) :=
  match s.pc t with
  | .idle => (s.goto t (if s.acquireHead.isSome then .lockAcquire else .lookRelease false), [])
  | .lockAcquire =>
    if s.acquireLock.isSome then (s, [])
    else match s.acquireHead with
      | some last => ({ s with acquireHead := s.next last }).give t last
      | none => (({ s with acquireLock := some t }).goto t (.lookRelease true), [])
  | .lookRelease held =>
    (s.goto t (if s.releaseHead.isSome then .lockRelease held else .allocate held), [])
  | .lockRelease held =>
    match s.releaseHead with
    | some last => (({ s with releaseHead := none }).goto t (.install held last), [])
    | none => (s.goto t (.allocate held), [])
  | .install held last =>
    if held = false ∧ s.acquireLock.isSome then (s, [])
    else ({ s with acquireHead := s.next last, acquireLock := none }).give t last
  | .allocate held =>
    ({ s with
      created := s.created + 1
      acquireLock := if held then none else s.acquireLock }).give t s.created

/-- `ReleaseBatch`. -/
def releaseBatch (s : Pool τ) (t : τ) (set : BatchSet Nat) (batch : List Nat) : Pool τ :=
  let r := set.release s.next s.releaseHead
  { s with
    next := r.1
    releaseHead := r.2
    hands := Function.update s.hands t ((s.hands t).filter (· ∉ batch)) }

def step (s : Pool τ) : Action τ → Pool τ × List (τ × Nat)
  | .acquire t => acquire s t
  | .release t set batch => (releaseBatch s t set batch, [])
  | .write _ buffer value => ({ s with next := Function.update s.next buffer value }, [])
  | .pass t t' buffer =>
    ({ s with
      hands := Function.update (Function.update s.hands t ((s.hands t).erase buffer)) t'
        (buffer :: s.hands t') }, [])

/-- Callers release, write to and pass on what they have. -/
def Admissible (s : Pool τ) : Action τ → Prop
  | .acquire _ => True
  | .release t set batch => BatchSet.Holds s.next set batch ∧ ∀ a ∈ batch, a ∈ s.hands t
  | .write t buffer _ => buffer ∈ s.hands t
  | .pass t t' buffer => t ≠ t' ∧ buffer ∈ s.hands t

instance (s : Pool τ) : ∀ action, Decidable (Admissible s action)
  | .acquire _ => inferInstanceAs (Decidable True)
  | .release _ _ _ => inferInstanceAs (Decidable (_ ∧ _))
  | .write _ _ _ => inferInstanceAs (Decidable (_ ∈ _))
  | .pass _ _ _ => inferInstanceAs (Decidable (_ ∧ _))

end Model

/-! ## What is claimed -/

section Claims

variable [DecidableEq τ]

/-- Every buffer that was created is in exactly one of the lists or the hands of one caller. -/
def Pool.Kept (s : Pool τ) : Prop := Mem.Kept s.lists (· < s.created)

/-- What `Acquire` is about to return is in nobody's hands. -/
def FreshReturn (s : Pool τ) : Prop :=
  ∀ t t' a, (t, a) ∈ (acquire s t).2 → a ∉ s.hands t'

/-- A lock that is held is released after at most three more steps of its holder. -/
def Released (s : Pool τ) : Prop :=
  ∀ t, s.acquireLock = some t → ∀ as : List (Action τ), 3 ≤ as.countP (Action.isAcquire t) →
    ∃ n, (Run.exec step s (as.take n)).1.acquireLock = none

/-- **What is claimed** of every state. -/
structure Sound (s : Pool τ) : Prop where
  kept : s.Kept
  fresh : FreshReturn s
  released : Released s

/-- The call has stolen the release list without the acquire lock. -/
def Pc.unlocked : Pc → Bool
  | .install held _ => !held
  | _ => false

/-- The condition: a stolen list is not put over an acquire list. -/
def OverNothing (s : Pool τ) : Action τ → Prop
  | .acquire t => (s.pc t).unlocked = true → s.acquireLock.isSome ∨ s.acquireHead = none
  | _ => True

instance (s : Pool τ) : ∀ action, Decidable (OverNothing s action)
  | .acquire _ => inferInstanceAs (Decidable (_ → _))
  | .release _ _ _ | .write _ _ _ | .pass _ _ _ => inferInstanceAs (Decidable True)

end Claims

/-! ## The lists -/

section Steps

variable [DecidableEq τ] {s : Pool τ} {P : Place τ → List Nat} {t : τ} {a : Nat}

/-- The lists do not change with a call that has stolen nothing and goes on with nothing. -/
theorem lists_goto {pc : Pc} (hpc : pc.last = (s.pc t).last) : (s.goto t pc).lists = s.lists := by
  simp only [Pool.lists, Pool.goto, FreeLists.mk.injEq, true_and, and_true]
  funext t'
  by_cases ht : t' = t
  · rw [ht, Function.update_self, hpc]
  · rw [Function.update_of_ne ht]

theorem lists_steal {held : Bool} (hhead : s.releaseHead = some a) :
    (({ s with releaseHead := none } : Pool τ).goto t (.install held a)).lists = s.lists.steal t := by
  simp only [Pool.lists, Pool.goto, FreeLists.steal, FreeLists.mk.injEq, true_and, and_true]
  funext t'
  by_cases ht : t' = t
  · rw [ht, Function.update_self, Function.update_self, hhead]
    rfl
  · rw [Function.update_of_ne ht, Function.update_of_ne ht]

theorem lists_give {acquireHead : Option Nat} {lock : Option τ} {created : Nat} :
    (({ s with
        acquireHead := acquireHead
        acquireLock := lock
        created := created } : Pool τ).give t a).1.lists =
      s.lists.give s.next acquireHead t [a] := by
  simp only [Pool.lists, Pool.give, Pool.goto, FreeLists.give, FreeLists.mk.injEq, true_and, and_true,
    List.singleton_append]
  funext t'
  by_cases ht : t' = t
  · rw [ht, Function.update_self, Function.update_self]
    rfl
  · rw [Function.update_of_ne ht, Function.update_of_ne ht]

/-- The first buffer of the acquire list. -/
theorem pop {all : Nat → Prop} (h : Lists s.lists all P) (hlast : (s.pc t).last = none)
    (hhead : s.acquireHead = some a) :
    ∃ Q, Lists (s.lists.give s.next (s.next a) t [a]) all Q ∧ Q .lost = P .lost := by
  have hseg : Seg s.next s.acquireHead (P .acquire) none := h.acquire
  have hstolen : Seg s.next (s.pc t).last [] none := hlast
  cases hacq : P .acquire with
  | nil =>
    rw [hacq, hhead] at hseg
    cases hseg
  | cons b rest =>
    rw [hacq, hhead] at hseg
    obtain ⟨hb, hrest⟩ := hseg
    obtain rfl := Option.some.inj hb
    obtain ⟨Q, hQ, -, hlost⟩ := h.give (t := t) hstolen (fun _ _ _ => rfl)
      (by rw [hacq, List.append_nil]; exact List.Perm.refl ([a] ++ rest)) hrest
    exact ⟨Q, hQ, hlost⟩

/-- The first buffer of the stolen list. The others become the acquire list, and what was there is lost. -/
theorem install {all : Nat → Prop} (h : Lists s.lists all P) {held : Bool} (hpc : s.pc t = .install held a) :
    ∃ Q, Lists (s.lists.give s.next (s.next a) t [a]) all Q ∧ Q .lost = P .acquire ++ P .lost := by
  obtain ⟨P', hP', hacq, hlost'⟩ := h.lose
  obtain ⟨l, hs, -⟩ := h.caller t
  have hs' : Seg s.next (s.pc t).last l none := hs
  rw [hpc] at hs'
  cases l with
  | nil => cases hs'
  | cons b rest =>
    obtain ⟨hb, hrest⟩ := hs'
    obtain rfl := Option.some.inj hb
    obtain ⟨Q, hQ, -, hlost⟩ := hP'.give (t := t) hs (fun _ _ _ => rfl)
      (by rw [hacq, List.nil_append]; exact List.Perm.refl ([a] ++ rest)) hrest
    exact ⟨Q, hQ, hlost.trans hlost'⟩

/-- **One step.** Only a list that is put over another one loses anything. -/
theorem step_lists (h : Lists s.lists (· < s.created) P)
    (hempty : ∀ t, (s.pc t).held = true → s.acquireHead = none) (action : Action τ)
    (hadm : Admissible s action) :
    ∃ Q, Lists (step s action).1.lists (· < (step s action).1.created) Q ∧
      (OverNothing s action → Q .lost = P .lost) ∧ (¬ OverNothing s action → Q .lost ≠ []) := by
  have same : (∃ Q, Lists (step s action).1.lists (· < (step s action).1.created) Q ∧
        Q .lost = P .lost) →
      OverNothing s action →
      ∃ Q, Lists (step s action).1.lists (· < (step s action).1.created) Q ∧
        (OverNothing s action → Q .lost = P .lost) ∧ (¬ OverNothing s action → Q .lost ≠ []) := by
    rintro ⟨Q, hQ, hlost⟩ hover
    exact ⟨Q, hQ, fun _ => hlost, fun hn => absurd hover hn⟩
  cases action with
  | release t set batch =>
    obtain ⟨Q, hQ, -, hlost⟩ := h.releaseBatch hadm.1 hadm.2
    exact same ⟨Q, hQ, hlost⟩ trivial
  | write t buffer value => exact same ⟨P, h.write hadm value, rfl⟩ trivial
  | pass t t' buffer =>
    obtain ⟨Q, hQ, -, hlost⟩ := h.pass hadm.1 hadm.2
    exact same ⟨Q, hQ, hlost⟩ trivial
  | acquire t =>
    simp only [step, acquire]
    simp only [step, acquire] at same
    cases hpc : s.pc t with
    | idle =>
      rw [hpc] at same
      refine same ⟨P, ?_, rfl⟩ (by simp [OverNothing, hpc, Pc.unlocked])
      simp only
      rw [lists_goto (by rw [hpc]; split <;> rfl)]
      exact h
    | lockAcquire =>
      rw [hpc] at same
      refine same ?_ (by simp [OverNothing, hpc, Pc.unlocked])
      simp only
      split
      · exact ⟨P, h, rfl⟩
      · split
        · rename_i last hhead
          obtain ⟨Q, hQ, hlost⟩ := pop h (by rw [hpc]; rfl) hhead
          exact ⟨Q, by rw [lists_give]; exact hQ, hlost⟩
        · refine ⟨P, ?_, rfl⟩
          rw [lists_goto (by rw [hpc]; rfl)]
          exact h
    | lookRelease held =>
      rw [hpc] at same
      refine same ⟨P, ?_, rfl⟩ (by simp [OverNothing, hpc, Pc.unlocked])
      simp only
      rw [lists_goto (by rw [hpc]; split <;> rfl)]
      exact h
    | lockRelease held =>
      rw [hpc] at same
      refine same ?_ (by simp [OverNothing, hpc, Pc.unlocked])
      simp only
      split
      · rename_i last hhead
        obtain ⟨Q, hQ, -, hlost⟩ := h.steal (t := t) (by simp [Pool.lists, hpc, Pc.last])
        exact ⟨Q, by rw [lists_steal hhead]; exact hQ, hlost⟩
      · refine ⟨P, ?_, rfl⟩
        rw [lists_goto (by rw [hpc]; rfl)]
        exact h
    | install held last =>
      simp only [OverNothing, hpc, Pc.unlocked]
      by_cases hwait : held = false ∧ s.acquireLock.isSome
      · rw [if_pos hwait]
        exact ⟨P, h, fun _ => rfl, fun hn => absurd (fun _ => .inl hwait.2) hn⟩
      · rw [if_neg hwait]
        obtain ⟨Q, hQ, hlost⟩ := install h hpc
        refine ⟨Q, by rw [lists_give]; exact hQ, fun hover => ?_, fun hn => ?_⟩
        · have hhead : s.acquireHead = none := by
            cases held with
            | true => exact hempty t (by simp [hpc, Pc.held])
            | false => exact (hover rfl).resolve_left fun hsome => hwait ⟨rfl, hsome⟩
          have hacq : Seg s.next s.acquireHead (P .acquire) none := h.acquire
          rw [hhead] at hacq
          rw [hlost, Seg.unique hacq (m := []) rfl, List.nil_append]
        · rw [hlost]
          intro hnil
          have hacq : Seg s.next s.acquireHead (P .acquire) none := h.acquire
          rw [(List.append_eq_nil_iff.mp hnil).1] at hacq
          exact hn fun _ => .inr hacq
    | allocate held =>
      rw [hpc] at same
      refine same ?_ (by simp [OverNothing, hpc, Pc.unlocked])
      have hnew : ∀ b, b < s.created + 1 ↔ b = s.created ∨ b < s.created := fun b => by omega
      obtain ⟨Q, hQ, hlost⟩ := h.add (t := t) (Nat.lt_irrefl s.created) hnew
        (by simp [Pool.lists, hpc, Pc.last])
      exact ⟨Q, by simp only; rw [lists_give]; exact hQ, hlost⟩

/-- What a call is about to return is not in anyone's hands. -/
theorem freshReturn (h : Lists s.lists (· < s.created) P) : FreshReturn s := by
  intro t t' a hret ha
  have hcall : a ∈ P (.caller t') := h.mem_caller ha
  unfold acquire at hret
  cases hpc : s.pc t with
  | idle => simp [hpc] at hret
  | lookRelease held => simp [hpc] at hret
  | lockRelease held =>
    simp only [hpc] at hret
    split at hret <;> cases hret
  | lockAcquire =>
    simp only [hpc] at hret
    split at hret
    · cases hret
    · split at hret
      · rename_i last hhead
        obtain ⟨-, rfl⟩ : t = t ∧ a = last := by simpa [Pool.give] using hret
        have hseg : Seg s.next s.acquireHead (P .acquire) none := h.acquire
        cases hacq : P .acquire with
        | nil =>
          rw [hacq, hhead] at hseg
          cases hseg
        | cons b rest =>
          rw [hacq, hhead] at hseg
          obtain rfl := Option.some.inj hseg.1
          exact h.not_elsewhere ha (p := .acquire) (by simp) (by simp [hacq])
      · cases hret
  | install held last =>
    simp only [hpc] at hret
    split at hret
    · cases hret
    · obtain ⟨-, rfl⟩ : t = t ∧ a = last := by simpa [Pool.give] using hret
      obtain ⟨l, hs, hl⟩ := h.caller t
      have hs' : Seg s.next (s.pc t).last l none := hs
      rw [hpc] at hs'
      cases l with
      | nil => cases hs'
      | cons b rest =>
        obtain rfl := Option.some.inj hs'.1
        exact h.not_stolen ha hl List.mem_cons_self
  | allocate held =>
    simp only [hpc] at hret
    obtain ⟨-, rfl⟩ : t = t ∧ a = s.created := by simpa [Pool.give] using hret
    exact Nat.lt_irrefl _ ((h.placed.mem_iff _).mpr ⟨_, hcall⟩)

end Steps

/-! ## The acquire lock -/

section Locks

variable [DecidableEq τ] {s : Pool τ} {t : τ}

/-- Steps to go until the lock is released. -/
def Pc.toGo : Pc → Nat
  | .lookRelease _ => 3
  | .lockRelease _ => 2
  | .install _ _ | .allocate _ => 1
  | .idle | .lockAcquire => 0

omit [DecidableEq τ] in
theorem Pc.toGo_le (pc : Pc) : pc.toGo ≤ 3 := by cases pc <;> simp [Pc.toGo]

/-- The holder of the lock is the call that says so, and the acquire list is empty meanwhile. -/
structure Locks (s : Pool τ) : Prop where
  holder : ∀ t, s.acquireLock = some t ↔ (s.pc t).held = true
  empty : ∀ t, s.acquireLock = some t → s.acquireHead = none

/-- Calls whose `held` does not change. -/
theorem holder_goto (h : Locks s) {pc : Pc} (hpc : pc.held = (s.pc t).held) (t' : τ) :
    s.acquireLock = some t' ↔ (Function.update s.pc t pc t').held = true := by
  rw [h.holder]
  by_cases ht : t' = t
  · subst ht
    rw [Function.update_self, hpc]
  · rw [Function.update_of_ne ht]

/-- The lock is free, and `t` does not hold it. -/
theorem holder_free (hfree : ∀ t', t' ≠ t → (s.pc t').held = false) {pc : Pc} (hpc : pc.held = false)
    (t' : τ) : (none : Option τ) = some t' ↔ (Function.update s.pc t pc t').held = true := by
  by_cases ht : t' = t
  · subst ht
    simp [hpc]
  · simp [Function.update_of_ne ht, hfree t' ht]

omit [DecidableEq τ] in
theorem Locks.free (h : Locks s) (hlock : s.acquireLock = none) (t : τ) : (s.pc t).held = false := by
  by_contra hheld
  have := (h.holder t).mpr (by simpa using hheld)
  rw [hlock] at this
  cases this

omit [DecidableEq τ] in
/-- Nobody else holds the lock that `t` holds. -/
theorem Locks.others (h : Locks s) (hheld : (s.pc t).held = true) {t' : τ} (ht : t' ≠ t) :
    (s.pc t').held = false := by
  by_contra hother
  have h' := (h.holder t').mpr (by simpa using hother)
  rw [(h.holder t).mpr hheld] at h'
  exact ht (Option.some.inj h').symm

theorem Locks.step (h : Locks s) (action : Action τ) : Locks (ReuseAllocator.step s action).1 := by
  cases action with
  | release t set batch => exact ⟨h.holder, h.empty⟩
  | write t buffer value => exact ⟨h.holder, h.empty⟩
  | pass t t' buffer => exact ⟨h.holder, h.empty⟩
  | acquire t =>
    simp only [ReuseAllocator.step, ReuseAllocator.acquire]
    cases hpc : s.pc t with
    | idle =>
      refine ⟨holder_goto h ?_, h.empty⟩
      rw [hpc]
      split <;> rfl
    | lockAcquire =>
      simp only
      split
      · exact h
      · rename_i hlock
        have hnone : s.acquireLock = none := by simpa using hlock
        split
        · rename_i last hhead
          refine ⟨?_, fun t' ht' => absurd ht' (by simp [Pool.give, Pool.goto, hnone])⟩
          exact holder_goto h (by rw [hpc]; rfl)
        · rename_i hhead
          refine ⟨fun t' => ?_, fun _ _ => hhead⟩
          by_cases ht : t' = t
          · subst ht
            simp [Pool.goto, Pc.held]
          · simp [Pool.goto, Function.update_of_ne ht, h.free hnone t', Ne.symm ht]
    | lookRelease held =>
      refine ⟨holder_goto h ?_, h.empty⟩
      rw [hpc]
      split <;> rfl
    | lockRelease held =>
      simp only
      split
      · exact ⟨holder_goto h (by rw [hpc]; rfl), h.empty⟩
      · exact ⟨holder_goto h (by rw [hpc]; rfl), h.empty⟩
    | install held last =>
      simp only
      split
      · exact h
      · rename_i hwait
        refine ⟨holder_free (fun t' ht => ?_) rfl, fun t' ht' => absurd ht' (by simp [Pool.give, Pool.goto])⟩
        cases held with
        | true => exact h.others (by rw [hpc]; rfl) ht
        | false => exact h.free (by simpa using hwait) t'
    | allocate held =>
      cases held with
      | true =>
        refine ⟨holder_free (fun t' ht => h.others (by rw [hpc]; rfl) ht) rfl,
          fun t' ht' => absurd ht' (by simp [Pool.give, Pool.goto])⟩
      | false => exact ⟨holder_goto h (by rw [hpc]; rfl), h.empty⟩

/-- A step of the holder comes closer to the release; the steps of others change nothing. -/
theorem Locks.toGo_step (h : Locks s) (hlock : s.acquireLock = some t) (action : Action τ) :
    (ReuseAllocator.step s action).1.acquireLock = none ∨
      ((ReuseAllocator.step s action).1.acquireLock = some t ∧
        ((ReuseAllocator.step s action).1.pc t).toGo + (if action.isAcquire t then 1 else 0) ≤ (s.pc t).toGo) := by
  have hheld := (h.holder t).mp hlock
  cases action with
  | release t' set batch => exact .inr ⟨hlock, by simp [Action.isAcquire, ReuseAllocator.step, releaseBatch]⟩
  | write t' buffer value => exact .inr ⟨hlock, by simp [Action.isAcquire, ReuseAllocator.step]⟩
  | pass t' t'' buffer => exact .inr ⟨hlock, by simp [Action.isAcquire, ReuseAllocator.step]⟩
  | acquire t' =>
    by_cases ht : t' = t
    · subst ht
      have hown : Action.isAcquire t' (.acquire t') = true := by simp [Action.isAcquire]
      simp only [ReuseAllocator.step, ReuseAllocator.acquire, hown]
      cases hpc : s.pc t' with
      | idle => simp [hpc, Pc.held] at hheld
      | lockAcquire => simp [hpc, Pc.held] at hheld
      | lookRelease held =>
        refine .inr ⟨hlock, ?_⟩
        simp only [Pool.goto, Function.update_self]
        split <;> simp [Pc.toGo]
      | lockRelease held =>
        refine .inr ?_
        simp only
        split <;> simp [Pool.goto, Pc.toGo, hlock]
      | install held last =>
        left
        obtain rfl : held = true := by simpa [hpc, Pc.held] using hheld
        rfl
      | allocate held =>
        left
        obtain rfl : held = true := by simpa [hpc, Pc.held] using hheld
        rfl
    · have hother := h.others hheld ht
      have hnot : Action.isAcquire t (.acquire t') = false := by simp [Action.isAcquire, ht]
      simp only [ReuseAllocator.step, ReuseAllocator.acquire, hnot]
      right
      cases hpc : s.pc t' with
      | idle => exact ⟨hlock, by simp [Pool.goto, Function.update_of_ne (Ne.symm ht)]⟩
      | lockAcquire => simp [hlock]
      | lookRelease held => exact ⟨hlock, by simp [Pool.goto, Function.update_of_ne (Ne.symm ht)]⟩
      | lockRelease held =>
        simp only
        split <;> exact ⟨hlock, by simp [Pool.goto, Function.update_of_ne (Ne.symm ht)]⟩
      | install held last =>
        obtain rfl : held = false := by simpa [hpc, Pc.held] using hother
        simp [hlock]
      | allocate held =>
        obtain rfl : held = false := by simpa [hpc, Pc.held] using hother
        exact ⟨hlock, by simp [Pool.give, Pool.goto, Function.update_of_ne (Ne.symm ht)]⟩

theorem Locks.released_of_toGo (as : List (Action τ)) :
    ∀ s : Pool τ, Locks s → s.acquireLock = some t → (s.pc t).toGo ≤ as.countP (Action.isAcquire t) →
      ∃ n, (Run.exec ReuseAllocator.step s (as.take n)).1.acquireLock = none := by
  induction as with
  | nil =>
    intro s h hlock hcount
    have hheld := (h.holder t).mp hlock
    cases hpc : s.pc t <;> simp [hpc, Pc.held, Pc.toGo] at hheld hcount
  | cons action as ih =>
    intro s h hlock hcount
    rcases h.toGo_step hlock action with hnone | ⟨hlock', hgo⟩
    · exact ⟨1, by simpa using hnone⟩
    · obtain ⟨n, hn⟩ := ih _ (h.step action) hlock' (by rw [List.countP_cons] at hcount; omega)
      exact ⟨n + 1, by simpa using hn⟩

theorem Locks.released (h : Locks s) : Released s := fun _ hlock as hcount =>
  Locks.released_of_toGo as s h hlock ((Pc.toGo_le _).trans hcount)

end Locks

/-! ## Runs -/

section Runs

/-- Nothing is lost, and the lock is in order. -/
structure Invariant (s : Pool τ) : Prop where
  kept : s.Kept
  locks : Locks s

theorem Invariant.initial (next : Nat → Option Nat) : Invariant (initial next : Pool τ) where
  kept := by
    refine ⟨fun _ => [], ⟨rfl, rfl, fun _ => ⟨[], rfl, rfl⟩, ?_⟩, rfl⟩
    exact ⟨fun _ => List.nodup_nil, fun a => by simp [ReuseAllocator.initial], fun ha => by cases ha⟩
  locks := ⟨fun _ => by simp [ReuseAllocator.initial, Pc.held], fun _ ht => by cases ht⟩

namespace Invariant

variable {s : Pool τ} {action : Action τ}

theorem head_of_held (h : Invariant s) (t : τ) (hheld : (s.pc t).held = true) : s.acquireHead = none :=
  h.locks.empty t ((h.locks.holder t).mpr hheld)

variable [DecidableEq τ]

theorem sound (h : Invariant s) : Sound s := by
  obtain ⟨P, hP, -⟩ := h.kept
  exact ⟨h.kept, freshReturn hP, h.locks.released⟩

theorem step (h : Invariant s) (hadm : Admissible s action) (hover : OverNothing s action) :
    Invariant (step s action).1 := by
  obtain ⟨P, hP, hlost⟩ := h.kept
  obtain ⟨Q, hQ, hsame, -⟩ := step_lists hP h.head_of_held action hadm
  exact ⟨⟨Q, hQ, (hsame hover).trans hlost⟩, h.locks.step action⟩

theorem overNothing (h : Invariant s) (hadm : Admissible s action)
    (hsound : Sound (ReuseAllocator.step s action).1) : OverNothing s action := by
  obtain ⟨P, hP, hlost⟩ := h.kept
  obtain ⟨Q, hQ, -, hloses⟩ := step_lists hP h.head_of_held action hadm
  by_contra hover
  exact hloses hover (hQ.lost_of_kept hsound.kept)

end Invariant

/-- In every state of a run all buffers are kept, nothing is returned that someone has, and locks are
released, exactly if no stolen list is ever put over another list. -/
theorem reuse_allocator_keeps [DecidableEq τ] (next : Nat → Option Nat) (as : List (Action τ))
    (hadm : Run.Guarded step Admissible (initial next) as) :
    (∀ n, Sound (Run.exec step (initial next) (as.take n)).1) ↔
      Run.Guarded step OverNothing (initial next) as :=
  Run.holds_iff_guarded (fun _ h => h.sound) (fun _ _ h ha hover => h.step ha hover)
    (fun _ _ h ha hsound => h.overNothing ha hsound) as (initial next) (Invariant.initial next) hadm

/-- A buffer goes from one caller to the other by way of the two lists. -/
def handOver : List (Action Bool) :=
  [.acquire false, .acquire false, .acquire false, .write false 0 none,
    .release false ⟨some 0, some 0⟩ [0], .acquire true, .acquire true, .acquire true, .acquire true]

theorem reuse_allocator_keeps_hand_over :
    Run.Guarded step Admissible (initial fun _ => none) handOver ∧
      ∀ n, Sound (Run.exec step (initial fun _ => none) (handOver.take n)).1 := by
  have hadm : Run.Guarded step Admissible (initial fun _ => none) handOver := by decide
  exact ⟨hadm, (reuse_allocator_keeps (fun _ => none) handOver hadm).mpr (by decide)⟩

/-- The first caller steals buffers 0 and 1, the second one 2 and 3, and the second list replaces what
is left of the first. -/
def twoThieves : List (Action Bool) :=
  (List.replicate 6 (.acquire false)) ++ (List.replicate 6 (.acquire true)) ++
  [.write false 0 (some 1), .write false 1 none, .release false ⟨some 0, some 1⟩ [0, 1],
    .acquire false, .acquire false, .acquire false,
    .write true 2 (some 3), .write true 3 none, .release true ⟨some 2, some 3⟩ [2, 3],
    .acquire true, .acquire true, .acquire true, .acquire false, .acquire true]

/-- Buffer 1 is in neither list and in nobody's hands. -/
theorem not_kept_two_thieves :
    Run.Guarded step Admissible (initial fun _ => none) twoThieves ∧
      ¬ (Run.exec step (initial fun _ => none) twoThieves).1.Kept := by
  refine ⟨by decide, fun ⟨P, hP, hlost⟩ => ?_⟩
  have hacq := Seg.unique hP.acquire
    (by decide : Seg _ _ [3] none)
  have hrel := Seg.unique hP.release (by decide : Seg _ _ [] none)
  obtain ⟨p, hp⟩ := (hP.placed.mem_iff 1).mp (by decide)
  cases p with
  | acquire => simp [hacq] at hp
  | release => simp [hrel] at hp
  | lost => simp [hlost] at hp
  | caller t =>
    obtain ⟨l, hs, hl⟩ := hP.caller t
    rw [hl] at hp
    cases t with
    | false =>
      rw [Seg.unique hs (by decide : Seg _ _ [] none)] at hp
      revert hp
      decide
    | true =>
      rw [Seg.unique hs (by decide : Seg _ _ [] none)] at hp
      revert hp
      decide

end Runs

end Libcat.Mem.ReuseAllocator
