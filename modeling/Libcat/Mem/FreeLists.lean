import Libcat.Lib.Places
import Libcat.Mem.BatchSet

/-!
# The lists of an allocator

What the reuse allocator and the batch allocators have in common: an acquire list, a release list, the
release list that a call has stolen on its way to the acquire list, and the buffers that the callers
have. `Lists` says which buffers are where. A buffer that can be reached from nowhere is `lost`.

- `Lists.write`, `Lists.release`, `Lists.pass`: what callers do with their buffers.
- `Lists.steal`: the release list goes to a call.
- `Lists.give`: a call divides the acquire list and what it has stolen between its caller and the acquire
  list.
-/

namespace Libcat.Mem

open Intrusive Places

variable {τ : Type}

structure FreeLists (τ : Type) where
  next : Nat → Option Nat
  acquireHead : Option Nat
  releaseHead : Option Nat
  stolen : τ → Option Nat
  hands : τ → List Nat

inductive Place (τ : Type) where
  | acquire
  | release
  | caller (t : τ)
  | lost
  deriving DecidableEq

/-- The buffers of the lists and of the callers. -/
structure Lists (c : FreeLists τ) (all : Nat → Prop) (P : Place τ → List Nat) : Prop where
  acquire : Seg c.next c.acquireHead (P .acquire) none
  release : Seg c.next c.releaseHead (P .release) none
  caller : ∀ t, ∃ l, Seg c.next (c.stolen t) l none ∧ P (.caller t) = l ++ c.hands t
  placed : Placed P all

/-- Every buffer is in exactly one of the lists or the hands of one caller. -/
def Kept (c : FreeLists τ) (all : Nat → Prop) : Prop := ∃ P, Lists c all P ∧ P .lost = []

namespace FreeLists

variable [DecidableEq τ]

/-- A caller writes to a buffer. -/
def write (c : FreeLists τ) (buffer : Nat) (value : Option Nat) : FreeLists τ :=
  { c with next := Function.update c.next buffer value }

/-- `ReleaseBatch`. -/
def releaseBatch (c : FreeLists τ) (t : τ) (set : BatchSet Nat) (batch : List Nat) : FreeLists τ :=
  let r := set.release c.next c.releaseHead
  { c with
    next := r.1
    releaseHead := r.2
    hands := Function.update c.hands t ((c.hands t).filter (· ∉ batch)) }

/-- A buffer goes from caller to caller. -/
def pass (c : FreeLists τ) (t t' : τ) (buffer : Nat) : FreeLists τ :=
  { c with
    hands := Function.update (Function.update c.hands t ((c.hands t).erase buffer)) t'
      (buffer :: c.hands t') }

def steal (c : FreeLists τ) (t : τ) : FreeLists τ :=
  { c with releaseHead := none, stolen := Function.update c.stolen t c.releaseHead }

/-- A call ends with `batch` for its caller. -/
def give (c : FreeLists τ) (next : Nat → Option Nat) (acquireHead : Option Nat) (t : τ)
    (batch : List Nat) : FreeLists τ :=
  { next := next
    acquireHead := acquireHead
    releaseHead := c.releaseHead
    stolen := Function.update c.stolen t none
    hands := Function.update c.hands t (batch ++ c.hands t) }

end FreeLists

namespace Lists

variable {c : FreeLists τ} {all : Nat → Prop} {P : Place τ → List Nat} {t : τ} {a : Nat}

theorem mem_caller (h : Lists c all P) (ha : a ∈ c.hands t) : a ∈ P (.caller t) := by
  obtain ⟨l, -, hl⟩ := h.caller t
  rw [hl]
  exact List.mem_append_right _ ha

theorem mem_stolen (h : Lists c all P) {l : List Nat} (hl : Seg c.next (c.stolen t) l none) (ha : a ∈ l) :
    a ∈ P (.caller t) := by
  obtain ⟨l', hs, hl'⟩ := h.caller t
  rw [hl', Seg.unique hs hl]
  exact List.mem_append_left _ ha

theorem not_stolen (h : Lists c all P) (ha : a ∈ c.hands t) {t' : τ} {l : List Nat}
    (hl : P (.caller t') = l ++ c.hands t') : a ∉ l := by
  intro hal
  have hat' : a ∈ P (.caller t') := by
    rw [hl]
    exact List.mem_append_left _ hal
  obtain rfl := Place.caller.inj (h.placed.one (h.mem_caller ha) hat')
  have hnd := h.placed.nodup (.caller t)
  rw [hl] at hnd
  exact (List.nodup_append.mp hnd).2.2 a hal a ha rfl

theorem not_elsewhere (h : Lists c all P) (ha : a ∈ c.hands t) {p : Place τ} (hp : p ≠ .caller t) :
    a ∉ P p := fun hap => hp (h.placed.one hap (h.mem_caller ha))

theorem write (h : Lists c all P) (ha : a ∈ c.hands t) (v : Option Nat) :
    Lists (c.write a v) all P where
  acquire := h.acquire.frame (h.not_elsewhere ha (by simp))
  release := h.release.frame (h.not_elsewhere ha (by simp))
  caller t' := by
    obtain ⟨l, hs, hl⟩ := h.caller t'
    exact ⟨l, hs.frame (h.not_stolen ha hl), hl⟩
  placed := h.placed

/-- What is lost does not depend on how the buffers are counted. -/
theorem lost_of_kept (h : Lists c all P) (hkept : Kept c all) : P .lost = [] := by
  obtain ⟨Q, hQ, hlost⟩ := hkept
  refine List.eq_nil_iff_forall_not_mem.mpr fun a ha => ?_
  have hsame : ∀ p, p ≠ .lost → ∀ b, b ∈ Q p → b ∈ P p := by
    intro p hp b hb
    cases p with
    | acquire => rwa [Seg.unique h.acquire hQ.acquire]
    | release => rwa [Seg.unique h.release hQ.release]
    | lost => exact absurd rfl hp
    | caller t =>
      obtain ⟨l, hs, hl⟩ := h.caller t
      obtain ⟨m, hs', hm⟩ := hQ.caller t
      rwa [hl, Seg.unique hs hs', ← hm]
  have := h.placed.rest hQ.placed hsame ha
  rw [hlost] at this
  cases this

variable [DecidableEq τ]

theorem steal (h : Lists c all P) (hstolen : c.stolen t = none) :
    ∃ Q, Lists (c.steal t) all Q ∧ Q .acquire = P .acquire ∧ Q .lost = P .lost := by
  obtain ⟨l, hs, hl⟩ := h.caller t
  rw [hstolen] at hs
  obtain rfl : l = [] := Seg.unique hs (m := []) rfl
  refine ⟨Function.update (Function.update P .release []) (.caller t) (P .release ++ c.hands t),
    ⟨?_, ?_, fun t' => ?_, ?_⟩, by simp, by simp⟩
  · simpa [FreeLists.steal] using h.acquire
  · simp [FreeLists.steal, Seg]
  · by_cases ht : t' = t
    · subst ht
      exact ⟨P .release, by simpa [FreeLists.steal] using h.release, by simp [FreeLists.steal]⟩
    · simpa [FreeLists.steal, ht] using h.caller t'
  · refine h.placed.move (show Place.release ≠ .caller t by simp) (P .release) [] ?_ ?_ ?_ ?_
    · simp
    · simp
    · simp [hl]
    · intro p hp hp'
      simp [hp, hp']

/-- The acquire list and what the call has stolen are divided. -/
theorem give (h : Lists c all P) {sto batch rest : List Nat} {next : Nat → Option Nat}
    {acquireHead : Option Nat} (hs : Seg c.next (c.stolen t) sto none)
    (hnext : ∀ b, b ∉ P .acquire → b ∉ sto → next b = c.next b)
    (hperm : (P .acquire ++ sto).Perm (batch ++ rest)) (hrest : Seg next acquireHead rest none) :
    ∃ Q, Lists (c.give next acquireHead t batch) all Q ∧ Q .acquire = rest ∧ Q .lost = P .lost := by
  obtain ⟨l, hs', hl⟩ := h.caller t
  obtain rfl := Seg.unique hs' hs
  have hacq : ∀ {p b}, p ≠ .acquire → b ∈ P p → b ∉ P .acquire := fun hp hb hb' => hp (h.placed.one hb hb')
  have hsto : ∀ {p b}, p ≠ .caller t → b ∈ P p → b ∉ l := fun hp hb hb' =>
    hp (h.placed.one hb (h.mem_stolen hs hb'))
  -- everything goes to the call, and the rest comes back
  have hall : Placed (Function.update (Function.update P .acquire []) (.caller t)
      (P .acquire ++ P (.caller t))) all := by
    refine h.placed.move (show Place.acquire ≠ .caller t by simp) (P .acquire) [] ?_ ?_ ?_ ?_
    · simp
    · simp
    · simp
    · intro p hp hp'
      simp [hp, hp']
  refine ⟨Function.update (Function.update P .acquire rest) (.caller t) (batch ++ c.hands t),
    ⟨?_, ?_, fun t' => ?_, ?_⟩, by simp, by simp⟩
  · simpa [FreeLists.give] using hrest
  · rw [Function.update_of_ne (by simp), Function.update_of_ne (by simp)]
    exact h.release.congr fun b hb => hnext b (hacq (by simp) hb) (hsto (by simp) hb)
  · by_cases ht : t' = t
    · subst ht
      exact ⟨[], by simp [FreeLists.give, Seg], by simp [FreeLists.give]⟩
    · obtain ⟨m, hm, hm'⟩ := h.caller t'
      refine ⟨m, ?_, by simpa [FreeLists.give, ht] using hm'⟩
      simp only [FreeLists.give, Function.update_of_ne ht]
      refine hm.congr fun b hb => ?_
      have hbt := h.mem_stolen hm hb
      exact hnext b (hacq (by simp) hbt) (hsto (by simpa using ht) hbt)
  · refine hall.move (show Place.caller t ≠ .acquire by simp) rest (batch ++ c.hands t) ?_ ?_ ?_ ?_
    · rw [Function.update_self, hl, ← List.append_assoc, ← List.append_assoc]
      exact (hperm.trans List.perm_append_comm).append_right _
    · simp
    · simp
    · intro p hp hp'
      simp [hp, hp']

/-- The acquire list is lost. -/
theorem lose (h : Lists c all P) :
    ∃ Q, Lists { c with acquireHead := none } all Q ∧ Q .acquire = [] ∧ Q .lost = P .acquire ++ P .lost := by
  refine ⟨Function.update (Function.update P .acquire []) .lost (P .acquire ++ P .lost),
    ⟨?_, ?_, fun t' => ?_, ?_⟩, by simp, by simp⟩
  · simp [Seg]
  · simpa using h.release
  · simpa using h.caller t'
  · refine h.placed.move (show Place.acquire ≠ .lost by simp) (P .acquire) [] ?_ ?_ ?_ ?_
    · simp
    · simp
    · simp
    · intro p hp hp'
      simp [hp, hp']

/-- A caller gets a new buffer. -/
theorem add (h : Lists c all P) (ha : ¬ all a) {all' : Nat → Prop} (hall : ∀ b, all' b ↔ b = a ∨ all b)
    (hstolen : c.stolen t = none) :
    ∃ Q, Lists (c.give c.next c.acquireHead t [a]) all' Q ∧ Q .lost = P .lost := by
  obtain ⟨l, hs, hl⟩ := h.caller t
  rw [hstolen] at hs
  obtain rfl : l = [] := Seg.unique hs (m := []) rfl
  refine ⟨Function.update P (.caller t) (a :: c.hands t), ⟨?_, ?_, fun t' => ?_, ?_⟩, by simp⟩
  · simpa [FreeLists.give] using h.acquire
  · simpa [FreeLists.give] using h.release
  · by_cases ht : t' = t
    · subst ht
      exact ⟨[], by simp [FreeLists.give, Seg], by simp [FreeLists.give]⟩
    · simpa [FreeLists.give, ht] using h.caller t'
  · refine h.placed.add ha hall ?_ fun p hp => Function.update_of_ne hp _ _
    simp [hl]

theorem releaseBatch (h : Lists c all P) {set : BatchSet Nat} {batch : List Nat}
    (hset : BatchSet.Holds c.next set batch) (hb : ∀ b ∈ batch, b ∈ c.hands t) :
    ∃ Q, Lists (c.releaseBatch t set batch) all Q ∧ Q .acquire = P .acquire ∧ Q .lost = P .lost := by
  obtain ⟨l, hs, hl⟩ := h.caller t
  have hnd := h.placed.nodup (.caller t)
  rw [hl] at hnd
  have hhands := (List.nodup_append.mp hnd).2.1
  have hnext : ∀ {b}, b ∉ batch → (set.release c.next c.releaseHead).1 b = c.next b :=
    fun hb => hset.release_next hb
  -- the batch and what else the caller has
  have hsplit : (c.hands t).Perm (batch ++ (c.hands t).filter (· ∉ batch)) := by
    have hin : ((c.hands t).filter (· ∈ batch)).Perm batch := by
      refine (List.perm_ext_iff_of_nodup (hhands.filter _) hset.seg.nodup).mpr fun b => ?_
      simpa using hb b
    exact (List.filter_append_perm (· ∈ batch) (c.hands t)).symm.trans
      (by simpa using hin.append_right _)
  refine ⟨Function.update (Function.update P (.caller t) (l ++ (c.hands t).filter (· ∉ batch))) .release
    (batch ++ P .release), ⟨?_, ?_, fun t' => ?_, ?_⟩, by simp, by simp⟩
  · rw [Function.update_of_ne (by simp), Function.update_of_ne (by simp)]
    exact h.acquire.congr fun b hm => hnext fun hbb => h.not_elsewhere (hb b hbb) (by simp) hm
  · rw [Function.update_self]
    exact hset.release hset.seg.nodup h.release fun b hbb => h.not_elsewhere (hb b hbb) (by simp)
  · have hkeep : ∀ {m}, P (.caller t') = m ++ c.hands t' → Seg c.next (c.stolen t') m none →
        Seg (set.release c.next c.releaseHead).1 (c.stolen t') m none := by
      intro m hm hst
      exact hst.congr fun b hbm => hnext fun hbb => h.not_stolen (hb b hbb) hm hbm
    by_cases ht : t' = t
    · subst ht
      exact ⟨l, hkeep hl hs, by simp [FreeLists.releaseBatch]⟩
    · obtain ⟨m, hst, hm⟩ := h.caller t'
      exact ⟨m, hkeep hm hst, by simpa [FreeLists.releaseBatch, ht] using hm⟩
  · refine h.placed.move (show Place.caller t ≠ .release by simp) batch
      (l ++ (c.hands t).filter (· ∉ batch)) ?_ ?_ ?_ ?_
    · rw [hl]
      refine (hsplit.append_left l).trans ?_
      rw [← List.append_assoc, ← List.append_assoc]
      exact List.perm_append_comm.append_right _
    · simp
    · simp
    · intro p hp hp'
      simp [hp, hp']

theorem pass (h : Lists c all P) {t' : τ} (ht : t ≠ t') (ha : a ∈ c.hands t) :
    ∃ Q, Lists (c.pass t t' a) all Q ∧ Q .acquire = P .acquire ∧ Q .lost = P .lost := by
  obtain ⟨l, hs, hl⟩ := h.caller t
  obtain ⟨l', hs', hl'⟩ := h.caller t'
  refine ⟨Function.update (Function.update P (.caller t) (l ++ (c.hands t).erase a)) (.caller t')
    (l' ++ a :: c.hands t'), ⟨?_, ?_, fun t'' => ?_, ?_⟩, by simp, by simp⟩
  · simpa [FreeLists.pass] using h.acquire
  · simpa [FreeLists.pass] using h.release
  · by_cases h2 : t'' = t'
    · subst h2
      exact ⟨l', hs', by simp [FreeLists.pass]⟩
    · by_cases h1 : t'' = t
      · subst h1
        exact ⟨l, hs, by simp [FreeLists.pass, ht]⟩
      · obtain ⟨m, hst, hm⟩ := h.caller t''
        exact ⟨m, hst, by simpa [FreeLists.pass, h1, h2] using hm⟩
  · refine h.placed.move (show Place.caller t ≠ .caller t' by simpa using ht) [a]
      (l ++ (c.hands t).erase a) ?_ ?_ ?_ ?_
    · rw [hl]
      exact ((List.perm_cons_erase ha).append_left l).trans List.perm_middle
    · simp [ht]
    · rw [hl', Function.update_self]
      exact List.perm_middle
    · intro p hp hp'
      simp [hp, hp']

end Lists

end Libcat.Mem
