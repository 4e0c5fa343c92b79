import Libcat.Lib.Run
import Libcat.Math.BitMath
import Mathlib.Algebra.BigOperators.Group.Finset.Basic
import Mathlib.Data.Fintype.Card
import Mathlib.Tactic

/-!
# The readers-writer lock

`RWLock` as it is built where the operating system has no such lock: a count of readers, a flag that
the writer raises, an event that readers wait for while the flag is up, and a mutex between writers.
Every access to one of the shared words is a step, and the steps of any number of threads interleave.

A reader counts itself in and looks at the flag again; a writer raises the flag and then waits until
the count is zero. `Inv` is what the words say of the places of the threads, `rw_lock_runs` that the
lock is one that grants access to one writer or to readers, and never hangs by itself.
-/

namespace Libcat.Threads.RWLock

variable {τ : Type}

section Model

/-- The next step of a thread. A call of `WriteUnlock` is at `writeSet` once the flag is down. -/
inductive Pc where
  | out
  | readTest
  | readWait
  | readCount
  | readAgain
  | readBack
  | reading
  | writeEnter
  | writeFlag
  | writeReset
  | writeDrain
  | writing
  | writeSet
  | writeLeave
  deriving DecidableEq

/-- The thread is in `_rd_count`. -/
def Pc.counted : Pc → Bool
  | .readAgain | .readBack | .reading => true
  | _ => false

/-- The thread has `_wr_lock`. -/
def Pc.holds : Pc → Bool
  | .writeFlag | .writeReset | .writeDrain | .writing | .writeSet | .writeLeave => true
  | _ => false

/-- The thread has set `_wr_count`. -/
def Pc.flagged : Pc → Bool
  | .writeReset | .writeDrain | .writing => true
  | _ => false

/-- The thread has reset `_rd_event`. -/
def Pc.closed : Pc → Bool
  | .writeDrain | .writing | .writeSet => true
  | _ => false

structure Lock (τ : Type) where
  rdCount : u32
  wrCount : u32
  rdEvent : Bool
  wrLock : Option τ
  pc : τ → Pc

/-- The lock is had, or is given back. -/
inductive Event (τ : Type) where
  | readLocked (t : τ)
  | readUnlocked (t : τ)
  | writeLocked (t : τ)
  | writeUnlocked (t : τ)
  deriving DecidableEq

/-- A call starts, or a call that has started does its next step. -/
inductive Action (τ : Type) where
  | readLock (t : τ)
  | readUnlock (t : τ)
  | writeLock (t : τ)
  | writeUnlock (t : τ)
  | advance (t : τ)

def initial : Lock τ where
  rdCount := 0
  wrCount := 0
  rdEvent := true
  wrLock := none
  pc := fun _ => .out

variable [DecidableEq τ]

def goto (s : Lock τ) (t : τ) (c : Pc) : Lock τ := { s with pc := Function.update s.pc t c }

/-- The steps of `ReadLock`, `WriteLock` and `WriteUnlock`. A step that waits changes nothing. -/
def advance (s : Lock τ) (t : τ) : Lock τ × List (Event τ) :=
  match s.pc t with
  | .out | .reading | .writing => (s, [])
  | .readTest => (goto s t (if s.wrCount = 0 then .readCount else .readWait), [])
  | .readWait => if s.rdEvent then (goto s t .readCount, []) else (s, [])
  | .readCount => (goto { s with rdCount := s.rdCount + 1 } t .readAgain, [])
  | .readAgain =>
    if s.wrCount = 0 then (goto s t .reading, [.readLocked t]) else (goto s t .readBack, [])
  | .readBack => (goto { s with rdCount := s.rdCount - 1 } t .readTest, [])
  | .writeEnter =>
    if s.wrLock.isSome then (s, []) else (goto { s with wrLock := some t } t .writeFlag, [])
  | .writeFlag => (goto { s with wrCount := 1 } t .writeReset, [])
  | .writeReset => (goto { s with rdEvent := false } t .writeDrain, [])
  | .writeDrain =>
    if s.rdCount = 0 then (goto s t .writing, [.writeLocked t]) else (s, [])
  | .writeSet => (goto { s with rdEvent := true } t .writeLeave, [])
  | .writeLeave => (goto { s with wrLock := none } t .out, [])

def step (s : Lock τ) : Action τ → Lock τ × List (Event τ)
  | .readLock t => (goto s t .readTest, [])
  | .readUnlock t => (goto { s with rdCount := s.rdCount - 1 } t .out, [.readUnlocked t])
  | .writeLock t => (goto s t .writeEnter, [])
  | .writeUnlock t => (goto { s with wrCount := 0 } t .writeSet, [.writeUnlocked t])
  | .advance t => advance s t

/-- A thread gives back what it has, and asks for the lock when it has nothing. -/
def Admissible (s : Lock τ) : Action τ → Prop
  | .readLock t | .writeLock t => s.pc t = .out
  | .readUnlock t => s.pc t = .reading
  | .writeUnlock t => s.pc t = .writing
  | .advance _ => True

instance (s : Lock τ) : ∀ a, Decidable (Admissible s a)
  | .readLock t | .writeLock t => inferInstanceAs (Decidable (s.pc t = .out))
  | .readUnlock t => inferInstanceAs (Decidable (s.pc t = .reading))
  | .writeUnlock t => inferInstanceAs (Decidable (s.pc t = .writing))
  | .advance _ => inferInstanceAs (Decidable True)

end Model

/-! ## What the lock is for -/

section Access

/-- Who has access: readers, or one writer. -/
inductive Access (τ : Type) where
  | shared (readers : Finset τ)
  | exclusive (writer : τ)

variable [DecidableEq τ]

/-- Access is granted and given back; nothing else can happen. -/
def Access.apply : Access τ → Event τ → Option (Access τ)
  | .shared readers, .readLocked t =>
    if t ∈ readers then none else some (.shared (insert t readers))
  | .shared readers, .readUnlocked t =>
    if t ∈ readers then some (.shared (readers.erase t)) else none
  | .shared readers, .writeLocked t => if readers = ∅ then some (.exclusive t) else none
  | .exclusive writer, .writeUnlocked t => if t = writer then some (.shared ∅) else none
  | _, _ => none

def Access.replay (access : Access τ) (log : List (Event τ)) : Option (Access τ) :=
  log.foldlM Access.apply access

/-- The threads that have access are those that are behind a lock call and before the unlock. -/
def Access.Matches : Access τ → (τ → Pc) → Prop
  | .shared readers, pc => (∀ t, t ∈ readers ↔ pc t = .reading) ∧ ∀ t, pc t ≠ .writing
  | .exclusive writer, pc => (∀ t, pc t = .writing ↔ t = writer) ∧ ∀ t, pc t ≠ .reading

/-- A thread has access. -/
def Held (s : Lock τ) : Prop := ∃ t, s.pc t = .reading ∨ s.pc t = .writing

/-- **What is claimed** of every state and the log up to it. -/
structure Sound (s : Lock τ) (log : List (Event τ)) : Prop where
  history : ∃ access, (Access.shared ∅).replay log = some access ∧ access.Matches s.pc
  progress : (∃ t, s.pc t ≠ .out) → Held s ∨ ∃ t, (advance s t).1 ≠ s

end Access

/-! ## Threads in the count -/

section Counting

variable [Fintype τ]

def numCounted (pc : τ → Pc) : Nat := (Finset.univ.filter fun t => (pc t).counted).card

theorem numCounted_le (pc : τ → Pc) : numCounted pc ≤ Fintype.card τ := Finset.card_le_univ _

/-- One thread moves: the count follows it. -/
theorem numCounted_update [DecidableEq τ] (pc : τ → Pc) (t : τ) (c : Pc) :
    numCounted (Function.update pc t c) + (pc t).counted.toNat = numCounted pc + c.counted.toNat := by
  have hsum : ∀ f : τ → Pc, numCounted f = (f t).counted.toNat +
      ∑ u ∈ Finset.univ.erase t, (f u).counted.toNat := by
    intro f
    unfold numCounted
    rw [Finset.card_filter, Finset.add_sum_erase _ (fun u => (f u).counted.toNat) (Finset.mem_univ t)]
    refine Finset.sum_congr rfl fun u _ => ?_
    cases (f u).counted <;> rfl
  have hrest : ∑ u ∈ Finset.univ.erase t, (Function.update pc t c u).counted.toNat =
      ∑ u ∈ Finset.univ.erase t, (pc u).counted.toNat := by
    refine Finset.sum_congr rfl fun u hu => ?_
    rw [Function.update_of_ne (Finset.ne_of_mem_erase hu)]
  rw [hsum (Function.update pc t c), hsum pc, hrest, Function.update_self]
  omega

theorem numCounted_pos {pc : τ → Pc} {t : τ} (h : (pc t).counted = true) : 0 < numCounted pc :=
  Finset.card_pos.mpr ⟨t, Finset.mem_filter.mpr ⟨Finset.mem_univ t, h⟩⟩

theorem counted_of_pos {pc : τ → Pc} (h : 0 < numCounted pc) : ∃ t, (pc t).counted = true := by
  obtain ⟨t, ht⟩ := Finset.card_pos.mp h
  exact ⟨t, (Finset.mem_filter.mp ht).2⟩

end Counting

/-! ## The invariant -/

section Invariant

variable [Fintype τ]

/-- What the shared words say of the places of the threads. -/
structure Inv (s : Lock τ) : Prop where
  count : s.rdCount.toNat = numCounted s.pc
  holder : ∀ t, (s.pc t).holds = true ↔ s.wrLock = some t
  free : s.wrLock = none → s.wrCount = 0 ∧ s.rdEvent = true
  taken : ∀ t, s.wrLock = some t →
    (s.wrCount = 0 ↔ (s.pc t).flagged = false) ∧ s.rdEvent = !(s.pc t).closed

theorem Inv.initial : Inv (initial : Lock τ) where
  count := by
    refine (Finset.card_eq_zero.mpr (Finset.filter_eq_empty_iff.mpr fun t _ => ?_)).symm
    exact Bool.false_ne_true
  holder := fun t => ⟨fun h => absurd h Bool.false_ne_true, fun h => absurd h.symm (Option.some_ne_none t)⟩
  free := fun _ => ⟨rfl, rfl⟩
  taken := fun t h => absurd h.symm (Option.some_ne_none t)

variable [DecidableEq τ] {s : Lock τ} {t : τ} {c : Pc}

/-- A thread without the mutex moves, and the count with it. -/
theorem Inv.reader (h : Inv s) {n : u32} (hpc : (s.pc t).holds = false) (hc : c.holds = false)
    (hn : n.toNat + (s.pc t).counted.toNat = s.rdCount.toNat + c.counted.toNat) :
    Inv (goto { s with rdCount := n } t c) where
  count := by
    have hmove := numCounted_update s.pc t c
    have hcount := h.count
    show n.toNat = numCounted (Function.update s.pc t c)
    omega
  holder := fun u => by
    show (Function.update s.pc t c u).holds = true ↔ s.wrLock = some u
    rw [← h.holder u]
    by_cases hu : u = t
    · rw [hu, Function.update_self, hpc, hc]
    · rw [Function.update_of_ne hu]
  free := h.free
  taken := fun u hu => by
    have hne : u ≠ t := by
      rintro rfl
      rw [(h.holder u).mpr hu] at hpc
      exact Bool.noConfusion hpc
    show (_ ↔ (Function.update s.pc t c u).flagged = false) ∧
      _ = !(Function.update s.pc t c u).closed
    rw [Function.update_of_ne hne]
    exact h.taken u hu

/-- The thread with the mutex moves, and sets the flag and the event for its new place. -/
theorem Inv.writer (h : Inv s) {flag : u32} {event : Bool} (hpc : (s.pc t).holds = true)
    (hc : c.holds = true) (hcounted : c.counted = (s.pc t).counted)
    (hflag : flag = 0 ↔ c.flagged = false) (hevent : event = !c.closed) :
    Inv (goto { s with wrCount := flag, rdEvent := event } t c) where
  count := by
    have hmove := numCounted_update s.pc t c
    have hcount := h.count
    rw [hcounted] at hmove
    show s.rdCount.toNat = numCounted (Function.update s.pc t c)
    omega
  holder := fun u => by
    show (Function.update s.pc t c u).holds = true ↔ s.wrLock = some u
    rw [← h.holder u]
    by_cases hu : u = t
    · rw [hu, Function.update_self, hpc, hc]
    · rw [Function.update_of_ne hu]
  free := fun hnone => by
    have hheld := (h.holder t).mp hpc
    exact absurd (hheld.symm.trans hnone) (Option.some_ne_none t)
  taken := fun u hu => by
    have heq : u = t := Option.some.inj (hu.symm.trans ((h.holder t).mp hpc))
    show (_ ↔ (Function.update s.pc t c u).flagged = false) ∧
      _ = !(Function.update s.pc t c u).closed
    rw [heq, Function.update_self]
    exact ⟨hflag, hevent⟩

/-- A writer takes the mutex. -/
theorem Inv.enter (h : Inv s) (hpc : s.pc t = .writeEnter) (hfree : s.wrLock = none) :
    Inv (goto { s with wrLock := some t } t .writeFlag) where
  count := by
    have hmove := numCounted_update s.pc t .writeFlag
    have hcount := h.count
    rw [hpc] at hmove
    show s.rdCount.toNat = numCounted (Function.update s.pc t .writeFlag)
    exact hcount.trans hmove.symm
  holder := fun u => by
    show (Function.update s.pc t .writeFlag u).holds = true ↔ some t = some u
    by_cases hu : u = t
    · rw [hu, Function.update_self]
      exact ⟨fun _ => rfl, fun _ => rfl⟩
    · rw [Function.update_of_ne hu, h.holder u, hfree]
      exact ⟨fun he => absurd he.symm (Option.some_ne_none u), fun he =>
        absurd (Option.some.inj he).symm hu⟩
  free := fun hnone => absurd hnone (Option.some_ne_none t)
  taken := fun u hu => by
    have heq : t = u := Option.some.inj hu
    show (_ ↔ (Function.update s.pc t .writeFlag u).flagged = false) ∧
      _ = !(Function.update s.pc t .writeFlag u).closed
    rw [← heq, Function.update_self]
    exact ⟨iff_of_true (h.free hfree).1 rfl, (h.free hfree).2⟩

/-- A writer gives the mutex back. -/
theorem Inv.leave (h : Inv s) (hpc : s.pc t = .writeLeave) :
    Inv (goto { s with wrLock := none } t .out) where
  count := by
    have hmove := numCounted_update s.pc t .out
    have hcount := h.count
    rw [hpc] at hmove
    show s.rdCount.toNat = numCounted (Function.update s.pc t .out)
    exact hcount.trans hmove.symm
  holder := fun u => by
    show (Function.update s.pc t .out u).holds = true ↔ none = some u
    have hheld : s.wrLock = some t := (h.holder t).mp (by rw [hpc]; rfl)
    by_cases hu : u = t
    · rw [hu, Function.update_self]
      exact ⟨fun he => absurd he Bool.false_ne_true, fun he => absurd he.symm (Option.some_ne_none t)⟩
    · rw [Function.update_of_ne hu, h.holder u, hheld]
      exact ⟨fun he => absurd (Option.some.inj he).symm hu, fun he =>
        absurd he.symm (Option.some_ne_none u)⟩
  free := fun _ => by
    have hheld : s.wrLock = some t := (h.holder t).mp (by rw [hpc]; rfl)
    obtain ⟨hflag, hevent⟩ := h.taken t hheld
    rw [hpc] at hflag hevent
    exact ⟨hflag.mpr rfl, hevent⟩
  taken := fun u hu => absurd hu.symm (Option.some_ne_none u)

/-- A thread without the mutex moves, and the count stays. -/
theorem Inv.stay (h : Inv s) (hpc : (s.pc t).holds = false) (hc : c.holds = false)
    (hcounted : c.counted = (s.pc t).counted) : Inv (goto s t c) :=
  h.reader (n := s.rdCount) hpc hc (by rw [hcounted])

/-- A thread counts itself in. The count does not wrap: there are not that many threads. -/
theorem Inv.countIn (h : Inv s) (hcard : Fintype.card τ < 2 ^ 32) (hpc : s.pc t = .readCount) :
    Inv (goto { s with rdCount := s.rdCount + 1 } t .readAgain) := by
  refine h.reader (by rw [hpc]; rfl) rfl ?_
  have hmove := numCounted_update s.pc t .readAgain
  have hle := numCounted_le (Function.update s.pc t .readAgain)
  rw [hpc, ← h.count] at hmove
  simp only [Pc.counted, Bool.toNat_true, Bool.toNat_false, Nat.add_zero] at hmove
  rw [hpc, BitVec.toNat_add, Nat.mod_eq_of_lt]
  · rfl
  · show s.rdCount.toNat + 1 < 2 ^ 32
    omega

/-- A thread counts itself out. -/
theorem Inv.countOut (h : Inv s) (hpc : (s.pc t).counted = true) (hc : c.counted = false)
    (hholds : (s.pc t).holds = false) (hc' : c.holds = false) :
    Inv (goto { s with rdCount := s.rdCount - 1 } t c) := by
  refine h.reader hholds hc' ?_
  have hpos := numCounted_pos hpc
  rw [← h.count] at hpos
  rw [hpc, hc]
  simp only [Bool.toNat_true, Bool.toNat_false]
  bv_omega

theorem Inv.advance (h : Inv s) (hcard : Fintype.card τ < 2 ^ 32) (t : τ) : Inv (advance s t).1 := by
  unfold RWLock.advance
  have htaken := fun hholds => h.taken t ((h.holder t).mp hholds)
  cases hpc : s.pc t with
  | out | reading | writing => exact h
  | readTest =>
    refine h.stay (by rw [hpc]; rfl) ?_ ?_
    · split <;> rfl
    · rw [hpc]
      split <;> rfl
  | readWait =>
    dsimp only
    split
    · exact h.stay (by rw [hpc]; rfl) rfl (by rw [hpc]; rfl)
    · exact h
  | readCount => exact h.countIn hcard hpc
  | readAgain =>
    dsimp only
    split <;> exact h.stay (by rw [hpc]; rfl) rfl (by rw [hpc]; rfl)
  | readBack => exact h.countOut (by rw [hpc]; rfl) rfl (by rw [hpc]; rfl) rfl
  | writeEnter =>
    dsimp only
    split
    · exact h
    · next hfree => exact h.enter hpc (Option.not_isSome_iff_eq_none.mp hfree)
  | writeFlag =>
    rw [hpc] at htaken
    exact h.writer (by rw [hpc]; rfl) rfl (by rw [hpc]; rfl) (by decide) (htaken rfl).2
  | writeReset =>
    rw [hpc] at htaken
    exact h.writer (by rw [hpc]; rfl) rfl (by rw [hpc]; rfl) (htaken rfl).1 rfl
  | writeDrain =>
    rw [hpc] at htaken
    dsimp only
    split
    · exact h.writer (by rw [hpc]; rfl) rfl (by rw [hpc]; rfl) (htaken rfl).1 (htaken rfl).2
    · exact h
  | writeSet =>
    rw [hpc] at htaken
    exact h.writer (by rw [hpc]; rfl) rfl (by rw [hpc]; rfl) (htaken rfl).1 rfl
  | writeLeave => exact h.leave hpc

theorem Inv.step (h : Inv s) (hcard : Fintype.card τ < 2 ^ 32) {a : Action τ} (ha : Admissible s a) :
    Inv (step s a).1 := by
  cases a with
  | readLock t =>
    have hpc : s.pc t = .out := ha
    exact h.stay (by rw [hpc]; rfl) rfl (by rw [hpc]; rfl)
  | readUnlock t =>
    have hpc : s.pc t = .reading := ha
    exact h.countOut (by rw [hpc]; rfl) rfl (by rw [hpc]; rfl) rfl
  | writeLock t =>
    have hpc : s.pc t = .out := ha
    exact h.stay (by rw [hpc]; rfl) rfl (by rw [hpc]; rfl)
  | writeUnlock t =>
    have hpc : s.pc t = .writing := ha
    have hheld : (s.pc t).holds = true := by rw [hpc]; rfl
    have htaken := h.taken t ((h.holder t).mp hheld)
    rw [hpc] at htaken
    exact h.writer hheld rfl (by rw [hpc]; rfl) (iff_of_true rfl rfl) htaken.2
  | advance t => exact h.advance hcard t

end Invariant

/-! ## Access -/

section History

variable [DecidableEq τ] {access : Access τ} {readers : Finset τ} {writer t : τ} {pc : τ → Pc} {c : Pc}

/-- A thread that moves elsewhere does not change who has access. -/
theorem Access.Matches.quiet (h : access.Matches pc) (hr : c = .reading ↔ pc t = .reading)
    (hw : c = .writing ↔ pc t = .writing) : access.Matches (Function.update pc t c) := by
  have hread : ∀ u, Function.update pc t c u = .reading ↔ pc u = .reading := by
    intro u
    by_cases hu : u = t
    · rw [hu, Function.update_self, hr]
    · rw [Function.update_of_ne hu]
  have hwrite : ∀ u, Function.update pc t c u = .writing ↔ pc u = .writing := by
    intro u
    by_cases hu : u = t
    · rw [hu, Function.update_self, hw]
    · rw [Function.update_of_ne hu]
  cases access with
  | shared readers =>
    exact ⟨fun u => (h.1 u).trans (hread u).symm, fun u hu => h.2 u ((hwrite u).mp hu)⟩
  | exclusive writer =>
    exact ⟨fun u => (hwrite u).trans (h.1 u), fun u hu => h.2 u ((hread u).mp hu)⟩

/-- A reader gets in while no writer has access. -/
theorem Access.Matches.readLocked (h : access.Matches pc) (ht : pc t ≠ .reading)
    (hfree : ∀ u, pc u ≠ .writing) :
    ∃ access', access.apply (.readLocked t) = some access' ∧
      access'.Matches (Function.update pc t .reading) := by
  cases access with
  | exclusive writer => exact absurd ((h.1 writer).mpr rfl) (hfree writer)
  | shared readers =>
    refine ⟨.shared (insert t readers), if_neg fun hm => ht ((h.1 t).mp hm), fun u => ?_, fun u => ?_⟩
    all_goals
      by_cases hu : u = t
      · simp [hu]
      · simp [hu, h.1 u, h.2 u]

theorem Access.Matches.readUnlocked (h : access.Matches pc) (ht : pc t = .reading) :
    ∃ access', access.apply (.readUnlocked t) = some access' ∧
      access'.Matches (Function.update pc t .out) := by
  cases access with
  | exclusive writer => exact absurd ht (h.2 t)
  | shared readers =>
    refine ⟨.shared (readers.erase t), if_pos ((h.1 t).mpr ht), fun u => ?_, fun u => ?_⟩
    all_goals
      by_cases hu : u = t
      · simp [hu]
      · simp [hu, h.1 u, h.2 u]

/-- A writer gets in while nobody has access. -/
theorem Access.Matches.writeLocked (h : access.Matches pc) (hfree : ∀ u, pc u ≠ .writing)
    (hdrained : ∀ u, pc u ≠ .reading) :
    ∃ access', access.apply (.writeLocked t) = some access' ∧
      access'.Matches (Function.update pc t .writing) := by
  cases access with
  | exclusive writer => exact absurd ((h.1 writer).mpr rfl) (hfree writer)
  | shared readers =>
    have hnone : readers = ∅ :=
      Finset.eq_empty_iff_forall_notMem.mpr fun u hu => hdrained u ((h.1 u).mp hu)
    refine ⟨.exclusive t, if_pos hnone, fun u => ?_, fun u => ?_⟩
    all_goals
      by_cases hu : u = t
      · simp [hu]
      · simp [hu, hfree u, hdrained u]

theorem Access.Matches.writeUnlocked (h : access.Matches pc) (ht : pc t = .writing) :
    ∃ access', access.apply (.writeUnlocked t) = some access' ∧
      access'.Matches (Function.update pc t .writeSet) := by
  cases access with
  | shared readers => exact absurd ht (h.2 t)
  | exclusive writer =>
    have heq := (h.1 t).mp ht
    refine ⟨.shared ∅, if_pos heq, fun u => ?_, fun u => ?_⟩
    all_goals
      by_cases hu : u = t
      · simp [hu]
      · simp [Function.update_of_ne hu, h.1 u, h.2 u, heq ▸ hu]

theorem Access.replay_singleton (e : Event τ) : access.replay [e] = access.apply e := by
  unfold Access.replay
  rw [List.foldlM_cons]
  cases access.apply e <;> rfl

theorem Access.replay_append (l m : List (Event τ)) :
    access.replay (l ++ m) = (access.replay l).bind (·.replay m) := by
  unfold Access.replay
  rw [List.foldlM_append]
  rfl

end History

/-! ## Runs -/

section Runs

variable [Fintype τ] {s s' : Lock τ} {t : τ} {c : Pc}

/-- The flag is up while a writer has access. -/
theorem Inv.not_writing (h : Inv s) (hflag : s.wrCount = 0) : s.pc t ≠ .writing := by
  intro hpc
  have hheld : (s.pc t).holds = true := by rw [hpc]; rfl
  have hdown := (h.taken t ((h.holder t).mp hheld)).1.mp hflag
  rw [hpc] at hdown
  exact Bool.noConfusion hdown

/-- The count is above zero while a reader has access. -/
theorem Inv.not_reading (h : Inv s) (hcount : s.rdCount = 0) : s.pc t ≠ .reading := by
  intro hpc
  have hcounted : (s.pc t).counted = true := by rw [hpc]; rfl
  have hpos := numCounted_pos hcounted
  rw [← h.count, hcount] at hpos
  exact Nat.lt_irrefl 0 hpos

variable [DecidableEq τ]

/-- A step of a call is one that the lock allows: what it logs is granted, and the threads show it. -/
theorem Inv.history_advance (h : Inv s) {access : Access τ} (hm : access.Matches s.pc) (t : τ) :
    ∃ access', access.replay (RWLock.advance s t).2 = some access' ∧
      access'.Matches (RWLock.advance s t).1.pc := by
  unfold RWLock.advance
  cases hpc : s.pc t with
  | out | reading | writing => exact ⟨access, rfl, hm⟩
  | readTest =>
    refine ⟨access, rfl, hm.quiet ?_ ?_⟩
    all_goals
      rw [hpc]
      split <;> decide
  | readWait | writeEnter =>
    dsimp only
    split
    all_goals first
      | exact ⟨access, rfl, hm⟩
      | exact ⟨access, rfl, hm.quiet (by rw [hpc]; decide) (by rw [hpc]; decide)⟩
  | readCount | readBack | writeFlag | writeReset | writeSet | writeLeave =>
    exact ⟨access, rfl, hm.quiet (by rw [hpc]; decide) (by rw [hpc]; decide)⟩
  | readAgain =>
    dsimp only
    split
    · next hflag =>
      rw [Access.replay_singleton]
      exact hm.readLocked (by rw [hpc]; decide) fun u => h.not_writing hflag
    · exact ⟨access, rfl, hm.quiet (by rw [hpc]; decide) (by rw [hpc]; decide)⟩
  | writeDrain =>
    dsimp only
    split
    · next hcount =>
      rw [Access.replay_singleton]
      refine hm.writeLocked (fun u hu => ?_) fun u => h.not_reading hcount
      -- the mutex is with one thread
      have hmine := (h.holder t).mp (by rw [hpc]; rfl)
      have htheirs := (h.holder u).mp (by rw [hu]; rfl)
      rw [Option.some.inj (hmine.symm.trans htheirs), hu] at hpc
      exact Pc.noConfusion hpc
    · exact ⟨access, rfl, hm⟩

theorem Inv.history (h : Inv s) {a : Action τ} (ha : Admissible s a) {access : Access τ}
    (hm : access.Matches s.pc) :
    ∃ access', access.replay (RWLock.step s a).2 = some access' ∧
      access'.Matches (RWLock.step s a).1.pc := by
  cases a with
  | readLock t | writeLock t =>
    have hpc : s.pc t = .out := ha
    exact ⟨access, rfl, hm.quiet (by rw [hpc]; decide) (by rw [hpc]; decide)⟩
  | readUnlock t =>
    unfold RWLock.step
    rw [Access.replay_singleton]
    exact hm.readUnlocked ha
  | writeUnlock t =>
    unfold RWLock.step
    rw [Access.replay_singleton]
    exact hm.writeUnlocked ha
  | advance t => exact h.history_advance hm t

/-- The steps that never wait. -/
def Pc.runs : Pc → Bool
  | .readTest | .readCount | .readAgain | .readBack | .writeFlag | .writeReset | .writeSet
  | .writeLeave => true
  | _ => false

omit [Fintype τ] in
theorem goto_ne (h : c ≠ s.pc t) : goto s' t c ≠ s := by
  intro heq
  have hpc : Function.update s'.pc t c t = s.pc t := congrArg (fun s : Lock τ => s.pc t) heq
  rw [Function.update_self] at hpc
  exact h hpc

omit [Fintype τ] in
theorem advance_of_runs (h : (s.pc t).runs = true) : (advance s t).1 ≠ s := by
  unfold advance
  cases hpc : s.pc t with
  | readTest =>
    refine goto_ne ?_
    rw [hpc]
    split <;> decide
  | readCount | readBack | writeFlag | writeReset | writeSet | writeLeave =>
    exact goto_ne (by rw [hpc]; decide)
  | readAgain =>
    dsimp only
    split <;> exact goto_ne (by rw [hpc]; decide)
  | out | reading | writing | readWait | writeEnter | writeDrain =>
    rw [hpc] at h
    exact Bool.noConfusion h

/-- The thread with the mutex goes on, or the readers that it waits for do. -/
theorem Inv.holder_moves (h : Inv s) (hheld : ¬Held s) (hlock : s.wrLock = some t) :
    ∃ u, (RWLock.advance s u).1 ≠ s := by
  have hholds := (h.holder t).mpr hlock
  by_cases hruns : (s.pc t).runs = true
  · exact ⟨t, advance_of_runs hruns⟩
  · have hpc : s.pc t = .writeDrain := by
      have hnot : s.pc t ≠ .writing := fun hpc => hheld ⟨t, .inr hpc⟩
      cases hpc : s.pc t <;> rw [hpc] at hholds hruns hnot <;> first
        | rfl
        | exact absurd rfl hnot
        | exact absurd rfl hruns
        | exact Bool.noConfusion hholds
    by_cases hcount : s.rdCount = 0
    · refine ⟨t, ?_⟩
      unfold RWLock.advance
      rw [hpc]
      dsimp only
      rw [if_pos hcount]
      exact goto_ne (by rw [hpc]; decide)
    · have hpos : 0 < numCounted s.pc := by
        rw [← h.count]
        exact Nat.pos_of_ne_zero fun hzero => hcount (BitVec.eq_of_toNat_eq hzero)
      obtain ⟨u, hu⟩ := counted_of_pos hpos
      refine ⟨u, advance_of_runs ?_⟩
      have hnot : s.pc u ≠ .reading := fun hpc => hheld ⟨u, .inl hpc⟩
      cases hpc : s.pc u <;> rw [hpc] at hu hnot <;> first
        | rfl
        | exact absurd rfl hnot
        | exact Bool.noConfusion hu

/-- While nobody has access, a thread in a call can go on. -/
theorem Inv.progress (h : Inv s) (hbusy : ∃ t, s.pc t ≠ .out) :
    Held s ∨ ∃ t, (RWLock.advance s t).1 ≠ s := by
  by_cases hheld : Held s
  · exact .inl hheld
  · refine .inr ?_
    obtain ⟨t, ht⟩ := hbusy
    by_cases hruns : (s.pc t).runs = true
    · exact ⟨t, advance_of_runs hruns⟩
    · cases hlock : s.wrLock with
      | some u => exact h.holder_moves hheld hlock
      | none =>
        refine ⟨t, ?_⟩
        unfold RWLock.advance
        cases hpc : s.pc t with
        | out => exact absurd hpc ht
        | reading => exact absurd ⟨t, .inl hpc⟩ hheld
        | writing => exact absurd ⟨t, .inr hpc⟩ hheld
        | readWait =>
          dsimp only
          rw [if_pos (h.free hlock).2]
          exact goto_ne (by rw [hpc]; decide)
        | writeEnter =>
          dsimp only
          rw [hlock, if_neg (show ¬(none : Option τ).isSome = true from Bool.false_ne_true)]
          exact goto_ne (by rw [hpc]; decide)
        | writeDrain =>
          have hholds := (h.holder t).mp (by rw [hpc]; rfl)
          exact absurd (hlock.symm.trans hholds).symm (Option.some_ne_none t)
        | readTest | readCount | readAgain | readBack | writeFlag | writeReset | writeSet | writeLeave =>
          rw [hpc] at hruns
          exact absurd rfl hruns

/-- **The readers-writer lock.** In every interleaving of any number of threads, below the range of
the count, that give back what they have: the log is one of a lock that readers share and a writer has
alone, and the threads between a lock call and the unlock are those with access. While nobody has
access, a thread in a call can go on. -/
theorem rw_lock_runs (hcard : Fintype.card τ < 2 ^ 32) (as : List (Action τ))
    (hg : Run.Guarded step Admissible initial as) :
    Sound (Run.exec step (initial : Lock τ) as).1 (Run.exec step (initial : Lock τ) as).2 := by
  have hstep : ∀ (s : Lock τ) (log : List (Event τ)) (a : Action τ),
      (Inv s ∧ ∃ access, (Access.shared ∅).replay log = some access ∧ access.Matches s.pc) →
        Admissible s a → Inv (step s a).1 ∧ ∃ access,
          (Access.shared ∅).replay (log ++ (step s a).2) = some access ∧
            access.Matches (step s a).1.pc := by
    rintro s log a ⟨hinv, access, hlog, hm⟩ ha
    obtain ⟨access', hlog', hm'⟩ := hinv.history ha hm
    refine ⟨hinv.step hcard ha, access', ?_, hm'⟩
    rw [Access.replay_append, hlog]
    exact hlog'
  have hnobody : (Access.shared ∅).Matches (initial : Lock τ).pc :=
    ⟨fun t => iff_of_false (Finset.notMem_empty t) Pc.noConfusion, fun t => Pc.noConfusion⟩
  have hrun := Run.exec_inv _ hstep as initial [] ⟨Inv.initial, .shared ∅, rfl, hnobody⟩ hg
  exact ⟨hrun.2, hrun.1.progress⟩

end Runs

/-- A reader that has counted itself in meets the flag of a writer, steps back and waits. -/
def race : List (Action Bool) :=
  [.readLock false, .writeLock true, .advance false, .advance true, .advance true, .advance false,
    .advance true, .advance false, .advance true, .advance false, .advance true, .advance false,
    .writeUnlock true, .advance true, .advance false, .advance true, .advance false, .advance false,
    .readUnlock false]

theorem rw_lock_runs_race :
    (Run.exec step initial race).2 =
        [.writeLocked true, .writeUnlocked true, .readLocked false, .readUnlocked false] ∧
      Sound (Run.exec step initial race).1 (Run.exec step initial race).2 :=
  ⟨by decide, rw_lock_runs (by decide) race (by decide)⟩

end Libcat.Threads.RWLock
