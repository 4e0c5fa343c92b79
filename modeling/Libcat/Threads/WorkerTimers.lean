import Libcat.Lib.Run

/-!
# The timers of a worker thread

`Associate` puts a timer into a second array, which a callback may do too, and `TickTimers` goes over the
first one: it releases the timers of objects that are shut down, with the last timer in the place of
each, calls the others, and then takes over the timers of the second array. An access outside of an array
leaves no state.

`TickTimers` is a step for each timer here, and one for what follows the loop. What callbacks do, and
what other threads do between two timers, are the actions in between.

`Inv` keeps the lists that the arrays hold, and of a loop that is running the timers that it has called.
-/

namespace Libcat.Threads.WorkerTimers

open Run

/-- An element in the timer object array. -/
structure WorkerTimer (α κ : Type) where
  object : α
  callback : κ
deriving DecidableEq

/-- An array as `new` returns it, with the cells that are written; the null pointer has none. -/
abbrev Cells (α κ : Type) := List (Option (WorkerTimer α κ))

/-- The parameter and the locals of a `TickTimers` that is running. -/
structure Tick where
  now : Nat
  ii : Nat
  timersCount : Nat
deriving DecidableEq

structure WorkerThread (α κ : Type) where
  timers : Cells α κ
  timersCount : Nat
  timersAllocated : Nat
  newTimers : Cells α κ
  newTimersCount : Nat
  newTimersAllocated : Nat
  isShutdown : α → Bool
  tick : Option Tick

/-- `ok` says that `new` succeeds. -/
inductive Action (α κ : Type) where
  | associate (object : Option α) (callback : Option κ) (ok : Bool)
  | shutdown (object : α)
  | tickTimers (now : Nat)
  | next
  | merge (ok : Bool)

/-- `associated` comes with a reference, `released` without one. -/
inductive Event (α κ : Type) where
  | associated (timer : WorkerTimer α κ)
  | refused
  | shutdown (object : α)
  | tick (now : Nat)
  | invoked (timer : WorkerTimer α κ) (now : Nat)
  | released (timer : WorkerTimer α κ)
  | growFailed
  | admitted (timer : WorkerTimer α κ)
  | tickEnd
deriving DecidableEq

section Model

variable {α κ : Type}

def initialTimersAllocated : Nat := 16

def wrap (n : Nat) : Nat := n % 2 ^ 32
def inc (n : Nat) : Nat := wrap (n + 1)
def dec (n : Nat) : Nat := wrap (n + 2 ^ 32 - 1)

/-- `new (std::nothrow) WorkerTimer[n]`, when it does not return null. -/
def newArray (n : Nat) : Cells α κ := List.replicate n none

def load (cells : Cells α κ) (i : Nat) : Option (WorkerTimer α κ) := cells[i]?.join

def store (cells : Cells α κ) (i : Nat) (timer : WorkerTimer α κ) : Option (Cells α κ) :=
  if i < cells.length then some (cells.set i (some timer)) else none

/-- `memcpy(cells + offset, source, n)`. -/
def memcpy (cells : Cells α κ) (offset : Nat) (source : Cells α κ) (n : Nat) : Option (Cells α κ) :=
  if offset + n ≤ cells.length ∧ n ≤ source.length then
    some (cells.take offset ++ source.take n ++ cells.drop (offset + n))
  else none

/-- The constructor; its two allocations may fail. -/
def init (timersOk newTimersOk : Bool) : WorkerThread α κ where
  timers := if timersOk then newArray initialTimersAllocated else []
  timersCount := 0
  timersAllocated := initialTimersAllocated
  newTimers := if newTimersOk then newArray initialTimersAllocated else []
  newTimersCount := 0
  newTimersAllocated := initialTimersAllocated
  isShutdown := fun _ => false
  tick := none

/-- The growth of an array: its cells and `allocated`, or nothing where `new` fails. -/
def grow (cells : Cells α κ) (count needed : Nat) (ok : Bool) : Option (Option (Cells α κ × Nat)) :=
  let allocated := wrap (needed * 2)
  if ok then do
    let cells ← memcpy (newArray allocated) 0 cells count
    return some (cells, allocated)
  else some none

variable (s : WorkerThread α κ)

/-- The end of `Associate`. -/
def add (timer : WorkerTimer α κ) (newTimersCount : Nat) :
    Option (WorkerThread α κ × List (Event α κ)) := do
  let newTimers ← store s.newTimers s.newTimersCount timer
  return ({ s with newTimers, newTimersCount }, [.associated timer])

/-- `Associate`. -/
def associate (object : Option α) (callback : Option κ) (ok : Bool) :
    Option (WorkerThread α κ × List (Event α κ)) :=
  match object, callback with
  | some object, some callback =>
    let newTimersCount := inc s.newTimersCount
    if s.newTimersAllocated < newTimersCount then do
      match ← grow s.newTimers s.newTimersCount newTimersCount ok with
      | none => return (s, [.refused])
      | some (newTimers, newTimersAllocated) =>
        add { s with newTimers, newTimersAllocated } ⟨object, callback⟩ newTimersCount
    else add s ⟨object, callback⟩ newTimersCount
  | _, _ => some (s, [.refused])

/-- The body of the loop of `TickTimers`, and its `++ii`. -/
def tickTimer [DecidableEq α] (t : Tick) : Option (WorkerThread α κ × List (Event α κ)) := do
  let timer ← load s.timers t.ii
  if s.isShutdown timer.object then
    let timersCount := dec t.timersCount
    let last ← load s.timers timersCount
    let timers ← store s.timers t.ii last
    return ({ s with timers, timersCount, tick := some ⟨t.now, inc (dec t.ii), timersCount⟩ },
      [.released timer])
  else return ({ s with tick := some { t with ii := inc t.ii } }, [.invoked timer t.now])

/-- The copy of the new timers. -/
def copyNewTimers (combinedCount : Nat) : Option (WorkerThread α κ × List (Event α κ)) := do
  let timers ← memcpy s.timers s.timersCount s.newTimers s.newTimersCount
  return ({ s with timers, timersCount := combinedCount, newTimersCount := 0, tick := none },
    (s.newTimers.take s.newTimersCount).reduceOption.map .admitted ++ [.tickEnd])

/-- What follows the loop of `TickTimers`. -/
def mergeTimers (ok : Bool) : Option (WorkerThread α κ × List (Event α κ)) :=
  if 0 < s.newTimersCount then
    let combinedCount := wrap (s.timersCount + s.newTimersCount)
    if s.timersAllocated < combinedCount then do
      match ← grow s.timers s.timersCount combinedCount ok with
      | none => return ({ s with tick := none }, [.growFailed, .tickEnd])
      | some (timers, timersAllocated) => copyNewTimers { s with timers, timersAllocated } combinedCount
    else copyNewTimers s combinedCount
  else some ({ s with tick := none }, [.tickEnd])

variable [DecidableEq α]

/-- What does not come up in this state changes nothing. -/
def act : Action α κ → Option (WorkerThread α κ × List (Event α κ))
  | .associate object callback ok => associate s object callback ok
  | .shutdown object =>
    some ({ s with isShutdown := Function.update s.isShutdown object true }, [.shutdown object])
  | .tickTimers now =>
    match s.tick with
    | none => some ({ s with tick := some ⟨now, 0, s.timersCount⟩ }, [.tick now])
    | some _ => some (s, [])
  | .next =>
    match s.tick with
    | none => some (s, [])
    | some t => if t.ii < t.timersCount then tickTimer s t else some (s, [])
  | .merge ok =>
    match s.tick with
    | none => some (s, [])
    | some t => if t.ii < t.timersCount then some (s, []) else mergeTimers s ok

/-- A run goes on until an access is outside of an array. -/
def step (s : Option (WorkerThread α κ)) (a : Action α κ) :
    Option (WorkerThread α κ) × List (Event α κ) :=
  match s.bind (act · a) with
  | none => (none, [])
  | some (s, l) => (some s, l)

/-- The timers in use. -/
def running : List (WorkerTimer α κ) := (s.timers.take s.timersCount).reduceOption
def waiting : List (WorkerTimer α κ) := (s.newTimers.take s.newTimersCount).reduceOption

/-- The array that is written to is there, and twice the number of timers is a 32-bit number when it
grows, unless there is no memory for it. -/
def Room (cells : Cells α κ) (allocated needed : Nat) (ok : Bool) : Prop :=
  if allocated < needed then ok = true → needed * 2 < 2 ^ 32 else cells ≠ []

/-- Both arrays have `Room` for what is put there. -/
def Fits (s : Option (WorkerThread α κ)) : Action α κ → Prop
  | .associate (some _) (some _) ok =>
    ∀ t ∈ s, Room t.newTimers t.newTimersAllocated (t.newTimersCount + 1) ok
  | .merge ok => ∀ t ∈ s, ∀ u ∈ t.tick, u.timersCount ≤ u.ii → 0 < t.newTimersCount →
      t.timersCount + t.newTimersCount < 2 ^ 32 ∧
        Room t.timers t.timersAllocated (t.timersCount + t.newTimersCount) ok
  | _ => True

/-- Is this the begin or the end of a `TickTimers`? -/
def Event.marks : Event α κ → Bool
  | tick _ | tickEnd => true
  | _ => false

/-- What comes between two marks. -/
def Inside (l : List (Event α κ)) : Prop := ∀ e ∈ l, e.marks = false

variable [DecidableEq κ]

/-- What a whole `TickTimers` does, with `l` from its begin to its end. -/
structure Ticked (before : List (Event α κ)) (now : Nat) (l : List (Event α κ)) : Prop where
  once : ∀ t, .shutdown t.object ∉ before ++ l → l.count (.invoked t now) = before.count (.admitted t)
  most : ∀ t, l.count (.invoked t now) ≤ before.count (.admitted t)
  now : ∀ t now', .invoked t now' ∈ l → now' = now
  released : ∀ t, .shutdown t.object ∈ before →
    (before ++ l).count (.released t) = before.count (.admitted t)
  admitted : .growFailed ∉ l →
    ∀ t, (before ++ l).count (.admitted t) = (before ++ l).count (.associated t)

/-- A timer is released after its object's shutdown, and no timer of the object is invoked after it. -/
def Ordered (log : List (Event α κ)) : Prop :=
  ∀ l₁ t l₂, log = l₁ ++ .released t :: l₂ →
    .shutdown t.object ∈ l₁ ∧ ∀ t' now, .invoked t' now ∈ l₂ → t'.object ≠ t.object

def Ticks (log : List (Event α κ)) : Prop :=
  ∀ before now l after, log = before ++ .tick now :: (l ++ .tickEnd :: after) → Inside l →
    Ticked before now l

/-- No access is outside of an array, and each association is released or in one of the arrays. -/
structure Sound (s : Option (WorkerThread α κ)) (log : List (Event α κ)) : Prop where
  kept : ∃ t, s = some t ∧ ∀ timer, log.count (.associated timer) =
    log.count (.released timer) + (running t).count timer + (waiting t).count timer
  order : Ordered log
  ticks : Ticks log

end Model

/-! ## Arrays -/

section Arrays

variable {α κ : Type} {cells : Cells α κ} {count allocated : Nat} {l : List (WorkerTimer α κ)}

/-- The first `count` cells are the list. -/
structure Holds (cells : Cells α κ) (count allocated : Nat) (l : List (WorkerTimer α κ)) : Prop where
  filled : ∃ free, cells = l.map some ++ free
  count_eq : count = l.length
  length_eq : cells ≠ [] → cells.length = allocated
  bound : allocated + 1 < 2 ^ 32

theorem holds_init (ok : Bool) :
    Holds (α := α) (κ := κ) (if ok then newArray initialTimersAllocated else []) 0
      initialTimersAllocated [] := by
  refine ⟨⟨_, rfl⟩, rfl, fun hne => ?_, by decide⟩
  cases ok with
  | false => exact absurd rfl hne
  | true => rfl

theorem Holds.length_le (h : Holds cells count allocated l) : count ≤ cells.length := by
  obtain ⟨free, hfree⟩ := h.filled
  rw [h.count_eq, hfree, List.length_append, List.length_map]
  exact Nat.le_add_right _ _

theorem Holds.count_le (h : Holds cells count allocated l) : count ≤ allocated := by
  have := h.length_le
  by_cases hne : cells = []
  · rw [hne, List.length_nil] at this
    omega
  · rw [h.length_eq hne] at this
    exact this

theorem Holds.take (h : Holds cells count allocated l) : cells.take count = l.map some := by
  obtain ⟨free, hfree⟩ := h.filled
  rw [hfree, h.count_eq]
  exact List.take_left' (List.length_map _)

theorem Holds.list (h : Holds cells count allocated l) : (cells.take count).reduceOption = l := by
  rw [h.take]
  show (l.map some).filterMap id = l
  rw [List.filterMap_map, Function.id_comp, List.filterMap_some]

theorem Holds.load (h : Holds cells count allocated l) {i : Nat} (hi : i < l.length) :
    load cells i = some l[i] := by
  obtain ⟨free, hfree⟩ := h.filled
  have hlen : i < (l.map some).length := by rwa [List.length_map]
  unfold WorkerTimers.load
  rw [hfree, List.getElem?_append_left hlen, List.getElem?_map, List.getElem?_eq_getElem hi]
  rfl

/-- A timer behind the others. -/
theorem Holds.store (h : Holds cells count allocated l) (hlt : count < cells.length)
    (timer : WorkerTimer α κ) :
    ∃ cells', store cells count timer = some cells' ∧
      Holds cells' (count + 1) allocated (l ++ [timer]) := by
  obtain ⟨free, hfree⟩ := h.filled
  have hcount := h.count_eq
  cases free with
  | nil =>
    rw [hfree, List.append_nil, List.length_map, hcount] at hlt
    exact absurd hlt (Nat.lt_irrefl _)
  | cons c free =>
    refine ⟨_, if_pos hlt, ⟨free, ?_⟩, ?_, fun _ => ?_, h.bound⟩
    · have hset : (l.map some ++ c :: free).set (l.map some).length (some timer) =
          l.map some ++ some timer :: free := by
        rw [List.set_append_right _ _ (Nat.le_refl _), Nat.sub_self, List.set_cons_zero]
      rw [List.length_map] at hset
      rw [hfree, hcount, hset]
      simp
    · rw [List.length_append, ← hcount, List.length_singleton]
    · rw [List.length_set]
      apply h.length_eq
      rw [hfree]
      simp

theorem store_eq_none {i : Nat} (h : cells.length ≤ i) (timer : WorkerTimer α κ) :
    store cells i timer = none := if_neg (Nat.not_lt.mpr h)

/-- The last timer goes to the place of another one. -/
theorem Holds.swap {done todo : List (WorkerTimer α κ)} {timer : WorkerTimer α κ}
    (h : Holds cells count allocated (done ++ timer :: todo)) :
    ∃ last cells' todo', WorkerTimers.load cells (count - 1) = some last ∧
      WorkerTimers.store cells done.length last = some cells' ∧ todo'.Perm todo ∧
      Holds cells' (count - 1) allocated (done ++ todo') := by
  have hcount : count = done.length + todo.length + 1 := by
    rw [h.count_eq, List.length_append, List.length_cons]
    omega
  have hlt : done.length < cells.length := by
    have := h.length_le
    omega
  have hne : cells ≠ [] := List.ne_nil_of_length_pos (by omega)
  obtain ⟨free, hfree⟩ := h.filled
  have hone : ∀ last, (done ++ timer :: todo)[count - 1]? = some last →
      WorkerTimers.load cells (count - 1) = some last := by
    intro last hl
    obtain ⟨hi, rfl⟩ := List.getElem?_eq_some_iff.mp hl
    exact h.load hi
  rcases List.eq_nil_or_concat todo with rfl | ⟨init, last, rfl⟩
  · -- the timer is the last one itself
    refine ⟨timer, _, [], hone timer ?_, if_pos hlt, List.Perm.refl _, ?_⟩
    · rw [hcount, List.getElem?_append_right (by simp)]
      simp
    · refine ⟨⟨some timer :: free, ?_⟩, ?_, fun _ => ?_, h.bound⟩
      · rw [hfree]
        simp
      · rw [hcount]
        simp
      · rw [List.length_set]
        exact h.length_eq hne
  · refine ⟨last, _, last :: init, hone last ?_, if_pos hlt, ?_, ?_⟩
    · rw [hcount, List.getElem?_append_right (by simp)]
      simp
    · rw [List.concat_eq_append]
      exact (List.perm_append_singleton last init).symm
    · refine ⟨⟨some last :: free, ?_⟩, ?_, fun _ => ?_, h.bound⟩
      · rw [hfree]
        simp
      · rw [hcount]
        simp
      · rw [List.length_set]
        exact h.length_eq hne

theorem memcpy_eq {offset n : Nat} {source : Cells α κ} (h : offset + n ≤ cells.length)
    (hn : n ≤ source.length) : memcpy cells offset source n =
      some (cells.take offset ++ source.take n ++ cells.drop (offset + n)) := if_pos ⟨h, hn⟩

theorem memcpy_eq_none {offset n : Nat} (source : Cells α κ) (h : cells.length < offset + n) :
    memcpy cells offset source n = none := if_neg fun hc => absurd hc.1 (Nat.not_le.mpr h)

theorem length_memcpy {offset n : Nat} {source cells' : Cells α κ}
    (h : memcpy cells offset source n = some cells') : cells'.length = cells.length := by
  unfold memcpy at h
  split at h
  · next hle =>
    cases h
    simp only [List.length_append, List.length_take, List.length_drop]
    omega
  · cases h

/-- Another array's timers behind the own ones. -/
theorem Holds.memcpy (h : Holds cells count allocated l) {source : Cells α κ} {n m : Nat}
    {l' : List (WorkerTimer α κ)} (h' : Holds source n m l') (hle : count + n ≤ cells.length) :
    ∃ cells', WorkerTimers.memcpy cells count source n = some cells' ∧
      Holds cells' (count + n) allocated (l ++ l') := by
  have hlen := h'.length_le
  have hcopy := memcpy_eq hle hlen
  have hlength := length_memcpy hcopy
  refine ⟨_, hcopy, ⟨cells.drop (count + n), ?_⟩, ?_, fun hne => ?_, h.bound⟩
  · rw [h.take, h'.take, List.map_append]
  · rw [h.count_eq, h'.count_eq, List.length_append]
  · rw [hlength]
    apply h.length_eq
    apply List.ne_nil_of_length_pos
    rw [← hlength]
    exact List.length_pos_iff.mpr hne

theorem holds_newArray {n : Nat} (hn : n + 1 < 2 ^ 32) :
    Holds (newArray n : Cells α κ) 0 n [] where
  filled := ⟨_, rfl⟩
  count_eq := rfl
  length_eq _ := List.length_replicate
  bound := hn

/-- A new array with twice the room that is needed. -/
theorem Holds.grow (h : Holds cells count allocated l) {needed : Nat} (hle : count ≤ needed)
    (hneeded : needed * 2 < 2 ^ 32) :
    ∃ cells', WorkerTimers.grow cells count needed true = some (some (cells', needed * 2)) ∧
      cells'.length = needed * 2 ∧ Holds cells' count (needed * 2) l := by
  have hwrap : wrap (needed * 2) = needed * 2 := Nat.mod_eq_of_lt hneeded
  have hnew := holds_newArray (α := α) (κ := κ) (n := needed * 2) (by omega)
  have hlen : (newArray (needed * 2) : Cells α κ).length = needed * 2 := List.length_replicate
  obtain ⟨cells', hcopy, h'⟩ := hnew.memcpy h (by rw [hlen]; omega)
  rw [Nat.zero_add, List.nil_append] at h'
  refine ⟨cells', ?_, (length_memcpy hcopy).trans hlen, h'⟩
  unfold WorkerTimers.grow
  rw [if_pos rfl, hwrap, hcopy]
  rfl

/-- `Room` is what it takes for the timers that are needed. -/
theorem Holds.fits (h : Holds cells count allocated l) {needed : Nat} {ok : Bool}
    (hle : count ≤ needed) (hr : Room cells allocated needed ok) :
    (allocated < needed ∧ ok = false) ∨
    (allocated < needed ∧ ∃ cells', WorkerTimers.grow cells count needed ok =
      some (some (cells', needed * 2)) ∧ needed ≤ cells'.length ∧ Holds cells' count (needed * 2) l) ∨
    (needed ≤ allocated ∧ needed ≤ cells.length) := by
  unfold Room at hr
  split at hr
  · next hlt =>
    cases ok with
    | false => exact .inl ⟨hlt, rfl⟩
    | true =>
      obtain ⟨cells', hgrow, hlen, h'⟩ := h.grow hle (hr rfl)
      exact .inr (.inl ⟨hlt, cells', hgrow, by omega, h'⟩)
  · next hge =>
    have := h.length_eq hr
    exact .inr (.inr ⟨by omega, by omega⟩)

/-- Without `Room` the array ends before the last timer. -/
theorem overrun {needed : Nat} {ok : Bool}
    (hneeded : needed < 2 ^ 32) (hpos : 0 < needed) (hr : ¬ Room cells allocated needed ok) :
    (allocated < needed ∧ ∀ r, WorkerTimers.grow cells count needed ok = some r →
      ∃ cells', r = some (cells', wrap (needed * 2)) ∧ cells'.length < needed) ∨
    (needed ≤ allocated ∧ cells.length < needed) := by
  unfold Room at hr
  split at hr
  · next hlt =>
    obtain ⟨rfl, hover⟩ := Classical.not_imp.mp hr
    refine .inl ⟨hlt, fun r hgrow => ?_⟩
    unfold WorkerTimers.grow at hgrow
    rw [if_pos rfl, Option.bind_eq_bind, Option.bind_eq_some_iff] at hgrow
    obtain ⟨cells', hcopy, hr⟩ := hgrow
    cases hr
    refine ⟨cells', rfl, ?_⟩
    rw [length_memcpy hcopy]
    simp only [newArray, List.length_replicate, wrap]
    omega
  · next hge =>
    rw [not_not] at hr
    rw [hr]
    exact .inr ⟨by omega, hpos⟩

end Arrays

/-! ## What each step does -/

section Steps

variable {α κ : Type} {s : WorkerThread α κ} {run wait : List (WorkerTimer α κ)}

theorem inc_of_lt {n : Nat} (h : n + 1 < 2 ^ 32) : inc n = n + 1 := Nat.mod_eq_of_lt h

theorem dec_of_pos {n : Nat} (hpos : 0 < n) (h : n < 2 ^ 32) : dec n = n - 1 := by
  unfold dec wrap
  omega

/-- The index steps back below zero and returns. -/
theorem inc_dec {n : Nat} (h : n < 2 ^ 32) : inc (dec n) = n := by
  unfold inc dec wrap
  omega

theorem associate_of_fits (h : Holds s.newTimers s.newTimersCount s.newTimersAllocated wait)
    (object : α) (callback : κ) {ok : Bool}
    (hr : Room s.newTimers s.newTimersAllocated (s.newTimersCount + 1) ok) :
    (ok = false ∧ associate s (some object) (some callback) ok = some (s, [.refused])) ∨
    ∃ newTimers newTimersCount newTimersAllocated,
      associate s (some object) (some callback) ok =
        some ({ s with newTimers, newTimersCount, newTimersAllocated },
          [.associated ⟨object, callback⟩]) ∧
      Holds newTimers newTimersCount newTimersAllocated (wait ++ [⟨object, callback⟩]) := by
  have hinc : inc s.newTimersCount = s.newTimersCount + 1 := by
    have := h.count_le
    have := h.bound
    exact inc_of_lt (by omega)
  unfold associate
  dsimp only
  rw [hinc]
  rcases h.fits (Nat.le_succ _) hr with ⟨hlt, rfl⟩ | ⟨hlt, cells', hgrow, hlen, h'⟩ | ⟨hge, hlen⟩
  · left
    rw [if_pos hlt]
    exact ⟨rfl, rfl⟩
  · right
    obtain ⟨cells'', hstore, h''⟩ := h'.store hlen ⟨object, callback⟩
    refine ⟨cells'', _, _, ?_, h''⟩
    rw [if_pos hlt, hgrow]
    simp only [Option.bind_eq_bind, Option.bind_some, add, hstore]
    rfl
  · right
    obtain ⟨cells', hstore, h'⟩ := h.store hlen ⟨object, callback⟩
    refine ⟨cells', _, _, ?_, h'⟩
    rw [if_neg (Nat.not_lt.mpr hge)]
    simp only [add, hstore]
    rfl

theorem associate_of_not_fits (h : Holds s.newTimers s.newTimersCount s.newTimersAllocated wait)
    (object : α) (callback : κ) {ok : Bool}
    (hr : ¬ Room s.newTimers s.newTimersAllocated (s.newTimersCount + 1) ok) :
    associate s (some object) (some callback) ok = none := by
  have hlt : s.newTimersCount + 1 < 2 ^ 32 := by
    have := h.count_le
    have := h.bound
    omega
  unfold associate
  dsimp only
  rw [inc_of_lt hlt]
  rcases overrun hlt (Nat.succ_pos _) hr with ⟨hgt, hgrow⟩ | ⟨hge, hlen⟩
  · rw [if_pos hgt]
    cases hg : grow s.newTimers s.newTimersCount (s.newTimersCount + 1) ok with
    | none => rfl
    | some r =>
      obtain ⟨cells', rfl, hlen⟩ := hgrow r hg
      simp only [Option.bind_eq_bind, Option.bind_some, add,
        store_eq_none (Nat.lt_succ_iff.mp hlen), Option.bind_none]
  · rw [if_neg (Nat.not_lt.mpr hge)]
    simp only [add, store_eq_none (Nat.lt_succ_iff.mp hlen), Option.bind_eq_bind, Option.bind_none]

theorem merge_of_fits (h : Holds s.timers s.timersCount s.timersAllocated run)
    (h' : Holds s.newTimers s.newTimersCount s.newTimersAllocated wait) {ok : Bool}
    (hr : 0 < s.newTimersCount → s.timersCount + s.newTimersCount < 2 ^ 32 ∧
      Room s.timers s.timersAllocated (s.timersCount + s.newTimersCount) ok) :
    mergeTimers s ok = some ({ s with tick := none }, [.growFailed, .tickEnd]) ∨
    ∃ timers timersCount timersAllocated,
      mergeTimers s ok =
        some ({ s with timers, timersCount, timersAllocated, newTimersCount := 0, tick := none },
          wait.map .admitted ++ [.tickEnd]) ∧
      Holds timers timersCount timersAllocated (run ++ wait) := by
  unfold mergeTimers
  split
  · next hpos =>
    obtain ⟨hlt, hr⟩ := hr hpos
    have hwrap : wrap (s.timersCount + s.newTimersCount) = s.timersCount + s.newTimersCount :=
      Nat.mod_eq_of_lt hlt
    dsimp only
    rw [hwrap]
    rcases h.fits (Nat.le_add_right _ _) hr with ⟨hgt, rfl⟩ | ⟨hgt, cells', hgrow, hlen, hc⟩ | ⟨hge, hlen⟩
    · left
      rw [if_pos hgt]
      rfl
    · right
      obtain ⟨cells'', hcopy, h''⟩ := hc.memcpy h' hlen
      refine ⟨cells'', _, _, ?_, h''⟩
      rw [if_pos hgt, hgrow]
      simp only [Option.bind_eq_bind, Option.bind_some, copyNewTimers, hcopy, h'.list]
      rfl
    · right
      obtain ⟨cells', hcopy, hc⟩ := h.memcpy h' hlen
      refine ⟨cells', _, _, ?_, hc⟩
      rw [if_neg (Nat.not_lt.mpr hge)]
      simp only [Option.bind_eq_bind, Option.bind_some, copyNewTimers, hcopy, h'.list]
      rfl
  · next hzero =>
    right
    have hcount : s.newTimersCount = 0 := Nat.eq_zero_of_not_pos hzero
    have hwait : wait = [] := by
      apply List.eq_nil_of_length_eq_zero
      rw [← h'.count_eq, hcount]
    subst hwait
    refine ⟨s.timers, s.timersCount, s.timersAllocated, ?_, by rwa [List.append_nil]⟩
    rw [← hcount]
    rfl

theorem merge_of_not_fits (h : Holds s.timers s.timersCount s.timersAllocated run)
    (h' : Holds s.newTimers s.newTimersCount s.newTimersAllocated wait) {ok : Bool}
    (hpos : 0 < s.newTimersCount)
    (hr : ¬ (s.timersCount + s.newTimersCount < 2 ^ 32 ∧
      Room s.timers s.timersAllocated (s.timersCount + s.newTimersCount) ok)) :
    mergeTimers s ok = none := by
  have hb := h.bound
  have hb' := h'.bound
  have hle := h.count_le
  have hle' := h'.count_le
  unfold mergeTimers
  rw [if_pos hpos]
  dsimp only
  by_cases hlt : s.timersCount + s.newTimersCount < 2 ^ 32
  · have hwrap : wrap (s.timersCount + s.newTimersCount) = s.timersCount + s.newTimersCount :=
      Nat.mod_eq_of_lt hlt
    rw [hwrap]
    rcases overrun hlt (by omega) (fun h => hr ⟨hlt, h⟩) with ⟨hgt, hgrow⟩ | ⟨hge, hlen⟩
    · rw [if_pos hgt]
      cases hg : grow s.timers s.timersCount (s.timersCount + s.newTimersCount) ok with
      | none => rfl
      | some r =>
        obtain ⟨cells', rfl, hlen⟩ := hgrow r hg
        simp only [Option.bind_eq_bind, Option.bind_some, copyNewTimers, memcpy_eq_none _ hlen,
          Option.bind_none]
    · rw [if_neg (Nat.not_lt.mpr hge)]
      simp only [copyNewTimers, memcpy_eq_none _ hlen, Option.bind_eq_bind, Option.bind_none]
  · -- the sum wraps below the number of timers that are there
    have hwrap : wrap (s.timersCount + s.newTimersCount) ≤ s.timersAllocated := by
      unfold wrap
      omega
    have hlen : s.timers.length < s.timersCount + s.newTimersCount := by
      by_cases hne : s.timers = []
      · rw [hne, List.length_nil]
        omega
      · have := h.length_eq hne
        omega
    rw [if_neg (Nat.not_lt.mpr hwrap)]
    simp only [copyNewTimers, memcpy_eq_none _ hlen, Option.bind_eq_bind, Option.bind_none]

variable [DecidableEq α] {done todo : List (WorkerTimer α κ)} {timer : WorkerTimer α κ} {now : Nat}

theorem tickTimer_of_shutdown
    (h : Holds s.timers s.timersCount s.timersAllocated (done ++ timer :: todo))
    (hs : s.isShutdown timer.object = true) :
    ∃ timers todo', tickTimer s ⟨now, done.length, s.timersCount⟩ =
        some ({ s with
          timers
          timersCount := s.timersCount - 1
          tick := some ⟨now, done.length, s.timersCount - 1⟩ }, [.released timer]) ∧
      todo'.Perm todo ∧ Holds timers (s.timersCount - 1) s.timersAllocated (done ++ todo') := by
  have hcount : s.timersCount = done.length + todo.length + 1 := by
    rw [h.count_eq, List.length_append, List.length_cons]
    omega
  have hle := h.count_le
  have hb := h.bound
  obtain ⟨last, timers, todo', hload, hstore, hp, h'⟩ := h.swap
  refine ⟨timers, todo', ?_, hp, h'⟩
  have hdec : dec s.timersCount = s.timersCount - 1 := dec_of_pos (by omega) (by omega)
  have hii : inc (dec done.length) = done.length := inc_dec (by omega)
  have htimer := h.load (i := done.length) (by simp)
  rw [List.getElem_append_right (Nat.le_refl _)] at htimer
  simp only [Nat.sub_self, List.getElem_cons_zero] at htimer
  unfold tickTimer
  simp only [Option.bind_eq_bind, htimer, Option.bind_some, hs, if_true, hdec, hload, hstore, hii]
  rfl

theorem tickTimer_of_not_shutdown
    (h : Holds s.timers s.timersCount s.timersAllocated (done ++ timer :: todo))
    (hs : s.isShutdown timer.object = false) :
    tickTimer s ⟨now, done.length, s.timersCount⟩ =
      some ({ s with tick := some ⟨now, done.length + 1, s.timersCount⟩ }, [.invoked timer now]) := by
  have hcount : s.timersCount = done.length + todo.length + 1 := by
    rw [h.count_eq, List.length_append, List.length_cons]
    omega
  have hle := h.count_le
  have hb := h.bound
  have hii : inc done.length = done.length + 1 := inc_of_lt (by omega)
  have htimer := h.load (i := done.length) (by simp)
  rw [List.getElem_append_right (Nat.le_refl _)] at htimer
  simp only [Nat.sub_self, List.getElem_cons_zero] at htimer
  unfold tickTimer
  simp only [Option.bind_eq_bind, htimer, Option.bind_some, hs, Bool.false_eq_true, if_false, hii]
  rfl

theorem step_of_act {a : Action α κ} {s' : WorkerThread α κ} {l : List (Event α κ)}
    (h : act s a = some (s', l)) : step (some s) a = (some s', l) := by
  unfold step
  rw [Option.bind_some, h]

theorem step_of_act_none {a : Action α κ} (h : act s a = none) : step (some s) a = (none, []) := by
  unfold step
  rw [Option.bind_some, h]

end Steps

/-! ## The log -/

section Log

variable {α κ : Type} {log es : List (Event α κ)}

theorem append_cons_cases {ε : Type} {log es l₁ l₂ : List ε} {e : ε}
    (h : log ++ es = l₁ ++ e :: l₂) :
    (∃ m, log = l₁ ++ e :: m ∧ l₂ = m ++ es) ∨ ∃ m, l₁ = log ++ m ∧ es = m ++ e :: l₂ := by
  rcases List.append_eq_append_iff.mp h with ⟨m, h₁, h₂⟩ | ⟨m, h₁, h₂⟩
  · exact .inr ⟨m, h₁, h₂⟩
  · cases m with
    | nil => exact .inr ⟨[], by rw [h₁]; simp, by simpa using h₂.symm⟩
    | cons a m =>
      cases h₂
      exact .inl ⟨m, h₁, rfl⟩

/-- The last begin of a tick is one only. -/
theorem eq_of_inside {before before' l l' : List (Event α κ)} {now now' : Nat}
    (h : before ++ .tick now :: l = before' ++ .tick now' :: l') (hl : Inside l) (hl' : Inside l') :
    before = before' ∧ now = now' ∧ l = l' := by
  rcases append_cons_cases h with ⟨m, rfl, rfl⟩ | ⟨m, rfl, hm⟩
  · have := hl' (.tick now) (by simp)
    cases this
  · cases m with
    | nil =>
      cases hm
      exact ⟨by simp, rfl, rfl⟩
    | cons e m =>
      cases hm
      have := hl (.tick now') (by simp)
      cases this

theorem Ordered.append (h : Ordered log)
    (hr : ∀ t, .released t ∈ es → es = [.released t] ∧ .shutdown t.object ∈ log)
    (hi : ∀ t now, .invoked t now ∈ es → .shutdown t.object ∉ log) : Ordered (log ++ es) := by
  intro l₁ t l₂ heq
  rcases append_cons_cases heq with ⟨m, hlog, rfl⟩ | ⟨m, rfl, hes⟩
  · obtain ⟨hs, hafter⟩ := h l₁ t m hlog
    refine ⟨hs, fun t' now hm => ?_⟩
    rcases List.mem_append.mp hm with hm | hm
    · exact hafter t' now hm
    · intro hobject
      apply hi t' now hm
      rw [hobject, hlog]
      exact List.mem_append_left _ hs
  · obtain ⟨hone, hs⟩ := hr t (by rw [hes]; simp)
    rw [hone] at hes
    cases m with
    | nil =>
      cases hes
      exact ⟨List.mem_append_left _ hs, fun _ _ hm => absurd hm List.not_mem_nil⟩
    | cons e m =>
      have := congrArg List.length hes
      simp at this

variable [DecidableEq α] [DecidableEq κ]

/-- Nothing ends a tick. -/
theorem Ticks.append (h : Ticks log) (hes : .tickEnd ∉ es) : Ticks (log ++ es) := by
  intro before now l after heq hl
  have hassoc : log ++ es = (before ++ .tick now :: l) ++ .tickEnd :: after := by
    rw [heq]
    simp
  rcases append_cons_cases hassoc with ⟨m, hlog, -⟩ | ⟨m, -, hm⟩
  · exact h before now l m (by rw [hlog]; simp) hl
  · rw [hm] at hes
    exact absurd (by simp) hes

/-- The end of a tick. -/
theorem Ticks.append_end (h : Ticks log) {before l : List (Event α κ)} {now : Nat}
    (hlog : log = before ++ .tick now :: l) (hl : Inside l) (hes : Inside es)
    (ht : Ticked before now (l ++ es)) : Ticks (log ++ (es ++ [.tickEnd])) := by
  intro before' now' l' after heq hl'
  have hend : Event.tickEnd ∉ es := fun hm => by
    have := hes _ hm
    cases this
  have hassoc : (log ++ es) ++ [.tickEnd] = (before' ++ .tick now' :: l') ++ .tickEnd :: after := by
    rw [List.append_assoc, heq]
    simp
  rcases append_cons_cases hassoc with ⟨m, hold, -⟩ | ⟨m, hnew, hm⟩
  · -- the end of a tick before this one
    exact h.append hend before' now' l' m (by rw [hold]; simp) hl'
  · cases m with
    | nil =>
      have hsame : before' ++ .tick now' :: l' = before ++ .tick now :: (l ++ es) := by
        rw [hnew, hlog]
        simp
      have hin : Inside (l ++ es) := fun e he => (List.mem_append.mp he).elim (hl e) (hes e)
      obtain ⟨rfl, rfl, rfl⟩ := eq_of_inside hsame hl' hin
      exact ht
    | cons e m =>
      have := congrArg List.length hm
      simp at this

/-- The tick that is running has called the timers of `done`. -/
def Ticking (done : List (WorkerTimer α κ)) (now : Nat) (log : List (Event α κ)) : Prop :=
  ∃ before l, log = before ++ .tick now :: l ∧ Inside l ∧
    (∀ t, l.count (.invoked t now) = done.count t) ∧ (∀ t now', .invoked t now' ∈ l → now' = now) ∧
    (∀ t, .admitted t ∉ l) ∧ ∀ t ∈ done, .shutdown t.object ∉ before

variable {done : List (WorkerTimer α κ)} {now : Nat}

theorem ticking_nil (log : List (Event α κ)) (now : Nat) : Ticking [] now (log ++ [.tick now]) := by
  refine ⟨log, [], rfl, ?_, fun _ => rfl, ?_, ?_, ?_⟩
  · exact fun _ he => absurd he List.not_mem_nil
  · exact fun _ _ he => absurd he List.not_mem_nil
  · exact fun _ => List.not_mem_nil
  · exact fun _ he => absurd he List.not_mem_nil

theorem Ticking.snoc (h : Ticking done now log) {e : Event α κ} (hm : e.marks = false)
    (hi : ∀ t now, e ≠ .invoked t now) (ha : ∀ t, e ≠ .admitted t) : Ticking done now (log ++ [e]) := by
  obtain ⟨before, l, rfl, hl, hcount, hnow, hadm, hdone⟩ := h
  refine ⟨before, l ++ [e], by simp, fun e' he => ?_, fun t => ?_, fun t now' he => ?_, fun t he => ?_,
    hdone⟩
  · rcases List.mem_append.mp he with he | he
    · exact hl e' he
    · rw [List.mem_singleton.mp he]
      exact hm
  · rw [List.count_append, hcount, List.count_singleton]
    simp [hi]
  · rcases List.mem_append.mp he with he | he
    · exact hnow t now' he
    · exact absurd (List.mem_singleton.mp he).symm (hi t now')
  · rcases List.mem_append.mp he with he | he
    · exact hadm t he
    · exact ha t (List.mem_singleton.mp he).symm

/-- A timer is called. -/
theorem Ticking.invoked (h : Ticking done now log) {timer : WorkerTimer α κ}
    (hs : .shutdown timer.object ∉ log) :
    Ticking (done ++ [timer]) now (log ++ [.invoked timer now]) := by
  obtain ⟨before, l, rfl, hl, hcount, hnow, hadm, hdone⟩ := h
  refine ⟨before, l ++ [.invoked timer now], by simp, fun e he => ?_, fun t => ?_, fun t now' he => ?_,
    fun t he => ?_, fun t ht => ?_⟩
  · rcases List.mem_append.mp he with he | he
    · exact hl e he
    · rw [List.mem_singleton.mp he]
      rfl
  · rw [List.count_append, List.count_append, hcount, List.count_singleton, List.count_singleton]
    simp
  · rcases List.mem_append.mp he with he | he
    · exact hnow t now' he
    · cases List.mem_singleton.mp he
      rfl
  · rcases List.mem_append.mp he with he | he
    · exact hadm t he
    · cases List.mem_singleton.mp he
  · rcases List.mem_append.mp ht with ht | ht
    · exact hdone t ht
    · rw [List.mem_singleton.mp ht]
      exact fun hm => hs (List.mem_append_left _ hm)

end Log

/-! ## Runs -/

section Runs

variable {α κ : Type} [DecidableEq α] [DecidableEq κ] {run wait : List (WorkerTimer α κ)}
  {s : WorkerThread α κ} {log : List (Event α κ)}

/-- `run` and `wait` are the timers of the two arrays. -/
structure Inv (run wait : List (WorkerTimer α κ)) (s : WorkerThread α κ) (log : List (Event α κ)) :
    Prop where
  timers : Holds s.timers s.timersCount s.timersAllocated run
  newTimers : Holds s.newTimers s.newTimersCount s.newTimersAllocated wait
  associated : ∀ t, log.count (.associated t) = log.count (.admitted t) + wait.count t
  admitted : ∀ t, log.count (.admitted t) = log.count (.released t) + run.count t
  shutdown : ∀ o, s.isShutdown o = true ↔ .shutdown o ∈ log
  order : Ordered log
  ticks : Ticks log
  ticking : ∀ u ∈ s.tick, u.timersCount = s.timersCount ∧ ∃ done todo, run = done ++ todo ∧
    u.ii = done.length ∧ Ticking done u.now log

namespace Inv

theorem init (timersOk newTimersOk : Bool) :
    Inv [] [] (init timersOk newTimersOk : WorkerThread α κ) [] where
  timers := holds_init timersOk
  newTimers := holds_init newTimersOk
  associated _ := rfl
  admitted _ := rfl
  shutdown _ := by simp [WorkerTimers.init]
  order l₁ t l₂ h := by simp at h
  ticks before now l after h := by simp at h
  ticking _ h := nomatch h

theorem sound (h : Inv run wait s log) : Sound (some s) log where
  kept := by
    refine ⟨s, rfl, fun t => ?_⟩
    rw [h.associated, h.admitted, running, waiting, h.timers.list, h.newTimers.list]
  order := h.order
  ticks := h.ticks

/-- An event that is none of those that the invariant counts. -/
theorem log_refused (h : Inv run wait s log) : Inv run wait s (log ++ [.refused]) where
  timers := h.timers
  newTimers := h.newTimers
  associated t := by simpa using h.associated t
  admitted t := by simpa using h.admitted t
  shutdown o := by simpa using h.shutdown o
  order := h.order.append (by simp) (by simp)
  ticks := h.ticks.append (by simp)
  ticking u hu := by
    obtain ⟨hcount, done, todo, hrun, hii, ht⟩ := h.ticking u hu
    exact ⟨hcount, done, todo, hrun, hii, ht.snoc rfl nofun nofun⟩

theorem associate (h : Inv run wait s log) {t : WorkerTimer α κ} {newTimers : Cells α κ}
    {newTimersCount newTimersAllocated : Nat}
    (h' : Holds newTimers newTimersCount newTimersAllocated (wait ++ [t])) :
    Inv run (wait ++ [t]) { s with newTimers, newTimersCount, newTimersAllocated }
      (log ++ [.associated t]) where
  timers := h.timers
  newTimers := h'
  associated t' := by
    have := h.associated t'
    simp only [List.count_append, List.count_singleton, this]
    simp
    omega
  admitted t' := by simpa using h.admitted t'
  shutdown o := by simpa using h.shutdown o
  order := h.order.append (by simp) (by simp)
  ticks := h.ticks.append (by simp)
  ticking u hu := by
    obtain ⟨hcount, done, todo, hrun, hii, ht⟩ := h.ticking u hu
    exact ⟨hcount, done, todo, hrun, hii, ht.snoc rfl nofun nofun⟩

theorem shutdownObject (h : Inv run wait s log) (object : α) :
    Inv run wait { s with isShutdown := Function.update s.isShutdown object true }
      (log ++ [.shutdown object]) where
  timers := h.timers
  newTimers := h.newTimers
  associated t := by simpa using h.associated t
  admitted t := by simpa using h.admitted t
  shutdown o := by
    have := h.shutdown o
    by_cases ho : o = object
    · simp [ho]
    · simp [ho, this]
  order := h.order.append (by simp) (by simp)
  ticks := h.ticks.append (by simp)
  ticking u hu := by
    obtain ⟨hcount, done, todo, hrun, hii, ht⟩ := h.ticking u hu
    exact ⟨hcount, done, todo, hrun, hii, ht.snoc rfl nofun nofun⟩

theorem tickTimers (h : Inv run wait s log) (now : Nat) :
    Inv run wait { s with tick := some ⟨now, 0, s.timersCount⟩ } (log ++ [.tick now]) where
  timers := h.timers
  newTimers := h.newTimers
  associated t := by simpa using h.associated t
  admitted t := by simpa using h.admitted t
  shutdown o := by simpa using h.shutdown o
  order := h.order.append (by simp) (by simp)
  ticks := h.ticks.append (by simp)
  ticking u hu := by
    cases hu
    exact ⟨rfl, [], run, rfl, rfl, ticking_nil log now⟩

/-- The next timer is released. -/
theorem release {done todo todo' : List (WorkerTimer α κ)} {t : WorkerTimer α κ} {now : Nat}
    (h : Inv (done ++ t :: todo) wait s log) (ht : Ticking done now log)
    (hs : s.isShutdown t.object = true) (hp : todo'.Perm todo) {timers : Cells α κ}
    (h' : Holds timers (s.timersCount - 1) s.timersAllocated (done ++ todo')) :
    Inv (done ++ todo') wait
      { s with
        timers
        timersCount := s.timersCount - 1
        tick := some ⟨now, done.length, s.timersCount - 1⟩ } (log ++ [.released t]) where
  timers := h'
  newTimers := h.newTimers
  associated t' := by simpa using h.associated t'
  admitted t' := by
    have := h.admitted t'
    simp only [List.count_append, List.count_cons, hp.count_eq] at this ⊢
    simp at this ⊢
    omega
  shutdown o := by simpa using h.shutdown o
  order := by
    apply h.order.append
    · intro t' ht'
      cases List.mem_singleton.mp ht'
      exact ⟨rfl, (h.shutdown _).mp hs⟩
    · simp
  ticks := h.ticks.append (by simp)
  ticking u hu := by
    cases hu
    exact ⟨rfl, done, todo', rfl, rfl, ht.snoc rfl nofun nofun⟩

/-- The next timer is invoked. -/
theorem invoke {done todo : List (WorkerTimer α κ)} {t : WorkerTimer α κ} {now : Nat}
    (h : Inv (done ++ t :: todo) wait s log) (ht : Ticking done now log)
    (hs : s.isShutdown t.object = false) :
    Inv (done ++ t :: todo) wait
      { s with tick := some ⟨now, done.length + 1, s.timersCount⟩ } (log ++ [.invoked t now]) := by
  have hnot : .shutdown t.object ∉ log := fun hm => by
    rw [(h.shutdown _).mpr hm] at hs
    cases hs
  constructor
  case timers => exact h.timers
  case newTimers => exact h.newTimers
  case associated => intro t'; simpa using h.associated t'
  case admitted => intro t'; simpa using h.admitted t'
  case shutdown => intro o; simpa using h.shutdown o
  case order =>
    apply h.order.append
    · simp
    · intro t' now' ht'
      cases List.mem_singleton.mp ht'
      exact hnot
  case ticks => exact h.ticks.append (by simp)
  case ticking =>
    intro u hu
    cases hu
    exact ⟨rfl, done ++ [t], todo, by simp, by simp, ht.invoked hnot⟩

/-- The end of a tick that has gone through all timers: `es` is what the merge logs. -/
theorem ticked {before l es : List (Event α κ)} {now : Nat}
    (h : Inv run wait s (before ++ .tick now :: l))
    (hcount : ∀ t, l.count (.invoked t now) = run.count t)
    (hnow : ∀ t now', .invoked t now' ∈ l → now' = now) (hadm : ∀ t, .admitted t ∉ l)
    (hdone : ∀ t ∈ run, .shutdown t.object ∉ before)
    (hes : ∀ e ∈ es, e = .growFailed ∨ ∃ t, e = .admitted t)
    (hwait : .growFailed ∉ es → ∀ t, es.count (.admitted t) = wait.count t) :
    Ticked before now (l ++ es) := by
  have hquiet : ∀ e : Event α κ, e ≠ .growFailed → (∀ t, e ≠ .admitted t) → es.count e = 0 :=
    fun e hg ha => List.count_eq_zero.mpr fun hm => (hes e hm).elim hg fun ⟨t, ht⟩ => ha t ht
  have hl : ∀ t, l.count (.admitted t) = 0 := fun t => List.count_eq_zero.mpr (hadm t)
  -- the timers that were there are released or called
  have hbalance : ∀ t, before.count (.admitted t) =
      (before ++ l).count (.released t) + l.count (.invoked t now) := by
    intro t
    have := h.admitted t
    rw [hcount]
    simp only [List.count_append, List.count_cons, hl] at this ⊢
    simpa using this
  constructor
  case once =>
    intro t ht
    have hzero : (before ++ l).count (.released t) = 0 := by
      apply List.count_eq_zero.mpr
      intro hm
      have hm' : .released t ∈ before ++ .tick now :: l := by
        rcases List.mem_append.mp hm with hm | hm <;> simp [hm]
      obtain ⟨l₁, l₂, heq⟩ := List.append_of_mem hm'
      apply ht
      have hs : .shutdown t.object ∈ before ++ .tick now :: l := by
        rw [heq]
        exact List.mem_append_left _ (h.order l₁ t l₂ heq).1
      simp only [List.mem_append, List.mem_cons, reduceCtorEq, false_or] at hs ⊢
      tauto
    rw [hbalance t, hzero, List.count_append, hquiet (.invoked t now) nofun nofun]
    omega
  case most =>
    intro t
    rw [hbalance t, List.count_append, hquiet (.invoked t now) nofun nofun]
    omega
  case now =>
    intro t now' hm
    rcases List.mem_append.mp hm with hm | hm
    · exact hnow t now' hm
    · rcases hes _ hm with he | ⟨_, he⟩ <;> cases he
  case released =>
    intro t ht
    have hzero : l.count (.invoked t now) = 0 := by
      rw [hcount]
      exact List.count_eq_zero.mpr fun hm => hdone t hm ht
    rw [hbalance t, hzero, ← List.append_assoc, List.count_append,
      hquiet (.released t) nofun nofun]
  case admitted =>
    intro hg t
    have := h.associated t
    have hw := hwait (fun hm => hg (List.mem_append_right _ hm)) t
    simp only [List.count_append, List.count_cons, hl, hw,
      hquiet (.associated t) nofun nofun] at this ⊢
    simp at this ⊢
    omega

/-- The loop is at its end. -/
theorem ticking_all (h : Inv run wait s log) {u : Tick} (hu : s.tick = some u)
    (hend : u.timersCount ≤ u.ii) : Ticking run u.now log := by
  obtain ⟨hcount, done, todo, rfl, hii, ht⟩ := h.ticking u hu
  have htodo : todo = [] := by
    apply List.eq_nil_of_length_eq_zero
    have := h.timers.count_eq
    rw [List.length_append] at this
    omega
  rw [htodo, List.append_nil]
  exact ht

/-- The new timers stay where they are. -/
theorem growFailed (h : Inv run wait s log) {u : Tick} (hu : s.tick = some u)
    (hend : u.timersCount ≤ u.ii) :
    Inv run wait { s with tick := none } (log ++ [.growFailed, .tickEnd]) where
  timers := h.timers
  newTimers := h.newTimers
  associated t := by simpa using h.associated t
  admitted t := by simpa using h.admitted t
  shutdown o := by simpa using h.shutdown o
  order := h.order.append (by simp) (by simp)
  ticks := by
    obtain ⟨before, l, rfl, hl, hcount, hnow, hadm, hdone⟩ := h.ticking_all hu hend
    have hin : Inside [Event.growFailed (α := α) (κ := κ)] := fun e he => by
      rw [List.mem_singleton.mp he]
      rfl
    apply h.ticks.append_end rfl hl hin
    apply h.ticked hcount hnow hadm hdone
    · intro e he
      exact .inl (List.mem_singleton.mp he)
    · intro hg
      exact absurd List.mem_cons_self hg
  ticking _ h := nomatch h

/-- All timers are in the first array. -/
theorem merge (h : Inv run wait s log) {u : Tick} (hu : s.tick = some u)
    (hend : u.timersCount ≤ u.ii) {timers : Cells α κ} {timersCount timersAllocated : Nat}
    (h' : Holds timers timersCount timersAllocated (run ++ wait)) :
    Inv (run ++ wait) []
      { s with timers, timersCount, timersAllocated, newTimersCount := 0, tick := none }
      (log ++ (wait.map .admitted ++ [.tickEnd])) := by
  have hadmitted : ∀ t, (wait.map (Event.admitted (κ := κ))).count (.admitted t) = wait.count t :=
    fun t => List.count_map_of_injective wait _ (fun _ _ he => by cases he; rfl) t
  have hother : ∀ e : Event α κ, (∀ t, e ≠ .admitted t) → (wait.map Event.admitted).count e = 0 := by
    intro e he
    apply List.count_eq_zero.mpr
    intro hm
    obtain ⟨t, -, ht⟩ := List.mem_map.mp hm
    exact he t ht.symm
  constructor
  case timers => exact h'
  case newTimers =>
    obtain ⟨free, hfree⟩ := h.newTimers.filled
    exact ⟨⟨_, rfl⟩, rfl, h.newTimers.length_eq, h.newTimers.bound⟩
  case associated =>
    intro t
    have := h.associated t
    simp only [List.count_append, hadmitted, hother (.associated t) nofun] at this ⊢
    simp
    omega
  case admitted =>
    intro t
    have := h.admitted t
    simp only [List.count_append, hadmitted, hother (.released t) nofun] at this ⊢
    simp
    omega
  case shutdown => intro o; simpa using h.shutdown o
  case order => exact h.order.append (by simp) (by simp)
  case ticks =>
    obtain ⟨before, l, rfl, hl, hcount, hnow, hadm, hdone⟩ := h.ticking_all hu hend
    have hin : Inside (wait.map (Event.admitted (κ := κ))) := fun e he => by
      obtain ⟨t, -, rfl⟩ := List.mem_map.mp he
      rfl
    apply h.ticks.append_end rfl hl hin
    apply h.ticked hcount hnow hadm hdone
    · intro e he
      obtain ⟨t, -, rfl⟩ := List.mem_map.mp he
      exact .inr ⟨t, rfl⟩
    · exact fun _ t => hadmitted t
  case ticking => exact fun _ h => nomatch h

/-- What a step that `Fits` keeps. -/
theorem step (h : Inv run wait s log) {a : Action α κ} (ha : Fits (some s) a) :
    ∃ run wait s', (step (some s) a).1 = some s' ∧
      Inv run wait s' (log ++ (WorkerTimers.step (some s) a).2) := by
  have of_act : ∀ {s' l}, act s a = some (s', l) → (∃ run wait, Inv run wait s' (log ++ l)) →
      ∃ run wait s', (WorkerTimers.step (some s) a).1 = some s' ∧
        Inv run wait s' (log ++ (WorkerTimers.step (some s) a).2) := by
    rintro s' l hact ⟨run, wait, h'⟩
    rw [step_of_act hact]
    exact ⟨run, wait, s', rfl, h'⟩
  have hsame : ∃ run wait, Inv run wait s (log ++ []) := ⟨run, wait, by rwa [List.append_nil]⟩
  cases a with
  | associate object callback ok =>
    cases object with
    | none => exact of_act rfl ⟨_, _, h.log_refused⟩
    | some object =>
      cases callback with
      | none => exact of_act rfl ⟨_, _, h.log_refused⟩
      | some callback =>
        rcases associate_of_fits h.newTimers object callback (ha s rfl) with
          ⟨-, heq⟩ | ⟨_, _, _, heq, h'⟩
        · exact of_act heq ⟨_, _, h.log_refused⟩
        · exact of_act heq ⟨_, _, h.associate h'⟩
  | shutdown object => exact of_act rfl ⟨_, _, h.shutdownObject object⟩
  | tickTimers now =>
    cases hu : s.tick with
    | none => exact of_act (by simp only [act, hu]) ⟨_, _, h.tickTimers now⟩
    | some u => exact of_act (by simp only [act, hu]) hsame
  | next =>
    cases hu : s.tick with
    | none => exact of_act (by simp only [act, hu]) hsame
    | some u =>
      by_cases hlt : u.ii < u.timersCount
      · have hact : act s .next = tickTimer s u := by simp only [act, hu, if_pos hlt]
        obtain ⟨hcount, done, todo, rfl, hii, ht⟩ := h.ticking u hu
        have heq : u = ⟨u.now, done.length, s.timersCount⟩ := by rw [← hcount, ← hii]
        cases todo with
        | nil =>
          have := h.timers.count_eq
          rw [List.append_nil] at this
          omega
        | cons t todo =>
          rw [heq] at hact
          cases hs : s.isShutdown t.object with
          | true =>
            obtain ⟨timers, todo', htick, hp, h'⟩ := tickTimer_of_shutdown h.timers hs
            exact of_act (hact.trans htick) ⟨_, _, h.release ht hs hp h'⟩
          | false =>
            refine of_act (hact.trans ?_) ⟨_, _, h.invoke ht hs⟩
            exact tickTimer_of_not_shutdown h.timers hs
      · exact of_act (by simp only [act, hu, if_neg hlt]) hsame
  | merge ok =>
    cases hu : s.tick with
    | none => exact of_act (by simp only [act, hu]) hsame
    | some u =>
      by_cases hlt : u.ii < u.timersCount
      · exact of_act (by simp only [act, hu, if_pos hlt]) hsame
      · have hend : u.timersCount ≤ u.ii := Nat.not_lt.mp hlt
        have hact : act s (.merge ok) = mergeTimers s ok := by simp only [act, hu, if_neg hlt]
        rcases merge_of_fits h.timers h.newTimers (ha s rfl u hu hend) with heq | ⟨_, _, _, heq, h'⟩
        · exact of_act (hact.trans heq) ⟨_, _, h.growFailed hu hend⟩
        · exact of_act (hact.trans heq) ⟨_, _, h.merge hu hend h'⟩

/-- A step that does not fit leaves no state. -/
theorem step_of_not_fits (h : Inv run wait s log) {a : Action α κ} (ha : ¬ Fits (some s) a) :
    (WorkerTimers.step (some s) a).1 = none := by
  have of_act : act s a = none → (WorkerTimers.step (some s) a).1 = none := fun hact => by
    rw [step_of_act_none hact]
  cases a with
  | associate object callback ok =>
    cases object with
    | none => exact absurd trivial ha
    | some object =>
      cases callback with
      | none => exact absurd trivial ha
      | some callback =>
        apply of_act
        apply associate_of_not_fits h.newTimers
        intro hr
        apply ha
        intro t ht
        cases ht
        exact hr
  | shutdown object => exact absurd trivial ha
  | tickTimers now => exact absurd trivial ha
  | next => exact absurd trivial ha
  | merge ok =>
    have hbad : ∃ u, s.tick = some u ∧ u.timersCount ≤ u.ii ∧ 0 < s.newTimersCount ∧
        ¬ (s.timersCount + s.newTimersCount < 2 ^ 32 ∧
          Room s.timers s.timersAllocated (s.timersCount + s.newTimersCount) ok) := by
      by_contra hno
      apply ha
      intro t ht u hu hend hpos
      cases ht
      by_contra hr
      exact hno ⟨u, hu, hend, hpos, hr⟩
    obtain ⟨u, hu, hend, hpos, hr⟩ := hbad
    apply of_act
    simp only [act, hu, if_neg (Nat.not_lt.mpr hend)]
    exact merge_of_not_fits h.timers h.newTimers hpos hr

end Inv

/-- A run keeps its state exactly if its steps fit. -/
theorem defined_iff_fits (timersOk newTimersOk : Bool) (actions : List (Action α κ)) :
    (∀ n, (exec step (some (init timersOk newTimersOk)) (actions.take n)).1 ≠ none) ↔
      Guarded step Fits (some (init timersOk newTimersOk)) actions := by
  refine @holds_iff_guarded _ _ _ step Fits (fun _ _ => True)
    (fun s => ∃ run wait log t, s = some t ∧ Inv run wait t log) (· ≠ none) ?_ ?_ ?_ actions _ ?_ ?_
  · rintro s ⟨_, _, _, t, rfl, -⟩
    exact nofun
  · rintro s a ⟨_, _, _, t, rfl, h⟩ - ha
    obtain ⟨_, _, t', ht', h'⟩ := h.step ha
    exact ⟨_, _, _, t', ht', h'⟩
  · rintro s a ⟨_, _, _, t, rfl, h⟩ - hdef
    by_contra ha
    exact hdef (h.step_of_not_fits ha)
  · exact ⟨_, _, _, _, rfl, Inv.init timersOk newTimersOk⟩
  · exact guarded_true actions _

/-- What a run keeps whose steps fit. -/
theorem inv_of_fits {timersOk newTimersOk : Bool} {actions : List (Action α κ)}
    (hg : Guarded step Fits (some (init timersOk newTimersOk)) actions) :
    ∃ run wait t, (exec step (some (init timersOk newTimersOk)) actions).1 = some t ∧
      Inv run wait t (exec step (some (init timersOk newTimersOk)) actions).2 := by
  have h := exec_inv (fun s log => ∃ run wait t, s = some t ∧ Inv run wait t log)
    (fun s log a hs ha => by
      obtain ⟨_, _, t, rfl, h⟩ := hs
      exact h.step ha) actions _ [] ⟨_, _, _, rfl, Inv.init timersOk newTimersOk⟩ hg
  rwa [List.nil_append] at h

/-- Over every run, each timer of an object that is not shut down is invoked once in each tick, none is
invoked after its object's shutdown was seen, each association is released once at most, after the
shutdown, and none is lost, exactly if both arrays have room for what is put there. -/
theorem worker_timers (timersOk newTimersOk : Bool) (actions : List (Action α κ)) :
    (∀ n, Sound (exec step (some (init timersOk newTimersOk)) (actions.take n)).1
      (exec step (some (init timersOk newTimersOk)) (actions.take n)).2) ↔
      Guarded step Fits (some (init timersOk newTimersOk)) actions := by
  constructor
  · intro h
    apply (defined_iff_fits timersOk newTimersOk actions).mp
    intro n hn
    obtain ⟨t, ht, -⟩ := (h n).kept
    rw [hn] at ht
    cases ht
  · intro hg n
    obtain ⟨_, _, t, ht, h⟩ := inv_of_fits (hg.take n)
    rw [ht]
    exact h.sound

/-- `Associate` writes through the null pointer that the constructor left, and the 2^32 timers of one
object do not fit, as the doubled size wraps. -/
theorem not_worker_timers :
    let a : Action Nat Nat := .associate (some 0) (some 0) true
    ¬ Sound (exec step (some (init true false)) [a]).1 (exec step (some (init true false)) [a]).2 ∧
    ¬ ∀ n, Sound (exec step (some (init true true)) ((List.replicate (2 ^ 32) a).take n)).1
      (exec step (some (init true true)) ((List.replicate (2 ^ 32) a).take n)).2 := by
  intro a
  constructor
  · intro h
    obtain ⟨t, ht, -⟩ := h.kept
    cases ht
  · intro h
    have hfits : Guarded step Fits (some (init true true)) (List.replicate (2 ^ 32) a) := by
      apply (defined_iff_fits true true _).mp
      intro n hn
      obtain ⟨t, ht, -⟩ := (h n).kept
      rw [hn] at ht
      cases ht
    have hsame : Guarded step (fun _ b => b = a) (some (init true true)) (List.replicate (2 ^ 32) a) :=
      guarded_of_mem (fun b hb _ => List.eq_of_mem_replicate hb) _
    -- each call is good for one timer
    have hrun := exec_inv_inputs (fun done s log => ∃ wait t, s = some t ∧ Inv [] wait t log ∧
        wait.length = done.length)
      (fun done s log b hs (hb : Fits s b ∧ b = a) => by
        obtain ⟨wait, t, rfl, hi, hlen⟩ := hs
        obtain ⟨hb, rfl⟩ := hb
        rcases associate_of_fits hi.newTimers 0 0 (hb t rfl) with ⟨hok, -⟩ | ⟨_, _, _, heq, h'⟩
        · cases hok
        · rw [step_of_act (a := a) heq]
          exact ⟨_, _, rfl, hi.associate h', by simp [hlen]⟩)
      _ [] _ [] ⟨_, _, rfl, Inv.init true true, rfl⟩ (hfits.and hsame)
    obtain ⟨wait, t, -, hi, hlen⟩ := hrun
    have hle := hi.newTimers.count_le
    have hb := hi.newTimers.bound
    rw [hi.newTimers.count_eq, hlen, List.nil_append, List.length_replicate] at hle
    omega

end Runs

end Libcat.Threads.WorkerTimers
