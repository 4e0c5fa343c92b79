import Libcat.Lib.Intrusive
import Libcat.Lib.Run

/-!
# The life of a RefObject

A `RefObject` starts with one reference, which `Destroy` releases after `OnDestroy`. The thread that
releases the last one moves the object from the active list to the dead list (`Kill`), and the
reaper takes the dead list and finalizes what is on it. `Watch` holds the lock of both lists while
`OnInitialize` runs, and puts the object on the active list after it.

The actions are the atomic steps of all threads. The mutex is the one of Windows, which a thread may
take again; that it does is logged.

- `Inv`: each object that was started is in one place, and has a `Kill` ahead of it exactly when
  its count is zero and it was not killed yet.
- `ref_objects_sound`: this holds as long as no `OnInitialize` fails, see `Regular`.
-/

namespace Libcat.Lang

open Intrusive Run

/-- How far `Destroy` has come, past the raised `_shutdown`. -/
inductive Stage (τ : Type) where
  | alive
  | destroying (t : τ)
  | releasing (t : τ)
  | released
deriving DecidableEq

/-- Did `OnDestroy` run? -/
def Stage.notified {τ : Type} : Stage τ → Bool
  | alive | destroying _ => false
  | releasing _ | released => true

/-- `RefObjects` and all objects `α`. `held` are the references that users have, `watching` the
calls of `Watch` that hold the lock, innermost first, `kills` the calls of `Kill` that wait for it;
`item` and `nextItem` are the iterator of the reaper. The links of a new object are null here, the
source leaves them as they are. -/
structure RefObjects (τ α : Type) where
  started : α → Bool
  refCount : α → Nat
  held : α → Nat
  stage : α → Stage τ
  next : α → Option α
  prev : α → Option α
  activeHead : Option α
  deadHead : Option α
  item : Option α
  nextItem : Option α
  watching : List (τ × α)
  kills : List (τ × α)

/-- What threads do, in atomic steps. -/
inductive RefAction (τ α : Type) where
  | watch (t : τ) (x : α)
  | initialized (ok : Bool)
  | addRef (x : α) (times : Nat)
  | releaseRef (t : τ) (x : α) (times : Nat)
  | destroy (t : τ) (x : α)
  | onDestroy (x : α)
  | releaseInitial (x : α)
  | kill (t : τ) (x : α)
  | steal
  | bury

inductive RefEvent (τ α : Type) where
  | onInitialize (x : α)
  | onDestroy (x : α)
  | onFinalize (x : α) (refCount : Nat)
  | relock (t : τ)
deriving DecidableEq

namespace RefObjects

section Model

variable {τ α : Type}

def init : RefObjects τ α where
  started := fun _ => false
  refCount := fun _ => 1
  held := fun _ => 0
  stage := fun _ => .alive
  next := fun _ => none
  prev := fun _ => none
  activeHead := none
  deadHead := none
  item := none
  nextItem := none
  watching := []
  kills := []

/-- The thread that holds `m_refobjects_lock` from one step to the next. -/
def holder (s : RefObjects τ α) : Option τ := s.watching.head?.map Prod.fst

variable [DecidableEq τ] [DecidableEq α]

/-- Can this thread take the lock? -/
def Takes (s : RefObjects τ α) (t : τ) : Prop := s.holder = none ∨ s.holder = some t

instance (s : RefObjects τ α) (t : τ) : Decidable (s.Takes t) := inferInstanceAs (Decidable (_ ∨ _))

def relocks (s : RefObjects τ α) (t : τ) : List (RefEvent τ α) :=
  if s.holder = some t then [.relock t] else []

/-- `_active_list.PushFront`. -/
def pushActive (x : α) (s : RefObjects τ α) : RefObjects τ α :=
  { s with
    next := Function.update s.next x s.activeHead
    prev := write (Function.update s.prev x none) s.activeHead (some x)
    activeHead := some x }

/-- `_dead_list.PushFront`. -/
def pushDead (x : α) (s : RefObjects τ α) : RefObjects τ α :=
  { s with
    next := Function.update s.next x s.deadHead
    prev := write (Function.update s.prev x none) s.deadHead (some x)
    deadHead := some x }

/-- `_active_list.Erase`. -/
def eraseActive (x : α) (s : RefObjects τ α) : RefObjects τ α :=
  { s with
    next := write s.next (s.prev x) (s.next x)
    prev := write s.prev (s.next x) (s.prev x)
    activeHead := if s.prev x = none then s.next x else s.activeHead }

/-- `Kill`, with the lock taken. -/
def kill (x : α) (s : RefObjects τ α) : RefObjects τ α := pushDead x (eraseActive x s)

/-- `_ref_count` after an `Atomic::Add`. -/
def addCount (count times : Nat) : Nat := (count + times) % 2 ^ 32
def subCount (count times : Nat) : Nat := (count + 2 ^ 32 - times) % 2 ^ 32

/-- `ReleaseRef`, up to the call of `Kill`. -/
def dropRef (t : τ) (x : α) (times : Nat) (s : RefObjects τ α) : RefObjects τ α :=
  { s with
    refCount := Function.update s.refCount x (subCount (s.refCount x) times)
    kills := if s.refCount x = times then (t, x) :: s.kills else s.kills }

/-- The end of `Watch` when the object did not initialize: `Destroy` by the thread that holds the
lock, and the dead list. -/
def failInitialize (t : τ) (x : α) (s : RefObjects τ α) : RefObjects τ α × List (RefEvent τ α) :=
  if s.stage x = .alive then
    let s' := { s with
      stage := Function.update s.stage x .released
      refCount := Function.update s.refCount x (subCount (s.refCount x) 1) }
    if s.refCount x = 1 then (pushDead x (kill x s'), [.onDestroy x, .relock t])
    else (pushDead x s', [.onDestroy x])
  else (pushDead x s, [])

/-- One atomic step; what cannot happen in this state changes nothing. Users know an object from its
`OnInitialize` on, and release what they hold. -/
def step (s : RefObjects τ α) : RefAction τ α → RefObjects τ α × List (RefEvent τ α)
  | .watch t x =>
    if s.started x = false ∧ s.Takes t then
      ({ s with started := Function.update s.started x true, watching := (t, x) :: s.watching },
        s.relocks t ++ [.onInitialize x])
    else (s, [])
  | .initialized ok =>
    match s.watching with
    | [] => (s, [])
    | (t, x) :: rest =>
      if ok then (pushActive x { s with watching := rest }, [])
      else failInitialize t x { s with watching := rest }
  | .addRef x times =>
    if s.started x then
      ({ s with
        refCount := Function.update s.refCount x (addCount (s.refCount x) times)
        held := Function.update s.held x (s.held x + times) }, [])
    else (s, [])
  | .releaseRef t x times =>
    if 0 < times ∧ times ≤ s.held x then
      (dropRef t x times { s with held := Function.update s.held x (s.held x - times) }, [])
    else (s, [])
  | .destroy t x =>
    if s.started x ∧ s.stage x = .alive then
      ({ s with stage := Function.update s.stage x (.destroying t) }, [])
    else (s, [])
  | .onDestroy x =>
    match s.stage x with
    | .destroying t =>
      ({ s with stage := Function.update s.stage x (.releasing t) }, [.onDestroy x])
    | _ => (s, [])
  | .releaseInitial x =>
    match s.stage x with
    | .releasing t =>
      (dropRef t x 1 { s with stage := Function.update s.stage x .released }, [])
    | _ => (s, [])
  | .kill t x =>
    if (t, x) ∈ s.kills ∧ s.Takes t then
      (kill x { s with kills := s.kills.erase (t, x) }, s.relocks t)
    else (s, [])
  | .steal =>
    if s.item = none ∧ s.holder = none then
      ({ s with item := s.deadHead, nextItem := s.deadHead.bind s.next, deadHead := none }, [])
    else (s, [])
  | .bury =>
    match s.item with
    | none => (s, [])
    | some x =>
      ({ s with item := s.nextItem, nextItem := s.nextItem.bind s.next },
        [.onFinalize x (s.refCount x)])

/-- `OnInitialize` succeeds. References are added to objects that have one, up to what `_ref_count`
counts, and a thread inside of an `OnInitialize` neither kills an object nor starts one. -/
def Regular (s : RefObjects τ α) : RefAction τ α → Prop
  | .watch t _ => s.holder ≠ some t
  | .initialized ok => s.watching ≠ [] → ok = true
  | .addRef x times => 0 < s.refCount x ∧ s.refCount x + times < 2 ^ 32
  | .kill t _ => s.holder ≠ some t
  | _ => True

end Model

end RefObjects

/-- Is this `OnFinalize` of the object? -/
def RefEvent.finalizes {τ α : Type} [DecidableEq α] (x : α) : RefEvent τ α → Bool
  | onFinalize y _ => y = x
  | _ => false

namespace RefObjects

variable {τ α : Type} [DecidableEq τ] [DecidableEq α]

/-- What the state and the log of a run promise. -/
structure Sound (s : RefObjects τ α) (l : List (RefEvent τ α)) : Prop where
  lists : ∃ active dead, Linked s.next s.prev s.activeHead active ∧
    Linked s.next s.prev s.deadHead dead ∧ (active ++ dead).Nodup
  destroyOnce : ∀ x, l.count (.onDestroy x) ≤ 1
  finalizeOnce : ∀ x, l.countP (RefEvent.finalizes x) ≤ 1
  finalizeLast : ∀ l₁ x count l₂, l = l₁ ++ .onFinalize x count :: l₂ →
    .onDestroy x ∈ l₁ ∧ count = 0
  noRelock : ∀ t, .relock t ∉ l

/-- The invariant of a regular run: `active` and `dead` are the two lists, `taken` is what the
reaper still has to finalize. -/
structure Inv (active dead taken : List α) (s : RefObjects τ α) (l : List (RefEvent τ α)) :
    Prop where
  activeLinks : Linked s.next s.prev s.activeHead active
  deadLinks : Linked s.next s.prev s.deadHead dead
  item : s.item = taken.head?
  nextItem : Seg s.next s.nextItem taken.tail none
  single : s.watching.length ≤ 1
  place : ∀ x, active.count x + (s.watching.map Prod.snd).count x + dead.count x + taken.count x +
    l.countP (RefEvent.finalizes x) = if s.started x then 1 else 0
  killed : ∀ x, (s.kills.map Prod.snd).count x =
    if s.refCount x = 0 then active.count x + (s.watching.map Prod.snd).count x else 0
  alive : ∀ x, s.refCount x ≠ 0 →
    dead.count x + taken.count x + l.countP (RefEvent.finalizes x) = 0
  refs : ∀ x, s.refCount x = s.held x + if s.stage x = .released then 0 else 1
  bound : ∀ x, s.refCount x < 2 ^ 32
  fresh : ∀ x, s.started x = false → s.held x = 0 ∧ s.stage x = .alive
  notified : ∀ x, l.count (.onDestroy x) = if (s.stage x).notified then 1 else 0
  zero : ∀ x count, .onFinalize x count ∈ l → count = 0
  order : l.Pairwise fun e e' => ∀ x, e.finalizes x = true → e' ≠ .onDestroy x
  noRelock : ∀ t, .relock t ∉ l

namespace Inv

variable {active dead taken : List α} {s : RefObjects τ α} {l : List (RefEvent τ α)}

theorem init : Inv [] [] [] (init : RefObjects τ α) [] where
  activeLinks := linked_nil _ _
  deadLinks := linked_nil _ _
  item := rfl
  nextItem := rfl
  single := Nat.zero_le _
  place := by simp [RefObjects.init]
  killed := by simp [RefObjects.init]
  alive := by simp
  refs := by simp [RefObjects.init]
  bound := by simp [RefObjects.init]
  fresh := by simp [RefObjects.init]
  notified := by simp [RefObjects.init, Stage.notified]
  zero := by simp
  order := List.Pairwise.nil
  noRelock := by simp

/-- No object is in two places. -/
theorem nodup (h : Inv active dead taken s l) : (active ++ dead ++ taken).Nodup := by
  apply List.nodup_iff_count_le_one.mpr
  intro x
  have := h.place x
  rw [List.count_append, List.count_append]
  split at this <;> omega

theorem sound (h : Inv active dead taken s l) : Sound s l where
  lists := ⟨active, dead, h.activeLinks, h.deadLinks, (List.nodup_append.mp h.nodup).1⟩
  destroyOnce := by
    intro x
    rw [h.notified x]
    split <;> omega
  finalizeOnce := by
    intro x
    have := h.place x
    split at this <;> omega
  finalizeLast := by
    rintro l₁ x count l₂ rfl
    refine ⟨?_, h.zero x count (by simp)⟩
    -- the count was zero, so the initial reference was released and `OnDestroy` had run
    have hfin : 0 < (l₁ ++ .onFinalize x count :: l₂).countP (RefEvent.finalizes x) := by
      apply List.countP_pos_iff.mpr
      exact ⟨.onFinalize x count, by simp, by simp [RefEvent.finalizes]⟩
    have hzero : s.refCount x = 0 := by
      by_contra hne
      have := h.alive x hne
      omega
    have hstage : s.stage x = .released := by
      by_contra hne
      have := h.refs x
      rw [if_neg hne] at this
      omega
    have hmem : .onDestroy x ∈ l₁ ++ .onFinalize x count :: l₂ := by
      apply List.count_pos_iff.mp
      rw [h.notified x, hstage]
      exact Nat.one_pos
    rcases List.mem_append.mp hmem with hm | hm
    · exact hm
    · rcases List.mem_cons.mp hm with hm | hm
      · cases hm
      · have := (List.pairwise_cons.mp (List.pairwise_append.mp h.order).2.1).1 _ hm x
        exact absurd rfl (this (by simp [RefEvent.finalizes]))
  noRelock := h.noRelock

theorem subCount_of_le {count times : Nat} (h : times ≤ count) (hc : count < 2 ^ 32) :
    subCount count times = count - times := by
  unfold subCount
  omega

/-- The object is on no list when it is in a `Watch`, and so on: places are exclusive. -/
theorem not_mem_of_active (h : Inv active dead taken s l) {x : α} (hx : x ∈ active) :
    x ∉ dead ∧ x ∉ taken := by
  have h1 := h.place x
  have h2 : 0 < active.count x := List.count_pos_iff.mpr hx
  constructor
  · intro hd
    have : 0 < dead.count x := List.count_pos_iff.mpr hd
    split at h1 <;> omega
  · intro hd
    have : 0 < taken.count x := List.count_pos_iff.mpr hd
    split at h1 <;> omega

theorem not_mem_of_dead (h : Inv active dead taken s l) {x : α} (hx : x ∈ dead) :
    x ∉ active ∧ x ∉ taken := by
  have h1 := h.place x
  have h2 : 0 < dead.count x := List.count_pos_iff.mpr hx
  constructor
  · intro hd
    have : 0 < active.count x := List.count_pos_iff.mpr hd
    split at h1 <;> omega
  · intro hd
    have : 0 < taken.count x := List.count_pos_iff.mpr hd
    split at h1 <;> omega

/-- `Watch` takes the lock and starts `OnInitialize`. -/
theorem watch (h : Inv active dead taken s l) {t : τ} {x : α} (hx : s.started x = false)
    (hw : s.watching = []) :
    Inv active dead taken
      { s with started := Function.update s.started x true, watching := [(t, x)] }
      (l ++ [.onInitialize x]) := by
  have hplace := h.place x
  rw [hx, hw] at hplace
  simp only [List.map_nil, List.count_nil, Bool.false_eq_true, if_false] at hplace
  have href : s.refCount x ≠ 0 := by
    have := h.refs x
    rw [(h.fresh x hx).2] at this
    simp only [reduceCtorEq, if_false] at this
    omega
  constructor
  case activeLinks => exact h.activeLinks
  case deadLinks => exact h.deadLinks
  case item => exact h.item
  case nextItem => exact h.nextItem
  case single => exact Nat.le_refl _
  case place =>
    intro y
    by_cases hy : y = x
    · subst hy
      simp [RefEvent.finalizes]
      omega
    · have := h.place y
      rw [hw] at this
      simpa [RefEvent.finalizes, hy, Ne.symm hy] using this
  case killed =>
    intro y
    have := h.killed y
    rw [hw] at this
    by_cases hy : y = x
    · subst hy
      rw [if_neg href] at this ⊢
      exact this
    · simpa [Ne.symm hy] using this
  case alive =>
    intro y hy
    simpa [RefEvent.finalizes] using h.alive y hy
  case refs => exact h.refs
  case bound => exact h.bound
  case fresh =>
    intro y hy
    by_cases hyx : y = x
    · subst hyx
      simp at hy
    · exact h.fresh y (by simpa [hyx] using hy)
  case notified => intro y; simpa using h.notified y
  case zero => intro y count; simpa using h.zero y count
  case order =>
    apply List.pairwise_append.mpr
    refine ⟨h.order, List.pairwise_singleton _ _, ?_⟩
    intro e _ e' he' y _
    rw [List.mem_singleton.mp he']
    exact nofun
  case noRelock => intro t; simpa using h.noRelock t

/-- The links of `pushFront`, when the object is not on the list. -/
theorem pushFront_links {next prev : α → Option α} {head : Option α} {list : List α} {x : α}
    (h : Linked next prev head list) (hnd : list.Nodup) (hx : x ∉ list) :
    Linked (Function.update next x head) (write (Function.update prev x none) head (some x))
      (some x) (x :: list) := by
  have hne : head ≠ some x := fun he => hx (h.mem_of_head he)
  rw [write_update_comm hne]
  exact h.pushFront hnd hx

/-- An object that was initialized enters the active list. -/
theorem initialized (h : Inv active dead taken s l) {t : τ} {x : α} (hw : s.watching = [(t, x)]) :
    Inv (x :: active) dead taken (pushActive x { s with watching := [] }) l := by
  have hplace := h.place x
  rw [hw] at hplace
  simp only [List.map_cons, List.map_nil, List.count_singleton_self] at hplace
  have hx : ∀ list : List α, list.count x = 0 → x ∉ list := fun _ => List.count_eq_zero.mp
  have hxa : x ∉ active := hx _ (by split at hplace <;> omega)
  have hxd : x ∉ dead := hx _ (by split at hplace <;> omega)
  have hxt : x ∉ taken := hx _ (by split at hplace <;> omega)
  have hnd := h.nodup
  have hcount : ∀ y, (x :: active).count y = active.count y + (s.watching.map Prod.snd).count y := by
    intro y
    rw [hw, List.count_cons, List.map_cons, List.count_cons]
    simp
  constructor
  case activeLinks =>
    exact pushFront_links h.activeLinks
      (List.nodup_append.mp (List.nodup_append.mp hnd).1).1 hxa
  case deadLinks =>
    refine h.deadLinks.congr (fun a ha => ?_) (fun a ha => ?_)
    · have hne : a ≠ x := fun he => hxd (he ▸ ha)
      simp [pushActive, hne]
    · have hne : a ≠ x := fun he => hxd (he ▸ ha)
      have hhead : s.activeHead ≠ some a := fun he =>
        (h.not_mem_of_dead ha).1 (h.activeLinks.mem_of_head he)
      simp [pushActive, write_of_ne hhead, hne]
  case item => exact h.item
  case nextItem =>
    refine h.nextItem.congr fun a ha => ?_
    have hne : a ≠ x := fun he => hxt (he ▸ List.mem_of_mem_tail ha)
    simp [pushActive, hne]
  case single => exact Nat.zero_le _
  case place =>
    intro y
    have := h.place y
    simp only [pushActive, List.map_nil, List.count_nil, Nat.add_zero]
    rw [hcount]
    exact this
  case killed =>
    intro y
    have := h.killed y
    simp only [pushActive, List.map_nil, List.count_nil, Nat.add_zero]
    rw [hcount]
    exact this
  case alive => exact h.alive
  case refs => exact h.refs
  case bound => exact h.bound
  case fresh => exact h.fresh
  case notified => exact h.notified
  case zero => exact h.zero
  case order => exact h.order
  case noRelock => exact h.noRelock

/-- References are added to an object that has some. -/
theorem addRef (h : Inv active dead taken s l) {x : α} {times : Nat} (hx : s.started x = true)
    (hpos : 0 < s.refCount x) (hlt : s.refCount x + times < 2 ^ 32) :
    Inv active dead taken
      { s with
        refCount := Function.update s.refCount x (addCount (s.refCount x) times)
        held := Function.update s.held x (s.held x + times) } l := by
  have hadd : addCount (s.refCount x) times = s.refCount x + times := Nat.mod_eq_of_lt hlt
  rw [hadd]
  have hzero : ∀ y, Function.update s.refCount x (s.refCount x + times) y = 0 ↔ s.refCount y = 0 := by
    intro y
    by_cases hy : y = x
    · subst hy
      rw [Function.update_self]
      omega
    · rw [Function.update_of_ne hy]
  constructor
  case activeLinks => exact h.activeLinks
  case deadLinks => exact h.deadLinks
  case item => exact h.item
  case nextItem => exact h.nextItem
  case single => exact h.single
  case place => exact h.place
  case killed =>
    intro y
    simp only [hzero y]
    exact h.killed y
  case alive => exact fun y hy => h.alive y ((hzero y).not.mp hy)
  case refs =>
    intro y
    have := h.refs y
    by_cases hy : y = x
    · subst hy
      simp only [Function.update_self]
      omega
    · simpa only [Function.update_of_ne hy] using this
  case bound =>
    intro y
    by_cases hy : y = x
    · subst hy
      simpa only [Function.update_self] using hlt
    · simpa only [Function.update_of_ne hy] using h.bound y
  case fresh =>
    intro y hy
    have hne : y ≠ x := by
      rintro rfl
      exact absurd (hx.symm.trans hy) (by decide)
    simpa only [Function.update_of_ne hne] using h.fresh y hy
  case notified => exact h.notified
  case zero => exact h.zero
  case order => exact h.order
  case noRelock => exact h.noRelock

/-- References are released. With the last one, a `Kill` is ahead. -/
theorem dropRef (h : Inv active dead taken s l) {t : τ} {x : α} {times : Nat}
    (hx : s.started x = true) (hpos : 0 < times) (hle : times ≤ s.refCount x) {held : α → Nat}
    {stage : α → Stage τ}
    (hrefs : ∀ y, Function.update s.refCount x (s.refCount x - times) y =
      held y + if stage y = .released then 0 else 1)
    (hnotified : ∀ y, (stage y).notified = (s.stage y).notified)
    (hfresh : ∀ y, s.started y = false → held y = 0 ∧ stage y = .alive) :
    Inv active dead taken (dropRef t x times { s with held := held, stage := stage }) l := by
  have hsub : subCount (s.refCount x) times = s.refCount x - times :=
    subCount_of_le hle (h.bound x)
  have hplace := h.place x
  have halive := h.alive x (by omega)
  have hkilled := h.killed x
  rw [hx, if_pos rfl] at hplace
  rw [if_neg (by omega)] at hkilled
  unfold RefObjects.dropRef
  rw [hsub]
  constructor
  case activeLinks => exact h.activeLinks
  case deadLinks => exact h.deadLinks
  case item => exact h.item
  case nextItem => exact h.nextItem
  case single => exact h.single
  case place => exact h.place
  case killed =>
    intro y
    have := h.killed y
    by_cases hy : y = x
    · subst hy
      simp only [Function.update_self]
      split
      · rw [if_pos (by omega), List.map_cons, List.count_cons_self]
        omega
      · rw [if_neg (by omega)]
        exact hkilled
    · simp only [Function.update_of_ne hy]
      split
      · rw [List.map_cons, List.count_cons_of_ne (Ne.symm hy)]
        exact this
      · exact this
  case alive =>
    intro y hy
    by_cases hyx : y = x
    · subst hyx
      exact halive
    · exact h.alive y (by simpa only [Function.update_of_ne hyx] using hy)
  case refs => exact hrefs
  case bound =>
    intro y
    by_cases hy : y = x
    · subst hy
      have := h.bound y
      simp only [Function.update_self]
      omega
    · simp only [Function.update_of_ne hy]
      exact h.bound y
  case fresh => exact hfresh
  case notified =>
    intro y
    simp only [hnotified y]
    exact h.notified y
  case zero => exact h.zero
  case order => exact h.order
  case noRelock => exact h.noRelock

/-- The `_shutdown` of an object is raised. -/
theorem destroy (h : Inv active dead taken s l) {t : τ} {x : α} (hx : s.started x = true)
    (hstage : s.stage x = .alive) :
    Inv active dead taken { s with stage := Function.update s.stage x (.destroying t) } l := by
  constructor
  case activeLinks => exact h.activeLinks
  case deadLinks => exact h.deadLinks
  case item => exact h.item
  case nextItem => exact h.nextItem
  case single => exact h.single
  case place => exact h.place
  case killed => exact h.killed
  case alive => exact h.alive
  case refs =>
    intro y
    have := h.refs y
    by_cases hy : y = x
    · subst hy
      simpa only [Function.update_self, hstage, reduceCtorEq, if_false] using this
    · simpa only [Function.update_of_ne hy] using this
  case bound => exact h.bound
  case fresh =>
    intro y hy
    have hne : y ≠ x := by
      rintro rfl
      exact absurd (hx.symm.trans hy) (by decide)
    simpa only [Function.update_of_ne hne] using h.fresh y hy
  case notified =>
    intro y
    have := h.notified y
    by_cases hy : y = x
    · subst hy
      simpa only [Function.update_self, hstage, Stage.notified] using this
    · simpa only [Function.update_of_ne hy] using this
  case zero => exact h.zero
  case order => exact h.order
  case noRelock => exact h.noRelock

/-- `OnDestroy` runs while the initial reference is held, so before the object is finalized. -/
theorem onDestroy (h : Inv active dead taken s l) {t : τ} {x : α}
    (hstage : s.stage x = .destroying t) :
    Inv active dead taken { s with stage := Function.update s.stage x (.releasing t) }
      (l ++ [.onDestroy x]) := by
  have href : s.refCount x ≠ 0 := by
    have := h.refs x
    rw [hstage] at this
    simp only [reduceCtorEq, if_false] at this
    omega
  have hfin : l.countP (RefEvent.finalizes x) = 0 := by
    have := h.alive x href
    omega
  have hlog : ∀ y, (l ++ [RefEvent.onDestroy x]).countP (RefEvent.finalizes y) =
      l.countP (RefEvent.finalizes y) := fun y => by simp [RefEvent.finalizes]
  constructor
  case activeLinks => exact h.activeLinks
  case deadLinks => exact h.deadLinks
  case item => exact h.item
  case nextItem => exact h.nextItem
  case single => exact h.single
  case place => intro y; rw [hlog]; exact h.place y
  case killed => exact h.killed
  case alive => intro y hy; rw [hlog]; exact h.alive y hy
  case refs =>
    intro y
    have := h.refs y
    by_cases hy : y = x
    · subst hy
      simpa only [Function.update_self, hstage, reduceCtorEq, if_false] using this
    · simpa only [Function.update_of_ne hy] using this
  case bound => exact h.bound
  case fresh =>
    intro y hy
    have hne : y ≠ x := by
      rintro rfl
      exact absurd (hstage.symm.trans (h.fresh y hy).2) nofun
    simpa only [Function.update_of_ne hne] using h.fresh y hy
  case notified =>
    intro y
    have := h.notified y
    rw [List.count_append]
    by_cases hy : y = x
    · subst hy
      rw [hstage] at this
      simp only [Function.update_self, Stage.notified, if_true, List.count_singleton_self]
      simpa [Stage.notified] using this
    · have hne : [RefEvent.onDestroy (τ := τ) x].count (.onDestroy y) = 0 := by
        simp [Ne.symm hy]
      rw [hne, Nat.add_zero]
      simpa only [Function.update_of_ne hy] using this
  case zero => intro y count; simpa using h.zero y count
  case order =>
    apply List.pairwise_append.mpr
    refine ⟨h.order, List.pairwise_singleton _ _, ?_⟩
    intro e he e' he' y hy heq
    rw [List.mem_singleton.mp he'] at heq
    cases heq
    exact absurd hy (List.countP_eq_zero.mp hfin e he)
  case noRelock => intro t; simpa using h.noRelock t

/-- `Kill` finds the object on the active list and moves it. -/
theorem kill (h : Inv active dead taken s l) {t : τ} {x : α} (hk : (t, x) ∈ s.kills)
    (hw : s.watching = []) :
    ∃ active', Inv active' (x :: dead) taken (kill x { s with kills := s.kills.erase (t, x) }) l := by
  have hpos : 0 < (s.kills.map Prod.snd).count x :=
    List.count_pos_iff.mpr (List.mem_map.mpr ⟨_, hk, rfl⟩)
  have hkilled := h.killed x
  rw [hw] at hkilled
  simp only [List.map_nil, List.count_nil, Nat.add_zero] at hkilled
  have href : s.refCount x = 0 := by
    by_contra hne
    rw [if_neg hne] at hkilled
    omega
  rw [if_pos href] at hkilled
  have hmem : x ∈ active := List.count_pos_iff.mp (by omega)
  obtain ⟨l₁, l₂, rfl⟩ := List.append_of_mem hmem
  have hnd := h.nodup
  have hnda : (l₁ ++ x :: l₂).Nodup := (List.nodup_append.mp (List.nodup_append.mp hnd).1).1
  have hndd : dead.Nodup := (List.nodup_append.mp (List.nodup_append.mp hnd).1).2.1
  have hx : x ∉ l₁ ++ l₂ := (List.nodup_middle.mp hnda |> List.nodup_cons.mp).1
  obtain ⟨hxd, hxt⟩ := h.not_mem_of_active hmem
  have hcount : ∀ y, (l₁ ++ x :: l₂).count y = (l₁ ++ l₂).count y + [x].count y := by
    intro y
    rw [List.count_append, List.count_append, List.count_cons, List.count_singleton]
    omega
  have hkills : ∀ y, (s.kills.map Prod.snd).count y =
      ((s.kills.erase (t, x)).map Prod.snd).count y + [x].count y := by
    intro y
    rw [((List.perm_cons_erase hk).map Prod.snd).count_eq, List.map_cons, List.count_cons,
      List.count_singleton]
  -- what `Erase` writes belongs to the active list
  have hnext : ∀ a, a ∉ l₁ ++ x :: l₂ → write s.next (s.prev x) (s.next x) a = s.next a :=
    fun a ha => write_of_ne fun he => ha (h.activeLinks.mem_of_prev hmem he)
  have hprev : ∀ a, a ∉ l₁ ++ x :: l₂ → write s.prev (s.next x) (s.prev x) a = s.prev a :=
    fun a ha => write_of_ne fun he => ha (h.activeLinks.mem_of_next hmem he)
  have herase := h.activeLinks.unlink hnda
  have hdead : Linked (write s.next (s.prev x) (s.next x)) (write s.prev (s.next x) (s.prev x))
      s.deadHead dead :=
    h.deadLinks.congr (fun a ha => hnext a (h.not_mem_of_dead ha).1)
      (fun a ha => hprev a (h.not_mem_of_dead ha).1)
  refine ⟨l₁ ++ l₂, ?_⟩
  constructor
  case activeLinks =>
    refine herase.congr (fun a ha => ?_) (fun a ha => ?_)
    · have hne : a ≠ x := fun he => hx (he ▸ ha)
      simp [RefObjects.kill, pushDead, eraseActive, hne]
    · have hne : a ≠ x := fun he => hx (he ▸ ha)
      have hhead : s.deadHead ≠ some a := fun he =>
        (h.not_mem_of_dead (h.deadLinks.mem_of_head he)).1 (by
          rcases List.mem_append.mp ha with ha | ha <;> simp [ha])
      simp [RefObjects.kill, pushDead, eraseActive, write_of_ne hhead, hne]
  case deadLinks => exact pushFront_links hdead hndd hxd
  case item => exact h.item
  case nextItem =>
    refine h.nextItem.congr fun a ha => ?_
    have ha := List.mem_of_mem_tail ha
    have hne : a ≠ x := fun he => hxt (he ▸ ha)
    have := hnext a fun hm => (h.not_mem_of_active hm).2 ha
    simp [RefObjects.kill, pushDead, eraseActive, hne, this]
  case single => exact h.single
  case place =>
    intro y
    have := h.place y
    rw [hcount] at this
    simp only [RefObjects.kill, pushDead, eraseActive, List.count_cons] at this ⊢
    simp only [List.count_nil, Nat.zero_add] at this
    omega
  case killed =>
    intro y
    have := h.killed y
    rw [hw] at this
    rw [hcount, hkills] at this
    simp only [RefObjects.kill, pushDead, eraseActive, hw, List.map_nil, List.count_nil,
      Nat.add_zero] at this ⊢
    by_cases hy : y = x
    · subst hy
      rw [if_pos href] at this ⊢
      omega
    · have hzero : [x].count y = 0 := List.count_eq_zero.mpr (by simpa using hy)
      rw [hzero, Nat.add_zero, Nat.add_zero] at this
      exact this
  case alive =>
    intro y hy
    have hne : x ≠ y := fun he => hy (he ▸ href)
    rw [List.count_cons_of_ne hne]
    exact h.alive y hy
  case refs => exact h.refs
  case bound => exact h.bound
  case fresh => exact h.fresh
  case notified => exact h.notified
  case zero => exact h.zero
  case order => exact h.order
  case noRelock => exact h.noRelock

/-- The reaper takes the dead list. -/
theorem steal (h : Inv active dead taken s l) (hi : s.item = none) :
    Inv active [] dead
      { s with item := s.deadHead, nextItem := s.deadHead.bind s.next, deadHead := none } l := by
  have htaken : taken = [] := by
    have := h.item
    rw [hi] at this
    exact List.head?_eq_none_iff.mp this.symm
  subst htaken
  have hhead := h.deadLinks.next.head
  constructor
  case activeLinks => exact h.activeLinks
  case deadLinks => exact linked_nil _ _
  case item => exact hhead
  case nextItem =>
    have hseg := h.deadLinks.next
    cases hd : dead with
    | nil =>
      rw [hd] at hhead
      rw [hhead]
      rfl
    | cons x rest =>
      rw [hd] at hseg
      rw [hseg.1]
      exact hseg.2
  case single => exact h.single
  case place =>
    intro y
    have := h.place y
    simp only [List.count_nil] at this ⊢
    omega
  case killed => exact h.killed
  case alive =>
    intro y hy
    have := h.alive y hy
    simp only [List.count_nil] at this ⊢
    omega
  case refs => exact h.refs
  case bound => exact h.bound
  case fresh => exact h.fresh
  case notified => exact h.notified
  case zero => exact h.zero
  case order => exact h.order
  case noRelock => exact h.noRelock

/-- The reaper finalizes the next object. -/
theorem bury (h : Inv active dead taken s l) {x : α} (hi : s.item = some x) :
    Inv active dead taken.tail
      { s with item := s.nextItem, nextItem := s.nextItem.bind s.next }
      (l ++ [.onFinalize x (s.refCount x)]) := by
  obtain ⟨rest, rfl⟩ : ∃ rest, taken = x :: rest := by
    have := h.item
    rw [hi] at this
    cases taken with
    | nil => cases this
    | cons y rest =>
      cases this
      exact ⟨rest, rfl⟩
  have href : s.refCount x = 0 := by
    by_contra hne
    have := h.alive x hne
    rw [List.count_cons_self] at this
    omega
  have hseg := h.nextItem
  rw [List.tail_cons] at hseg ⊢
  have hcount : ∀ y, (x :: rest).count y = rest.count y + [x].count y := by
    intro y
    rw [List.count_cons, List.count_singleton]
  have hlog : ∀ y, (l ++ [RefEvent.onFinalize x (s.refCount x)]).countP (RefEvent.finalizes y) =
      l.countP (RefEvent.finalizes y) + [x].count y := by
    intro y
    rw [List.countP_append, List.countP_singleton, List.count_singleton]
    simp [RefEvent.finalizes]
  constructor
  case activeLinks => exact h.activeLinks
  case deadLinks => exact h.deadLinks
  case item => exact hseg.head
  case nextItem =>
    cases rest with
    | nil =>
      rw [show s.nextItem = none from hseg]
      rfl
    | cons y rest =>
      rw [hseg.1]
      exact hseg.2
  case single => exact h.single
  case place =>
    intro y
    have := h.place y
    rw [hcount] at this
    rw [hlog]
    dsimp only
    omega
  case killed => exact h.killed
  case alive =>
    intro y hy
    have := h.alive y hy
    rw [hcount] at this
    rw [hlog]
    omega
  case refs => exact h.refs
  case bound => exact h.bound
  case fresh => exact h.fresh
  case notified => intro y; simpa using h.notified y
  case zero =>
    intro y count hm
    rcases List.mem_append.mp hm with hm | hm
    · exact h.zero y count hm
    · cases List.mem_singleton.mp hm
      exact href
  case order =>
    apply List.pairwise_append.mpr
    refine ⟨h.order, List.pairwise_singleton _ _, ?_⟩
    intro e _ e' he' y _
    rw [List.mem_singleton.mp he']
    exact nofun
  case noRelock => intro t; simpa using h.noRelock t

/-- Each regular step keeps the invariant, for some lists. -/
theorem step (h : Inv active dead taken s l) {a : RefAction τ α} (ha : Regular s a) :
    ∃ active dead taken, Inv active dead taken (step s a).1 (l ++ (step s a).2) := by
  have hsame : ∃ active dead taken, Inv active dead taken s (l ++ []) :=
    ⟨active, dead, taken, by rwa [List.append_nil]⟩
  have hidle : s.holder = none → s.watching = [] := fun hh => by
    simpa [holder] using hh
  cases a with
  | watch t x =>
    unfold RefObjects.step
    dsimp only
    split
    · next hc =>
      have hh : s.holder = none := hc.2.resolve_right ha
      have hw := hidle hh
      have hrelock : s.relocks t = ([] : List (RefEvent τ α)) := if_neg (by rw [hh]; exact nofun)
      rw [hrelock, hw, List.nil_append]
      exact ⟨_, _, _, h.watch hc.1 hw⟩
    · exact hsame
  | initialized ok =>
    unfold RefObjects.step
    dsimp only
    split
    · exact hsame
    · next t x rest hw =>
      have hrest : rest = [] := by
        have := h.single
        rw [hw, List.length_cons] at this
        exact List.eq_nil_of_length_eq_zero (by omega)
      subst hrest
      have hok : ok = true := ha (by rw [hw]; exact nofun)
      rw [if_pos hok, List.append_nil]
      exact ⟨_, _, _, h.initialized hw⟩
  | addRef x times =>
    unfold RefObjects.step
    dsimp only
    split
    · next hx =>
      rw [List.append_nil]
      exact ⟨_, _, _, h.addRef hx ha.1 ha.2⟩
    · exact hsame
  | releaseRef t x times =>
    unfold RefObjects.step
    dsimp only
    split
    · next hc =>
      have hx : s.started x = true := by
        by_contra hne
        have := (h.fresh x (by simpa using hne)).1
        omega
      have hrefs := h.refs x
      rw [List.append_nil]
      refine ⟨_, _, _, h.dropRef hx hc.1 (by omega) (fun y => ?_) (fun _ => rfl) (fun y hy => ?_)⟩
      · have := h.refs y
        by_cases hyx : y = x
        · subst hyx
          rw [Function.update_self, Function.update_self]
          omega
        · rw [Function.update_of_ne hyx, Function.update_of_ne hyx]
          exact this
      · have hne : y ≠ x := by
          rintro rfl
          exact absurd (hx.symm.trans hy) (by decide)
        rw [Function.update_of_ne hne]
        exact h.fresh y hy
    · exact hsame
  | destroy t x =>
    unfold RefObjects.step
    dsimp only
    split
    · next hc =>
      rw [List.append_nil]
      exact ⟨_, _, _, h.destroy hc.1 hc.2⟩
    · exact hsame
  | onDestroy x =>
    unfold RefObjects.step
    dsimp only
    split
    · next t hstage => exact ⟨_, _, _, h.onDestroy hstage⟩
    · exact hsame
  | releaseInitial x =>
    unfold RefObjects.step
    dsimp only
    split
    · next t hstage =>
      have hx : s.started x = true := by
        by_contra hne
        have := (h.fresh x (by simpa using hne)).2
        rw [hstage] at this
        cases this
      have hrefs := h.refs x
      rw [hstage] at hrefs
      simp only [reduceCtorEq, if_false] at hrefs
      rw [List.append_nil]
      refine ⟨_, _, _, h.dropRef hx Nat.one_pos (by omega) (fun y => ?_) (fun y => ?_)
        (fun y hy => ?_)⟩
      · have := h.refs y
        by_cases hyx : y = x
        · subst hyx
          rw [Function.update_self, Function.update_self, if_pos rfl]
          omega
        · rw [Function.update_of_ne hyx, Function.update_of_ne hyx]
          exact this
      · by_cases hyx : y = x
        · subst hyx
          rw [Function.update_self, hstage]
          rfl
        · rw [Function.update_of_ne hyx]
      · have hne : y ≠ x := by
          rintro rfl
          exact absurd (hx.symm.trans hy) (by decide)
        rw [Function.update_of_ne hne]
        exact h.fresh y hy
    · exact hsame
  | kill t x =>
    unfold RefObjects.step
    dsimp only
    split
    · next hc =>
      have hh : s.holder = none := hc.2.resolve_right ha
      have hrelock : s.relocks t = ([] : List (RefEvent τ α)) := if_neg (by rw [hh]; exact nofun)
      rw [hrelock, List.append_nil]
      obtain ⟨active', h'⟩ := h.kill hc.1 (hidle hh)
      exact ⟨_, _, _, h'⟩
    · exact hsame
  | steal =>
    unfold RefObjects.step
    dsimp only
    split
    · next hc =>
      rw [List.append_nil]
      exact ⟨_, _, _, h.steal hc.1⟩
    · exact hsame
  | bury =>
    unfold RefObjects.step
    dsimp only
    split
    · exact hsame
    · next x hi => exact ⟨_, _, _, h.bury hi⟩

end Inv

/-- In every interleaving of regular actions, both lists stay well formed and hold each object once
at most, and each object is destroyed and then finalized once at most, without references. -/
theorem ref_objects_sound (actions : List (RefAction τ α))
    (hg : Guarded step Regular (init : RefObjects τ α) actions) :
    Sound (exec step init actions).1 (exec step init actions).2 := by
  have h := exec_inv (fun s l => ∃ active dead taken, Inv active dead taken s l)
    (fun s l a hs ha => by
      obtain ⟨_, _, _, hs⟩ := hs
      exact hs.step ha) actions init [] ⟨[], [], [], Inv.init⟩ hg
  rw [List.nil_append] at h
  obtain ⟨_, _, _, h⟩ := h
  exact h.sound

/-- Thread 1 starts an object, thread 2 destroys it while it initializes, and a reference is added
and released before the reaper comes. -/
theorem ref_objects_sound_destroyed :
    let actions : List (RefAction Nat Nat) :=
      [.watch 1 7, .destroy 2 7, .addRef 7 1, .onDestroy 7, .releaseInitial 7, .releaseRef 3 7 1,
        .kill 3 7, .initialized true, .kill 3 7, .steal, .bury, .steal]
    Sound (exec step init actions).1 (exec step init actions).2 :=
  ref_objects_sound _ (by simp [Guarded, Regular, step, init, holder, Takes, RefObjects.dropRef,
    addCount, subCount, pushActive])

/-- When `OnInitialize` fails, the lock is taken again and the object is put on the dead list twice,
which closes a circle; when it kept a reference, the object is finalized with it. -/
theorem not_ref_objects_sound :
    let failed := exec step (init : RefObjects Nat Nat) [.watch 1 7, .initialized false]
    let kept := exec step (init : RefObjects Nat Nat)
      [.watch 1 7, .addRef 7 1, .initialized false, .steal, .bury]
    ¬ Sound failed.1 failed.2 ∧ failed.1.deadHead = some 7 ∧ failed.1.next 7 = some 7 ∧
      ¬ Sound kept.1 kept.2 := by
  refine ⟨fun h => h.noRelock 1 (by decide), by decide, by decide, fun h => ?_⟩
  have := h.finalizeLast [.onInitialize 7, .onDestroy 7] 7 1 [] (by decide)
  exact absurd this.2 (by decide)

end RefObjects

end Libcat.Lang
