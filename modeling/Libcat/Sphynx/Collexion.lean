import Libcat.Lib.Intrusive
import Libcat.Lib.Lcg
import Libcat.Lib.Probe
import Libcat.Lib.Run
import Libcat.Math.BitMath

/-!
# Collexion

`Collexion`: a set of objects in a hash table with collision flags. The objects are also on a list,
through links that are the index of a slot and one. The fields of the two tables are functions of the
slot; a pointer to an object is a `T`, and no object is `none`.

`Insert` and `Remove` are loops until something is found, and have no result where they would run
forever or read outside of a table.

- `Serves` is what a call needs for the right answer.
- `Holds` is the invariant, and `collexion_set` says that calls that are served make a set.
-/

namespace Libcat.Sphynx

open Intrusive Probe

def collisionMultiplier : Nat := 71 * 5861 * 4 + 1
def collisionIncrementer : Nat := 1013904223
def collisionMultinverse : Nat := 0xfee058c5
def collisionIncrinverse : Nat := 2 ^ 32 - collisionIncrementer

/-- One step along a collision list. -/
def probe (mask key : Nat) : Nat :=
  (key * collisionMultiplier + collisionIncrementer) % 2 ^ 32 &&& mask

/-- One step back. -/
def probeBack (mask key : Nat) : Nat :=
  (key + collisionIncrinverse) * collisionMultinverse % 2 ^ 32 &&& mask

def minAllocated : Nat := 32

/-- `CollexionElement` and `CollexionElement2`, by slot. -/
structure CollexionTable (T : Type) where
  conn : Nat → Option T
  collide : Nat → Bool
  kill : Nat → Bool
  next : Nat → Nat
  prev : Nat → Nat
  hash : Nat → u32

structure Collexion (T : Type) where
  used : Nat
  allocated : Nat
  activeHead : Nat
  inactiveHead : Nat
  referenceCount : Nat
  table : CollexionTable T

section Model

variable {T : Type}

namespace CollexionTable

/-- A table that is clear. -/
def clear : CollexionTable T where
  conn := fun _ => none
  collide := fun _ => false
  kill := fun _ => false
  next := fun _ => 0
  prev := fun _ => 0
  hash := fun _ => 0

/-- The walk to a free slot in `DoubleTable`. -/
def walkFree (mask : Nat) : Nat → Nat → CollexionTable T → Option (Nat × CollexionTable T)
  | 0, _, _ => none
  | fuel + 1, key, t =>
    if (t.conn key).isSome then
      walkFree mask fuel (probe mask key) { t with collide := Function.update t.collide key true }
    else some (key, t)

/-- The copy of a list in `DoubleTable`. The element read is the one behind the slot that is linked,
and there is none behind the last slot. -/
def copyList (old : CollexionTable T) (allocated : Nat) (kill : Bool) :
    Nat → Nat → CollexionTable T → Nat → Option (CollexionTable T × Nat)
  | 0, _, _, _ => none
  | fuel + 1, oldKey, t, head =>
    if oldKey = 0 then some (t, head)
    else if allocated ≤ oldKey then none
    else do
      let mask := allocated - 1
      let (newKey, t) ← walkFree mask fuel ((old.hash oldKey).toNat &&& mask) t
      let t := { t with
                   conn := Function.update t.conn newKey (old.conn oldKey)
                   hash := Function.update t.hash newKey (old.hash oldKey) }
      let t :=
        if head ≠ 0 then
          { t with
              next := Function.update t.next newKey (t.next newKey ||| head)
              prev := Function.update t.prev (head - 1) newKey }
        else t
      let t := if kill then { t with kill := Function.update t.kill newKey true } else t
      copyList old allocated kill fuel (old.next oldKey) t (newKey + 1)

/-- Zero `head->prev`. -/
def zeroHead (t : CollexionTable T) (head : Nat) : CollexionTable T :=
  if head ≠ 0 then { t with prev := Function.update t.prev (head - 1) 0 } else t

/-- The links of a slot leave its list. -/
def unlink (t : CollexionTable T) (head key : Nat) : CollexionTable T × Nat :=
  let next := t.next key
  let prev := t.prev key
  let (t, head) :=
    if prev ≠ 0 then ({ t with next := Function.update t.next (prev - 1) next }, head)
    else (t, next)
  let t := if next ≠ 0 then { t with prev := Function.update t.prev (next - 1) prev } else t
  (t, head)

/-- The walk back in `UnlinkActive`, with the flags. -/
def clearBack (mask : Nat) (conn : Nat → Option T) :
    Nat → Nat → (Nat → Bool) → Option (Nat → Bool)
  | 0, _, _ => none
  | fuel + 1, key, collide =>
    let key := probeBack mask key
    if !collide key then some collide
    else
      let collide := Function.update collide key false
      if (conn key).isNone then clearBack mask conn fuel key collide else some collide

/-- The objects of a list. -/
def list (t : CollexionTable T) : Nat → Nat → Option (List (Option T))
  | 0, _ => none
  | fuel + 1, key =>
    if key = 0 then some []
    else do
      let rest ← t.list fuel (t.next (key - 1))
      return t.conn (key - 1) :: rest

variable [DecidableEq T]

/-- The loop of `Insert`: the free slot, if the object is not met before. -/
def insertLoop (conn : T) (mask : Nat) :
    Nat → Nat → CollexionTable T → Option (Option Nat × CollexionTable T)
  | 0, _, _ => none
  | fuel + 1, key, t =>
    if t.conn key = some conn then some (none, t)
    else if t.conn key = none then some (some key, t)
    else if t.collide key then insertLoop conn mask fuel (probe mask key) t
    else insertLoop conn mask fuel key { t with collide := Function.update t.collide key true }

/-- The loop of `Remove`. -/
def findLoop (t : CollexionTable T) (conn : T) (mask : Nat) : Nat → Nat → Option (Option Nat)
  | 0, _ => none
  | fuel + 1, key =>
    if t.conn key = some conn then some (some key)
    else if !t.collide key then some none
    else t.findLoop conn mask fuel (probe mask key)

end CollexionTable

namespace Collexion

/-- The constructor. -/
def new : Collexion T where
  used := 0
  allocated := 0
  activeHead := 0
  inactiveHead := 0
  referenceCount := 0
  table := .clear

/-- `DoubleTable`. -/
def doubleTable (fuel : Nat) (c : Collexion T) : Option (Collexion T) := do
  let newAllocated := c.allocated * 2 % 2 ^ 32
  let newAllocated := if newAllocated < minAllocated then minAllocated else newAllocated
  if c.allocated = 0 then
    return { c with
               allocated := newAllocated
               activeHead := 0
               inactiveHead := 0
               table := .clear }
  let (t, activeHead) ← c.table.copyList c.allocated false fuel c.activeHead .clear 0
  let t := t.zeroHead activeHead
  let (t, inactiveHead) ← c.table.copyList c.allocated true fuel c.inactiveHead t 0
  return { c with
             allocated := newAllocated
             activeHead := activeHead
             inactiveHead := inactiveHead
             table := t.zeroHead inactiveHead }

/-- The growth at the top of `Insert`. -/
def grow (fuel : Nat) (c : Collexion T) : Option (Collexion T) :=
  if c.allocated / 2 ≤ c.used then c.doubleTable fuel else some c

/-- The end of `Insert`. -/
def fill (c : Collexion T) (hash : u32) (conn : T) (key : Nat) : Collexion T :=
  let prev :=
    if c.activeHead ≠ 0 then Function.update c.table.prev (c.activeHead - 1) (key + 1)
    else c.table.prev
  { c with
      used := c.used + 1
      activeHead := key + 1
      table :=
        { c.table with
            conn := Function.update c.table.conn key (some conn)
            kill := Function.update c.table.kill key false
            next := Function.update c.table.next key c.activeHead
            prev := Function.update prev key 0
            hash := Function.update c.table.hash key hash } }

/-- `UnlinkActive`. -/
def unlinkActive (fuel : Nat) (c : Collexion T) (key : Nat) : Option (Collexion T) := do
  let t := { c.table with conn := Function.update c.table.conn key none }
  let (t, head) := t.unlink c.activeHead key
  let collide ←
    if !t.collide key then CollexionTable.clearBack (c.allocated - 1) t.conn fuel key t.collide
    else some t.collide
  return { c with
             used := c.used - 1
             activeHead := head
             table := { t with collide := collide } }

/-- `Inactivate`. -/
def inactivate (c : Collexion T) (key : Nat) : Collexion T :=
  let (t, head) := c.table.unlink c.activeHead key
  let prev :=
    if c.inactiveHead ≠ 0 then Function.update t.prev (c.inactiveHead - 1) (key + 1) else t.prev
  { c with
      activeHead := head
      inactiveHead := key + 1
      table :=
        { t with
            kill := Function.update t.kill key true
            next := Function.update t.next key c.inactiveHead
            prev := Function.update prev key 0 } }

/-- `SubsetAcquire`. -/
def subsetAcquire (fuel : Nat) (c : Collexion T) (criterion : Option T → Bool) :
    Option (Collexion T × List (Option T)) := do
  let subset := (← c.table.list fuel c.activeHead).filter criterion
  let referenceCount :=
    if subset.length = 0 then c.referenceCount else c.referenceCount + 1
  return ({ c with referenceCount := referenceCount }, subset)

variable [DecidableEq T] (hashPtr : T → u32)

/-- `Insert`. -/
def insert (fuel : Nat) (c : Collexion T) (conn : T) : Option (Collexion T × Bool) := do
  let c ← c.grow fuel
  let mask := c.allocated - 1
  let (key, table) ←
    CollexionTable.insertLoop conn mask fuel ((hashPtr conn).toNat &&& mask) c.table
  let c := { c with table := table }
  match key with
  | none => return (c, false)
  | some key => return (c.fill (hashPtr conn) conn key, true)

/-- `Remove`. -/
def remove (fuel : Nat) (c : Collexion T) (conn : T) : Option (Collexion T × Bool) :=
  if c.used = 0 then some (c, false)
  else do
    let mask := c.allocated - 1
    match ← c.table.findLoop conn mask fuel ((hashPtr conn).toNat &&& mask) with
    | none => return (c, false)
    | some key =>
      if c.referenceCount = 0 then return (← c.unlinkActive fuel key, true)
      else if c.table.kill key then return (c, true)
      else return (c.inactivate key, true)

end Collexion

inductive CollexionOp (T : Type) where
  | insert (conn : T)
  | remove (conn : T)

variable [DecidableEq T]

/-- A call; a call that does not return leaves nothing in the log. -/
def collexionStep (hashPtr : T → u32) (fuel : Nat) (c : Collexion T) (op : CollexionOp T) :
    Collexion T × List Bool :=
  let result :=
    match op with
    | .insert conn => c.insert hashPtr fuel conn
    | .remove conn => c.remove hashPtr fuel conn
  match result with
  | none => (c, [])
  | some (c, returned) => (c, [returned])

/-- The calls on a set. -/
def setStep (s : Finset T) : CollexionOp T → Finset T × List Bool
  | .insert conn => (insert conn s, [decide (conn ∉ s)])
  | .remove conn => (s.erase conn, [decide (conn ∈ s)])

/-- An object is in the table. -/
def Collexion.Has (c : Collexion T) (conn : T) : Prop :=
  ∃ k < c.allocated, c.table.conn k = some conn

/-- What a call needs. `Insert` must not copy objects to a larger table, and must not find a free slot
before an object that is there; `Remove` of an object that is not there needs a slot without flag. -/
def Collexion.Serves (hashPtr : T → u32) (c : Collexion T) : CollexionOp T → Prop
  | .insert conn =>
    ¬(0 < c.used ∧ c.allocated / 2 ≤ c.used) ∧
      (c.Has conn → ∀ n, c.table.conn ((probe (c.allocated - 1))^[n]
          ((hashPtr conn).toNat &&& (c.allocated - 1))) = none →
        ∃ m < n, c.table.conn ((probe (c.allocated - 1))^[m]
          ((hashPtr conn).toNat &&& (c.allocated - 1))) = some conn)
  | .remove conn => c.Has conn ∨ c.used = 0 ∨ ∃ k < c.allocated, c.table.collide k = false

/-- The collection is the set `s`: it counts the members, and the list has each of them once. -/
def Collexion.IsSet (fuel : Nat) (c : Collexion T) (s : Finset T) : Prop :=
  (∀ conn, c.Has conn ↔ conn ∈ s) ∧ c.used = s.card ∧
    ∃ l : List T, c.table.list fuel c.activeHead = some (l.map some) ∧ l.Nodup ∧ l.toFinset = s

end Model

/-! ## Loops -/

section Loops

variable {T : Type}

theorem and_mask_lt (x : Nat) : x &&& 31 < 32 := Nat.lt_succ_of_le Nat.and_le_right

theorem probe_lt (key : Nat) : probe 31 key < 32 := and_mask_lt _

theorem probeBack_lt (key : Nat) : probeBack 31 key < 32 := and_mask_lt _

theorem probe_eq_step {k : Nat} (hk : k ≤ 32) (key : Nat) :
    probe (2 ^ k - 1) key = Lcg.step collisionMultiplier collisionIncrementer (2 ^ k) key := by
  unfold probe Lcg.step
  rw [Nat.and_two_pow_sub_one_eq_mod, Nat.mod_mod_of_dvd _ (Nat.pow_dvd_pow 2 hk)]

/-- The slots of a table are one cycle. -/
theorem exists_probe_eq_of_lt {k : Nat} (hk : k ≤ 32) {a b : Nat} (ha : a < 2 ^ k)
    (hb : b < 2 ^ k) : ∃ n < 2 ^ k, (probe (2 ^ k - 1))^[n] a = b := by
  have hsame : probe (2 ^ k - 1) = Lcg.step collisionMultiplier collisionIncrementer (2 ^ k) :=
    funext (probe_eq_step hk)
  rw [hsame]
  exact Lcg.exists_iterate_eq (by decide) (by decide) ha hb

/-- The slots of the smallest table. -/
theorem exists_probe_eq (a : Nat) (ha : a < 32) (b : Nat) (hb : b < 32) :
    ∃ n < 32, (probe 31)^[n] a = b :=
  exists_probe_eq_of_lt (k := 5) (by decide) ha hb

theorem probe_probeBack : ∀ key < 32, probe 31 (probeBack 31 key) = key := by
  decide +kernel

theorem probeBack_cycle : ∀ key < 32, (probeBack 31)^[32] key = key := by
  decide +kernel

namespace CollexionTable

variable {home : T → Nat} {t : CollexionTable T}

/-- Every object is found from its home. -/
def Found (home : T → Nat) (conn : Nat → Option T) (collide : Nat → Bool) : Prop :=
  ∀ k a, conn k = some a → Reaches (probe 31) collide (home a) k

theorem clearBack_spec {conn : Nat → Option T} : ∀ {n f key : Nat} {collide : Nat → Bool},
    n < f → key < 32 → conn key = none → collide key = false →
      collide ((probeBack 31)^[n + 1] key) = false → Found home conn collide →
        ∃ collide', clearBack 31 conn f key collide = some collide' ∧
          Found home conn collide' := by
  intro n
  induction n with
  | zero =>
    rintro (- | fuel) key collide hfuel hkey hempty hflag hstop hfound
    · exact absurd hfuel (Nat.not_lt_zero _)
    · rw [zero_add, Function.iterate_one] at hstop
      exact ⟨collide, by simp [clearBack, hstop], hfound⟩
  | succ n ih =>
    rintro (- | fuel) key collide hfuel hkey hempty hflag hstop hfound
    · exact absurd hfuel (Nat.not_lt_zero _)
    · cases hback : collide (probeBack 31 key) with
      | false => exact ⟨collide, by simp [clearBack, hback], hfound⟩
      | true =>
        -- nothing is behind `key`, so that nothing needs the flag before it
        have hclear : Found home conn (Function.update collide (probeBack 31 key) false) := by
          intro k a hk
          refine (hfound k a hk).clear (probe_probeBack key hkey) hflag ?_
          rintro rfl
          rw [hempty] at hk
          cases hk
        cases hconn : conn (probeBack 31 key) with
        | none =>
          have hstop' : Function.update collide (probeBack 31 key) false
              ((probeBack 31)^[n + 1] (probeBack 31 key)) = false := by
            by_cases heq : (probeBack 31)^[n + 1] (probeBack 31 key) = probeBack 31 key
            · rw [heq, Function.update_self]
            · rw [Function.update_of_ne heq, ← Function.iterate_succ_apply]
              exact hstop
          obtain ⟨collide', hrun, hfound'⟩ := ih (f := fuel) (by omega) (probeBack_lt key) hconn
            (Function.update_self ..) hstop' hclear
          exact ⟨collide', by simpa [clearBack, hback, hconn] using hrun, hfound'⟩
        | some a => exact ⟨_, by simp [clearBack, hback, hconn], hclear⟩

variable [DecidableEq T] {conn : T}

/-- An object that is not there gets a slot, and flags on the way. -/
theorem insertLoop_free : ∀ {n f a : Nat} {t : CollexionTable T}, 2 * n < f → a < 32 →
    (∀ k, t.conn k ≠ some conn) → t.conn ((probe 31)^[n] a) = none →
      ∃ k collide, insertLoop conn 31 f a t = some (some k, { t with collide := collide }) ∧
        k < 32 ∧ t.conn k = none ∧ (∀ x, t.collide x = true → collide x = true) ∧
          Reaches (probe 31) collide a k := by
  intro n
  induction n with
  | zero =>
    rintro (- | fuel) key t hfuel hkey habsent hfree
    · exact absurd hfuel (Nat.not_lt_zero _)
    · rw [Function.iterate_zero, id] at hfree
      exact ⟨key, t.collide, by simp [insertLoop, hfree], hkey, hfree, fun _ h => h, .here _⟩
  | succ n ih =>
    intro fuel key t hfuel hkey habsent hfree
    obtain ⟨fuel, rfl⟩ : ∃ m, fuel = m + 2 := ⟨fuel - 2, by omega⟩
    cases hconn : t.conn key with
    | none => exact ⟨key, t.collide, by simp [insertLoop, hconn], hkey, hconn, fun _ h => h, .here _⟩
    | some a =>
      have hne : a ≠ conn := fun h => habsent key (h ▸ hconn)
      rw [Function.iterate_succ_apply] at hfree
      cases hflag : t.collide key with
      | true =>
        obtain ⟨k, collide, hrun, hk, hnone, hmono, hreach⟩ :=
          ih (f := fuel + 1) (by omega) (probe_lt key) habsent hfree
        refine ⟨k, collide, ?_, hk, hnone, hmono, .step (hmono _ hflag) hreach⟩
        rw [insertLoop]
        simpa [hconn, hne, hflag] using hrun
      | false =>
        obtain ⟨k, collide, hrun, hk, hnone, hmono, hreach⟩ :=
          ih (t := { t with collide := Function.update t.collide key true }) (f := fuel)
            (by omega) (probe_lt key) habsent hfree
        refine ⟨k, collide, ?_, hk, hnone, ?_, .step (hmono _ (Function.update_self ..)) hreach⟩
        · have hmark : insertLoop conn 31 (fuel + 2) key t = insertLoop conn 31 (fuel + 1) key
              { t with collide := Function.update t.collide key true } := by
            rw [insertLoop]
            simp [hconn, hne, hflag]
          rw [hmark, insertLoop]
          simpa [hconn, hne] using hrun
        · intro x hx
          refine hmono x ?_
          show Function.update t.collide key true x = true
          by_cases heq : x = key
          · rw [heq, Function.update_self]
          · rwa [Function.update_of_ne heq]

/-- An object that is met before any free slot. -/
theorem insertLoop_present {k : Nat} (hk : t.conn k = some conn) : ∀ {n f key : Nat}, n < f →
    (probe 31)^[n] key = k → Reaches (probe 31) t.collide key k →
      (∀ n, t.conn ((probe 31)^[n] key) = none →
        ∃ m < n, t.conn ((probe 31)^[m] key) = some conn) →
        insertLoop conn 31 f key t = some (none, t) := by
  intro n
  induction n with
  | zero =>
    rintro (- | fuel) key hfuel hkey hreach hbefore
    · exact absurd hfuel (Nat.not_lt_zero _)
    · rw [Function.iterate_zero, id] at hkey
      simp [insertLoop, hkey, hk]
  | succ n ih =>
    rintro (- | fuel) key hfuel hkey hreach hbefore
    · exact absurd hfuel (Nat.not_lt_zero _)
    · by_cases hhere : t.conn key = some conn
      · simp [insertLoop, hhere]
      · have hne : key ≠ k := fun h => hhere (h ▸ hk)
        obtain ⟨hflag, hrest⟩ := hreach.of_ne hne
        have hfull : t.conn key ≠ none := by
          intro hnone
          obtain ⟨m, hm, -⟩ := hbefore 0 hnone
          exact absurd hm (Nat.not_lt_zero _)
        rw [insertLoop, if_neg hhere, if_neg hfull, if_pos hflag]
        refine ih (by omega) (by rwa [← Function.iterate_succ_apply]) hrest fun i hi => ?_
        rw [← Function.iterate_succ_apply] at hi
        obtain ⟨m, hm, hfound⟩ := hbefore (i + 1) hi
        cases m with
        | zero => exact absurd hfound hhere
        | succ m =>
          rw [Function.iterate_succ_apply] at hfound
          exact ⟨m, by omega, hfound⟩

theorem findLoop_found {k : Nat} (hk : t.conn k = some conn)
    (honly : ∀ k', t.conn k' = some conn → k' = k) : ∀ {n f key : Nat}, n < f →
      (probe 31)^[n] key = k → Reaches (probe 31) t.collide key k →
        t.findLoop conn 31 f key = some (some k) := by
  intro n
  induction n with
  | zero =>
    rintro (- | fuel) key hfuel hkey hreach
    · exact absurd hfuel (Nat.not_lt_zero _)
    · rw [Function.iterate_zero, id] at hkey
      simp [findLoop, hkey, hk]
  | succ n ih =>
    rintro (- | fuel) key hfuel hkey hreach
    · exact absurd hfuel (Nat.not_lt_zero _)
    · by_cases hhere : t.conn key = some conn
      · rw [findLoop, if_pos hhere, honly key hhere]
      · have hne : key ≠ k := fun h => hhere (h ▸ hk)
        obtain ⟨hflag, hrest⟩ := hreach.of_ne hne
        rw [findLoop, if_neg hhere, hflag]
        exact ih (by omega) (by rwa [← Function.iterate_succ_apply]) hrest

theorem findLoop_absent (habsent : ∀ k, t.conn k ≠ some conn) : ∀ {n f key : Nat}, n < f →
    t.collide ((probe 31)^[n] key) = false → t.findLoop conn 31 f key = some none := by
  intro n
  induction n with
  | zero =>
    rintro (- | fuel) key hfuel hstop
    · exact absurd hfuel (Nat.not_lt_zero _)
    · rw [Function.iterate_zero, id] at hstop
      simp [findLoop, hstop, habsent key]
  | succ n ih =>
    rintro (- | fuel) key hfuel hstop
    · exact absurd hfuel (Nat.not_lt_zero _)
    · rw [findLoop, if_neg (habsent key)]
      split
      · rfl
      · exact ih (by omega) (by rwa [← Function.iterate_succ_apply])

end CollexionTable

end Loops

/-! ## Links -/

section Links

/-- The slot of a link. -/
def linkSlot (x : Nat) : Option Nat := if x = 0 then none else some (x - 1)

theorem linkSlot_zero : linkSlot 0 = none := rfl

theorem linkSlot_succ (k : Nat) : linkSlot (k + 1) = some k := rfl

theorem linkSlot_of_ne {x : Nat} (h : x ≠ 0) : linkSlot x = some (x - 1) := if_neg h

theorem linkSlot_update (f : Nat → Nat) (i x : Nat) :
    (fun k => linkSlot (Function.update f i x k)) =
      Function.update (fun k => linkSlot (f k)) i (linkSlot x) := by
  funext k
  by_cases h : k = i
  · rw [h, Function.update_self, Function.update_self]
  · rw [Function.update_of_ne h, Function.update_of_ne h]

/-- A write behind a check for zero. -/
theorem linkSlot_write (f : Nat → Nat) (p x : Nat) :
    (fun k => linkSlot ((if p ≠ 0 then Function.update f (p - 1) x else f) k)) =
      write (fun k => linkSlot (f k)) (linkSlot p) (linkSlot x) := by
  by_cases h : p = 0
  · rw [if_neg (not_not.mpr h), h]
    rfl
  · rw [if_pos h, linkSlot_of_ne h, linkSlot_update]
    rfl

variable {T : Type}

namespace CollexionTable

theorem unlink_eq (t : CollexionTable T) (head key : Nat) :
    t.unlink head key =
      ({ t with
           next := if t.prev key ≠ 0 then Function.update t.next (t.prev key - 1) (t.next key)
             else t.next
           prev := if t.next key ≠ 0 then Function.update t.prev (t.next key - 1) (t.prev key)
             else t.prev }, if t.prev key ≠ 0 then head else t.next key) := by
  by_cases hp : t.prev key = 0 <;> by_cases hn : t.next key = 0 <;> simp [unlink, hp, hn]

theorem list_eq {t : CollexionTable T} : ∀ {keys : List Nat} {fuel head : Nat}, keys.length < fuel →
    Seg (fun k => linkSlot (t.next k)) (linkSlot head) keys none →
      t.list fuel head = some (keys.map t.conn) := by
  intro keys
  induction keys with
  | nil =>
    rintro (- | fuel) head hfuel hseg
    · exact absurd hfuel (Nat.not_lt_zero _)
    · have hzero : head = 0 := by
        by_contra h
        rw [linkSlot_of_ne h] at hseg
        cases hseg
      simp [list, hzero]
  | cons k keys ih =>
    rintro (- | fuel) head hfuel ⟨hhead, hrest⟩
    · exact absurd hfuel (Nat.not_lt_zero _)
    · have hne : head ≠ 0 := by
        rintro rfl
        cases hhead
      rw [linkSlot_of_ne hne] at hhead
      obtain rfl := Option.some.inj hhead
      rw [list, if_neg hne, ih (by simpa using hfuel) hrest]
      rfl

end CollexionTable

end Links

/-! ## The invariant -/

section Invariant

variable {T : Type} {hashPtr : T → u32}

/-- The collection without the object in a slot, with the flags that are left. -/
def Collexion.without (c : Collexion T) (key : Nat) (collide : Nat → Bool) : Collexion T :=
  { c with
      used := c.used - 1
      activeHead := if c.table.prev key ≠ 0 then c.activeHead else c.table.next key
      table :=
        { c.table with
            conn := Function.update c.table.conn key none
            collide := collide
            next :=
              if c.table.prev key ≠ 0 then
                Function.update c.table.next (c.table.prev key - 1) (c.table.next key)
              else c.table.next
            prev :=
              if c.table.next key ≠ 0 then
                Function.update c.table.prev (c.table.next key - 1) (c.table.prev key)
              else c.table.prev } }

theorem Collexion.unlinkActive_eq (c : Collexion T) (fuel key : Nat) :
    c.unlinkActive fuel key = (if !c.table.collide key then
      CollexionTable.clearBack (c.allocated - 1) (Function.update c.table.conn key none) fuel key
        c.table.collide
      else some c.table.collide).map (c.without key) := by
  simp only [unlinkActive, CollexionTable.unlink_eq, Option.bind_eq_bind, Option.pure_def]
  cases c.table.collide key with
  | true => rfl
  | false => exact Option.map_eq_bind.symm

/-- Where the search for an object begins. -/
def homeOf (hashPtr : T → u32) (conn : T) : Nat := (hashPtr conn).toNat &&& 31

theorem Collexion.insert_eq [DecidableEq T] {c c' : Collexion T} {fuel : Nat} {conn : T}
    {key : Option Nat} {table : CollexionTable T} (hgrow : c.grow fuel = some c')
    (h32 : c'.allocated = 32)
    (hloop : CollexionTable.insertLoop conn 31 fuel (homeOf hashPtr conn) c'.table =
      some (key, table)) :
    c.insert hashPtr fuel conn = some (key.elim ({ c' with table := table }, false) fun key =>
      ({ c' with table := table }.fill (hashPtr conn) conn key, true)) := by
  have hmask : c'.allocated - 1 = 31 := by rw [h32]
  simp only [insert, hgrow, Option.bind_eq_bind, Option.bind_some, hmask]
  rw [show (hashPtr conn).toNat &&& 31 = homeOf hashPtr conn from rfl, hloop]
  cases key <;> rfl

/-- The slots `keys` are in use, and every object is found from its home. -/
structure Slots (hashPtr : T → u32) (conn : Nat → Option T) (collide : Nat → Bool) (keys : List Nat) :
    Prop where
  lt : ∀ k ∈ keys, k < 32
  nodup : keys.Nodup
  occupied : ∀ k, k ∈ keys ↔ (conn k).isSome
  inj : ∀ k k' a, conn k = some a → conn k' = some a → k = k'
  found : CollexionTable.Found (homeOf hashPtr) conn collide

namespace Slots

variable {conn : Nat → Option T} {collide : Nat → Bool} {keys : List Nat}

theorem nil : Slots hashPtr (fun _ => none) collide [] where
  lt := by simp
  nodup := List.nodup_nil
  occupied := by simp
  inj := by simp
  found := by
    intro k a hk
    cases hk

theorem perm (h : Slots hashPtr conn collide keys) {keys' : List Nat} (hp : keys.Perm keys') :
    Slots hashPtr conn collide keys' where
  lt := fun k hk => h.lt k (hp.mem_iff.mpr hk)
  nodup := hp.nodup_iff.mp h.nodup
  occupied := fun k => hp.mem_iff.symm.trans (h.occupied k)
  inj := h.inj
  found := h.found

theorem length_le (h : Slots hashPtr conn collide keys) : keys.length ≤ 32 := by
  have hsub : keys.toFinset ⊆ Finset.range 32 := by
    intro k hk
    rw [List.mem_toFinset] at hk
    exact Finset.mem_range.mpr (h.lt k hk)
  have hcard := Finset.card_le_card hsub
  rwa [List.toFinset_card_of_nodup h.nodup, Finset.card_range] at hcard

theorem exists_free (h : Slots hashPtr conn collide keys) (hlen : keys.length < 32) :
    ∃ k < 32, conn k = none := by
  by_contra hfull
  push Not at hfull
  have hsub : Finset.range 32 ⊆ keys.toFinset := by
    intro k hk
    rw [List.mem_toFinset, h.occupied, Option.isSome_iff_ne_none]
    exact hfull k (Finset.mem_range.mp hk)
  have hcard := Finset.card_le_card hsub
  rw [List.toFinset_card_of_nodup h.nodup, Finset.card_range] at hcard
  omega

theorem mem_of_conn (h : Slots hashPtr conn collide keys) {k : Nat} {a : T} (hk : conn k = some a) :
    k ∈ keys := by
  rw [h.occupied, hk]
  rfl

theorem lt_of_conn (h : Slots hashPtr conn collide keys) {k : Nat} {a : T} (hk : conn k = some a) :
    k < 32 := h.lt k (h.mem_of_conn hk)

/-- The objects of some of the slots. -/
theorem map_conn (h : Slots hashPtr conn collide keys) {l : List Nat} (hl : l.Nodup)
    (hsub : ∀ k ∈ l, k ∈ keys) :
    ∃ objects : List T, l.map conn = objects.map some ∧ objects.Nodup ∧
      objects.length = l.length ∧ ∀ a, a ∈ objects ↔ ∃ k ∈ l, conn k = some a := by
  obtain ⟨objects, ho⟩ : ∃ objects : List T, l.map conn = objects.map some := by
    have hsome : ∀ x ∈ l.map conn, ∃ a, some a = x := by
      intro x hx
      obtain ⟨k, hk, rfl⟩ := List.mem_map.mp hx
      obtain ⟨a, ha⟩ := Option.isSome_iff_exists.mp ((h.occupied k).mp (hsub k hk))
      exact ⟨a, ha.symm⟩
    have hrange : l.map conn ∈ Set.range (List.map (some : T → Option T)) := by
      rw [Set.range_list_map]
      exact hsome
    obtain ⟨objects, ho⟩ := hrange
    exact ⟨objects, ho.symm⟩
  refine ⟨objects, ho, ?_, ?_, fun a => ?_⟩
  · have hnd : (l.map conn).Nodup := by
      refine hl.map_on fun k hk k' hk' heq => ?_
      obtain ⟨a, ha⟩ := Option.isSome_iff_exists.mp ((h.occupied k).mp (hsub k hk))
      exact h.inj k k' a ha (heq ▸ ha)
    rw [ho] at hnd
    exact hnd.of_map
  · have := congrArg List.length ho
    simpa using this.symm
  · have hmem : some a ∈ l.map conn ↔ a ∈ objects := by
      rw [ho, List.mem_map_of_injective (Option.some_injective T)]
    rw [← hmem, List.mem_map]

/-- An object in a slot that was free. -/
theorem fill (h : Slots hashPtr conn collide keys) {a : T} {k : Nat} (hk : k < 32)
    (hfree : conn k = none) (habsent : ∀ k, conn k ≠ some a)
    (hreach : Reaches (probe 31) collide (homeOf hashPtr a) k) :
    Slots hashPtr (Function.update conn k (some a)) collide (k :: keys) where
  lt := by
    intro k' hk'
    rcases List.mem_cons.mp hk' with rfl | hk'
    · exact hk
    · exact h.lt k' hk'
  nodup := by
    refine List.nodup_cons.mpr ⟨fun hmem => ?_, h.nodup⟩
    rw [h.occupied, hfree] at hmem
    cases hmem
  occupied := by
    intro k'
    rw [List.mem_cons, h.occupied]
    by_cases heq : k' = k
    · simp [heq]
    · simp [heq]
  inj := by
    intro k₁ k₂ b h₁ h₂
    by_cases e₁ : k₁ = k <;> by_cases e₂ : k₂ = k
    · rw [e₁, e₂]
    · rw [e₁, Function.update_self] at h₁
      rw [Function.update_of_ne e₂, ← h₁] at h₂
      exact absurd h₂ (habsent k₂)
    · rw [e₂, Function.update_self] at h₂
      rw [Function.update_of_ne e₁, ← h₂] at h₁
      exact absurd h₁ (habsent k₁)
    · rw [Function.update_of_ne e₁] at h₁
      rw [Function.update_of_ne e₂] at h₂
      exact h.inj k₁ k₂ b h₁ h₂
  found := by
    intro k' b hk'
    by_cases heq : k' = k
    · rw [heq, Function.update_self] at hk'
      obtain rfl := Option.some.inj hk'
      rw [heq]
      exact hreach
    · rw [Function.update_of_ne heq] at hk'
      exact h.found k' b hk'

/-- A slot gets free. -/
theorem erase {k : Nat} (h : Slots hashPtr conn collide (k :: keys)) {collide' : Nat → Bool}
    (hfound : CollexionTable.Found (homeOf hashPtr) (Function.update conn k none) collide') :
    Slots hashPtr (Function.update conn k none) collide' keys where
  lt := fun k' hk' => h.lt k' (List.mem_cons_of_mem _ hk')
  nodup := (List.nodup_cons.mp h.nodup).2
  occupied := by
    intro k'
    have hocc := h.occupied k'
    rw [List.mem_cons] at hocc
    by_cases heq : k' = k
    · rw [heq, Function.update_self]
      simpa using (List.nodup_cons.mp h.nodup).1
    · rw [Function.update_of_ne heq, ← hocc]
      simp [heq]
  inj := by
    intro k₁ k₂ a h₁ h₂
    rw [Function.update_apply] at h₁ h₂
    split at h₁
    · cases h₁
    · split at h₂
      · cases h₂
      · exact h.inj k₁ k₂ a h₁ h₂
  found := hfound

/-- The flags that are left when a slot gets free. -/
theorem exists_clearBack {k : Nat} (h : Slots hashPtr conn collide (k :: keys)) {fuel : Nat}
    (hfuel : 33 ≤ fuel) :
    ∃ collide', (if collide k then some collide
        else CollexionTable.clearBack 31 (Function.update conn k none) fuel k collide) = some collide' ∧
      Slots hashPtr (Function.update conn k none) collide' keys := by
  have hfound : CollexionTable.Found (homeOf hashPtr) (Function.update conn k none) collide := by
    intro k' a hk'
    rw [Function.update_apply] at hk'
    split at hk'
    · cases hk'
    · exact h.found k' a hk'
  cases hflag : collide k with
  | true => exact ⟨collide, by simp, h.erase hfound⟩
  | false =>
    have hlt := h.lt k List.mem_cons_self
    have hcycle : collide ((probeBack 31)^[31 + 1] k) = false := by
      rw [probeBack_cycle k hlt, hflag]
    obtain ⟨collide', hrun, hfound'⟩ := CollexionTable.clearBack_spec (f := fuel) (by omega)
      hlt (Function.update_self ..) hflag hcycle hfound
    exact ⟨collide', by simpa using hrun, h.erase hfound'⟩

end Slots

/-- The slots `keys` are in use, and on the list in this order. -/
structure Holds (hashPtr : T → u32) (c : Collexion T) (keys : List Nat) : Prop where
  referenceCount : c.referenceCount = 0
  allocated : c.allocated = 0 ∧ keys = [] ∨ c.allocated = 32
  lt : ∀ k ∈ keys, k < 32
  nodup : keys.Nodup
  occupied : ∀ k, k ∈ keys ↔ (c.table.conn k).isSome
  inj : ∀ k k' a, c.table.conn k = some a → c.table.conn k' = some a → k = k'
  linked : Linked (fun k => linkSlot (c.table.next k)) (fun k => linkSlot (c.table.prev k))
    (linkSlot c.activeHead) keys
  found : CollexionTable.Found (homeOf hashPtr) c.table.conn c.table.collide
  used : c.used = keys.length

namespace Holds

variable {c : Collexion T} {keys : List Nat}

theorem new : Holds hashPtr (Collexion.new : Collexion T) [] where
  referenceCount := rfl
  allocated := .inl ⟨rfl, rfl⟩
  lt := by simp
  nodup := List.nodup_nil
  occupied := by simp [Collexion.new, CollexionTable.clear]
  inj := by simp [Collexion.new, CollexionTable.clear]
  linked := linked_nil _ _
  found := by
    intro k a hk
    cases hk
  used := rfl

theorem slots (h : Holds hashPtr c keys) : Slots hashPtr c.table.conn c.table.collide keys :=
  ⟨h.lt, h.nodup, h.occupied, h.inj, h.found⟩

theorem allocated_of_conn (h : Holds hashPtr c keys) {k : Nat} {a : T}
    (hk : c.table.conn k = some a) : c.allocated = 32 := by
  rcases h.allocated with ⟨-, rfl⟩ | h32
  · cases h.slots.mem_of_conn hk
  · exact h32

theorem has_iff (h : Holds hashPtr c keys) {a : T} :
    c.Has a ↔ ∃ k, c.table.conn k = some a := by
  constructor
  · rintro ⟨k, -, hk⟩
    exact ⟨k, hk⟩
  · rintro ⟨k, hk⟩
    refine ⟨k, ?_, hk⟩
    rw [h.allocated_of_conn hk]
    exact h.slots.lt_of_conn hk

theorem isSet [DecidableEq T] (h : Holds hashPtr c keys) {s : Finset T}
    (hs : ∀ a, a ∈ s ↔ ∃ k, c.table.conn k = some a) {fuel : Nat} (hfuel : 65 ≤ fuel) :
    c.IsSet fuel s := by
  obtain ⟨l, hl, hnd, hlen, hmem⟩ := h.slots.map_conn h.nodup fun _ hk => hk
  have hset : l.toFinset = s := by
    ext a
    rw [List.mem_toFinset, hmem, hs]
    exact ⟨fun ⟨k, _, hk⟩ => ⟨k, hk⟩, fun ⟨k, hk⟩ => ⟨k, h.slots.mem_of_conn hk, hk⟩⟩
  refine ⟨fun a => by rw [h.has_iff, hs], ?_, l, ?_, hnd, hset⟩
  · rw [h.used, ← hset, List.toFinset_card_of_nodup hnd, hlen]
  · have := h.slots.length_le
    rw [CollexionTable.list_eq (by omega) h.linked.next, hl]

/-- `Insert` begins with the smallest table, if there is none. -/
theorem grown (h : Holds hashPtr c keys) (hroom : ¬(0 < c.used ∧ c.allocated / 2 ≤ c.used))
    (fuel : Nat) :
    ∃ c', c.grow fuel = some c' ∧
      Holds hashPtr c' keys ∧ c'.allocated = 32 ∧ keys.length < 32 ∧
        (c.allocated ≠ 0 → c' = c) ∧ ∀ k, c'.table.conn k = c.table.conn k := by
  rcases h.allocated with ⟨hzero, rfl⟩ | h32
  · have hused : c.used = 0 := h.used
    have hnone : ∀ k, c.table.conn k = none := by
      intro k
      have := h.occupied k
      simpa using this
    refine ⟨{ c with
                allocated := minAllocated
                activeHead := 0
                inactiveHead := 0
                table := .clear }, ?_, ?_, rfl, by decide, fun hne => absurd hzero hne, ?_⟩
    · rw [Collexion.grow, if_pos (by rw [hzero, hused]), Collexion.doubleTable, hzero]
      rfl
    · exact
        { referenceCount := h.referenceCount
          allocated := .inr rfl
          lt := by simp
          nodup := List.nodup_nil
          occupied := by simp [CollexionTable.clear]
          inj := by simp [CollexionTable.clear]
          linked := linked_nil _ _
          found := by
            intro k a hk
            cases hk
          used := hused }
    · intro k
      rw [hnone]
      rfl
  · have hlen := h.used
    rw [h32] at hroom
    refine ⟨c, by rw [Collexion.grow, h32, if_neg (by omega)], h, h32, by omega, fun _ => rfl, fun _ => rfl⟩

/-- More flags do no harm. -/
theorem flagged (h : Holds hashPtr c keys) {collide : Nat → Bool}
    (hmono : ∀ x, c.table.collide x = true → collide x = true) :
    Holds hashPtr { c with table := { c.table with collide := collide } } keys :=
  { h with found := fun k a hk => (h.found k a hk).mono hmono }

theorem fill (h : Holds hashPtr c keys) (h32 : c.allocated = 32) {conn : T} {k : Nat} (hk : k < 32)
    (hfree : c.table.conn k = none) (habsent : ∀ k, c.table.conn k ≠ some conn)
    (hreach : Reaches (probe 31) c.table.collide (homeOf hashPtr conn) k) (hash : u32) :
    Holds hashPtr (c.fill hash conn k) (k :: keys) := by
  have hslots := h.slots.fill hk hfree habsent hreach
  refine ⟨h.referenceCount, .inr h32, hslots.lt, hslots.nodup, hslots.occupied, hslots.inj, ?_,
    hslots.found, ?_⟩
  · have hpush := h.linked.pushFront h.nodup (List.nodup_cons.mp hslots.nodup).1
    simp only [Collexion.fill, linkSlot_update, linkSlot_write, linkSlot_zero, linkSlot_succ]
    exact hpush
  · rw [List.length_cons, ← h.used]
    rfl

/-- A slot leaves the table and the list. -/
theorem without {l m : List Nat} {k : Nat} (h : Holds hashPtr c (l ++ k :: m))
    (h32 : c.allocated = 32) {collide : Nat → Bool}
    (hslots : Slots hashPtr (Function.update c.table.conn k none) collide (l ++ m)) :
    Holds hashPtr (c.without k collide) (l ++ m) := by
  refine ⟨h.referenceCount, .inr h32, hslots.lt, hslots.nodup, hslots.occupied, hslots.inj, ?_,
    hslots.found, ?_⟩
  · have hhead : linkSlot (if c.table.prev k ≠ 0 then c.activeHead else c.table.next k) =
        if linkSlot (c.table.prev k) = none then linkSlot (c.table.next k)
        else linkSlot c.activeHead := by
      by_cases hp : c.table.prev k = 0
      · simp [hp, linkSlot_zero]
      · simp [hp, linkSlot_of_ne]
    have hlinked := h.linked.unlink h.nodup
    simp only [Collexion.without, linkSlot_write]
    rw [hhead]
    exact hlinked
  · have hused := h.used
    simp only [Collexion.without, List.length_append, List.length_cons] at hused ⊢
    omega

/-- `UnlinkActive`. -/
theorem unlinkActive_mid {l m : List Nat} {k : Nat} (h : Holds hashPtr c (l ++ k :: m))
    {fuel : Nat} (hfuel : 33 ≤ fuel) :
    ∃ collide, c.unlinkActive fuel k = some (c.without k collide) ∧
      Holds hashPtr (c.without k collide) (l ++ m) := by
  have h32 : c.allocated = 32 := by
    rcases h.allocated with ⟨-, hnil⟩ | h32
    · simp at hnil
    · exact h32
  obtain ⟨collide, hrun, hslots⟩ := (h.slots.perm List.perm_middle).exists_clearBack hfuel
  refine ⟨collide, ?_, h.without h32 hslots⟩
  rw [c.unlinkActive_eq, h32]
  cases hflag : c.table.collide k <;> simpa [hflag] using congrArg (Option.map (c.without k)) hrun

theorem unlinkActive (h : Holds hashPtr c keys) {conn : T} {k : Nat}
    (hk : c.table.conn k = some conn) {fuel : Nat} (hfuel : 65 ≤ fuel) :
    ∃ c' keys', c.unlinkActive fuel k = some c' ∧ Holds hashPtr c' keys' ∧
      c'.table.conn = Function.update c.table.conn k none := by
  obtain ⟨l, m, rfl⟩ := List.append_of_mem (h.slots.mem_of_conn hk)
  obtain ⟨collide, hrun, hc'⟩ := h.unlinkActive_mid (show 33 ≤ fuel by omega)
  exact ⟨_, _, hrun, hc', rfl⟩

end Holds

/-- A collection that holds the set `s`. -/
def HoldsSet [DecidableEq T] (hashPtr : T → u32) (c : Collexion T) (s : Finset T) : Prop :=
  ∃ keys, Holds hashPtr c keys ∧ ∀ a, a ∈ s ↔ ∃ k, c.table.conn k = some a

namespace HoldsSet

variable [DecidableEq T] {c : Collexion T} {s : Finset T}

theorem has_iff (h : HoldsSet hashPtr c s) {a : T} : c.Has a ↔ a ∈ s := by
  obtain ⟨keys, hc, hs⟩ := h
  rw [hc.has_iff, hs]

/-- **`Insert`** that is served. -/
theorem insert (h : HoldsSet hashPtr c s) {conn : T} (hserves : c.Serves hashPtr (.insert conn))
    {fuel : Nat} (hfuel : 65 ≤ fuel) :
    ∃ c', c.insert hashPtr fuel conn = some (c', decide (conn ∉ s)) ∧
      HoldsSet hashPtr c' (insert conn s) := by
  obtain ⟨keys, hc, hs⟩ := h
  obtain ⟨hroom, hbefore⟩ := hserves
  obtain ⟨c', hgrow, hc', h32, hlen, hsame, hconn⟩ := hc.grown hroom fuel
  by_cases hmem : conn ∈ s
  · -- the object is met, as there is no free slot before it
    obtain ⟨k, hk⟩ := (hs conn).mp hmem
    have hc32 := hc.allocated_of_conn hk
    obtain rfl := hsame (by omega)
    obtain ⟨n, hn, hwalk⟩ := exists_probe_eq (homeOf hashPtr conn) (and_mask_lt _) k
      (hc.slots.lt_of_conn hk)
    have hbefore' := hbefore (hc.has_iff.mpr ⟨k, hk⟩)
    rw [h32] at hbefore'
    have hloop := CollexionTable.insertLoop_present hk (f := fuel) (by omega) hwalk
      (hc.found k conn hk) hbefore'
    refine ⟨c', ?_, keys, hc, fun a => ?_⟩
    · rw [Collexion.insert_eq hgrow h32 hloop, decide_eq_false (not_not.mpr hmem)]
      rfl
    · rw [Finset.insert_eq_of_mem hmem, hs]
  · have habsent : ∀ k, c'.table.conn k ≠ some conn := by
      intro k hk
      rw [hconn] at hk
      exact hmem ((hs conn).mpr ⟨k, hk⟩)
    obtain ⟨e, he, hfree⟩ := hc'.slots.exists_free hlen
    obtain ⟨n, hn, hwalk⟩ := exists_probe_eq (homeOf hashPtr conn) (and_mask_lt _) e he
    obtain ⟨k, collide, hloop, hk, hnone, hmono, hreach⟩ :=
      CollexionTable.insertLoop_free (n := n) (f := fuel) (a := homeOf hashPtr conn) (by omega)
        (and_mask_lt _) habsent (by rw [hwalk]; exact hfree)
    have hfill := (hc'.flagged hmono).fill h32 hk hnone habsent hreach (hashPtr conn)
    refine ⟨_, ?_, _, hfill, fun a => ?_⟩
    · rw [Collexion.insert_eq hgrow h32 hloop, decide_eq_true hmem]
      rfl
    · rw [Finset.mem_insert, hs]
      show _ ↔ ∃ k', Function.update c'.table.conn k (some conn) k' = some a
      constructor
      · rintro (rfl | ⟨k', hk'⟩)
        · exact ⟨k, Function.update_self ..⟩
        · refine ⟨k', ?_⟩
          have hne : k' ≠ k := by
            rintro rfl
            rw [hconn] at hnone
            rw [hnone] at hk'
            cases hk'
          rw [Function.update_of_ne hne, hconn, hk']
      · rintro ⟨k', hk'⟩
        by_cases heq : k' = k
        · rw [heq, Function.update_self] at hk'
          exact .inl (Option.some.inj hk').symm
        · rw [Function.update_of_ne heq, hconn] at hk'
          exact .inr ⟨k', hk'⟩

/-- **`Remove`** that is served. -/
theorem remove (h : HoldsSet hashPtr c s) {conn : T} (hserves : c.Serves hashPtr (.remove conn))
    {fuel : Nat} (hfuel : 65 ≤ fuel) :
    ∃ c', c.remove hashPtr fuel conn = some (c', decide (conn ∈ s)) ∧
      HoldsSet hashPtr c' (s.erase conn) := by
  have hset := h
  obtain ⟨keys, hc, hs⟩ := h
  by_cases hmem : conn ∈ s
  · obtain ⟨k, hk⟩ := (hs conn).mp hmem
    have h32 := hc.allocated_of_conn hk
    have hused : c.used ≠ 0 := by
      intro h0
      rw [hc.used, List.length_eq_zero_iff] at h0
      have := (hc.occupied k).mpr (by rw [hk]; rfl)
      rw [h0] at this
      cases this
    obtain ⟨n, hn, hwalk⟩ := exists_probe_eq (homeOf hashPtr conn) (and_mask_lt _) k
      (hc.slots.lt_of_conn hk)
    have hloop := CollexionTable.findLoop_found hk (fun k' hk' => hc.inj k' k conn hk' hk)
      (f := fuel) (by omega) hwalk (hc.found k conn hk)
    obtain ⟨c', keys', hunlink, hc', hconn⟩ := hc.unlinkActive hk hfuel
    refine ⟨c', ?_, keys', hc', fun a => ?_⟩
    · simp only [Collexion.remove, hused, if_false, h32]
      rw [show (hashPtr conn).toNat &&& (32 - 1) = homeOf hashPtr conn from rfl, hloop]
      simp [hc.referenceCount, hunlink, hmem]
    · rw [Finset.mem_erase, hs, hconn]
      constructor
      · rintro ⟨hne, k', hk'⟩
        refine ⟨k', ?_⟩
        have hk'k : k' ≠ k := by
          rintro rfl
          rw [hk] at hk'
          exact hne (Option.some.inj hk').symm
        rw [Function.update_of_ne hk'k, hk']
      · rintro ⟨k', hk'⟩
        by_cases heq : k' = k
        · rw [heq, Function.update_self] at hk'
          cases hk'
        · rw [Function.update_of_ne heq] at hk'
          refine ⟨?_, k', hk'⟩
          rintro rfl
          exact heq (hc.inj k' k a hk' hk)
  · have habsent : ∀ k, c.table.conn k ≠ some conn := fun k hk => hmem ((hs conn).mpr ⟨k, hk⟩)
    rw [Finset.erase_eq_of_notMem hmem]
    refine ⟨c, ?_, hset⟩
    by_cases hused : c.used = 0
    · simp [Collexion.remove, hused, hmem]
    · obtain hhas | hzero | ⟨u, hu, hflag⟩ := hserves
      · exact absurd (hset.has_iff.mp hhas) hmem
      · exact absurd hzero hused
      · have h32 : c.allocated = 32 := by
          rcases hc.allocated with ⟨h0, -⟩ | h32
          · rw [h0] at hu
            exact absurd hu (Nat.not_lt_zero _)
          · exact h32
        rw [h32] at hu
        obtain ⟨n, hn, hwalk⟩ := exists_probe_eq (homeOf hashPtr conn) (and_mask_lt _) u hu
        have hloop := CollexionTable.findLoop_absent habsent (n := n) (f := fuel)
          (by omega) (by rw [hwalk]; exact hflag)
        simp only [Collexion.remove, hused, if_false, h32]
        rw [show (hashPtr conn).toNat &&& (32 - 1) = homeOf hashPtr conn from rfl, hloop]
        simp [hmem]

theorem step (h : HoldsSet hashPtr c s) {op : CollexionOp T} (hserves : c.Serves hashPtr op)
    {fuel : Nat} (hfuel : 65 ≤ fuel) :
    HoldsSet hashPtr (collexionStep hashPtr fuel c op).1 (setStep s op).1 ∧
      (collexionStep hashPtr fuel c op).2 = (setStep s op).2 := by
  cases op with
  | insert conn =>
    obtain ⟨c', hrun, hc'⟩ := h.insert hserves hfuel
    simp only [collexionStep, hrun]
    exact ⟨hc', rfl⟩
  | remove conn =>
    obtain ⟨c', hrun, hc'⟩ := h.remove hserves hfuel
    simp only [collexionStep, hrun]
    exact ⟨hc', rfl⟩

theorem run {fuel : Nat} (hfuel : 65 ≤ fuel) : ∀ (ops : List (CollexionOp T)) {c : Collexion T}
    {s : Finset T}, HoldsSet hashPtr c s →
      Run.Guarded (collexionStep hashPtr fuel) (Collexion.Serves hashPtr) c ops →
        HoldsSet hashPtr (Run.exec (collexionStep hashPtr fuel) c ops).1
            (Run.exec setStep s ops).1 ∧
          (Run.exec (collexionStep hashPtr fuel) c ops).2 = (Run.exec setStep s ops).2 := by
  intro ops
  induction ops with
  | nil => exact fun h _ => ⟨h, rfl⟩
  | cons op ops ih =>
    rintro c s h ⟨hserves, hrest⟩
    obtain ⟨hstep, hlog⟩ := h.step hserves hfuel
    obtain ⟨hrun, hlogs⟩ := ih hstep hrest
    refine ⟨hrun, ?_⟩
    rw [Run.exec_cons_snd, Run.exec_cons_snd, hlog, hlogs]

end HoldsSet

/-- **Collexion is a set**, in runs of calls that are all served: the calls return what they return on
a set, and the collection is that set. -/
theorem collexion_set [DecidableEq T] (hashPtr : T → u32) {fuel : Nat} (hfuel : 65 ≤ fuel)
    (ops : List (CollexionOp T))
    (h : Run.Guarded (collexionStep hashPtr fuel) (Collexion.Serves hashPtr) Collexion.new ops) :
    (Run.exec (collexionStep hashPtr fuel) Collexion.new ops).2 = (Run.exec setStep ∅ ops).2 ∧
      (Run.exec (collexionStep hashPtr fuel) Collexion.new ops).1.IsSet fuel
        (Run.exec setStep ∅ ops).1 := by
  have hnew : HoldsSet hashPtr Collexion.new (∅ : Finset T) :=
    ⟨[], Holds.new, by simp [Collexion.new, CollexionTable.clear]⟩
  obtain ⟨⟨keys, hc, hs⟩, hlog⟩ := HoldsSet.run hfuel ops hnew h
  exact ⟨hlog, hc.isSet hs hfuel⟩

/-- Two objects with one hash, and the first of them removed. -/
theorem collexion_set_collision :
    (Run.exec (collexionStep (fun _ : Nat => 0) 65) Collexion.new
      [.insert 5, .insert 6, .remove 5, .remove 6]).1.IsSet 65 ∅ := by
  refine (collexion_set (fun _ : Nat => 0) (Nat.le_refl 65)
    [.insert 5, .insert 6, .remove 5, .remove 6] ⟨?_, ?_, ?_, ?_, trivial⟩).2
  · refine ⟨by decide, ?_⟩
    rintro ⟨k, hk, -⟩
    exact absurd hk (Nat.not_lt_zero k)
  · refine ⟨by decide +kernel, fun hhas => absurd hhas ?_⟩
    unfold Collexion.Has
    decide +kernel
  · exact .inl ⟨0, by decide +kernel, by decide +kernel⟩
  · exact .inl ⟨31, by decide +kernel, by decide +kernel⟩

/-- A second copy is inserted where the first object of a collision was, and the seventeenth object
makes a table that does not have the others. -/
theorem not_collexion_set :
    (Run.exec (collexionStep (fun _ : Nat => 0) 65) Collexion.new
        [.insert 5, .insert 6, .remove 5, .insert 6]).2 ≠
      (Run.exec setStep ∅ [.insert 5, .insert 6, .remove 5, .insert 6]).2 ∧
    (Run.exec (collexionStep (BitVec.ofNat 32) 65) Collexion.new
        ((List.range 17).map .insert ++ [.remove 3])).2 ≠
      (Run.exec setStep ∅ ((List.range 17).map .insert ++ [.remove 3])).2 := by
  decide +kernel

end Invariant

end Libcat.Sphynx
