import Libcat.Lib.Lcg
import Libcat.Lib.Probe
import Libcat.Lib.Run
import Libcat.Math.BitMath

/-!
# TableIndex

The index of a table: a hash table from 64-bit hashes to file offsets, with a collision flag in the
top bit of each offset word. An offset is stored with one added, so that an offset part of zero
is a free slot; a free slot that keeps its flag is a hole.

The two words of an element are functions of the slot, and sizes are natural numbers. Loops run on
fuel, and a call that runs out of it does not return.

- `Serves` is what a call needs. An insertion that doubles the table is not served: `DoubleTable`
  distributes the elements by another home than the one they are looked up from.
- `Holds` is the invariant, and `table_index_map` says that calls that are served make a map.
-/

namespace Libcat.Db

open Probe

def collisionMultiplier : Nat := 71 * 7487 * 4 + 1
def collisionIncrementer : Nat := 1017234223
def minElements : Nat := 1024

def offsetMask : u64 := 0x7FFFFFFFFFFFFFFF
def collideMask : u64 := ~~~offsetMask
def invalidRecordOffset : u64 := ~~~0

/-- One step along a collision list. -/
def probe (mask key : Nat) : Nat :=
  (key * collisionMultiplier + collisionIncrementer) % 2 ^ 32 &&& mask

/-- Where the search for a hash starts. -/
def home (mask : Nat) (hash : u64) : Nat := (hash - 1).toNat &&& mask

/-- Is the collision flag set? -/
def flag (word : u64) : Bool := word &&& collideMask != 0

structure TableIndex where
  words : Nat → u64
  hashes : Nat → u64
  elements : Nat
  used : Nat

/-- `AllocateTable`, with what is in the page it gets. -/
def allocateTable (page : Nat → u64) : TableIndex where
  words := fun k => page (2 * k)
  hashes := fun k => page (2 * k + 1)
  elements := minElements
  used := 0

/-- From `key` on to the first slot that is not busy; the slots on the way are flagged. -/
def walkFree (busy : u64 → Bool) (mask : Nat) :
    Nat → Nat → (Nat → u64) → Option (Nat × (Nat → u64))
  | 0, _, _ => none
  | fuel + 1, key, words =>
    if busy (words key) then
      walkFree busy mask fuel (probe mask key)
        (Function.update words key (words key ||| collideMask))
    else some (key, words)

/-- The loop of `DoubleTable` over the old elements. -/
def redistribute (fuel mask : Nat) (old : TableIndex) :
    List Nat → (Nat → u64) → (Nat → u64) → Option ((Nat → u64) × (Nat → u64))
  | [], words, hashes => some (words, hashes)
  | ii :: rest, words, hashes =>
    if old.words ii = 0 then redistribute fuel mask old rest words hashes
    else
      match walkFree (fun word => word != 0) mask fuel ((old.hashes ii).toNat &&& mask) words with
      | none => none
      | some (key, words) =>
        redistribute fuel mask old rest (Function.update words key (old.words ii &&& offsetMask))
          (Function.update hashes key (old.hashes ii))

/-- `TableIndex::DoubleTable`. -/
def TableIndex.doubleTable (fuel : Nat) (t : TableIndex) : Option TableIndex :=
  match redistribute fuel (t.elements * 2 - 1) t (List.range t.elements) (fun _ => 0)
    (fun _ => 0) with
  | none => none
  | some (words, hashes) =>
    some { words := words, hashes := hashes, elements := t.elements * 2, used := t.used }

/-- The loop of `Lookup`: the slot of the hash, if it is found. -/
def findLoop (t : TableIndex) (mask : Nat) (hash : u64) : Nat → Nat → Option (Option Nat)
  | 0, _ => none
  | fuel + 1, key =>
    if t.words key = 0 then some none
    else if hash = t.hashes key then some (some key)
    else if flag (t.words key) then findLoop t mask hash fuel (probe mask key)
    else some none

/-- `TableIndex::Lookup`. -/
def TableIndex.lookup (fuel : Nat) (t : TableIndex) (hash : u64) : Option u64 :=
  if hash = 0 then some invalidRecordOffset
  else
    (findLoop t (t.elements - 1) hash fuel (home (t.elements - 1) hash)).map fun found =>
      match found with
      | none => invalidRecordOffset
      | some key => (t.words key &&& offsetMask) - 1

/-- `TableIndex::Insert`. `memory` is the allocation of `DoubleTable`. The key and the mask are those
of the table before it is doubled. -/
def TableIndex.insert (fuel : Nat) (t : TableIndex) (hash offset : u64) (memory : Bool) :
    Option TableIndex :=
  if hash = 0 then some t
  else
    let mask := t.elements - 1
    let key := home mask hash
    if t.elements / 2 ≤ t.used ∧ memory = false then some t
    else do
      let t ← if t.elements / 2 ≤ t.used then t.doubleTable fuel else some t
      let (key, words) ← walkFree (fun word => word &&& offsetMask != 0) mask fuel key t.words
      return { t with
        words := Function.update words key (words key ||| (offset + 1))
        hashes := Function.update t.hashes key hash
        used := t.used + 1 }

/-- The loop of `Remove`: the slot of the hash and the last valid entry before it. -/
def removeLoop (t : TableIndex) (mask : Nat) (hash : u64) :
    Nat → Nat → Nat → Option (Option (Nat × Nat))
  | 0, _, _ => none
  | fuel + 1, key, last =>
    if t.words key = 0 then some none
    else if hash = t.hashes key then some (some (key, last))
    else if flag (t.words key) then
      removeLoop t mask hash fuel (probe mask key)
        (if t.words key &&& offsetMask = 0 then last else key)
    else some none

/-- The slots between the last valid entry and the one removed are set to zero. -/
def zeroLoop (mask key : Nat) : Nat → Nat → (Nat → u64) → Option (Nat → u64)
  | 0, _, _ => none
  | fuel + 1, last, words =>
    if probe mask last = key then some words
    else zeroLoop mask key fuel (probe mask last) (Function.update words (probe mask last) 0)

/-- `TableIndex::Remove`. -/
def TableIndex.remove (fuel : Nat) (t : TableIndex) (hash : u64) : Option TableIndex :=
  if hash = 0 then some t
  else do
    let mask := t.elements - 1
    let found ← removeLoop t mask hash fuel (home mask hash) (home mask hash)
    match found with
    | none => return t
    | some (key, last) =>
      let words := Function.update t.words key (t.words key &&& collideMask)
      let words ←
        if words key = 0 ∧ last ≠ key then
          zeroLoop mask key fuel last (Function.update words last (words last &&& offsetMask))
        else some words
      return { t with
        words := words, hashes := Function.update t.hashes key 0, used := t.used - 1 }

inductive TableOp where
  | insert (hash offset : u64) (memory : Bool)
  | remove (hash : u64)
  | lookup (hash : u64)

/-- A call, with what it returns; a call that does not return leaves nothing in the log. -/
def tableStep (fuel : Nat) (t : TableIndex) : TableOp → TableIndex × List (Option u64)
  | .insert hash offset memory =>
    match t.insert fuel hash offset memory with
    | none => (t, [])
    | some t => (t, [none])
  | .remove hash =>
    match t.remove fuel hash with
    | none => (t, [])
    | some t => (t, [none])
  | .lookup hash =>
    match t.lookup fuel hash with
    | none => (t, [])
    | some offset => (t, [some offset])

/-- The calls on a map. -/
def mapStep (m : u64 → Option u64) : TableOp → (u64 → Option u64) × List (Option u64)
  | .insert hash offset _ => (Function.update m hash (some offset), [none])
  | .remove hash => (Function.update m hash none, [none])
  | .lookup hash => (m, [some ((m hash).getD invalidRecordOffset)])

/-- A hash is in the table. -/
def TableIndex.Has (t : TableIndex) (hash : u64) : Prop := ∃ k < t.elements, t.hashes k = hash

/-- What a call needs. Callers insert a nonzero hash that is not there, with an offset below the
mask, and the table must not be due for doubling; to look for a hash that is not there, one slot
without flag is needed. -/
def TableIndex.Serves (t : TableIndex) : TableOp → Prop
  | .insert hash offset _ =>
    hash ≠ 0 ∧ ¬ t.Has hash ∧ offset < offsetMask ∧ t.used < t.elements / 2
  | .remove hash => hash = 0 ∨ t.Has hash ∨ ∃ k < t.elements, flag (t.words k) = false
  | .lookup hash => hash = 0 ∨ t.Has hash ∨ ∃ k < t.elements, flag (t.words k) = false

/-! ## Words -/

theorem and_offsetMask_of_lt {w : u64} (h : w.toNat < 2 ^ 63) : w &&& offsetMask = w := by
  apply BitVec.eq_of_toNat_eq
  have hmask : offsetMask.toNat = 2 ^ 63 - 1 := by decide
  rw [BitVec.toNat_and, hmask, Nat.and_two_pow_sub_one_eq_mod, Nat.mod_eq_of_lt h]

theorem masks_disjoint : offsetMask &&& collideMask = 0 := by decide

theorem masks_cover : offsetMask ||| collideMask = ~~~0 := by decide

theorem zero_field : (0 : u64) &&& offsetMask = 0 := by decide

/-- A word is its two parts. -/
theorem word_parts (w : u64) : (w &&& offsetMask) ||| (w &&& collideMask) = w := by
  rw [← BitVec.and_or_distrib_left, masks_cover]
  exact BitVec.and_allOnes

theorem eq_zero_iff (w : u64) : w = 0 ↔ w &&& offsetMask = 0 ∧ flag w = false := by
  constructor
  · rintro rfl
    decide
  · rintro ⟨h1, h2⟩
    have h3 : w &&& collideMask = 0 := by simpa [flag] using h2
    rw [← word_parts w, h1, h3]
    decide

theorem flag_or_collide (w : u64) : flag (w ||| collideMask) = true := by
  have h : (w ||| collideMask) &&& collideMask = collideMask := by
    ext i
    simp
    tauto
  rw [flag, h]
  decide

theorem field_or_collide (w : u64) : (w ||| collideMask) &&& offsetMask = w &&& offsetMask := by
  rw [BitVec.and_or_distrib_right, BitVec.and_comm collideMask, masks_disjoint]
  simp

theorem field_and_offset (w : u64) : w &&& offsetMask &&& offsetMask = w &&& offsetMask := by
  rw [BitVec.and_assoc, BitVec.and_self]

theorem flag_and_collide (w : u64) : flag (w &&& collideMask) = flag w := by
  rw [flag, flag, BitVec.and_assoc, BitVec.and_self]

theorem field_and_collide (w : u64) : w &&& collideMask &&& offsetMask = 0 := by
  rw [BitVec.and_assoc, BitVec.and_comm collideMask, masks_disjoint]
  simp

section Offset

variable {w offset : u64}

theorem toNat_offset_succ (h : offset < offsetMask) : (offset + 1).toNat = offset.toNat + 1 := by
  have hmask : offsetMask.toNat = 2 ^ 63 - 1 := by decide
  have hlt : offset.toNat < 2 ^ 63 - 1 := by
    rw [← hmask]
    exact h
  rw [BitVec.toNat_add]
  have : (1 : u64).toNat = 1 := rfl
  omega

theorem field_offset (h : offset < offsetMask) : (offset + 1) &&& offsetMask = offset + 1 := by
  apply and_offsetMask_of_lt
  have hmask : offsetMask.toNat = 2 ^ 63 - 1 := by decide
  have hlt : offset.toNat < 2 ^ 63 - 1 := by
    rw [← hmask]
    exact h
  rw [toNat_offset_succ h]
  omega

theorem offset_succ_ne_zero (h : offset < offsetMask) : offset + 1 ≠ 0 := by
  intro h0
  have := toNat_offset_succ h
  rw [h0] at this
  simp at this

theorem field_or_offset (h : offset < offsetMask) (hw : w &&& offsetMask = 0) :
    (w ||| (offset + 1)) &&& offsetMask = offset + 1 := by
  rw [BitVec.and_or_distrib_right, hw, field_offset h]
  simp

theorem flag_or_offset (h : offset < offsetMask) : flag (w ||| (offset + 1)) = flag w := by
  have h0 : (offset + 1) &&& collideMask = 0 := by
    rw [← field_offset h, BitVec.and_assoc, masks_disjoint]
    simp
  rw [flag, flag, BitVec.and_or_distrib_right, h0]
  simp

end Offset

/-! ## Loops -/

theorem probe_eq (key : Nat) :
    probe 1023 key = Lcg.step collisionMultiplier collisionIncrementer (2 ^ 10) key := by
  unfold probe Lcg.step
  rw [show (1023 : Nat) = 2 ^ 10 - 1 from rfl, Nat.and_two_pow_sub_one_eq_mod]
  exact Nat.mod_mod_of_dvd _ (by decide)

theorem probe_lt (key : Nat) : probe 1023 key < 1024 := Nat.lt_succ_of_le Nat.and_le_right

theorem home_lt (hash : u64) : home 1023 hash < 1024 := Nat.lt_succ_of_le Nat.and_le_right

/-- The walk from any slot visits every slot. -/
theorem exists_probe_eq {a b : Nat} (ha : a < 1024) (hb : b < 1024) :
    ∃ n < 1024, (probe 1023)^[n] a = b := by
  rw [show probe 1023 = Lcg.step collisionMultiplier collisionIncrementer (2 ^ 10) from
    funext probe_eq]
  exact Lcg.exists_iterate_eq (a := collisionMultiplier) (c := collisionIncrementer) (k := 10)
    (by decide) (by decide) ha hb

theorem iterate_probe_lt {a : Nat} (ha : a < 1024) (n : Nat) : (probe 1023)^[n] a < 1024 := by
  cases n with
  | zero => exact ha
  | succ n =>
    rw [Function.iterate_succ_apply']
    exact probe_lt _

/-- The insertion loop stops at a free slot. It sets flags only, and all on its way. -/
theorem walkFree_spec {mask : Nat} : ∀ {n fuel key : Nat} {words : Nat → u64}, n < fuel →
    words ((probe mask)^[n] key) &&& offsetMask = 0 →
    ∃ k words', walkFree (fun word => word &&& offsetMask != 0) mask fuel key words =
        some (k, words') ∧
      words k &&& offsetMask = 0 ∧ (∃ i ≤ n, k = (probe mask)^[i] key) ∧
      (∀ j, words' j &&& offsetMask = words j &&& offsetMask) ∧
      (∀ j, flag (words j) = true → flag (words' j) = true) ∧
      (∀ j, words j = 0 → words' j = 0) ∧
      Reaches (probe mask) (fun j => flag (words' j)) key k := by
  intro n
  induction n with
  | zero =>
    intro fuel key words hfuel hfree
    obtain ⟨fuel, rfl⟩ : ∃ f, fuel = f + 1 := ⟨fuel - 1, by omega⟩
    refine ⟨key, words, ?_, hfree, ⟨0, Nat.le_refl 0, rfl⟩, fun _ => rfl, fun _ h => h,
      fun _ h => h, .here _⟩
    rw [walkFree, if_neg (by simpa using hfree)]
  | succ n ih =>
    intro fuel key words hfuel hfree
    obtain ⟨fuel, rfl⟩ : ∃ f, fuel = f + 1 := ⟨fuel - 1, by omega⟩
    by_cases hkey : words key &&& offsetMask = 0
    · refine ⟨key, words, ?_, hkey, ⟨0, Nat.zero_le _, rfl⟩, fun _ => rfl, fun _ h => h,
        fun _ h => h, .here _⟩
      rw [walkFree, if_neg (by simpa using hkey)]
    · have hfield : ∀ j, Function.update words key (words key ||| collideMask) j &&& offsetMask =
          words j &&& offsetMask := by
        intro j
        by_cases hj : j = key
        · subst hj
          rw [Function.update_self, field_or_collide]
        · rw [Function.update_of_ne hj]
      have hflag : ∀ j, flag (words j) = true →
          flag (Function.update words key (words key ||| collideMask) j) = true := by
        intro j h
        by_cases hj : j = key
        · subst hj
          rw [Function.update_self, flag_or_collide]
        · rwa [Function.update_of_ne hj]
      have hzero : ∀ j, words j = 0 →
          Function.update words key (words key ||| collideMask) j = 0 := by
        intro j h
        by_cases hj : j = key
        · subst hj
          rw [h, zero_field] at hkey
          exact absurd rfl hkey
        · rwa [Function.update_of_ne hj]
      rw [Function.iterate_succ_apply] at hfree
      obtain ⟨k, words', hrun, hk, ⟨i, hi, hki⟩, hfield', hflag', hzero', hreach⟩ :=
        ih (Nat.lt_of_succ_lt_succ hfuel) ((hfield _).trans hfree)
      refine ⟨k, words', ?_, (hfield k).symm.trans hk, ⟨i + 1, by omega, ?_⟩,
        fun j => (hfield' j).trans (hfield j), fun j h => hflag' j (hflag j h),
        fun j h => hzero' j (hzero j h), .step ?_ hreach⟩
      · rw [walkFree, if_pos (by simpa using hkey)]
        exact hrun
      · rw [Function.iterate_succ_apply]
        exact hki
      · apply hflag'
        rw [Function.update_self, flag_or_collide]

section Loops

variable {t : TableIndex} {mask k : Nat} {hash : u64}

/-- A hash that is reached is found. -/
theorem findLoop_found (hk : t.hashes k = hash) (hword : t.words k ≠ 0)
    (hinj : ∀ j < 1024, t.hashes j = hash → j = k) :
    ∀ {n fuel key : Nat}, n < fuel → key < 1024 → (probe 1023)^[n] key = k →
      Reaches (probe 1023) (fun j => flag (t.words j)) key k →
      findLoop t 1023 hash fuel key = some (some k) := by
  intro n
  induction n with
  | zero =>
    intro fuel key hfuel _ hn _
    obtain ⟨fuel, rfl⟩ : ∃ f, fuel = f + 1 := ⟨fuel - 1, by omega⟩
    rw [Function.iterate_zero_apply] at hn
    rw [hn, findLoop, if_neg hword, if_pos hk.symm]
  | succ n ih =>
    intro fuel key hfuel hlt hn hreach
    obtain ⟨fuel, rfl⟩ : ∃ f, fuel = f + 1 := ⟨fuel - 1, by omega⟩
    by_cases hkey : key = k
    · rw [hkey, findLoop, if_neg hword, if_pos hk.symm]
    · obtain ⟨hflag, hrest⟩ := hreach.of_ne hkey
      have hne : t.words key ≠ 0 := fun h0 => by
        rw [((eq_zero_iff _).mp h0).2] at hflag
        cases hflag
      rw [Function.iterate_succ_apply] at hn
      rw [findLoop, if_neg hne, if_neg fun he => hkey (hinj key hlt he.symm), if_pos hflag]
      exact ih (by omega) (probe_lt key) hn hrest

/-- The search for a hash that is not there ends at a slot without flag. -/
theorem findLoop_absent (habsent : ∀ j < 1024, t.hashes j ≠ hash) :
    ∀ {n fuel key : Nat}, n < fuel → key < 1024 →
      flag (t.words ((probe 1023)^[n] key)) = false →
      findLoop t 1023 hash fuel key = some none := by
  intro n
  induction n with
  | zero =>
    intro fuel key hfuel hlt hn
    obtain ⟨fuel, rfl⟩ : ∃ f, fuel = f + 1 := ⟨fuel - 1, by omega⟩
    rw [Function.iterate_zero_apply] at hn
    rw [findLoop]
    by_cases h0 : t.words key = 0
    · rw [if_pos h0]
    · rw [if_neg h0, if_neg fun he => habsent key hlt he.symm, hn, if_neg Bool.false_ne_true]
  | succ n ih =>
    intro fuel key hfuel hlt hn
    obtain ⟨fuel, rfl⟩ : ∃ f, fuel = f + 1 := ⟨fuel - 1, by omega⟩
    rw [Function.iterate_succ_apply] at hn
    rw [findLoop]
    by_cases h0 : t.words key = 0
    · rw [if_pos h0]
    · rw [if_neg h0, if_neg fun he => habsent key hlt he.symm]
      split
      · exact ih (by omega) (probe_lt key) hn
      · rfl

/-- `Remove` and `Lookup` search alike. -/
theorem removeLoop_fst (t : TableIndex) (mask : Nat) (hash : u64) : ∀ (fuel key last : Nat),
    (removeLoop t mask hash fuel key last).map (fun found => found.map Prod.fst) =
      findLoop t mask hash fuel key := by
  intro fuel
  induction fuel with
  | zero => exact fun _ _ => rfl
  | succ fuel ih =>
    intro key last
    rw [removeLoop, findLoop]
    split
    · rfl
    · split
      · rfl
      · split
        · exact ih _ _
        · rfl

/-- There are only holes between `last` and `key`. -/
def HolesTo (t : TableIndex) (mask last key : Nat) : Prop :=
  ∃ i, (probe mask)^[i] last = key ∧
    ∀ j, 1 ≤ j → j < i → t.words ((probe mask)^[j] last) &&& offsetMask = 0

theorem removeLoop_last : ∀ {fuel key last key' last' : Nat}, HolesTo t mask last key →
    removeLoop t mask hash fuel key last = some (some (key', last')) →
      HolesTo t mask last' key' := by
  intro fuel
  induction fuel with
  | zero => exact fun _ h => nomatch h
  | succ fuel ih =>
    intro key last key' last' hholes h
    rw [removeLoop] at h
    split at h
    · cases h
    · split at h
      · cases h
        exact hholes
      · split at h
        · refine ih ?_ h
          split
          · next hfree =>
            -- one more hole
            obtain ⟨i, rfl, hi⟩ := hholes
            refine ⟨i + 1, Function.iterate_succ_apply' _ _ _, fun j h1 h2 => ?_⟩
            rcases Nat.lt_or_ge j i with hj | hj
            · exact hi j h1 hj
            · rw [show j = i by omega]
              exact hfree
          · exact ⟨1, Function.iterate_one _ ▸ rfl, fun j h1 h2 => absurd h2 (Nat.not_lt.mpr h1)⟩
        · cases h

/-- The slots between are set to zero. -/
theorem zeroLoop_spec {key : Nat} : ∀ {n fuel last : Nat} (words : Nat → u64), n < fuel →
    (probe mask)^[n + 1] last = key → (∀ i, i < n → (probe mask)^[i + 1] last ≠ key) →
    ∃ words', zeroLoop mask key fuel last words = some words' ∧
      ∀ x, words' x = words x ∨ words' x = 0 ∧ ∃ i < n, x = (probe mask)^[i + 1] last := by
  intro n
  induction n with
  | zero =>
    intro fuel last words hfuel hn _
    obtain ⟨fuel, rfl⟩ : ∃ f, fuel = f + 1 := ⟨fuel - 1, by omega⟩
    rw [Nat.zero_add, Function.iterate_one] at hn
    exact ⟨words, by rw [zeroLoop, if_pos hn], fun _ => .inl rfl⟩
  | succ n ih =>
    intro fuel last words hfuel hn hmin
    obtain ⟨fuel, rfl⟩ : ∃ f, fuel = f + 1 := ⟨fuel - 1, by omega⟩
    rw [Function.iterate_succ_apply] at hn
    have hmin0 := hmin 0 (Nat.succ_pos n)
    rw [Nat.zero_add, Function.iterate_one] at hmin0
    obtain ⟨words', hrun, hx⟩ := ih (Function.update words (probe mask last) 0)
      (Nat.lt_of_succ_lt_succ hfuel) hn (fun i hi => by
        have := hmin (i + 1) (by omega)
        rwa [Function.iterate_succ_apply] at this)
    refine ⟨words', ?_, fun x => ?_⟩
    · rw [zeroLoop, if_neg hmin0]
      exact hrun
    · rcases hx x with hx | ⟨h0, i, hi, hxi⟩
      · by_cases hxp : x = probe mask last
        · subst hxp
          rw [Function.update_self] at hx
          refine .inr ⟨hx, 0, Nat.succ_pos n, ?_⟩
          rw [Nat.zero_add, Function.iterate_one]
        · rw [Function.update_of_ne hxp] at hx
          exact .inl hx
      · refine .inr ⟨h0, i + 1, by omega, ?_⟩
        rw [Function.iterate_succ_apply]
        exact hxi

end Loops

/-! ## The invariant -/

/-- The slots in use. -/
def stored (hashes : Nat → u64) : Finset Nat := {k ∈ Finset.range 1024 | hashes k ≠ 0}

theorem mem_stored {hashes : Nat → u64} {k : Nat} : k ∈ stored hashes ↔ k < 1024 ∧ hashes k ≠ 0 := by
  simp [stored]

/-- The table, not doubled yet, is the map `m`. -/
structure Holds (t : TableIndex) (m : u64 → Option u64) : Prop where
  elements : t.elements = 1024
  used : t.used = (stored t.hashes).card
  field : ∀ k < 1024, t.words k &&& offsetMask = 0 ↔ t.hashes k = 0
  value : ∀ k < 1024, t.hashes k ≠ 0 → m (t.hashes k) = some ((t.words k &&& offsetMask) - 1)
  slot : ∀ hash, m hash ≠ none → hash ≠ 0 ∧ ∃ k < 1024, t.hashes k = hash
  inj : ∀ j < 1024, ∀ k < 1024, t.hashes j ≠ 0 → t.hashes j = t.hashes k → j = k
  reaches : ∀ k < 1024, t.hashes k ≠ 0 →
    Reaches (probe 1023) (fun j => flag (t.words j)) (home 1023 (t.hashes k)) k

/-- Every word that is not zero has its hash. -/
def TableIndex.NoHoles (t : TableIndex) : Prop := ∀ k, t.words k ≠ 0 → t.hashes k ≠ 0

namespace Holds

variable {t : TableIndex} {m : u64 → Option u64} {hash : u64}

theorem allocateTable {page : Nat → u64} (hpage : ∀ k, page k = 0) :
    Holds (allocateTable page) (fun _ => none) where
  elements := rfl
  used := by simp [Db.allocateTable, stored, hpage]
  field := by simp [Db.allocateTable, hpage]
  value := by simp [Db.allocateTable, hpage]
  slot := by simp
  inj := by simp [Db.allocateTable, hpage]
  reaches := by simp [Db.allocateTable, hpage]

theorem mask (h : Holds t m) : t.elements - 1 = 1023 := by rw [h.elements]

theorem has_iff (h : Holds t m) (h0 : hash ≠ 0) : t.Has hash ↔ m hash ≠ none := by
  constructor
  · rintro ⟨k, hk, rfl⟩
    rw [h.elements] at hk
    rw [h.value k hk h0]
    exact Option.some_ne_none _
  · intro hm
    obtain ⟨-, k, hk, hkh⟩ := h.slot hash hm
    exact ⟨k, by rwa [h.elements], hkh⟩

/-- The stored hashes are counted. -/
theorem used_eq (h : Holds t m) : t.used = {hash | m hash ≠ none}.ncard := by
  have himage : {hash | m hash ≠ none} = t.hashes '' (stored t.hashes : Set Nat) := by
    ext hash
    simp only [Set.mem_ofPred_eq, Set.mem_image, Finset.mem_coe, mem_stored]
    constructor
    · intro hm
      obtain ⟨h0, k, hk, rfl⟩ := h.slot hash hm
      exact ⟨k, ⟨hk, h0⟩, rfl⟩
    · rintro ⟨k, ⟨hk, h0⟩, rfl⟩
      rw [h.value k hk h0]
      exact Option.some_ne_none _
  have hinj : Set.InjOn t.hashes (stored t.hashes : Set Nat) := by
    intro j hj k hk he
    rw [Finset.mem_coe, mem_stored] at hj hk
    exact h.inj j hj.1 k hk.1 hj.2 he
  rw [himage, hinj.ncard_image, Set.ncard_coe_finset, h.used]

theorem word_ne_zero (h : Holds t m) {k : Nat} (hk : k < 1024) (h0 : t.hashes k ≠ 0) :
    t.words k ≠ 0 := fun hw => h0 ((h.field k hk).mp ((eq_zero_iff _).mp hw).1)

/-- The search of both `Lookup` and `Remove`. -/
theorem findLoop (h : Holds t m) (h0 : hash ≠ 0)
    (hserves : t.Has hash ∨ ∃ k < t.elements, flag (t.words k) = false) {fuel : Nat}
    (hfuel : 1024 ≤ fuel) :
    (∃ k < 1024, t.hashes k = hash ∧
        findLoop t 1023 hash fuel (home 1023 hash) = some (some k)) ∨
      m hash = none ∧ Db.findLoop t 1023 hash fuel (home 1023 hash) = some none := by
  rw [h.elements] at hserves
  by_cases hm : m hash = none
  · have habsent : ∀ j < 1024, t.hashes j ≠ hash := by
      rintro j hj rfl
      rw [h.value j hj h0] at hm
      cases hm
    obtain ⟨k, hk, hflag⟩ := hserves.resolve_left fun hh => (h.has_iff h0).mp hh hm
    obtain ⟨n, hn, hnk⟩ := exists_probe_eq (home_lt hash) hk
    refine .inr ⟨hm, findLoop_absent habsent (n := n) (by omega) (home_lt hash) ?_⟩
    rwa [hnk]
  · obtain ⟨-, k, hk, rfl⟩ := h.slot hash hm
    obtain ⟨n, hn, hnk⟩ := exists_probe_eq (home_lt (t.hashes k)) hk
    refine .inl ⟨k, hk, rfl, findLoop_found rfl (h.word_ne_zero hk h0) ?_ (n := n) (by omega)
      (home_lt _) hnk (h.reaches k hk h0)⟩
    intro j hj he
    exact h.inj j hj k hk (he ▸ h0) he

theorem lookup (h : Holds t m) (hserves : t.Serves (.lookup hash)) {fuel : Nat}
    (hfuel : 1024 ≤ fuel) :
    t.lookup fuel hash = some ((m hash).getD invalidRecordOffset) := by
  unfold TableIndex.lookup
  by_cases h0 : hash = 0
  · have hm : m hash = none := by
      by_contra hm
      exact (h.slot hash hm).1 h0
    rw [if_pos h0, hm]
    rfl
  · rw [if_neg h0, h.mask]
    rcases h.findLoop h0 (hserves.resolve_left h0) hfuel with ⟨k, hk, rfl, hrun⟩ | ⟨hm, hrun⟩
    · rw [hrun, h.value k hk h0]
      rfl
    · rw [hrun, hm]
      rfl

/-- The slots are not all in use. -/
theorem exists_free (h : Holds t m) (hused : t.used < 512) :
    ∃ k < 1024, t.words k &&& offsetMask = 0 := by
  by_contra hfull
  have hall : stored t.hashes = Finset.range 1024 := by
    ext k
    rw [mem_stored, Finset.mem_range, and_iff_left_iff_imp]
    exact fun hk hz => hfull ⟨k, hk, (h.field k hk).mpr hz⟩
  have := h.used
  rw [hall, Finset.card_range] at this
  omega

/-- A hash that is new goes to a free slot, behind flags that lead to it. -/
theorem fill (h : Holds t m) (h0 : hash ≠ 0) (hother : ∀ j < 1024, t.hashes j ≠ hash)
    {offset : u64} (hoffset : offset < offsetMask) {k : Nat} (hlt : k < 1024)
    (hfree : t.words k &&& offsetMask = 0) {words : Nat → u64}
    (hfield : ∀ j, words j &&& offsetMask = t.words j &&& offsetMask)
    (hflag : ∀ j, flag (t.words j) = true → flag (words j) = true)
    (hreach : Reaches (probe 1023) (fun j => flag (words j)) (home 1023 hash) k) :
    Holds
      { t with
        words := Function.update words k (words k ||| (offset + 1))
        hashes := Function.update t.hashes k hash
        used := t.used + 1 }
      (Function.update m hash (some offset)) := by
  have hfree' : words k &&& offsetMask = 0 := (hfield k).trans hfree
  have hzero : t.hashes k = 0 := (h.field k hlt).mp hfree
  have hflags : ∀ j, flag (Function.update words k (words k ||| (offset + 1)) j) =
      flag (words j) := by
    intro j
    by_cases hj : j = k
    · subst hj
      rw [Function.update_self, flag_or_offset hoffset]
    · rw [Function.update_of_ne hj]
  have hne : ∀ j, j ≠ k → Function.update t.hashes k hash j = t.hashes j :=
    fun j hj => Function.update_of_ne hj _ _
  constructor
  case elements => exact h.elements
  case used =>
    have hset : stored (Function.update t.hashes k hash) = insert k (stored t.hashes) := by
      ext j
      rw [Finset.mem_insert, mem_stored, mem_stored]
      by_cases hj : j = k
      · subst hj
        rw [Function.update_self]
        exact ⟨fun _ => .inl rfl, fun _ => ⟨hlt, h0⟩⟩
      · simp [hj]
    have hk : k ∉ stored t.hashes := fun hk => (mem_stored.mp hk).2 hzero
    simp only [hset, Finset.card_insert_of_notMem hk, h.used]
  case field =>
    intro j hj
    by_cases hjk : j = k
    · subst hjk
      simp only [Function.update_self, field_or_offset hoffset hfree']
      exact ⟨fun he => absurd he (offset_succ_ne_zero hoffset), fun he => absurd he h0⟩
    · simp only [Function.update_of_ne hjk, hfield]
      exact h.field j hj
  case value =>
    intro j hj hj0
    by_cases hjk : j = k
    · subst hjk
      simp only [Function.update_self, field_or_offset hoffset hfree']
      rw [BitVec.add_sub_cancel]
    · simp only [Function.update_of_ne hjk, hfield] at hj0 ⊢
      rw [Function.update_of_ne (hother j hj)]
      exact h.value j hj hj0
  case slot =>
    intro g hg
    by_cases hgh : g = hash
    · subst hgh
      exact ⟨h0, k, hlt, Function.update_self _ _ _⟩
    · rw [Function.update_of_ne hgh] at hg
      obtain ⟨hg0, j, hj, hjg⟩ := h.slot g hg
      have hjk : j ≠ k := by
        rintro rfl
        exact hg0 (hjg.symm.trans hzero)
      exact ⟨hg0, j, hj, (hne j hjk).trans hjg⟩
  case inj =>
    intro i hi j hj hi0 he
    by_cases hik : i = k <;> by_cases hjk : j = k
    · rw [hik, hjk]
    · subst hik
      simp only [Function.update_self, Function.update_of_ne hjk] at he
      exact absurd he.symm (hother j hj)
    · subst hjk
      simp only [Function.update_self, Function.update_of_ne hik] at he
      exact absurd he (hother i hi)
    · simp only [Function.update_of_ne hik, Function.update_of_ne hjk] at hi0 he
      exact h.inj i hi j hj hi0 he
  case reaches =>
    intro j hj hj0
    simp only [hflags]
    by_cases hjk : j = k
    · subst hjk
      simpa only [Function.update_self] using hreach
    · simp only [Function.update_of_ne hjk] at hj0 ⊢
      exact (h.reaches j hj hj0).mono hflag

theorem insert (h : Holds t m) {offset : u64} {memory : Bool}
    (hserves : t.Serves (.insert hash offset memory)) {fuel : Nat} (hfuel : 1024 ≤ fuel) :
    ∃ t', t.insert fuel hash offset memory = some t' ∧
      Holds t' (Function.update m hash (some offset)) ∧ t'.used = t.used + 1 ∧
      (t.NoHoles → t'.NoHoles) := by
  obtain ⟨h0, hnew, hoffset, hroom⟩ := hserves
  have hused : t.used < 512 := by
    rwa [h.elements] at hroom
  obtain ⟨j, hj, hfree⟩ := h.exists_free hused
  obtain ⟨n, hn, hnj⟩ := exists_probe_eq (home_lt hash) hj
  obtain ⟨k, words, hrun, hk, ⟨i, -, hki⟩, hfield, hflag, hzero, hreach⟩ :=
    walkFree_spec (Nat.lt_of_lt_of_le hn hfuel) (hnj ▸ hfree)
  have hlt : k < 1024 := hki ▸ iterate_probe_lt (home_lt hash) i
  have hother : ∀ j < 1024, t.hashes j ≠ hash :=
    fun j hj he => hnew ⟨j, by rwa [h.elements], he⟩
  refine ⟨_, ?_, h.fill h0 hother hoffset hlt hk hfield hflag hreach, rfl, fun hn j hj => ?_⟩
  · unfold TableIndex.insert
    rw [if_neg h0, h.mask, if_neg fun hc => absurd hc.1 (Nat.not_le.mpr hroom),
      if_neg (Nat.not_le.mpr hroom)]
    simp only [Option.bind_eq_bind, Option.bind_some, hrun]
    rfl
  · by_cases hjk : j = k
    · subst hjk
      simpa only [Function.update_self] using h0
    · simp only [Function.update_of_ne hjk] at hj ⊢
      exact hn j fun hz => hj (hzero j hz)

/-- A hash leaves, and the words keep what the others need. -/
theorem without (h : Holds t m) {k : Nat} (hlt : k < 1024) (hk : t.hashes k ≠ 0)
    {words : Nat → u64} (hfield : ∀ j, j ≠ k → words j &&& offsetMask = t.words j &&& offsetMask)
    (hfree : words k &&& offsetMask = 0)
    (hreach : ∀ j < 1024, t.hashes j ≠ 0 → j ≠ k → ∀ a,
      Reaches (probe 1023) (fun i => flag (t.words i)) a j →
        Reaches (probe 1023) (fun i => flag (words i)) a j) :
    Holds
      { t with
        words := words, hashes := Function.update t.hashes k 0, used := t.used - 1 }
      (Function.update m (t.hashes k) none) := by
  constructor
  case elements => exact h.elements
  case used =>
    have hset : stored (Function.update t.hashes k 0) = (stored t.hashes).erase k := by
      ext j
      rw [Finset.mem_erase, mem_stored, mem_stored]
      by_cases hj : j = k
      · subst hj
        rw [Function.update_self]
        exact ⟨fun hz => absurd rfl hz.2, fun hz => absurd rfl hz.1⟩
      · simp [hj]
    simp only [hset, Finset.card_erase_of_mem (mem_stored.mpr ⟨hlt, hk⟩), h.used]
  case field =>
    intro j hj
    by_cases hjk : j = k
    · subst hjk
      simp only [Function.update_self]
      exact iff_of_true hfree trivial
    · simp only [Function.update_of_ne hjk, hfield j hjk]
      exact h.field j hj
  case value =>
    intro j hj hj0
    by_cases hjk : j = k
    · subst hjk
      simp only [Function.update_self] at hj0
      exact absurd rfl hj0
    · simp only [Function.update_of_ne hjk, hfield j hjk] at hj0 ⊢
      have hne : t.hashes j ≠ t.hashes k := fun he => hjk (h.inj j hj k hlt hj0 he)
      rw [Function.update_of_ne hne]
      exact h.value j hj hj0
  case slot =>
    intro g hg
    by_cases hgh : g = t.hashes k
    · rw [hgh, Function.update_self] at hg
      exact absurd rfl hg
    · rw [Function.update_of_ne hgh] at hg
      obtain ⟨hg0, j, hj, hjg⟩ := h.slot g hg
      have hjk : j ≠ k := fun he => hgh (he ▸ hjg.symm)
      exact ⟨hg0, j, hj, (Function.update_of_ne hjk _ _).trans hjg⟩
  case inj =>
    intro i hi j hj hi0 he
    by_cases hik : i = k
    · subst hik
      simp only [Function.update_self] at hi0
      exact absurd rfl hi0
    · by_cases hjk : j = k
      · subst hjk
        simp only [Function.update_self, Function.update_of_ne hik] at hi0 he
        exact absurd he hi0
      · simp only [Function.update_of_ne hik, Function.update_of_ne hjk] at hi0 he
        exact h.inj i hi j hj hi0 he
  case reaches =>
    intro j hj hj0
    by_cases hjk : j = k
    · subst hjk
      simp only [Function.update_self] at hj0
      exact absurd rfl hj0
    · simp only [Function.update_of_ne hjk] at hj0 ⊢
      exact hreach j hj hj0 hjk _ (h.reaches j hj hj0)

/-- The flags from the last valid entry to the one that goes are cleared when nothing follows. -/
theorem zeroed (h : Holds t m) {k last : Nat} (hlt : k < 1024)
    (hflag : flag (t.words k) = false) (hlast : last ≠ k) (hholes : HolesTo t 1023 last k)
    {fuel : Nat} (hfuel : 1024 ≤ fuel) {words : Nat → u64}
    (hwords : words = Function.update t.words k (t.words k &&& collideMask)) :
    ∃ words', zeroLoop 1023 k fuel last (Function.update words last (words last &&& offsetMask)) =
        some words' ∧
      (∀ j, j ≠ k → words' j &&& offsetMask = t.words j &&& offsetMask) ∧
      words' k &&& offsetMask = 0 ∧
      ∀ j < 1024, t.hashes j ≠ 0 → j ≠ k → ∀ a,
        Reaches (probe 1023) (fun i => flag (t.words i)) a j →
          Reaches (probe 1023) (fun i => flag (words' i)) a j := by
  -- the first arrival at `k`
  have hex : ∃ n, (probe 1023)^[n + 1] last = k := by
    obtain ⟨i, hi, -⟩ := hholes
    cases i with
    | zero => exact absurd hi hlast
    | succ n => exact ⟨n, hi⟩
  obtain ⟨n, hn, hmin⟩ : ∃ n, (probe 1023)^[n + 1] last = k ∧
      ∀ i < n, (probe 1023)^[i + 1] last ≠ k :=
    ⟨Nat.find hex, Nat.find_spec hex, fun i hi => Nat.find_min hex hi⟩
  have hhole : ∀ i < n, t.words ((probe 1023)^[i + 1] last) &&& offsetMask = 0 := by
    obtain ⟨i', hi', hz⟩ := hholes
    intro i hi
    refine hz (i + 1) (by omega) ?_
    by_contra hge
    cases i' with
    | zero => exact hlast hi'
    | succ i' => exact hmin i' (by omega) hi'
  have hbound : n < 1024 := by
    obtain ⟨n', hn', hnk⟩ := exists_probe_eq (probe_lt last) hlt
    rw [← Function.iterate_succ_apply] at hnk
    by_contra hge
    exact hmin n' (by omega) hnk
  obtain ⟨words', hrun, hx⟩ :=
    zeroLoop_spec (Function.update words last (words last &&& offsetMask))
      (Nat.lt_of_lt_of_le hbound hfuel) hn hmin
  have hkept : ∀ x, words' x = Function.update words last (words last &&& offsetMask) x →
      x ≠ last → x ≠ k → words' x = t.words x := by
    intro x he h1 h2
    rw [he, Function.update_of_ne h1, hwords, Function.update_of_ne h2]
  have hlast' : words last = t.words last := by
    rw [hwords, Function.update_of_ne hlast]
  refine ⟨words', hrun, fun j hj => ?_, ?_, fun j hj hj0 hjk a hreach => ?_⟩
  · rcases hx j with he | ⟨h0, i, hi, rfl⟩
    · by_cases hjl : j = last
      · subst hjl
        rw [he, Function.update_self, hlast', field_and_offset]
      · rw [hkept j he hjl hj]
    · rw [h0, hhole i hi, zero_field]
  · rcases hx k with he | ⟨h0, -⟩
    · rw [he, Function.update_of_ne (Ne.symm hlast), hwords, Function.update_self,
        field_and_collide]
    · rw [h0, zero_field]
  · refine Reaches.clear_path (n := n + 1) (p := last) ?_ (fun x hset hclear => ?_)
      (fun i hi1 hi2 => ?_) hreach
    · rw [hn]
      exact hflag
    · rcases hx x with he | ⟨-, i, hi, rfl⟩
      · by_cases hxl : x = last
        · exact ⟨0, Nat.succ_pos n, hxl⟩
        · by_cases hxk : x = k
          · rw [hxk, hflag] at hset
            cases hset
          · rw [hkept x he hxl hxk, hset] at hclear
            cases hclear
      · exact ⟨i + 1, by omega, rfl⟩
    · -- the slots on the way are holes
      rintro rfl
      rcases Nat.lt_or_ge n i with hni | hni
      · rw [show i = n + 1 by omega] at hjk
        exact hjk hn
      · obtain ⟨i, rfl⟩ : ∃ i', i = i' + 1 := ⟨i - 1, by omega⟩
        exact hj0 ((h.field _ hj).mp (hhole i (by omega)))

theorem remove (h : Holds t m) (hserves : t.Serves (.remove hash)) {fuel : Nat}
    (hfuel : 1024 ≤ fuel) :
    ∃ t', t.remove fuel hash = some t' ∧ Holds t' (Function.update m hash none) := by
  unfold TableIndex.remove
  by_cases h0 : hash = 0
  · have hm : m hash = none := by
      by_contra hm
      exact (h.slot hash hm).1 h0
    refine ⟨t, if_pos h0, ?_⟩
    rwa [Function.update_eq_self_iff.mpr hm.symm]
  · rw [if_neg h0, h.mask]
    have hfst := removeLoop_fst t 1023 hash fuel (home 1023 hash) (home 1023 hash)
    rcases h.findLoop h0 (hserves.resolve_left h0) hfuel with ⟨k, hk, rfl, hrun⟩ | ⟨hm, hrun⟩
    · rw [hrun] at hfst
      obtain ⟨⟨key, last⟩, hremove, hkey⟩ :
          ∃ found, removeLoop t 1023 (t.hashes k) fuel (home 1023 (t.hashes k))
            (home 1023 (t.hashes k)) = some (some found) ∧ found.1 = k := by
        cases hr : removeLoop t 1023 (t.hashes k) fuel (home 1023 (t.hashes k))
            (home 1023 (t.hashes k)) with
        | none => rw [hr] at hfst; cases hfst
        | some found =>
          rw [hr] at hfst
          cases found with
          | none => cases hfst
          | some found => exact ⟨found, rfl, Option.some.inj (Option.some.inj hfst)⟩
      have hkey : key = k := hkey
      subst hkey
      have hholes := removeLoop_last ⟨0, Function.iterate_zero_apply _ _, fun j h1 h2 => by omega⟩
        hremove
      simp only [Option.bind_eq_bind, hremove, Option.bind_some]
      split
      · next hc =>
        -- nothing follows the entry
        have hflag : flag (t.words key) = false := by
          have := ((eq_zero_iff _).mp hc.1).2
          rwa [Function.update_self, flag_and_collide] at this
        obtain ⟨words', hzero, hfield, hfree, hreach⟩ :=
          h.zeroed hk hflag hc.2 hholes hfuel rfl
        rw [hzero]
        exact ⟨_, rfl, h.without hk h0 hfield hfree hreach⟩
      · have hflags : ∀ i, flag (Function.update t.words key (t.words key &&& collideMask) i) =
            flag (t.words i) := by
          intro i
          by_cases hi : i = key
          · subst hi
            rw [Function.update_self, flag_and_collide]
          · rw [Function.update_of_ne hi]
        refine ⟨_, rfl, h.without hk h0 (fun j hj => ?_) ?_ (fun j _ _ _ a hreach => ?_)⟩
        · rw [Function.update_of_ne hj]
        · rw [Function.update_self, field_and_collide]
        · simpa only [hflags] using hreach
    · rw [hrun] at hfst
      have hremove : removeLoop t 1023 hash fuel (home 1023 hash) (home 1023 hash) =
          some none := by
        cases hr : removeLoop t 1023 hash fuel (home 1023 hash) (home 1023 hash) with
        | none => rw [hr] at hfst; cases hfst
        | some found =>
          rw [hr] at hfst
          cases found with
          | none => rfl
          | some found => cases hfst
      simp only [Option.bind_eq_bind, hremove, Option.bind_some]
      refine ⟨t, rfl, ?_⟩
      rwa [Function.update_eq_self_iff.mpr hm.symm]

theorem step (h : Holds t m) {op : TableOp} (hserves : t.Serves op) {fuel : Nat}
    (hfuel : 1024 ≤ fuel) :
    Holds (tableStep fuel t op).1 (mapStep m op).1 ∧ (tableStep fuel t op).2 = (mapStep m op).2 := by
  cases op with
  | insert hash offset memory =>
    obtain ⟨t', hrun, h', -⟩ := h.insert hserves hfuel
    simp only [tableStep, hrun]
    exact ⟨h', rfl⟩
  | remove hash =>
    obtain ⟨t', hrun, h'⟩ := h.remove hserves hfuel
    simp only [tableStep, hrun]
    exact ⟨h', rfl⟩
  | lookup hash =>
    simp only [tableStep, h.lookup hserves hfuel]
    exact ⟨h, rfl⟩

theorem run {fuel : Nat} (hfuel : 1024 ≤ fuel) : ∀ (ops : List TableOp) {t : TableIndex}
    {m : u64 → Option u64}, Holds t m →
      Run.Guarded (tableStep fuel) TableIndex.Serves t ops →
        Holds (Run.exec (tableStep fuel) t ops).1 (Run.exec mapStep m ops).1 ∧
          (Run.exec (tableStep fuel) t ops).2 = (Run.exec mapStep m ops).2 := by
  intro ops
  induction ops with
  | nil => exact fun h _ => ⟨h, rfl⟩
  | cons op ops ih =>
    rintro t m h ⟨hserves, hrest⟩
    obtain ⟨hstep, hlog⟩ := h.step hserves hfuel
    obtain ⟨hrun, hlogs⟩ := ih hstep hrest
    refine ⟨hrun, ?_⟩
    rw [Run.exec_cons_snd, Run.exec_cons_snd, hlog, hlogs]

end Holds

/-- **TableIndex is a map**, in runs of calls that are all served, from a page of zeros: every call
returns, and what it returns on a map; the stored hashes are counted, and no place that a search
starts from or goes to is outside of the table. -/
theorem table_index_map {page : Nat → u64} (hpage : ∀ k, page k = 0) {fuel : Nat}
    (hfuel : 1024 ≤ fuel) (ops : List TableOp)
    (h : Run.Guarded (tableStep fuel) TableIndex.Serves (allocateTable page) ops) :
    let t := (Run.exec (tableStep fuel) (allocateTable page) ops).1
    let m := (Run.exec mapStep (fun _ => none) ops).1
    (Run.exec (tableStep fuel) (allocateTable page) ops).2 =
        (Run.exec mapStep (fun _ => none) ops).2 ∧
      t.used = {hash | m hash ≠ none}.ncard ∧
      (∀ hash, home (t.elements - 1) hash < t.elements) ∧
      ∀ key, probe (t.elements - 1) key < t.elements := by
  obtain ⟨hholds, hlog⟩ := Holds.run hfuel ops (Holds.allocateTable hpage) h
  refine ⟨hlog, hholds.used_eq, fun hash => ?_, fun key => ?_⟩
  · rw [hholds.mask, hholds.elements]
    exact home_lt hash
  · rw [hholds.mask, hholds.elements]
    exact probe_lt key

/-- A hash goes in and comes back, and another with the same home stays. -/
theorem table_index_map_collision :
    (Run.exec (tableStep 1024) (allocateTable fun _ => 0)
        [.insert 1 7 true, .insert 1025 8 true, .remove 1, .lookup 1025, .lookup 1]).2 =
      [none, none, none, some 8, some invalidRecordOffset] := by
  have habsent : ∀ {t : TableIndex} {hash : u64}, (∀ k < t.elements, t.hashes k ≠ hash) →
      ¬ t.Has hash := fun h ⟨k, hk, he⟩ => h k hk he
  refine (table_index_map (fun _ => rfl) (Nat.le_refl 1024)
    [.insert 1 7 true, .insert 1025 8 true, .remove 1, .lookup 1025, .lookup 1]
    ⟨?_, ?_, ?_, ?_, ?_, trivial⟩).1.trans (by decide)
  · exact ⟨by decide, habsent (by decide +kernel), by decide, by decide +kernel⟩
  · exact ⟨by decide, habsent (by decide +kernel), by decide, by decide +kernel⟩
  · exact .inr (.inl ⟨0, by decide +kernel, by decide +kernel⟩)
  · exact .inr (.inl ⟨probe 1023 0, by decide +kernel, by decide +kernel⟩)
  · exact .inr (.inr ⟨5, by decide +kernel, by decide +kernel⟩)

/-! ## Doubling -/

/-- Elements whose new homes are all different are put there. -/
theorem redistribute_spread {fuel : Nat} (mask : Nat) (old : TableIndex) (hfuel : 0 < fuel) :
    ∀ {list : List Nat} (words hashes : Nat → u64), list.Nodup →
      (∀ i ∈ list, ∀ j ∈ list, old.words i ≠ 0 → old.words j ≠ 0 →
        (old.hashes i).toNat &&& mask = (old.hashes j).toNat &&& mask → i = j) →
      (∀ i ∈ list, old.words i ≠ 0 → words ((old.hashes i).toNat &&& mask) = 0) →
      ∃ words' hashes', redistribute fuel mask old list words hashes = some (words', hashes') ∧
        ∀ x, words' x ≠ 0 →
          words x ≠ 0 ∨ ∃ i ∈ list, old.words i ≠ 0 ∧ x = (old.hashes i).toNat &&& mask := by
  obtain ⟨fuel, rfl⟩ : ∃ f, fuel = f + 1 := ⟨fuel - 1, by omega⟩
  intro list
  induction list with
  | nil => exact fun words hashes _ _ _ => ⟨words, hashes, rfl, fun _ h => .inl h⟩
  | cons i list ih =>
    intro words hashes hnd hinj hfree
    obtain ⟨hi, hnd⟩ := List.nodup_cons.mp hnd
    have hinj' : ∀ a ∈ list, ∀ b ∈ list, old.words a ≠ 0 → old.words b ≠ 0 →
        (old.hashes a).toNat &&& mask = (old.hashes b).toNat &&& mask → a = b :=
      fun a ha b hb => hinj a (List.mem_cons_of_mem i ha) b (List.mem_cons_of_mem i hb)
    by_cases h0 : old.words i = 0
    · obtain ⟨words', hashes', hrun, hx⟩ := ih words hashes hnd hinj'
        (fun a ha => hfree a (List.mem_cons_of_mem i ha))
      refine ⟨words', hashes', ?_, fun x h => ?_⟩
      · rw [redistribute, if_pos h0]
        exact hrun
      · rcases hx x h with h | ⟨a, ha, h⟩
        · exact .inl h
        · exact .inr ⟨a, List.mem_cons_of_mem i ha, h⟩
    · have hfree0 := hfree i List.mem_cons_self h0
      have hwalk : walkFree (fun word => word != 0) mask (fuel + 1)
          ((old.hashes i).toNat &&& mask) words = some ((old.hashes i).toNat &&& mask, words) := by
        rw [walkFree, hfree0, if_neg (by decide)]
      obtain ⟨words', hashes', hrun, hx⟩ := ih
        (Function.update words ((old.hashes i).toNat &&& mask) (old.words i &&& offsetMask))
        (Function.update hashes ((old.hashes i).toNat &&& mask) (old.hashes i)) hnd hinj'
        (fun a ha hne => by
          have hdiff : (old.hashes a).toNat &&& mask ≠ (old.hashes i).toNat &&& mask := by
            intro he
            have := hinj a (List.mem_cons_of_mem i ha) i List.mem_cons_self hne h0 he
            exact hi (this ▸ ha)
          rw [Function.update_of_ne hdiff]
          exact hfree a (List.mem_cons_of_mem i ha) hne)
      refine ⟨words', hashes', ?_, fun x h => ?_⟩
      · rw [redistribute, if_neg h0, hwalk]
        exact hrun
      · rcases hx x h with h | ⟨a, ha, h⟩
        · by_cases hxi : x = (old.hashes i).toNat &&& mask
          · exact .inr ⟨i, List.mem_cons_self, h0, hxi⟩
          · rw [Function.update_of_ne hxi] at h
            exact .inl h
        · exact .inr ⟨a, List.mem_cons_of_mem i ha, h⟩

/-- The first `n` hashes, with the offset zero. -/
def firstInserts (n : Nat) : List TableOp :=
  (List.range n).map fun k => .insert (BitVec.ofNat 64 (k + 1)) 0 true

theorem firstInserts_holds {fuel : Nat} (hfuel : 1024 ≤ fuel) : ∀ n ≤ 512, ∃ t m,
    Run.exec (tableStep fuel) (allocateTable fun _ => 0) (firstInserts n) =
        (t, List.replicate n none) ∧
      Run.exec mapStep (fun _ => none) (firstInserts n) = (m, List.replicate n none) ∧
      Holds t m ∧ t.NoHoles ∧ t.used = n ∧
      ∀ hash, m hash = if 0 < hash.toNat ∧ hash.toNat ≤ n then some 0 else none := by
  intro n
  induction n with
  | zero =>
    intro _
    refine ⟨_, _, rfl, rfl, Holds.allocateTable fun _ => rfl, fun _ h => absurd rfl h, rfl,
      fun hash => ?_⟩
    rw [if_neg (by omega)]
  | succ n ih =>
    intro hn
    obtain ⟨t, m, hrun, hmap, hholds, hholes, hused, hm⟩ := ih (by omega)
    have hnat : (BitVec.ofNat 64 (n + 1)).toNat = n + 1 := by
      rw [BitVec.toNat_ofNat]
      omega
    have hne : BitVec.ofNat 64 (n + 1) ≠ 0 := fun he => by
      rw [he] at hnat
      simp at hnat
    have hserves : t.Serves (.insert (BitVec.ofNat 64 (n + 1)) 0 true) := by
      refine ⟨hne, fun hhas => ?_, by decide, ?_⟩
      · refine (hholds.has_iff hne).mp hhas ?_
        rw [hm, if_neg (by omega)]
      · rw [hholds.elements, hused]
        omega
    obtain ⟨t', hinsert, hholds', hused', hholes'⟩ := hholds.insert hserves hfuel
    refine ⟨t', _, ?_, ?_, hholds', hholes' hholes, by rw [hused', hused], fun hash => ?_⟩
    · rw [firstInserts, List.range_succ, List.map_append, Run.exec_append]
      rw [firstInserts] at hrun
      simp only [hrun, List.map_cons, List.map_nil, Run.exec, tableStep, hinsert]
      rw [List.replicate_succ']
      simp
    · rw [firstInserts, List.range_succ, List.map_append, Run.exec_append]
      rw [firstInserts] at hmap
      simp only [hmap, List.map_cons, List.map_nil, Run.exec, mapStep]
      rw [List.replicate_succ']
      simp
    · by_cases hh : hash = BitVec.ofNat 64 (n + 1)
      · rw [hh, Function.update_self, hnat, if_pos (by omega)]
      · have hne' : hash.toNat ≠ n + 1 := fun he => hh (BitVec.eq_of_toNat_eq (he.trans hnat.symm))
        rw [Function.update_of_ne hh, hm]
        split
        · rw [if_pos (by omega)]
        · rw [if_neg (by omega)]

/-- The 513th hash doubles the table, and the first is not found any more: it went to the slot of
`hash & mask`, and is looked for from `(hash - 1) & mask`. -/
theorem not_table_index_map :
    (Run.exec (tableStep 2048) (allocateTable fun _ => 0)
        (firstInserts 512 ++ [.insert 600 0 true, .lookup 1])).2 ≠
      (Run.exec mapStep (fun _ => none)
        (firstInserts 512 ++ [.insert 600 0 true, .lookup 1])).2 := by
  obtain ⟨t, m, hrun, hmap, hholds, hholes, hused, hm⟩ :=
    firstInserts_holds (show 1024 ≤ 2048 by decide) 512 (Nat.le_refl 512)
  have hsmall : ∀ k < 1024, t.words k ≠ 0 →
      0 < (t.hashes k).toNat ∧ (t.hashes k).toNat ≤ 512 := by
    intro k hk hword
    have hvalue := hholds.value k hk (hholes k hword)
    rw [hm] at hvalue
    by_contra hn
    rw [if_neg hn] at hvalue
    cases hvalue
  -- the homes in the doubled table are the hashes
  have hhome : ∀ k < 1024, t.words k ≠ 0 →
      (t.hashes k).toNat &&& (1024 * 2 - 1) = (t.hashes k).toNat := by
    intro k hk hword
    have := hsmall k hk hword
    rw [show 1024 * 2 - 1 = 2 ^ 11 - 1 from rfl, Nat.and_two_pow_sub_one_eq_mod]
    exact Nat.mod_eq_of_lt (by omega)
  obtain ⟨words, hashes, hspread, hx⟩ := redistribute_spread (1024 * 2 - 1) t
    (show 0 < 2048 by decide) (fun _ => 0) (fun _ => 0) (List.nodup_range (n := 1024))
    (fun i hi j hj hi0 hj0 he => by
      rw [List.mem_range] at hi hj
      rw [hhome i hi hi0, hhome j hj hj0] at he
      exact hholds.inj i hi j hj (hholes i hi0) (BitVec.eq_of_toNat_eq he))
    (fun _ _ _ => rfl)
  have hfree : ∀ x, x = 0 ∨ 512 < x → words x = 0 := by
    intro x hx0
    by_contra hne
    obtain ⟨i, hi, hi0, rfl⟩ := (hx x hne).resolve_left fun h => h rfl
    rw [List.mem_range] at hi
    rw [hhome i hi hi0] at hx0
    have := hsmall i hi hi0
    omega
  have hdouble : t.doubleTable 2048 =
      some { words := words, hashes := hashes, elements := 1024 * 2, used := 512 } := by
    unfold TableIndex.doubleTable
    rw [hholds.elements, hspread, hused]
  have hwalk : walkFree (fun word => word &&& offsetMask != 0) 1023 2048 (home 1023 600) words =
      some (599, words) := by
    rw [show home 1023 600 = 599 by decide, walkFree, hfree 599 (.inr (by decide)), zero_field]
    rfl
  have hinsert : t.insert 2048 600 0 true =
      some
        { words := Function.update words 599 (words 599 ||| (0 + 1))
          hashes := Function.update hashes 599 600
          elements := 1024 * 2
          used := 512 + 1 } := by
    unfold TableIndex.insert
    rw [if_neg (by decide), hholds.mask, hholds.elements, hused, if_neg (by decide),
      if_pos (by decide)]
    simp only [Option.bind_eq_bind, hdouble, Option.bind_some, hwalk]
    rfl
  have hlookup : ∀ hashes',
      TableIndex.lookup 2048
        { words := Function.update words 599 (words 599 ||| (0 + 1))
          hashes := hashes'
          elements := 1024 * 2
          used := 512 + 1 } 1 = some invalidRecordOffset := by
    intro hashes'
    have h0 : Function.update words 599 (words 599 ||| (0 + 1)) 0 = 0 := by
      rw [Function.update_of_ne (by decide), hfree 0 (.inl rfl)]
    unfold TableIndex.lookup
    rw [if_neg (by decide)]
    dsimp only
    rw [show home (1024 * 2 - 1) 1 = 0 by decide, findLoop, if_pos h0]
    rfl
  rw [Run.exec_append, Run.exec_append, hrun, hmap]
  simp only [Run.exec, tableStep, mapStep, hinsert, hlookup]
  intro he
  have hone := List.append_cancel_left he
  rw [Function.update_of_ne (by decide), hm, if_pos (by decide)] at hone
  exact absurd hone (by decide)

end Libcat.Db
