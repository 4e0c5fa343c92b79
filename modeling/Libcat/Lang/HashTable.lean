import Mathlib.Tactic

/-!
# HashTable

`HashTableBase`: buckets of items by the low bits of the hash of their key, and `Grow`, which moves
every item to a larger array. Items are numbers, and what is put in front of a bucket is found first.
-/

namespace Libcat.Lang.HashTable

variable {K : Type} (hash : K → Nat)

section Model

def PREALLOC : Nat := 64

def GROW_THRESH : Nat := 2

def GROW_RATE : Nat := 2

/-- The table, with the keys of its items. -/
structure HashTableBase (K : Type) where
  key : Nat → K
  buckets : Nat → List Nat
  allocated : Nat
  used : Nat

/-- Which of its allocations succeed when `Create` is called. -/
structure Memory where
  first : Bool
  item : Bool
  grow : Bool

/-- The bucket of a key. -/
def bucketIndex (allocated : Nat) (k : K) : Nat := hash k &&& (allocated - 1)

/-- `PushFront`. -/
def pushFront (buckets : Nat → List Nat) (i item : Nat) : Nat → List Nat :=
  Function.update buckets i (item :: buckets i)

/-- The loops of `Grow`: the items of the old buckets, one after the other. -/
def rehash (t : HashTableBase K) (new_size : Nat) : Nat → List Nat :=
  ((List.range t.allocated).flatMap t.buckets).foldl
    (fun new_buckets item => pushFront new_buckets (bucketIndex hash new_size (t.key item)) item)
    fun _ => []

/-- `Grow`. -/
def grow (t : HashTableBase K) (ok : Bool) : Option (HashTableBase K) :=
  let new_size := t.allocated * GROW_RATE % 2 ^ 32
  let new_size := if new_size < PREALLOC then PREALLOC else new_size
  if ok then some { t with buckets := rehash hash t new_size, allocated := new_size } else none

/-- `Lookup`. -/
def lookup [DecidableEq K] (t : HashTableBase K) (k : K) : Option Nat :=
  if t.allocated = 0 then none
  else (t.buckets (bucketIndex hash t.allocated k)).find? fun item => decide (t.key item = k)

/-- `Create` for a new item. -/
def create (t : HashTableBase K) (k : K) (item : Nat) (memory : Memory) : HashTableBase K × Bool :=
  match if t.allocated = 0 then grow hash t memory.first else some t with
  | none => (t, false)
  | some t =>
    if !memory.item then (t, false)
    else
      match if t.allocated ≤ t.used * GROW_THRESH % 2 ^ 32 then grow hash t memory.grow else some t with
      | none => (t, false)
      | some t =>
        ({ t with
            key := Function.update t.key item k
            buckets := pushFront t.buckets (bucketIndex hash t.allocated k) item
            used := (t.used + 1) % 2 ^ 32 }, true)

end Model

section Spec

variable {hash : K → Nat} {t t' : HashTableBase K} {k : K} {item : Nat}

/-- The items of a table. -/
def Holds (t : HashTableBase K) (item : Nat) : Prop := ∃ i, item ∈ t.buckets i

/-- Every item is in the bucket of its key, once. -/
structure Placed (hash : K → Nat) (t : HashTableBase K) : Prop where
  place : ∀ i, ∀ item ∈ t.buckets i, i = bucketIndex hash t.allocated (t.key item)
  nodup : ∀ i, (t.buckets i).Nodup
  empty : t.allocated = 0 → ∀ i, t.buckets i = []

theorem bucketIndex_lt {allocated : Nat} (h : 0 < allocated) (k : K) :
    bucketIndex hash allocated k < allocated :=
  Nat.and_le_right.trans_lt (by omega)

/-- What `Lookup` finds has the key. -/
theorem lookup_some [DecidableEq K] (h : lookup hash t k = some item) : Holds t item ∧ t.key item = k := by
  unfold lookup at h
  split at h
  · cases h
  · exact ⟨⟨_, List.mem_of_find?_eq_some h⟩, of_decide_eq_true (List.find?_some h :)⟩

theorem lookup_none [DecidableEq K] (ht : Placed hash t) (h : lookup hash t k = none) :
    ∀ item, Holds t item → t.key item ≠ k := by
  rintro item ⟨i, hi⟩ hk
  unfold lookup at h
  split at h
  · next h0 =>
    rw [ht.empty h0 i] at hi
    cases hi
  · have hplace := ht.place i item hi
    rw [hk] at hplace
    subst hplace
    have := List.find?_eq_none.mp h item hi
    exact this (decide_eq_true hk)

/-- Where no two items share a key, `Lookup` finds the item. -/
theorem lookup_eq [DecidableEq K] (ht : Placed hash t)
    (hu : ∀ x y, Holds t x → Holds t y → t.key x = t.key y → x = y) (h : Holds t item)
    (hk : t.key item = k) : lookup hash t k = some item := by
  cases hl : lookup hash t k with
  | none => exact absurd hk (lookup_none ht hl item h)
  | some x =>
    obtain ⟨hx, hkx⟩ := lookup_some hl
    rw [hu x item hx h (hkx.trans hk.symm)]

theorem mem_pushFront {buckets : Nat → List Nat} {i j x : Nat} :
    x ∈ pushFront buckets i item j ↔ j = i ∧ x = item ∨ x ∈ buckets j := by
  unfold pushFront
  by_cases hj : j = i
  · subst hj
    rw [Function.update_self, List.mem_cons]
    simp
  · rw [Function.update_of_ne hj]
    simp [hj]

/-- Items that are put in their places one after the other. -/
theorem foldl_pushFront (place : Nat → Nat) (l : List Nat) (hl : l.Nodup) (b : Nat → List Nat)
    (hb : ∀ j, (b j).Nodup) (hd : ∀ x ∈ l, ∀ j, x ∉ b j) :
    (∀ j x, x ∈ l.foldl (fun b item => pushFront b (place item) item) b j ↔
        x ∈ b j ∨ x ∈ l ∧ j = place x) ∧
      ∀ j, (l.foldl (fun b item => pushFront b (place item) item) b j).Nodup := by
  induction l generalizing b with
  | nil => exact ⟨fun j x => by simp, hb⟩
  | cons a l ih =>
    obtain ⟨ha, hl'⟩ := List.nodup_cons.mp hl
    have hnd : ∀ j, (pushFront b (place a) a j).Nodup := fun j => by
      unfold pushFront
      by_cases hj : j = place a
      · subst hj
        rw [Function.update_self]
        exact List.nodup_cons.mpr ⟨hd a List.mem_cons_self _, hb _⟩
      · rw [Function.update_of_ne hj]
        exact hb j
    obtain ⟨hmem, hnodup⟩ := ih hl' (pushFront b (place a) a) hnd fun x hx j hxj => by
      rcases mem_pushFront.mp hxj with ⟨-, rfl⟩ | hxb
      · exact ha hx
      · exact hd x (List.mem_cons_of_mem _ hx) j hxb
    refine ⟨fun j x => ?_, hnodup⟩
    rw [List.foldl_cons, hmem, mem_pushFront, List.mem_cons]
    constructor
    · rintro ((⟨hj, rfl⟩ | hb) | ⟨hx, hj⟩)
      · exact .inr ⟨.inl rfl, hj⟩
      · exact .inl hb
      · exact .inr ⟨.inr hx, hj⟩
    · rintro (hb | ⟨rfl | hx, hj⟩)
      · exact .inl (.inr hb)
      · exact .inl (.inl ⟨hj, rfl⟩)
      · exact .inr ⟨hx, hj⟩

/-- The items of all buckets, once each. -/
theorem nodup_items (ht : Placed hash t) : ((List.range t.allocated).flatMap t.buckets).Nodup := by
  rw [List.nodup_flatMap]
  refine ⟨fun i _ => ht.nodup i, ?_⟩
  refine List.Pairwise.imp_of_mem (fun {i j} _ _ hne => ?_) List.nodup_range
  intro x hi hj
  exact hne ((ht.place i x hi).trans (ht.place j x hj).symm)

theorem mem_items (ht : Placed hash t) {x : Nat} :
    x ∈ (List.range t.allocated).flatMap t.buckets ↔ Holds t x := by
  rw [List.mem_flatMap]
  constructor
  · rintro ⟨i, -, hx⟩
    exact ⟨i, hx⟩
  · rintro ⟨i, hx⟩
    have hpos : 0 < t.allocated := Nat.pos_of_ne_zero fun h0 => by
      rw [ht.empty h0 i] at hx
      cases hx
    exact ⟨i, List.mem_range.mpr (ht.place i x hx ▸ bucketIndex_lt hpos _), hx⟩

/-- `Grow` keeps every item. -/
theorem grow_spec (ht : Placed hash t) {ok : Bool} (h : grow hash t ok = some t') :
    Placed hash t' ∧ t'.key = t.key ∧ t'.allocated ≠ 0 ∧ ∀ x, Holds t' x ↔ Holds t x := by
  unfold grow at h
  dsimp only at h
  set new_size := if t.allocated * GROW_RATE % 2 ^ 32 < PREALLOC then PREALLOC
    else t.allocated * GROW_RATE % 2 ^ 32 with hsize
  have hpos : new_size ≠ 0 := by
    rw [hsize]
    split
    · decide
    · next hge =>
      unfold PREALLOC at hge
      omega
  split at h
  · obtain rfl := Option.some.inj h
    obtain ⟨hmem, hnodup⟩ := foldl_pushFront (fun item => bucketIndex hash new_size (t.key item)) _
      (nodup_items ht) (fun _ => []) (fun _ => List.nodup_nil) fun _ _ _ => List.not_mem_nil
    refine ⟨⟨fun i x hx => ?_, hnodup, fun h0 => absurd h0 hpos⟩, rfl, hpos, fun x => ?_⟩
    · exact (((hmem i x).mp hx).resolve_left List.not_mem_nil).2
    · rw [← mem_items ht]
      constructor
      · rintro ⟨i, hx⟩
        exact (((hmem i x).mp hx).resolve_left List.not_mem_nil).1
      · intro hx
        exact ⟨_, (hmem _ x).mpr (.inr ⟨hx, rfl⟩)⟩
  · cases h

/-- A new item at the front of its bucket. -/
theorem push_spec (ht : Placed hash t) (hpos : t.allocated ≠ 0) (hfresh : ¬Holds t item) (used : Nat) :
    Placed hash { t with
        key := Function.update t.key item k
        buckets := pushFront t.buckets (bucketIndex hash t.allocated k) item
        used } ∧
      ∀ x, Holds { t with
        key := Function.update t.key item k
        buckets := pushFront t.buckets (bucketIndex hash t.allocated k) item
        used } x ↔ x = item ∨ Holds t x := by
  have hne : ∀ x, Holds t x → x ≠ item := fun x hx he => hfresh (he ▸ hx)
  refine ⟨⟨fun i x hx => ?_, fun i => ?_, fun h0 => absurd h0 hpos⟩, fun x => ?_⟩
  · rcases mem_pushFront.mp hx with ⟨hi, rfl⟩ | hx
    · show i = bucketIndex hash t.allocated (Function.update t.key x k x)
      rw [Function.update_self, hi]
    · show i = bucketIndex hash t.allocated (Function.update t.key item k x)
      rw [Function.update_of_ne (hne x ⟨i, hx⟩), ← ht.place i x hx]
  · show (pushFront t.buckets (bucketIndex hash t.allocated k) item i).Nodup
    unfold pushFront
    by_cases hi : i = bucketIndex hash t.allocated k
    · subst hi
      rw [Function.update_self]
      exact List.nodup_cons.mpr ⟨fun hx => hfresh ⟨_, hx⟩, ht.nodup _⟩
    · rw [Function.update_of_ne hi]
      exact ht.nodup i
  · constructor
    · rintro ⟨i, hx⟩
      exact (mem_pushFront.mp hx).imp And.right fun hx => ⟨i, hx⟩
    · rintro (rfl | ⟨i, hx⟩)
      · exact ⟨_, mem_pushFront.mpr (.inl ⟨rfl, rfl⟩)⟩
      · exact ⟨i, mem_pushFront.mpr (.inr hx)⟩

/-- `Create` adds its item, or leaves the items as they are. -/
theorem create_spec (ht : Placed hash t) (hfresh : ¬Holds t item) (k : K) (memory : Memory) :
    Placed hash (create hash t k item memory).1 ∧
      (∀ x, x ≠ item → (create hash t k item memory).1.key x = t.key x) ∧
      ((create hash t k item memory).2 = true →
        (create hash t k item memory).1.key item = k ∧
          ∀ x, Holds (create hash t k item memory).1 x ↔ x = item ∨ Holds t x) ∧
      ((create hash t k item memory).2 = false →
        ∀ x, Holds (create hash t k item memory).1 x ↔ Holds t x) := by
  unfold create
  -- the first allocation
  cases h1 : (if t.allocated = 0 then grow hash t memory.first else some t) with
  | none => exact ⟨ht, fun _ _ => rfl, fun h => absurd h Bool.false_ne_true, fun _ _ => Iff.rfl⟩
  | some t1 =>
    obtain ⟨ht1, hkey1, hpos1, hholds1⟩ : Placed hash t1 ∧ t1.key = t.key ∧ t1.allocated ≠ 0 ∧
        ∀ x, Holds t1 x ↔ Holds t x := by
      split at h1
      · exact grow_spec ht h1
      · next hpos =>
        obtain rfl := Option.some.inj h1
        exact ⟨ht, rfl, hpos, fun _ => Iff.rfl⟩
    dsimp only
    by_cases hitem : memory.item = true
    · rw [hitem, Bool.not_true, if_neg Bool.false_ne_true]
      -- the larger array
      cases h2 : (if t1.allocated ≤ t1.used * GROW_THRESH % 2 ^ 32 then grow hash t1 memory.grow
          else some t1) with
      | none =>
        exact ⟨ht1, fun x _ => by rw [hkey1], fun h => absurd h Bool.false_ne_true,
          fun _ => hholds1⟩
      | some t2 =>
        obtain ⟨ht2, hkey2, hpos2, hholds2⟩ : Placed hash t2 ∧ t2.key = t1.key ∧ t2.allocated ≠ 0 ∧
            ∀ x, Holds t2 x ↔ Holds t1 x := by
          split at h2
          · exact grow_spec ht1 h2
          · obtain rfl := Option.some.inj h2
            exact ⟨ht1, rfl, hpos1, fun _ => Iff.rfl⟩
        have hfresh2 : ¬Holds t2 item := by rwa [hholds2, hholds1]
        obtain ⟨hplaced, hholds⟩ := @push_spec _ hash t2 k item ht2 hpos2 hfresh2
          ((t2.used + 1) % 2 ^ 32)
        refine ⟨hplaced, fun x hx => ?_, fun _ => ⟨Function.update_self .., fun x => ?_⟩,
          fun h => Bool.noConfusion h⟩
        · show Function.update t2.key item k x = t.key x
          rw [Function.update_of_ne hx, hkey2, hkey1]
        · rw [hholds x, hholds2, hholds1]
    · rw [Bool.eq_false_iff.mpr hitem, Bool.not_false, if_pos rfl]
      exact ⟨ht1, fun x _ => by rw [hkey1], fun h => absurd h Bool.false_ne_true, fun _ => hholds1⟩

end Spec

end Libcat.Lang.HashTable
