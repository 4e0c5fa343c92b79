import Libcat.Lang.HashTable
import Libcat.Lib.Intrusive
import Libcat.Math.BitMath

/-!
# The buckets of a HashTable

`HashTableBase` with its array of `SListForward` heads and the `_sl_next` members of the items. `Grow`
takes the very items off the old lists that it is walking; the iterator has read the next pointer
before. An item keeps the first characters of its key, but the length of all of it.

- `Rep`: the lists behind the pointers, and `grow_refines`, `create_refines`: the operations are those
  of the table of lists.
- `hash_table_run` is about any run of `Create`.
- `hash_table_iteration`: the iterator reads behind the array, always. `Inv.iterate_visits`: where it
  reads zero there, it has been at every item once.
-/

namespace Libcat.Lang.HashBuckets

open Intrusive HashTable

def MAX_HASH_KEY_CHARS : Nat := 256

structure KeyAdapter where
  chars : List u8
  hash : Nat
deriving DecidableEq

/-- The key of an item: what memory holds from `_key` on, `_len` and `_hash`. -/
structure HashKey where
  key : Nat → u8
  len : Nat
  hash : Nat

/-- The iterator of an `SListForward`. -/
structure SListIterator where
  item : Option Nat
  next : Option Nat

/-- `HashTableBase`: items are pointers, and there is no array before the first `Grow`. -/
structure Table where
  key : Nat → HashKey
  slNext : Nat → Option Nat
  buckets : Option (Nat → Option Nat)
  allocated : Nat
  used : Nat

section Model

/-! ## Keys -/

/-- The constructor of `HashKey`, in memory that held something else. -/
def HashKey.new (memory : Nat → u8) (k : KeyAdapter) : HashKey where
  key :=
    let len := if k.chars.length > MAX_HASH_KEY_CHARS then MAX_HASH_KEY_CHARS else k.chars.length
    fun i => if i < len then k.chars.getD i 0 else if i = len then 0 else memory i
  len := k.chars.length
  hash := k.hash

/-- `operator==`. -/
def HashKey.matches (h : HashKey) (k : KeyAdapter) : Bool :=
  h.hash == k.hash && h.len == k.chars.length &&
    (List.range h.len).all fun i => h.key i == k.chars.getD i 0

/-! ## The table -/

def SListIterator.start (slNext : Nat → Option Nat) (head : Option Nat) : SListIterator :=
  ⟨head, head.bind slNext⟩

/-- `++`: the pointer that was read before the loop body, and the one behind it. -/
def SListIterator.advance (slNext : Nat → Option Nat) (it : SListIterator) : SListIterator :=
  ⟨it.next, it.next.bind slNext⟩

def Table.empty (key : Nat → HashKey) (slNext : Nat → Option Nat) : Table where
  key := key
  slNext := slNext
  buckets := none
  allocated := 0
  used := 0

/-- The loop of `Grow` over the items of a bucket. -/
def growBucket (key : Nat → HashKey) (mask : Nat) :
    Nat → SListIterator → (Nat → Option Nat) × (Nat → Option Nat) →
      Option ((Nat → Option Nat) × (Nat → Option Nat))
  | 0, ii, (slNext, new_buckets) =>
    match ii.item with
    | none => some (slNext, new_buckets)
    | some _ => none
  | fuel + 1, ii, (slNext, new_buckets) =>
    match ii.item with
    | none => some (slNext, new_buckets)
    | some item =>
      let i := (key item).hash &&& mask
      let slNext' := Function.update slNext item (new_buckets i)
      growBucket key mask fuel (ii.advance slNext') (slNext', Function.update new_buckets i (some item))

/-- `Grow`, and whether there was memory for the larger array. -/
def Table.grow (fuel : Nat) (t : Table) (ok : Bool) : Option (Table × Bool) :=
  let old_size := t.allocated
  let new_size := old_size * GROW_RATE % 2 ^ 32
  let new_size := if new_size < PREALLOC then PREALLOC else new_size
  if !ok then some (t, false)
  else
    let new_buckets : Nat → Option Nat := fun _ => none
    let moved :=
      match t.buckets with
      | none => some (t.slNext, new_buckets)
      | some buckets =>
        (List.range old_size).foldlM
          (fun s jj => growBucket t.key (new_size - 1) fuel (.start s.1 (buckets jj)) s)
          (t.slNext, new_buckets)
    moved.map fun s => ({ t with slNext := s.1, buckets := some s.2, allocated := new_size }, true)

/-- The loop of `Lookup`. -/
def search (t : Table) (k : KeyAdapter) : Nat → SListIterator → Option (Option Nat)
  | 0, _ => none
  | fuel + 1, jj =>
    match jj.item with
    | none => some none
    | some item => if (t.key item).matches k then some (some item) else search t k fuel (jj.advance t.slNext)

/-- `Lookup`. -/
def Table.lookup (fuel : Nat) (t : Table) (k : KeyAdapter) : Option (Option Nat) :=
  if t.allocated = 0 then some none
  else
    match t.buckets with
    | none => none
    | some buckets => search t k fuel (.start t.slNext (buckets (k.hash &&& (t.allocated - 1))))

/-- A call of `Create`: the item that `Allocate` would return, and what its memory held. -/
structure Call where
  key : KeyAdapter
  item : Nat
  bytes : Nat → u8
  memory : Memory

/-- `Grow` where it is needed. -/
def Table.growIf (fuel : Nat) (t : Table) (needed ok : Bool) : Option (Table × Bool) :=
  if needed then t.grow fuel ok else some (t, true)

/-- `Create`, and whether it returned the item. -/
def Table.create (fuel : Nat) (t : Table) (c : Call) : Option (Table × Bool) :=
  match t.growIf fuel t.buckets.isNone c.memory.first with
  | none => none
  | some (t, false) => some (t, false)
  | some (t, true) =>
    if !c.memory.item then some (t, false)
    else
      let t := { t with key := Function.update t.key c.item (.new c.bytes c.key) }
      match t.growIf fuel (decide (t.used * GROW_THRESH % 2 ^ 32 ≥ t.allocated)) c.memory.grow with
      | none => none
      | some (t, false) => some (t, false)
      | some (t, true) =>
        match t.buckets with
        | none => none
        | some buckets =>
          let bucket_index := c.key.hash &&& (t.allocated - 1)
          some ({ t with
            slNext := Function.update t.slNext c.item (buckets bucket_index)
            buckets := some (Function.update buckets bucket_index (some c.item))
            used := (t.used + 1) % 2 ^ 32 }, true)

/-- The table, and the items created so far with their keys. -/
structure State where
  table : Table
  made : List (KeyAdapter × Nat)

def State.initial (key : Nat → HashKey) (slNext : Nat → Option Nat) : State :=
  ⟨.empty key slNext, []⟩

def step (fuel : Nat) (s : State) (c : Call) : Option State :=
  (s.table.create fuel c).map fun r => ⟨r.1, if r.2 then (c.key, c.item) :: s.made else s.made⟩

def run (fuel : Nat) : State → List Call → Option State := List.foldlM (step fuel)

/-- Every call meets `ok` in the state it is made in. -/
def Along (ok : State → Call → Prop) (fuel : Nat) : State → List Call → Prop
  | _, [] => True
  | s, c :: calls => ok s c ∧ ∀ s', step fuel s c = some s' → Along ok fuel s' calls

/-- The key is a new one, and `Allocate` does not return an item that is in use. -/
def Admissible (s : State) (c : Call) : Prop :=
  c.key ∉ s.made.map Prod.fst ∧ c.item ∉ s.made.map Prod.snd

instance (s : State) (c : Call) : Decidable (Admissible s c) := inferInstanceAs (Decidable (_ ∧ _))

/-- The key fits the buffer of an item, and `_used` can count one more. -/
def Fits (s : State) (c : Call) : Prop :=
  c.key.chars.length ≤ MAX_HASH_KEY_CHARS ∧ s.made.length + 1 < 2 ^ 32

instance (s : State) (c : Call) : Decidable (Fits s c) := inferInstanceAs (Decidable (_ ∧ _))

/-- The lists of the buckets. -/
def Lists (t : Table) (lists : Nat → List Nat) : Prop :=
  (t.buckets = none → ∀ i, lists i = []) ∧
    ∀ buckets, t.buckets = some buckets → ∀ i, Seg t.slNext (buckets i) (lists i) none

/-- What is promised of a table. -/
structure HashOk (s : State) : Prop where
  created : ∀ k x, (k, x) ∈ s.made → ∀ fuel, s.made.length < fuel →
    s.table.lookup fuel k = some (some x)
  other : ∀ k, k ∉ s.made.map Prod.fst → ∀ fuel, s.made.length < fuel →
    s.table.lookup fuel k = some none
  placed : ∃ lists, Lists s.table lists ∧ (∀ i, (lists i).Nodup) ∧
    ∀ i x, x ∈ lists i ↔ ∃ k, (k, x) ∈ s.made ∧ i = k.hash &&& (s.table.allocated - 1)
  used : s.table.used = s.made.length

/-! ## The iterator -/

/-- `HashTableBase::Iterator`, its bucket pointer as an index. -/
structure Iterator where
  remaining : Nat
  bucket : Nat
  ii : SListIterator

/-- `*_bucket`. What is not in the array is `stray` memory. -/
def Table.deref (t : Table) (stray : Nat → Option Nat) (bucket : Nat) : Option Nat :=
  match t.buckets with
  | none => stray bucket
  | some buckets => if bucket < t.allocated then buckets bucket else stray bucket

/-- The loop of `IterateNext`, and the buckets that it reads. -/
def nextBucket (t : Table) (stray : Nat → Option Nat) : Nat → Nat → SListIterator → Iterator × List Nat
  | 0, bucket, ii => (⟨0, bucket, ii⟩, [])
  | remaining + 1, bucket, _ =>
    let ii := SListIterator.start t.slNext (t.deref stray (bucket + 1))
    match ii.item with
    | some _ => (⟨remaining, bucket + 1, ii⟩, [bucket + 1])
    | none =>
      let r := nextBucket t stray remaining (bucket + 1) ii
      (r.1, (bucket + 1) :: r.2)

/-- `IterateNext`. -/
def Iterator.iterateNext (t : Table) (stray : Nat → Option Nat) (it : Iterator) : Iterator × List Nat :=
  match it.ii.item with
  | none => nextBucket t stray it.remaining it.bucket it.ii
  | some _ =>
    let ii := it.ii.advance t.slNext
    match ii.item with
    | some _ => ({ it with ii := ii }, [])
    | none => nextBucket t stray it.remaining it.bucket ii

/-- The constructor. -/
def Iterator.new (t : Table) (stray : Nat → Option Nat) : Iterator × List Nat :=
  let it : Iterator := ⟨t.allocated, 0, .start t.slNext (t.deref stray 0)⟩
  match it.ii.item with
  | some _ => (it, [0])
  | none =>
    let r := it.iterateNext t stray
    (r.1, 0 :: r.2)

/-- The items that an iterator comes to before the end, and the buckets that are read. -/
def advance (t : Table) (stray : Nat → Option Nat) : Nat → Iterator → Option (List Nat × List Nat)
  | 0, _ => none
  | fuel + 1, it =>
    match it.ii.item with
    | none => some ([], [])
    | some item =>
      let r := it.iterateNext t stray
      (advance t stray fuel r.1).map fun q => (item :: q.1, r.2 ++ q.2)

def iterate (t : Table) (stray : Nat → Option Nat) (fuel : Nat) : Option (List Nat × List Nat) :=
  let r := Iterator.new t stray
  (advance t stray fuel r.1).map fun q => (q.1, r.2 ++ q.2)

/-- The iterator ends, has been at every item once, and has read buckets of the table only. -/
def IterationOk (s : State) (stray : Nat → Option Nat) : Prop :=
  ∃ fuel items reads, iterate s.table stray fuel = some (items, reads) ∧
    items.Perm (s.made.map Prod.snd) ∧ ∀ i ∈ reads, i < s.table.allocated

end Model

section Spec

/-! ## Keys -/

/-- The characters of a key that fits are all there. -/
theorem HashKey.new_apply {bytes : Nat → u8} {k : KeyAdapter}
    (hk : k.chars.length ≤ MAX_HASH_KEY_CHARS) {i : Nat} (hi : i < k.chars.length) :
    (HashKey.new bytes k).key i = k.chars.getD i 0 := by
  simp only [HashKey.new, if_neg (Nat.not_lt.mpr hk), if_pos hi]

theorem HashKey.matches_new {bytes : Nat → u8} {k : KeyAdapter}
    (hk : k.chars.length ≤ MAX_HASH_KEY_CHARS) (k' : KeyAdapter) :
    (HashKey.new bytes k).matches k' = decide (k = k') := by
  refine Bool.eq_iff_iff.mpr ?_
  simp only [HashKey.matches, Bool.and_eq_true, beq_iff_eq, List.all_eq_true, List.mem_range,
    decide_eq_true_eq]
  constructor
  · rintro ⟨⟨hhash, hlen⟩, hchars⟩
    have hlen' : k.chars.length = k'.chars.length := hlen
    have : k.chars = k'.chars := by
      refine List.ext_getElem hlen' fun i hi hi' => ?_
      have := hchars i hi
      rw [HashKey.new_apply hk hi] at this
      rwa [List.getD_eq_getElem _ _ hi, List.getD_eq_getElem _ _ hi'] at this
    cases k
    cases k'
    simp_all [HashKey.new]
  · rintro rfl
    exact ⟨⟨rfl, rfl⟩, fun i hi => HashKey.new_apply hk hi⟩

/-- The character behind the buffer is not the zero that ends it. -/
theorem HashKey.not_matches_new {bytes : Nat → u8} {k : KeyAdapter}
    (hk : MAX_HASH_KEY_CHARS < k.chars.length) (hne : k.chars.getD MAX_HASH_KEY_CHARS 0 ≠ 0) :
    (HashKey.new bytes k).matches k = false := by
  have hzero : (HashKey.new bytes k).key MAX_HASH_KEY_CHARS = 0 := by
    simp only [HashKey.new, if_pos hk, if_neg (lt_irrefl _), if_true]
  by_contra htrue
  rw [Bool.not_eq_false] at htrue
  simp only [HashKey.matches, Bool.and_eq_true, beq_iff_eq, List.all_eq_true, List.mem_range] at htrue
  exact hne ((htrue.2 MAX_HASH_KEY_CHARS hk).symm.trans hzero)

/-! ## `Grow` -/

section Grow

variable (key : Nat → HashKey) (mask : Nat)

/-- The items of a bucket go to the new lists, one after the other. -/
theorem growBucket_spec (l : List Nat) :
    ∀ (fuel : Nat) (slNext new : Nat → Option Nat) (p : Option Nat) (lists : Nat → List Nat),
      l.length ≤ fuel → l.Nodup → Seg slNext p l none → (∀ i, Seg slNext (new i) (lists i) none) →
      (∀ x ∈ l, ∀ i, x ∉ lists i) →
      ∃ slNext' new', growBucket key mask fuel (.start slNext p) (slNext, new) = some (slNext', new') ∧
        (∀ i, Seg slNext' (new' i)
          (l.foldl (fun b item => pushFront b ((key item).hash &&& mask) item) lists i) none) ∧
        ∀ x ∉ l, slNext' x = slNext x := by
  induction l with
  | nil =>
    rintro fuel slNext new p lists - - rfl hnew -
    refine ⟨slNext, new, ?_, hnew, fun _ _ => rfl⟩
    cases fuel with
    | zero => rfl
    | succ fuel => rfl
  | cons a l ih =>
    rintro fuel slNext new p lists hfuel hnd ⟨rfl, hl⟩ hnew hout
    obtain ⟨ha, hnd⟩ := List.nodup_cons.mp hnd
    obtain ⟨f, rfl⟩ := Nat.exists_eq_succ_of_ne_zero (Nat.lt_of_lt_of_le (Nat.succ_pos _) hfuel).ne'
    set i := (key a).hash &&& mask with hi
    set slNext' := Function.update slNext a (new i) with hslNext
    -- the iterator has the next item already
    have hadvance : (SListIterator.start slNext (some a)).advance slNext' = .start slNext' (slNext a) := rfl
    have houta : ∀ j, a ∉ lists j := hout a List.mem_cons_self
    have hnew' : ∀ j, Seg slNext' (Function.update new i (some a) j) (pushFront lists i a j) none := by
      intro j
      unfold pushFront
      by_cases hj : j = i
      · subst hj
        rw [Function.update_self, Function.update_self]
        refine ⟨rfl, ?_⟩
        rw [hslNext, Function.update_self]
        exact (hnew i).frame (houta i)
      · rw [Function.update_of_ne hj, Function.update_of_ne hj]
        exact (hnew j).frame (houta j)
    have hout' : ∀ x ∈ l, ∀ j, x ∉ pushFront lists i a j := by
      intro x hx j hmem
      rcases mem_pushFront.mp hmem with ⟨-, rfl⟩ | hmem
      · exact ha hx
      · exact hout x (List.mem_cons_of_mem _ hx) j hmem
    obtain ⟨next, heads, hrun, hseg, hkeep⟩ := ih f slNext' (Function.update new i (some a)) (slNext a)
      (pushFront lists i a) (Nat.le_of_succ_le_succ hfuel) hnd (hl.frame ha) hnew' hout'
    refine ⟨next, heads, ?_, hseg, fun x hx => ?_⟩
    · rw [← hadvance] at hrun
      exact hrun
    · rw [List.mem_cons, not_or] at hx
      rw [hkeep x hx.2, hslNext, Function.update_of_ne hx.1]

theorem mem_foldl_pushFront (place : Nat → Nat) (l : List Nat) :
    ∀ (lists : Nat → List Nat) (i x : Nat),
      x ∈ l.foldl (fun b item => pushFront b (place item) item) lists i → x ∈ lists i ∨ x ∈ l := by
  induction l with
  | nil => exact fun lists i x hx => .inl hx
  | cons a l ih =>
    intro lists i x hx
    rcases ih _ i x hx with hx | hx
    · rcases mem_pushFront.mp hx with ⟨-, rfl⟩ | hx
      · exact .inr List.mem_cons_self
      · exact .inl hx
    · exact .inr (List.mem_cons_of_mem _ hx)

/-- The loop of `Grow` over the buckets. -/
theorem growLoop_spec {old : Nat → Option Nat} {oldLists : Nat → List Nat} {fuel : Nat}
    (hfuel : ∀ i, (oldLists i).length ≤ fuel) (js : List Nat) :
    ∀ (slNext new : Nat → Option Nat) (lists : Nat → List Nat), (js.flatMap oldLists).Nodup →
      (∀ j ∈ js, Seg slNext (old j) (oldLists j) none) → (∀ i, Seg slNext (new i) (lists i) none) →
      (∀ x ∈ js.flatMap oldLists, ∀ i, x ∉ lists i) →
      ∃ slNext' new', js.foldlM (fun s jj => growBucket key mask fuel (.start s.1 (old jj)) s)
          (slNext, new) = some (slNext', new') ∧
        ∀ i, Seg slNext' (new' i) ((js.flatMap oldLists).foldl
          (fun b item => pushFront b ((key item).hash &&& mask) item) lists i) none := by
  induction js with
  | nil => exact fun slNext new lists _ _ hnew _ => ⟨slNext, new, rfl, hnew⟩
  | cons j js ih =>
    intro slNext new lists hnd hold hnew hout
    rw [List.flatMap_cons] at hnd hout
    obtain ⟨hndj, hndjs, hdisj⟩ := List.nodup_append.mp hnd
    obtain ⟨next, heads, hrun, hseg, hkeep⟩ := growBucket_spec key mask (oldLists j)
      fuel slNext new (old j) lists (hfuel j) hndj (hold j List.mem_cons_self) hnew
      fun x hx => hout x (List.mem_append_left _ hx)
    obtain ⟨next', heads', hrun', hseg'⟩ := ih next heads _ hndjs
      (fun i hi => (hold i (List.mem_cons_of_mem _ hi)).congr fun x hx => hkeep x fun hxj =>
        hdisj x hxj x (List.mem_flatMap.mpr ⟨i, hi, hx⟩) rfl) hseg
      fun x hx i hxi => by
        rcases mem_foldl_pushFront _ _ _ _ _ hxi with hxi | hxi
        · exact hout x (List.mem_append_right _ hx) i hxi
        · exact hdisj x hxi x hx rfl
    refine ⟨next', heads', ?_, ?_⟩
    · rw [List.foldlM_cons, hrun]
      exact hrun'
    · rw [List.flatMap_cons]
      simp only [List.foldl_append]
      exact hseg'

end Grow

/-! ## The table of lists -/

/-- The table of lists behind a table. -/
structure Rep (t : Table) (h : HashTableBase KeyAdapter) : Prop where
  allocated : t.allocated = h.allocated
  used : t.used = h.used
  array : t.buckets = none ↔ h.allocated = 0
  seg : ∀ buckets, t.buckets = some buckets → ∀ i, Seg t.slNext (buckets i) (h.buckets i) none
  key : ∀ x, Holds h x → (h.key x).chars.length ≤ MAX_HASH_KEY_CHARS ∧
    ∃ bytes, t.key x = .new bytes (h.key x)

section Refines

variable {t : Table} {h : HashTableBase KeyAdapter} {fuel : Nat}

theorem growSize_ne_zero (n : Nat) :
    (if n * GROW_RATE % 2 ^ 32 < PREALLOC then PREALLOC else n * GROW_RATE % 2 ^ 32) ≠ 0 := by
  unfold PREALLOC
  split
  · decide
  · omega

/-- `Grow` moves the items as the table of lists does. -/
theorem grow_refines (hr : Rep t h) (hp : Placed KeyAdapter.hash h)
    (hfuel : ∀ i, (h.buckets i).length ≤ fuel) (ok : Bool) :
    match grow KeyAdapter.hash h ok with
    | none => t.grow fuel ok = some (t, false)
    | some h' => ∃ t', t.grow fuel ok = some (t', true) ∧ Rep t' h' ∧ t'.key = t.key := by
  cases ok with
  | false => rfl
  | true =>
    have hpos := growSize_ne_zero h.allocated
    simp only [grow, Table.grow, hr.allocated, Bool.not_true, if_true, if_neg Bool.false_ne_true]
    set new_size := if h.allocated * GROW_RATE % 2 ^ 32 < PREALLOC then PREALLOC
      else h.allocated * GROW_RATE % 2 ^ 32 with hsize
    have hholds : ∀ x, x ∈ (List.range h.allocated).flatMap h.buckets → Holds h x := fun x hx =>
      (mem_items hp).mp hx
    have hrehash : ((List.range h.allocated).flatMap h.buckets).foldl
        (fun b item => pushFront b ((t.key item).hash &&& (new_size - 1)) item) (fun _ => []) =
          rehash KeyAdapter.hash h new_size := by
      refine List.foldl_ext _ _ _ fun b x hx => ?_
      obtain ⟨-, bytes, hkey⟩ := hr.key x (hholds x hx)
      rw [hkey]
      rfl
    have hgrown : ∀ slNext new, (∀ i, Seg slNext (new i) (rehash KeyAdapter.hash h new_size i) none) →
        Rep { t with slNext := slNext, buckets := some new, allocated := new_size }
          { h with buckets := rehash KeyAdapter.hash h new_size, allocated := new_size } := by
      intro slNext new hseg
      refine ⟨rfl, hr.used, ⟨fun he => absurd he (Option.some_ne_none _), fun he => absurd he hpos⟩, ?_, fun x hx => ?_⟩
      · rintro _ ⟨⟩ i
        exact hseg i
      · refine hr.key x ?_
        have hgrow : grow KeyAdapter.hash h true = some { h with
          buckets := rehash KeyAdapter.hash h new_size, allocated := new_size } := rfl
        have hspec := grow_spec hp hgrow
        exact (hspec.2.2.2 x).mp hx
    cases hbuckets : t.buckets with
    | none =>
      refine ⟨_, rfl, hgrown _ _ fun i => ?_, rfl⟩
      rw [← hrehash, hr.array.mp hbuckets]
      rfl
    | some buckets =>
      obtain ⟨next, heads, hrun, hseg⟩ := growLoop_spec t.key (new_size - 1) hfuel
        (List.range h.allocated) t.slNext (fun _ => none) (fun _ => []) (nodup_items hp)
        (fun j _ => hr.seg buckets hbuckets j) (fun _ => rfl) fun _ _ _ => List.not_mem_nil
      refine ⟨_, ?_, hgrown next heads fun i => ?_, rfl⟩
      · dsimp only
        rw [hrun]
        rfl
      · rw [← hrehash]
        exact hseg i

/-- An item that is on no list yet gets a key. -/
theorem Rep.allocate (hr : Rep t h) {item : Nat} (hfresh : ¬Holds h item) (k : HashKey) :
    Rep { t with key := Function.update t.key item k } h := by
  refine ⟨hr.allocated, hr.used, hr.array, hr.seg, fun x hx => ?_⟩
  have hne : x ≠ item := fun he => hfresh (he ▸ hx)
  dsimp only
  rw [Function.update_of_ne hne]
  exact hr.key x hx

/-- `Grow` where it is called for, or the table as it is. -/
theorem growIf_refines (hr : Rep t h) (hp : Placed KeyAdapter.hash h)
    (hfuel : ∀ i, (h.buckets i).length ≤ fuel) (ok : Bool) {b : Bool} {p : Prop} [Decidable p]
    (hb : b = true ↔ p) :
    match if p then grow KeyAdapter.hash h ok else some h with
    | none => t.growIf fuel b ok = some (t, false)
    | some h' => ∃ t', t.growIf fuel b ok = some (t', true) ∧ Rep t' h' ∧ t'.key = t.key := by
  unfold Table.growIf
  by_cases hpos : p
  · rw [if_pos hpos, if_pos (hb.mpr hpos)]
    exact grow_refines hr hp hfuel ok
  · rw [if_neg hpos, if_neg fun hbt => hpos (hb.mp hbt)]
    exact ⟨t, rfl, hr, rfl⟩

/-- What a `Grow` leaves of the table of lists, where it is called for. -/
theorem growIf_spec (hp : Placed KeyAdapter.hash h) {ok : Bool} {p : Prop} [Decidable p]
    {h' : HashTableBase KeyAdapter} (hpos : h.allocated = 0 → p)
    (hrun : (if p then grow KeyAdapter.hash h ok else some h) = some h') :
    Placed KeyAdapter.hash h' ∧ h'.allocated ≠ 0 ∧ ∀ x, Holds h' x ↔ Holds h x := by
  by_cases hneeded : p
  · rw [if_pos hneeded] at hrun
    obtain ⟨hp', -, hpos', hkeep⟩ := grow_spec hp hrun
    exact ⟨hp', hpos', hkeep⟩
  · rw [if_neg hneeded] at hrun
    obtain rfl := Option.some.inj hrun
    exact ⟨hp, fun h0 => hneeded (hpos h0), fun _ => Iff.rfl⟩

/-- The end of `Create`. -/
theorem Rep.push (hr : Rep t h) {item : Nat} {k : KeyAdapter} {bytes : Nat → u8}
    {buckets : Nat → Option Nat} (hbuckets : t.buckets = some buckets) (hfresh : ¬Holds h item)
    (hlen : k.chars.length ≤ MAX_HASH_KEY_CHARS) (hkey : t.key item = .new bytes k) :
    Rep { t with
        slNext := Function.update t.slNext item (buckets (k.hash &&& (t.allocated - 1)))
        buckets := some (Function.update buckets (k.hash &&& (t.allocated - 1)) (some item))
        used := (t.used + 1) % 2 ^ 32 }
      { h with
        key := Function.update h.key item k
        buckets := pushFront h.buckets (bucketIndex KeyAdapter.hash h.allocated k) item
        used := (h.used + 1) % 2 ^ 32 } := by
  have hpos : h.allocated ≠ 0 := fun h0 => by
    rw [hr.array.mpr h0] at hbuckets
    cases hbuckets
  have hout : ∀ i, item ∉ h.buckets i := fun i hi => hfresh ⟨i, hi⟩
  have hindex : k.hash &&& (t.allocated - 1) = bucketIndex KeyAdapter.hash h.allocated k := by
    rw [hr.allocated]
    rfl
  rw [hindex]
  refine ⟨hr.allocated, by rw [← hr.used], ⟨fun he => absurd he (Option.some_ne_none _), fun he =>
    absurd he hpos⟩, ?_, fun x hx => ?_⟩
  · rintro _ ⟨⟩ i
    have hseg := hr.seg buckets hbuckets
    dsimp only [pushFront]
    by_cases hi : i = bucketIndex KeyAdapter.hash h.allocated k
    · subst hi
      rw [Function.update_self, Function.update_self]
      refine ⟨rfl, ?_⟩
      rw [Function.update_self]
      exact (hseg _).frame (hout _)
    · rw [Function.update_of_ne hi, Function.update_of_ne hi]
      exact (hseg i).frame (hout i)
  · dsimp only
    by_cases he : x = item
    · subst he
      rw [Function.update_self]
      exact ⟨hlen, bytes, hkey⟩
    · rw [Function.update_of_ne he]
      obtain ⟨i, hi⟩ := hx
      exact hr.key x ⟨i, (mem_pushFront.mp hi).resolve_left fun ⟨_, hxe⟩ => he hxe⟩

/-- `Create` is that of the table of lists. -/
theorem create_refines (hr : Rep t h) (hp : Placed KeyAdapter.hash h) (c : Call)
    (hlen : c.key.chars.length ≤ MAX_HASH_KEY_CHARS) (hfresh : ¬Holds h c.item)
    (hfuel : ∀ h', (∀ x, Holds h' x ↔ Holds h x) → Placed KeyAdapter.hash h' →
      ∀ i, (h'.buckets i).length ≤ fuel) :
    ∃ t', t.create fuel c = some (t', (create KeyAdapter.hash h c.key c.item c.memory).2) ∧
      Rep t' (create KeyAdapter.hash h c.key c.item c.memory).1 := by
  have harray : t.buckets.isNone = true ↔ h.allocated = 0 :=
    Option.isNone_iff_eq_none.trans hr.array
  have hfirst := growIf_refines hr hp (hfuel h (fun _ => Iff.rfl) hp) c.memory.first harray
  unfold Table.create create
  cases h1 : (if h.allocated = 0 then grow KeyAdapter.hash h c.memory.first else some h) with
  | none =>
    rw [h1] at hfirst
    rw [hfirst]
    exact ⟨t, rfl, hr⟩
  | some h' =>
    rw [h1] at hfirst
    obtain ⟨t1, hrun1, hr1, -⟩ := hfirst
    obtain ⟨hp1, hpos1, hkeep1⟩ := growIf_spec hp id h1
    rw [hrun1]
    cases hitem : c.memory.item with
    | false => exact ⟨t1, rfl, hr1⟩
    | true =>
      have hfresh1 : ¬Holds h' c.item := fun hx => hfresh ((hkeep1 _).mp hx)
      have hthresh : decide (t1.used * GROW_THRESH % 2 ^ 32 ≥ t1.allocated) = true ↔
          h'.allocated ≤ h'.used * GROW_THRESH % 2 ^ 32 := by
        rw [decide_eq_true_iff, hr1.used, hr1.allocated]
      have hsecond := growIf_refines (hr1.allocate hfresh1 (.new c.bytes c.key)) hp1
        (hfuel h' hkeep1 hp1) c.memory.grow hthresh
      dsimp only
      cases h2 : (if h'.allocated ≤ h'.used * GROW_THRESH % 2 ^ 32 then
          grow KeyAdapter.hash h' c.memory.grow else some h') with
      | none =>
        rw [h2] at hsecond
        dsimp only at hsecond
        rw [hsecond]
        exact ⟨_, rfl, hr1.allocate hfresh1 _⟩
      | some h'' =>
        rw [h2] at hsecond
        obtain ⟨t2, hrun2, hr2, hkey2⟩ := hsecond
        obtain ⟨-, hpos2, hkeep2⟩ := growIf_spec hp1 (fun h0 => absurd h0 hpos1) h2
        have hfresh2 : ¬Holds h'' c.item := fun hx => hfresh1 ((hkeep2 _).mp hx)
        rw [hrun2]
        cases hbuckets : t2.buckets with
        | none => exact absurd (hr2.array.mp hbuckets) hpos2
        | some buckets =>
          have hkey : t2.key c.item = .new c.bytes c.key := by
            rw [hkey2]
            exact Function.update_self ..
          refine ⟨_, ?_, hr2.push hbuckets hfresh2 hlen hkey⟩
          simp only [hbuckets]
          rfl

/-! ## `Lookup` -/

theorem search_spec (t : Table) (k : KeyAdapter) (l : List Nat) :
    ∀ (fuel : Nat) (p : Option Nat), Seg t.slNext p l none → l.length < fuel →
      search t k fuel (.start t.slNext p) = some (l.find? fun x => (t.key x).matches k) := by
  induction l with
  | nil =>
    rintro fuel p rfl hfuel
    obtain ⟨f, rfl⟩ := Nat.exists_eq_succ_of_ne_zero (Nat.zero_lt_of_lt hfuel).ne'
    rfl
  | cons a l ih =>
    rintro fuel p ⟨rfl, hl⟩ hfuel
    obtain ⟨f, rfl⟩ := Nat.exists_eq_succ_of_ne_zero (Nat.zero_lt_of_lt hfuel).ne'
    have hrest := ih f (t.slNext a) hl (Nat.lt_of_succ_lt_succ hfuel)
    simp only [search, SListIterator.start, List.find?_cons]
    cases hmatch : (t.key a).matches k with
    | true => rfl
    | false => exact hrest

/-- `Lookup` is that of the table of lists. -/
theorem lookup_refines (hr : Rep t h) (hfuel : ∀ i, (h.buckets i).length < fuel) (k : KeyAdapter) :
    t.lookup fuel k = some (lookup KeyAdapter.hash h k) := by
  unfold Table.lookup lookup
  rw [hr.allocated]
  by_cases hpos : h.allocated = 0
  · rw [if_pos hpos, if_pos hpos]
  · rw [if_neg hpos, if_neg hpos]
    cases hbuckets : t.buckets with
    | none => exact absurd (hr.array.mp hbuckets) hpos
    | some buckets =>
      have hrun := search_spec t k _ fuel _ (hr.seg buckets hbuckets (k.hash &&& (h.allocated - 1)))
        (hfuel _)
      refine hrun.trans (congrArg some (List.find?_congr fun x hx => ?_))
      obtain ⟨hlen, bytes, hkey⟩ := hr.key x ⟨_, hx⟩
      rw [hkey]
      exact HashKey.matches_new hlen k

/-! ## Runs -/

theorem grow_used {h' : HashTableBase KeyAdapter} {ok : Bool}
    (hrun : grow KeyAdapter.hash h ok = some h') : h'.used = h.used := by
  unfold grow at hrun
  dsimp only at hrun
  split at hrun
  · obtain rfl := Option.some.inj hrun
    rfl
  · cases hrun

theorem create_used (k : KeyAdapter) (item : Nat) (memory : Memory) :
    (create KeyAdapter.hash h k item memory).1.used =
      if (create KeyAdapter.hash h k item memory).2 then (h.used + 1) % 2 ^ 32 else h.used := by
  have hgrow : ∀ {h h' : HashTableBase KeyAdapter} {ok : Bool} {p : Prop} [Decidable p],
      (if p then grow KeyAdapter.hash h ok else some h) = some h' → h'.used = h.used := by
    intro h h' ok p _ hrun
    split at hrun
    · exact grow_used hrun
    · rw [Option.some.inj hrun]
  unfold create
  cases h1 : (if h.allocated = 0 then grow KeyAdapter.hash h memory.first else some h) with
  | none => rfl
  | some h' =>
    have hused := hgrow h1
    cases memory.item with
    | false => exact hused
    | true =>
      simp only [Bool.not_true, if_neg Bool.false_ne_true]
      cases h2 : (if h'.allocated ≤ h'.used * GROW_THRESH % 2 ^ 32 then
          grow KeyAdapter.hash h' memory.grow else some h') with
      | none => exact hused
      | some h'' =>
        rw [← hused, ← hgrow h2]
        rfl

end Refines

/-- A table between two calls: its lists hold the items that were created, under their keys. -/
structure Inv (s : State) (h : HashTableBase KeyAdapter) : Prop where
  rep : Rep s.table h
  placed : Placed KeyAdapter.hash h
  holds : ∀ x, Holds h x ↔ x ∈ s.made.map Prod.snd
  key : ∀ k x, (k, x) ∈ s.made → h.key x = k
  keys : (s.made.map Prod.fst).Nodup
  items : (s.made.map Prod.snd).Nodup
  used : h.used = s.made.length % 2 ^ 32

section Runs

variable {s s' : State} {h : HashTableBase KeyAdapter}

/-- No list is longer than the items are many. -/
theorem length_bucket_le {h' : HashTableBase KeyAdapter} (hp : Placed KeyAdapter.hash h')
    (hholds : ∀ x, Holds h' x → x ∈ s.made.map Prod.snd) (i : Nat) :
    (h'.buckets i).length ≤ s.made.length := by
  have hsub := (hp.nodup i).subperm fun x hx => hholds x ⟨i, hx⟩
  rw [← List.length_map (f := Prod.snd)]
  exact hsub.length_le

theorem Inv.step (hs : Inv s h) {fuel : Nat} (hfuel : s.made.length ≤ fuel) {c : Call}
    (hlen : c.key.chars.length ≤ MAX_HASH_KEY_CHARS) (hkey : c.key ∉ s.made.map Prod.fst)
    (hitem : c.item ∉ s.made.map Prod.snd) :
    ∃ s' h', step fuel s c = some s' ∧ Inv s' h' ∧ s'.made.length ≤ s.made.length + 1 := by
  have hfresh : ¬Holds h c.item := fun hx => hitem ((hs.holds _).mp hx)
  obtain ⟨t', hrun, hrep⟩ := create_refines hs.rep hs.placed c hlen hfresh fun h' hkeep hp i =>
    (length_bucket_le hp (fun x hx => (hs.holds x).mp ((hkeep x).mp hx)) i).trans hfuel
  obtain ⟨hplaced, hother, hmade, hnull⟩ := create_spec hs.placed hfresh c.key c.memory
  have hused := create_used (h := h) c.key c.item c.memory
  set r := create KeyAdapter.hash h c.key c.item c.memory with hr
  have hold : ∀ k x, (k, x) ∈ s.made → r.1.key x = k := fun k x hx => by
    have hne : x ≠ c.item := fun he => hitem (he ▸ List.mem_map_of_mem hx)
    rw [hother x hne, hs.key k x hx]
  refine ⟨_, r.1, by rw [HashBuckets.step, hrun, Option.map_some], ?_, ?_⟩
  · cases hok : r.2 with
    | false =>
      rw [hok] at hused
      exact ⟨hrep, hplaced, fun x => (hnull hok x).trans (hs.holds x), hold, hs.keys, hs.items,
        hused.trans hs.used⟩
    | true =>
      obtain ⟨hnew, hholds⟩ := hmade hok
      rw [hok, if_pos rfl, hs.used] at hused
      refine ⟨hrep, hplaced, fun x => ?_, fun k x hx => ?_, ?_, ?_, ?_⟩
      · rw [hholds x, hs.holds x]
        exact List.mem_cons.symm
      · rcases List.mem_cons.mp hx with he | hx
        · obtain ⟨rfl, rfl⟩ := Prod.mk.inj he
          exact hnew
        · exact hold k x hx
      · exact List.nodup_cons.mpr ⟨hkey, hs.keys⟩
      · exact List.nodup_cons.mpr ⟨hitem, hs.items⟩
      · rw [hused]
        exact Nat.mod_add_mod _ _ _
  · dsimp only
    split
    · exact Nat.le_refl _
    · exact Nat.le_succ _

/-- The promise, as long as `_used` counts the items. -/
theorem Inv.ok (hs : Inv s h) (hfew : s.made.length < 2 ^ 32) : HashOk s := by
  have hbucket := length_bucket_le hs.placed fun x hx => (hs.holds x).mp hx
  have hlookup : ∀ k fuel, s.made.length < fuel →
      s.table.lookup fuel k = some (lookup KeyAdapter.hash h k) := fun k fuel hfuel =>
    lookup_refines hs.rep (fun i => (hbucket i).trans_lt hfuel) k
  have hmem : ∀ x, Holds h x → (h.key x, x) ∈ s.made := fun x hx => by
    obtain ⟨⟨k, y⟩, hk, rfl⟩ := List.mem_map.mp ((hs.holds x).mp hx)
    rwa [hs.key k _ hk]
  have hunique : ∀ x y, Holds h x → Holds h y → h.key x = h.key y → x = y := fun x y hx hy he => by
    have := List.inj_on_of_nodup_map hs.keys (hmem x hx) (hmem y hy) he
    exact congrArg Prod.snd this
  refine ⟨fun k x hx fuel hfuel => ?_, fun k hk fuel hfuel => ?_, ⟨h.buckets, ⟨?_, hs.rep.seg⟩,
    hs.placed.nodup, fun i x => ⟨fun hx => ?_, ?_⟩⟩, ?_⟩
  · rw [hlookup k fuel hfuel, lookup_eq hs.placed hunique ((hs.holds x).mpr (List.mem_map_of_mem hx))
      (hs.key k x hx)]
  · rw [hlookup k fuel hfuel]
    cases hl : lookup KeyAdapter.hash h k with
    | none => rfl
    | some x =>
      obtain ⟨hx, rfl⟩ := lookup_some hl
      exact absurd (List.mem_map_of_mem (f := Prod.fst) (hmem x hx)) hk
  · exact fun hnone => hs.placed.empty (hs.rep.array.mp hnone)
  · refine ⟨h.key x, hmem x ⟨i, hx⟩, ?_⟩
    rw [hs.rep.allocated]
    exact hs.placed.place i x hx
  · rintro ⟨k, hk, rfl⟩
    obtain ⟨i, hi⟩ := (hs.holds x).mpr (List.mem_map_of_mem hk)
    have hplace := hs.placed.place i x hi
    rw [hs.key k x hk] at hplace
    rw [hs.rep.allocated]
    rwa [hplace] at hi
  · rw [hs.rep.used, hs.used, Nat.mod_eq_of_lt hfew]

theorem inv_initial (key : Nat → HashKey) (slNext : Nat → Option Nat) :
    Inv (.initial key slNext) ⟨fun _ => ⟨[], 0⟩, fun _ => [], 0, 0⟩ := by
  refine ⟨⟨rfl, rfl, ⟨fun _ => rfl, fun _ => rfl⟩, nofun, fun x hx => ?_⟩,
    ⟨fun _ _ h => absurd h List.not_mem_nil, fun _ => List.nodup_nil, fun _ _ => rfl⟩, fun x => ?_,
    fun _ _ h => absurd h List.not_mem_nil, List.nodup_nil, List.nodup_nil, rfl⟩
  · obtain ⟨_, hi⟩ := hx
    exact absurd hi List.not_mem_nil
  · exact ⟨fun ⟨_, hi⟩ => hi, fun hi => ⟨0, hi⟩⟩

/-- **Any run of `Create`** with different keys: as long as they fit the buffer of an item, and there
are fewer than 2^32 items, every call returns and leaves the table as promised. -/
theorem hash_table_run (key : Nat → HashKey) (slNext : Nat → Option Nat) (calls : List Call)
    (fuel : Nat) (hfuel : calls.length ≤ fuel) (hadm : Along Admissible fuel (.initial key slNext) calls)
    (hfits : Along Fits fuel (.initial key slNext) calls) (n : Nat) :
    ∃ s, run fuel (.initial key slNext) (calls.take n) = some s ∧ HashOk s := by
  suffices hrun : ∀ (calls : List Call) (n : Nat) (s : State) h, Inv s h → s.made.length < 2 ^ 32 →
      s.made.length + calls.length ≤ fuel → Along Admissible fuel s calls → Along Fits fuel s calls →
      ∃ s' h', run fuel s (calls.take n) = some s' ∧ Inv s' h' ∧ s'.made.length < 2 ^ 32 by
    obtain ⟨s, h, hs, hinv, hfew⟩ := hrun calls n _ _ (inv_initial key slNext)
      (Nat.two_pow_pos 32) (by simpa [State.initial] using hfuel) hadm hfits
    exact ⟨s, hs, hinv.ok hfew⟩
  intro calls
  induction calls with
  | nil =>
    intro n s h hs hfew _ _ _
    rw [List.take_nil]
    exact ⟨s, h, rfl, hs, hfew⟩
  | cons c calls ih =>
    rintro n s h hs hfew hfuel ⟨⟨hkey, hitem⟩, hadm⟩ ⟨⟨hlen, hcount⟩, hfits⟩
    cases n with
    | zero => exact ⟨s, h, rfl, hs, hfew⟩
    | succ n =>
      rw [List.length_cons] at hfuel
      obtain ⟨s1, h1, hstep, hs1, hmade⟩ := hs.step (show s.made.length ≤ fuel by omega) hlen hkey hitem
      obtain ⟨s2, h2, hrun, hs2⟩ := ih n s1 h1 hs1 (by omega) (by omega) (hadm s1 hstep) (hfits s1 hstep)
      refine ⟨s2, h2, ?_, hs2⟩
      rw [List.take_succ_cons, run, List.foldlM_cons, hstep]
      exact hrun

end Runs

/-! ## The iterator -/

section Iteration

variable {t : Table} {stray : Nat → Option Nat} {it : Iterator}

/-- The bucket pointer and the count of what remains add up to the end of the array. What was read
last is the bucket it is at. -/
theorem nextBucket_spec : ∀ (remaining bucket : Nat) (ii : SListIterator), ii.item = none →
    let r := nextBucket t stray remaining bucket ii
    r.1.bucket + r.1.remaining = bucket + remaining ∧ (r.1.ii.item = none → r.1.remaining = 0) ∧
      (r.1.bucket = bucket ∨ r.1.bucket ∈ r.2) := by
  intro remaining
  induction remaining with
  | zero => exact fun bucket ii _ => ⟨rfl, fun _ => rfl, .inl rfl⟩
  | succ remaining ih =>
    intro bucket ii hii
    dsimp only [nextBucket]
    cases hitem : (SListIterator.start t.slNext (t.deref stray (bucket + 1))).item with
    | some item =>
      refine ⟨by dsimp only; omega, fun hnone => ?_, .inr List.mem_cons_self⟩
      rw [hitem] at hnone
      cases hnone
    | none =>
      obtain ⟨hsum, hend, hread⟩ := ih (bucket + 1) _ hitem
      refine ⟨by dsimp only; omega, hend, .inr (List.mem_cons.mpr ?_)⟩
      exact hread

theorem iterateNext_spec (t : Table) (stray : Nat → Option Nat) (it : Iterator) :
    let r := it.iterateNext t stray
    r.1.bucket + r.1.remaining = it.bucket + it.remaining ∧ (r.1.ii.item = none → r.1.remaining = 0) ∧
      (r.1.bucket = it.bucket ∨ r.1.bucket ∈ r.2) := by
  unfold Iterator.iterateNext
  cases hitem : it.ii.item with
  | none => exact nextBucket_spec _ _ _ hitem
  | some item =>
    dsimp only
    cases hnext : (it.ii.advance t.slNext).item with
    | none => exact nextBucket_spec _ _ _ hnext
    | some next =>
      refine ⟨rfl, fun hnone => ?_, .inl rfl⟩
      rw [hnext] at hnone
      cases hnone

/-- An iterator that comes to the end has read the bucket behind the last one. -/
theorem advance_strays : ∀ (fuel : Nat) (it : Iterator) (items reads : List Nat),
    (it.ii.item = none → it.remaining = 0) → advance t stray fuel it = some (items, reads) →
    it.remaining = 0 ∨ it.bucket + it.remaining ∈ reads := by
  intro fuel
  induction fuel with
  | zero => exact fun it items reads _ hrun => nomatch hrun
  | succ fuel ih =>
    intro it items reads hend hrun
    unfold advance at hrun
    cases hitem : it.ii.item with
    | none => exact .inl (hend hitem)
    | some item =>
      rw [hitem] at hrun
      obtain ⟨⟨items', reads'⟩, hrest, hq⟩ := Option.map_eq_some_iff.mp hrun
      obtain ⟨rfl, rfl⟩ := Prod.mk.inj hq
      obtain ⟨hsum, hend', hread⟩ := iterateNext_spec t stray it
      rw [← hsum]
      rcases ih _ _ _ hend' hrest with hzero | hmem
      · rcases hread with hsame | hread
        · left
          omega
        · right
          rw [hzero, Nat.add_zero]
          exact List.mem_append_left _ hread
      · exact .inr (List.mem_append_right _ hmem)

/-- Every iteration that ends has read a bucket that the table does not have. -/
theorem iterate_strays {fuel : Nat} {items reads : List Nat}
    (hrun : iterate t stray fuel = some (items, reads)) : t.allocated ∈ reads := by
  obtain ⟨⟨items', reads'⟩, hrest, hq⟩ := Option.map_eq_some_iff.mp hrun
  obtain ⟨rfl, rfl⟩ := Prod.mk.inj hq
  have hnew : let r := Iterator.new t stray
      r.1.bucket + r.1.remaining = t.allocated ∧ (r.1.ii.item = none → r.1.remaining = 0) ∧
        r.1.bucket ∈ r.2 := by
    unfold Iterator.new
    dsimp only
    cases hitem : (SListIterator.start t.slNext (t.deref stray 0)).item with
    | some item =>
      refine ⟨Nat.zero_add _, fun hnone => ?_, List.mem_cons_self⟩
      rw [hitem] at hnone
      cases hnone
    | none =>
      obtain ⟨hsum, hend, hread⟩ := iterateNext_spec t stray
        ⟨t.allocated, 0, .start t.slNext (t.deref stray 0)⟩
      refine ⟨hsum.trans (Nat.zero_add _), hend, List.mem_cons.mpr ?_⟩
      exact hread
  obtain ⟨hsum, hend, hread⟩ := hnew
  rcases advance_strays _ _ _ _ hend hrest with hzero | hmem
  · rw [hzero, Nat.add_zero] at hsum
    exact List.mem_append_left _ (hsum ▸ hread)
  · exact List.mem_append_right _ (hsum ▸ hmem)

/-- What an iterator has still to come to: the rest of its bucket and the buckets behind. -/
structure Pending (t : Table) (lists : Nat → List Nat) (it : Iterator) (rest : List Nat) : Prop where
  cursor : ∃ p l, it.ii = .start t.slNext p ∧ Seg t.slNext p l none ∧
    rest = l ++ (List.range' (it.bucket + 1) it.remaining).flatMap lists
  ended : it.ii.item = none → it.remaining = 0

variable {lists : Nat → List Nat} {n : Nat}

theorem nextBucket_pending (hseg : ∀ i ≤ n, Seg t.slNext (t.deref stray i) (lists i) none) :
    ∀ (remaining bucket : Nat) (ii : SListIterator), ii = .start t.slNext none → bucket + remaining = n →
      Pending t lists (nextBucket t stray remaining bucket ii).1
        ((List.range' (bucket + 1) remaining).flatMap lists) := by
  intro remaining
  induction remaining with
  | zero => exact fun bucket ii hii _ => ⟨⟨none, [], hii, rfl, rfl⟩, fun _ => rfl⟩
  | succ remaining ih =>
    intro bucket ii hii hn
    have hhead := hseg (bucket + 1) (by omega)
    rw [List.range'_succ, List.flatMap_cons]
    dsimp only [nextBucket]
    cases hitem : (SListIterator.start t.slNext (t.deref stray (bucket + 1))).item with
    | some item =>
      refine ⟨⟨_, _, rfl, hhead, rfl⟩, fun hnone => ?_⟩
      rw [hitem] at hnone
      cases hnone
    | none =>
      have hnone : t.deref stray (bucket + 1) = none := hitem
      rw [hnone] at hhead ⊢
      rw [Seg.unique hhead (m := []) rfl]
      exact ih (bucket + 1) _ rfl (by omega)

/-- `++` leaves what is behind the item. -/
theorem iterateNext_pending (hseg : ∀ i ≤ n, Seg t.slNext (t.deref stray i) (lists i) none)
    (hn : it.bucket + it.remaining = n) {item : Nat} {rest : List Nat} (hitem : it.ii.item = some item)
    (hp : Pending t lists it rest) :
    ∃ rest', rest = item :: rest' ∧ Pending t lists (it.iterateNext t stray).1 rest' := by
  obtain ⟨⟨p, l, hii, hl, rfl⟩, -⟩ := hp
  rw [hii] at hitem
  obtain rfl : p = some item := hitem
  cases l with
  | nil => cases hl
  | cons a l =>
    obtain ⟨ha, hl⟩ := hl
    obtain rfl := Option.some.inj ha
    have hadvance : it.ii.advance t.slNext = .start t.slNext (t.slNext item) := by
      rw [hii]
      rfl
    refine ⟨_, List.cons_append, ?_⟩
    unfold Iterator.iterateNext
    rw [hadvance, hii]
    dsimp only [SListIterator.start]
    cases hnext : t.slNext item with
    | some next =>
      refine ⟨⟨some next, l, rfl, hnext ▸ hl, rfl⟩, fun hnone => ?_⟩
      cases hnone
    | none =>
      rw [hnext] at hl
      rw [Seg.unique hl (m := []) rfl]
      exact nextBucket_pending hseg _ _ _ rfl hn

theorem advance_pending (hseg : ∀ i ≤ n, Seg t.slNext (t.deref stray i) (lists i) none)
    (rest : List Nat) : ∀ (it : Iterator), it.bucket + it.remaining = n → Pending t lists it rest →
      ∃ reads, advance t stray (rest.length + 1) it = some (rest, reads) := by
  induction rest with
  | nil =>
    intro it hn hp
    unfold advance
    cases hitem : it.ii.item with
    | none => exact ⟨[], rfl⟩
    | some item =>
      obtain ⟨rest', hrest, -⟩ := iterateNext_pending hseg hn hitem hp
      cases hrest
  | cons a rest ih =>
    intro it hn hp
    unfold advance
    cases hitem : it.ii.item with
    | none =>
      obtain ⟨⟨p, l, hii, hl, hrest⟩, hend⟩ := hp
      obtain rfl : p = none := by
        rw [hii] at hitem
        exact hitem
      rw [Seg.unique hl (m := []) rfl, hend hitem] at hrest
      cases hrest
    | some item =>
      obtain ⟨rest', hrest, hp'⟩ := iterateNext_pending hseg hn hitem hp
      obtain ⟨rfl, rfl⟩ := List.cons.inj hrest
      obtain ⟨reads, hrun⟩ := ih _ ((iterateNext_spec ..).1.trans hn) hp'
      refine ⟨(it.iterateNext t stray).2 ++ reads, ?_⟩
      dsimp only
      rw [List.length_cons, hrun]
      rfl

/-- Where the memory behind the array is zero, an iterator comes to every item once. -/
theorem Inv.iterate_visits {s : State} {h : HashTableBase KeyAdapter} (hs : Inv s h)
    (hpos : s.table.allocated ≠ 0) (hzero : stray s.table.allocated = none) :
    ∃ fuel items reads, iterate s.table stray fuel = some (items, reads) ∧
      items.Perm (s.made.map Prod.snd) := by
  set t := s.table with ht
  set lists : Nat → List Nat := fun i => if i < t.allocated then h.buckets i else [] with hlists
  have hall : (List.range' 0 (t.allocated + 1)).flatMap lists =
      (List.range h.allocated).flatMap h.buckets := by
    rw [List.range'_concat, List.flatMap_append, ← List.range_eq_range', ← hs.rep.allocated]
    have hlast : [0 + 1 * t.allocated].flatMap lists = [] := by simp [hlists]
    rw [hlast, List.append_nil]
    refine List.flatMap_congr fun i hi => ?_
    exact if_pos (List.mem_range.mp hi)
  have hseg : ∀ i ≤ t.allocated, Seg t.slNext (t.deref stray i) (lists i) none := by
    intro i hi
    unfold Table.deref
    dsimp only [lists]
    cases hbuckets : t.buckets with
    | none => exact absurd (hs.rep.allocated.trans (hs.rep.array.mp hbuckets)) hpos
    | some buckets =>
      dsimp only
      by_cases hlt : i < t.allocated
      · rw [if_pos hlt, if_pos hlt]
        exact hs.rep.seg buckets hbuckets i
      · rw [if_neg hlt, if_neg hlt, Nat.le_antisymm hi (Nat.not_lt.mp hlt)]
        exact hzero
  have hnew : Pending t lists (Iterator.new t stray).1 ((List.range' 0 (t.allocated + 1)).flatMap lists) ∧
      (Iterator.new t stray).1.bucket + (Iterator.new t stray).1.remaining = t.allocated := by
    rw [List.range'_succ, List.flatMap_cons]
    unfold Iterator.new
    dsimp only
    cases hitem : (SListIterator.start t.slNext (t.deref stray 0)).item with
    | some item =>
      refine ⟨⟨⟨_, _, rfl, hseg 0 (Nat.zero_le _), rfl⟩, fun hnone => ?_⟩, Nat.zero_add _⟩
      rw [hitem] at hnone
      cases hnone
    | none =>
      have hnone : t.deref stray 0 = none := hitem
      have hhead := hseg 0 (Nat.zero_le _)
      rw [hnone] at hhead
      rw [Seg.unique hhead (m := []) rfl, hnone]
      exact ⟨nextBucket_pending hseg _ _ _ rfl (Nat.zero_add _), (iterateNext_spec ..).1.trans (Nat.zero_add _)⟩
  obtain ⟨reads, hrun⟩ := advance_pending hseg _ _ hnew.2 hnew.1
  refine ⟨_, _, _, by rw [iterate, hrun]; rfl, ?_⟩
  rw [hall]
  refine (List.perm_ext_iff_of_nodup (nodup_items hs.placed) hs.items).mpr fun x => ?_
  exact (mem_items hs.placed).trans (hs.holds x)

end Iteration

/-- **Any iteration** over a table that calls of `Create` have made, with items or without: it never
keeps to the buckets of the table. -/
theorem hash_table_iteration (key : Nat → HashKey) (slNext : Nat → Option Nat) (calls : List Call)
    (fuel : Nat) (s : State) (_hs : run fuel (.initial key slNext) calls = some s)
    (stray : Nat → Option Nat) : ¬IterationOk s stray := by
  rintro ⟨fuel, items, reads, hrun, -, hreads⟩
  exact lt_irrefl _ (hreads _ (iterate_strays hrun))

end Spec

section Example

/-- A key of one character, with its code as the hash. -/
def letter (c : u8) : KeyAdapter := ⟨[c], c.toNat⟩

def fresh (k : KeyAdapter) (item : Nat) : Call := ⟨k, item, fun _ => 0, ⟨true, true, true⟩⟩

/-- Two items whose keys have the same hash bits. -/
theorem hash_table_run_two :
    let start := State.initial (fun _ => ⟨fun _ => 0, 0, 0⟩) fun _ => none
    ∃ s, run 2 start [fresh (letter 1) 0, fresh (letter 65) 1] = some s ∧ HashOk s := by
  refine hash_table_run _ _ [fresh (letter 1) 0, fresh (letter 65) 1] 2 (by decide) ?_ ?_ 2
  · refine ⟨by decide, fun s hs => ?_⟩
    obtain rfl := Option.some.inj hs
    exact ⟨by decide, fun _ _ => trivial⟩
  · refine ⟨by decide, fun s hs => ?_⟩
    obtain rfl := Option.some.inj hs
    exact ⟨by decide, fun _ _ => trivial⟩

/-- `Lookup` of the only key of a table, where its item does not match it. -/
theorem lookup_only {t : Table} {k : KeyAdapter} (hsize : t.allocated = 64) (hnext : t.slNext 0 = none)
    (hbuckets : t.buckets = some (Function.update (fun _ => none) (k.hash &&& 63) (some 0)))
    (hmatch : (t.key 0).matches k = false) : t.lookup 2 k = some none := by
  have hindex : k.hash &&& (t.allocated - 1) = k.hash &&& 63 := by rw [hsize]
  have hpos : t.allocated ≠ 0 := by rw [hsize]; decide
  unfold Table.lookup
  rw [if_neg hpos, hbuckets]
  dsimp only
  rw [hindex, Function.update_self]
  simp only [search, SListIterator.start, SListIterator.advance, hmatch, Option.bind_some, hnext]
  rfl

/-- An item that was created for a key that does not fit is not found. -/
theorem run_long {k : KeyAdapter} (hk : MAX_HASH_KEY_CHARS < k.chars.length)
    (hne : k.chars.getD MAX_HASH_KEY_CHARS 0 ≠ 0) (key : Nat → HashKey) (slNext : Nat → Option Nat) :
    ∃ s, run 1 (.initial key slNext) [fresh k 0] = some s ∧ s.made = [(k, 0)] ∧
      s.table.lookup 2 k = some none :=
  ⟨_, rfl, rfl, lookup_only rfl rfl rfl (HashKey.not_matches_new hk hne)⟩

/-- A key of one character more than an item has room for: `Create` returns an item, and `Lookup`
nothing. -/
theorem not_hash_table_run :
    let start := State.initial (fun _ => ⟨fun _ => 0, 0, 0⟩) fun _ => none
    let k : KeyAdapter := ⟨List.replicate 257 97, 0⟩
    Along Admissible 1 start [fresh k 0] ∧
      ∃ s, run 1 start [fresh k 0] = some s ∧ s.made = [(k, 0)] ∧
        s.table.lookup 2 k = some none ∧ ¬HashOk s := by
  intro start k
  have hlen : k.chars.length = 257 := List.length_replicate
  have hlast : k.chars.getD MAX_HASH_KEY_CHARS 0 = 97 := by
    rw [List.getD_eq_getElem _ _ (by rw [hlen]; decide)]
    exact List.getElem_replicate _
  obtain ⟨s, hrun, hmade, hlookup⟩ := run_long (k := k) (by rw [hlen]; decide) (by rw [hlast]; decide)
    (fun _ => ⟨fun _ => 0, 0, 0⟩) fun _ => none
  refine ⟨⟨⟨List.not_mem_nil, List.not_mem_nil⟩, fun _ _ => trivial⟩, s, hrun, hmade, hlookup, fun hok => ?_⟩
  have hfound := hok.created k 0 (hmade ▸ List.mem_cons_self) 2 (by rw [hmade]; decide)
  rw [hlookup] at hfound
  cases hfound

theorem hash_table_iteration_empty :
    ¬IterationOk (.initial (fun _ => ⟨fun _ => 0, 0, 0⟩) fun _ => none) fun _ => none :=
  hash_table_iteration _ _ [] 0 _ rfl _

/-- A table that never had an array: the constructor reads what `_buckets` does not point to. One with
an item: all 64 buckets are read, and the one behind. -/
theorem not_hash_table_iteration :
    let start := State.initial (fun _ => ⟨fun _ => 0, 0, 0⟩) fun _ => none
    iterate start.table (fun _ => none) 1 = some ([], [0]) ∧
      ¬IterationOk start (fun _ => none) ∧
      ∃ s, run 1 start [fresh (letter 1) 0] = some s ∧ s.table.allocated = 64 ∧
        iterate s.table (fun _ => none) 2 = some ([0], List.range 65) ∧ ¬IterationOk s fun _ => none := by
  have hstray : ∀ {s : State}, ¬IterationOk s fun _ => none := by
    rintro s ⟨fuel, items, reads, hrun, -, hreads⟩
    exact lt_irrefl _ (hreads _ (iterate_strays hrun))
  exact ⟨by decide, hstray, _, rfl, rfl, by decide +kernel, hstray⟩

end Example

end Libcat.Lang.HashBuckets
