import Libcat.Db.TableIndex
import Libcat.Lib.LinkedTree

/-!
# The record cache of a table

The cache of a `Table` is memory for a number of records, which are handed out in turn: when all have
been, the next one is taken from the record that has it. The offsets of the records that are cached are in
binary search trees, one for each hash, through pointers in the cache nodes.

A cache node is the place of its first byte in the cache memory, and its pointers and its offset are
functions of it. Loops run on fuel, one step for each byte of the cache; a loop that runs out of it does
not return.

`Forest` says that there are trees in memory. An unlinked node leaves the other ones in order
(`Forest.unlink`), so what `SetOffset` found before that is still next to the new offset.
-/

namespace Libcat.Db.RecordCache

open LinkedTree Run

def targetTreeSize : Nat := 16
def minTableSize : Nat := 2048

/-- What the constructor gets, and `sizeof(CacheNode)`, with room for one cache slot at least. -/
structure Settings where
  nodeHeader : Nat
  recordBytes : Nat
  cacheBytes : Nat
  header_pos : 0 < nodeHeader
  room : nodeHeader + recordBytes ≤ cacheBytes
  bound : cacheBytes < 2 ^ 32

namespace Settings

variable (k : Settings)

def nodeBytes : Nat := (k.nodeHeader + k.recordBytes) % 2 ^ 32

/-- `_cache_bytes`: a multiple of record bytes with cache node header. -/
def usedBytes : Nat := k.cacheBytes - k.cacheBytes % k.nodeBytes

def nextHighestPow2 (n : Nat) : Nat := 1 <<< (n.log2 + 1)

def hashTableSize : Nat :=
  let nodeCount := k.usedBytes / k.nodeBytes
  let hashTableSize := nodeCount / targetTreeSize
  if hashTableSize < minTableSize then minTableSize else nextHighestPow2 hashTableSize

end Settings

/-- Hash 64-bit file offset to a 32-bit hash table key. -/
def getHash64 (key : u64) : u32 :=
  let key := ~~~key + (key <<< 18)
  let key := key ^^^ (key >>> 31)
  let key := key * 21
  let key := key ^^^ (key >>> 11)
  let key := key + (key <<< 6)
  let key := key ^^^ (key >>> 22)
  key.setWidth 32

def Settings.key (k : Settings) (offset : u64) : Nat :=
  (getHash64 offset).toNat &&& (k.hashTableSize - 1)

structure Table where
  hashTable : Nat → Option Nat
  links : TreeLinks Nat
  offset : Nat → u64
  nextCacheSlot : Nat
  cacheFull : Bool

/-- Where the pointer to a node is. -/
inductive Place where
  | root (key : Nat)
  | child (side : Side) (parent : Nat)

def Place.parent : Place → Option Nat
  | root _ => none
  | child _ parent => some parent

inductive Action where
  | setOffset (offset : u64)
  | insertOffset (offset : u64)
  | removeOffset (offset : u64)
  | peekOffset (offset : u64)

inductive Event where
  | gave (offset : u64) (slot : Nat)
  | removed (offset : u64) (found : Bool)
  | peeked (offset : u64) (slot : Option Nat)

section Model

/-- `AllocateCache`, with what is in the memory that it gets. -/
def allocateCache (links : TreeLinks Nat) (offset : Nat → u64) : Table where
  hashTable := fun _ => none
  links := links
  offset := offset
  nextCacheSlot := 0
  cacheFull := false

def Table.setPlace (t : Table) : Place → Option Nat → Table
  | .root key, p => { t with hashTable := Function.update t.hashTable key p }
  | .child side parent, p => { t with links := setChild t.links side parent p }

def Table.setParentOf (t : Table) (p parent : Option Nat) : Table :=
  { t with links := LinkedTree.setParentOf t.links p parent }

/-- The side of a node where an offset is searched that is not its own. -/
def Table.side (t : Table) (offset : u64) (node : Nat) : Side :=
  if t.offset node < offset then .higher else .lower

/-- The loop of `FindNode`. -/
def findLoop (t : Table) (offset : u64) : Nat → Option Nat → Option (Option Nat)
  | _, none => some none
  | 0, some _ => none
  | fuel + 1, some node =>
    if t.offset node = offset then some (some node)
    else findLoop t offset fuel (t.links.child (t.side offset node) node)

/-- The loop of `SetOffset`: the last node on the way, and whether it is the one. -/
def searchLoop (t : Table) (offset : u64) : Nat → Nat → Option (Nat × Bool)
  | 0, _ => none
  | fuel + 1, insert =>
    if t.offset insert = offset then some (insert, true)
    else
      match t.links.child (t.side offset insert) insert with
      | none => some (insert, false)
      | some child => searchLoop t offset fuel child

/-- The loop of `InsertNode`: search for an empty leaf. -/
def insertLoop (t : Table) (offset : u64) : Nat → Nat → Option (Nat × Side)
  | 0, _ => none
  | fuel + 1, hint =>
    match t.links.child (t.side offset hint) hint with
    | none => some (hint, t.side offset hint)
    | some child => insertLoop t offset fuel child

variable (k : Settings)

def findNode (t : Table) (offset : u64) : Option (Option Nat) :=
  findLoop t offset k.usedBytes (t.hashTable (k.key offset))

/-- The cases of `UnlinkNode` for a node at `place`: re-link one child tree to the parent, and move the
one on `side` to the far end of the other. -/
def unlinkAt (t : Table) (place : Place) (side : Side) (lower higher : Option Nat) : Option Table :=
  match lower, higher with
  | none, higher => some ((t.setPlace place higher).setParentOf higher place.parent)
  | some lower, none => some ((t.setPlace place (some lower)).setParentOf (some lower) place.parent)
  | some lower, some higher =>
    let (moved, stays) := match side with
      | .lower => (lower, higher)
      | .higher => (higher, lower)
    let t := (t.setPlace place (some stays)).setParentOf (some stays) place.parent
    do
      let far ← farthest t.links side k.usedBytes stays
      return { t with
        links := setParent (setChild t.links side far (some moved)) moved (some far) }

/-- `UnlinkNode`. -/
def unlinkNode (t : Table) (node : Nat) : Option Table :=
  let lower := t.links.child .lower node
  let higher := t.links.child .higher node
  match t.links.parent node with
  | some parent =>
    if t.links.child .lower parent = some node then
      unlinkAt k t (.child .lower parent) .lower lower higher
    else unlinkAt k t (.child .higher parent) .higher lower higher
  | none => unlinkAt k t (.root (k.key (t.offset node))) .lower lower higher

/-- The new node, before it is linked. -/
def Table.setNode (t : Table) (node : Nat) (offset : u64) : Table :=
  { t with
    links := setChild (setChild t.links .lower node none) .higher node none
    offset := Function.update t.offset node offset }

def Table.link (t : Table) (place : Place) (node : Nat) : Table :=
  (t.setPlace place (some node)).setParentOf (some node) place.parent

/-- `InsertNode`. -/
def insertNode (t : Table) (offset : u64) (key : Nat) (hint : Option Nat) (node : Nat) :
    Option Table :=
  let t := t.setNode node offset
  match hint.orElse fun _ => t.hashTable key with
  | none => some (t.link (.root key) node)
  | some hint => do
    let (hint, side) ← insertLoop t offset k.usedBytes hint
    return t.link (.child side hint) node

/-- Is the node in use? -/
def Table.inUse (t : Table) (node : Nat) : Bool :=
  t.offset node != invalidRecordOffset && t.cacheFull

/-- Mark next cache slot. -/
def Table.advance (t : Table) : Table :=
  let next := (t.nextCacheSlot + k.nodeBytes) % 2 ^ 32
  if k.usedBytes ≤ next then { t with nextCacheSlot := 0, cacheFull := true }
  else { t with nextCacheSlot := next }

/-- If node is already used, unlink it. -/
def unlinkUsed (t : Table) (node : Nat) : Option Table :=
  if t.inUse node then unlinkNode k t node else some t

/-- `SetOffset` of an offset that is not cached, with the node where the search ended. -/
def setNew (t : Table) (offset : u64) (insert : Option Nat) : Option (Table × Nat) :=
  let node := t.nextCacheSlot
  -- if the parent happens to be the one we're replacing, use parent instead
  let insert := if t.inUse node ∧ insert = some node then t.links.parent node else insert
  do
    let t ← unlinkUsed k t node
    let t ← insertNode k (t.advance k) offset (k.key offset) insert node
    return (t, node)

/-- `SetOffset`. -/
def setOffset (t : Table) (offset : u64) : Option (Table × Nat) :=
  match t.hashTable (k.key offset) with
  | none => setNew k t offset none
  | some root => do
    let (insert, found) ← searchLoop t offset k.usedBytes root
    if found then return (t, insert) else setNew k t offset (some insert)

/-- `InsertOffset`. -/
def insertOffset (t : Table) (offset : u64) : Option (Table × Nat) := do
  let node := t.nextCacheSlot
  let t ← unlinkUsed k t node
  let t := t.advance k
  let t ← insertNode k t offset (k.key offset) (t.hashTable (k.key offset)) node
  return (t, node)

/-- `PeekOffset`. -/
def peekOffset (t : Table) (offset : u64) : Option (Option Nat) := findNode k t offset

/-- `RemoveOffset`. -/
def removeOffset (t : Table) (offset : u64) : Option (Table × Bool) := do
  match ← findNode k t offset with
  | none => return (t, false)
  | some node =>
    let t ← unlinkNode k t node
    return ({ t with offset := Function.update t.offset node invalidRecordOffset }, true)

def act (t : Table) : Action → Option (Table × Event)
  | .setOffset offset => (setOffset k t offset).map fun r => (r.1, .gave offset r.2)
  | .insertOffset offset => (insertOffset k t offset).map fun r => (r.1, .gave offset r.2)
  | .removeOffset offset => (removeOffset k t offset).map fun r => (r.1, .removed offset r.2)
  | .peekOffset offset => (peekOffset k t offset).map fun r => (t, .peeked offset r)

/-- A run goes on until a call does not return. -/
def step (s : Option Table) (a : Action) : Option Table × List Event :=
  match s.bind (act k · a) with
  | none => (none, [])
  | some (t, e) => (some t, [e])

/-- The slot most recently given to each offset, unless the offset was removed or the slot handed out
again since. -/
def slotOf (log : List Event) : u64 → Option Nat :=
  log.foldl (fun given e =>
    match e with
    | .gave offset slot => fun o =>
      if o = offset then some slot else if given o = some slot then none else given o
    | .removed offset _ => Function.update given offset none
    | .peeked _ _ => given) fun _ => none

/-- Records have offsets, and `InsertOffset` is for those that are not cached. -/
def Allowed (s : Option Table) : Action → Prop
  | .setOffset offset => offset ≠ invalidRecordOffset
  | .insertOffset offset =>
    offset ≠ invalidRecordOffset ∧ ∀ t ∈ s, peekOffset k t offset = some none
  | _ => True

end Model

/-! ## Searches -/

section Searches

/-- The offset as a number. -/
def Table.keyOf (t : Table) (node : Nat) : Nat := (t.offset node).toNat

variable {t : Table} {o : u64} {tree sub : BinaryTree Nat} {c : List (Frame Nat)} {p : Option Nat}

theorem Table.keyOf_inj {a : Nat} : t.keyOf a = o.toNat ↔ t.offset a = o :=
  BitVec.toNat_inj

theorem Table.keyOf_ne {a : Nat} (h : t.offset a ≠ o) : t.keyOf a ≠ o.toNat :=
  fun he => h (t.keyOf_inj.mp he)

/-- One step down. -/
theorem descend {a : Nat} {l r : BinaryTree Nat} (hs : Sorted t.keyOf (plug c (.node a l r)))
    (hr : Rep t.links (parentOf c) p (.node a l r)) (hb : Between t.keyOf o.toNat c)
    (hne : t.offset a ≠ o) :
    ∃ inner other, BinaryTree.node a l r = Frame.fill ⟨t.side o a, a, other⟩ inner ∧
      Between t.keyOf o.toNat (⟨t.side o a, a, other⟩ :: c) ∧
      Rep t.links (some a) (t.links.child (t.side o a) a) inner ∧
      (inner = .nil → Adjacent t.keyOf o.toNat (plug c (.node a l r)) a) := by
  obtain ⟨-, -, hl, hr⟩ := hr
  unfold Table.side
  split
  · next hlt =>
    have hlt : t.keyOf a < o.toNat := hlt
    have hb' := hb.higher hs hlt
    refine ⟨r, l, rfl, hb', hr, ?_⟩
    rintro rfl
    exact adjacent_higher hs hb' hlt
  · next hge =>
    have hlt : o.toNat < t.keyOf a :=
      lt_of_le_of_ne (Nat.not_lt.mp hge) (Ne.symm (t.keyOf_ne hne))
    have hb' := hb.lower hs hlt
    refine ⟨l, r, rfl, hb', hl, ?_⟩
    rintro rfl
    exact adjacent_lower hs hb' hlt

theorem length_fill (f : Frame Nat) (s : BinaryTree Nat) :
    (inorder s).length < (inorder (f.fill s)).length := by
  have := (perm_fill f s).length_eq
  simp only [List.length_cons, List.length_append] at this
  omega

theorem findLoop_spec (hs : Sorted t.keyOf (plug c sub)) (hr : Rep t.links (parentOf c) p sub)
    (hb : Between t.keyOf o.toNat c) {fuel : Nat} (hfuel : (inorder sub).length ≤ fuel) :
    ∃ r, findLoop t o fuel p = some r ∧
      ∀ a, r = some a ↔ a ∈ inorder (plug c sub) ∧ t.offset a = o := by
  induction fuel generalizing c p sub with
  | zero =>
    cases sub with
    | node a l r => simp [inorder] at hfuel
    | nil =>
      cases hr
      exact ⟨none, rfl, fun a => ⟨fun h => absurd h.symm (Option.some_ne_none a),
        fun h => absurd (t.keyOf_inj.mpr h.2) (hb.ne h.1)⟩⟩
  | succ fuel ih =>
    cases sub with
    | nil =>
      cases hr
      exact ⟨none, rfl, fun a => ⟨fun h => absurd h.symm (Option.some_ne_none a),
        fun h => absurd (t.keyOf_inj.mpr h.2) (hb.ne h.1)⟩⟩
    | node a l r =>
      obtain rfl := hr.1
      have ha : a ∈ inorder (plug c (.node a l r)) := by
        rw [inorder_plug]
        simp [inorder]
      by_cases heq : t.offset a = o
      · refine ⟨some a, by rw [findLoop, if_pos heq], fun b => ⟨?_, ?_⟩⟩
        · rintro ⟨⟩
          exact ⟨ha, heq⟩
        · rintro ⟨hb', hbo⟩
          exact congrArg some (hs.inj ha hb' (congrArg BitVec.toNat (heq.trans hbo.symm)))
      · obtain ⟨inner, other, hfill, hb', hr', -⟩ := descend hs hr hb heq
        rw [hfill] at hfuel
        rw [hfill, ← plug_cons] at hs ⊢
        have hlen := length_fill ⟨t.side o a, a, other⟩ inner
        rw [findLoop, if_neg heq]
        exact ih hs hr' hb' (by omega)

/-- The search of `SetOffset` finds the offset, or ends next to it. -/
theorem searchLoop_spec {a : Nat} (hs : Sorted t.keyOf (plug c sub))
    (hr : Rep t.links (parentOf c) (some a) sub) (hb : Between t.keyOf o.toNat c) {fuel : Nat}
    (hfuel : (inorder sub).length ≤ fuel) :
    (∃ b, searchLoop t o fuel a = some (b, true) ∧ b ∈ inorder (plug c sub) ∧ t.offset b = o) ∨
    ∃ b c' l r, searchLoop t o fuel a = some (b, false) ∧ plug c sub = plug c' (.node b l r) ∧
      Between t.keyOf o.toNat c' ∧ Adjacent t.keyOf o.toNat (plug c sub) b ∧
      ∀ x ∈ inorder (plug c sub), t.offset x ≠ o := by
  induction fuel generalizing c a sub with
  | zero =>
    cases sub with
    | node a l r => simp [inorder] at hfuel
    | nil => cases hr
  | succ fuel ih =>
    cases sub with
    | nil => cases hr
    | node a' l r =>
      obtain rfl := Option.some.inj hr.1
      by_cases heq : t.offset a = o
      · left
        refine ⟨a, by rw [searchLoop, if_pos heq], ?_, heq⟩
        rw [inorder_plug]
        simp [inorder]
      · obtain ⟨inner, other, hfill, hb', hr', hadj⟩ := descend hs hr hb heq
        rw [searchLoop, if_neg heq]
        cases hchild : t.links.child (t.side o a) a with
        | none =>
          right
          rw [hchild] at hr'
          have hnil : inner = .nil := by
            cases inner with
            | nil => rfl
            | node _ _ _ => cases hr'.1
          refine ⟨a, c, l, r, rfl, rfl, hb, hadj hnil, fun x hx => ?_⟩
          rw [hfill, hnil] at hx
          exact fun hxo => hb'.ne hx (t.keyOf_inj.mpr hxo)
        | some child =>
          rw [hchild] at hr'
          rw [hfill] at hfuel
          rw [hfill, ← plug_cons] at hs ⊢
          have hlen := length_fill ⟨t.side o a, a, other⟩ inner
          exact ih hs hr' hb' (by omega)

/-- The search of `InsertNode` ends at an empty leaf for the offset. -/
theorem insertLoop_spec {a : Nat} (hs : Sorted t.keyOf (plug c sub))
    (hr : Rep t.links (parentOf c) (some a) sub) (hb : Between t.keyOf o.toNat c)
    (hnew : ∀ x ∈ inorder (plug c sub), t.offset x ≠ o) {fuel : Nat}
    (hfuel : (inorder sub).length ≤ fuel) :
    ∃ b side other c', insertLoop t o fuel a = some (b, side) ∧
      plug c sub = plug (⟨side, b, other⟩ :: c') .nil ∧
      Between t.keyOf o.toNat (⟨side, b, other⟩ :: c') := by
  induction fuel generalizing c a sub with
  | zero =>
    cases sub with
    | node a l r => simp [inorder] at hfuel
    | nil => cases hr
  | succ fuel ih =>
    cases sub with
    | nil => cases hr
    | node a' l r =>
      obtain rfl := Option.some.inj hr.1
      have ha : a ∈ inorder (plug c (.node a l r)) := by
        rw [inorder_plug]
        simp [inorder]
      obtain ⟨inner, other, hfill, hb', hr', -⟩ := descend hs hr hb (hnew a ha)
      rw [insertLoop]
      cases hchild : t.links.child (t.side o a) a with
      | none =>
        rw [hchild] at hr'
        cases inner with
        | node _ _ _ => cases hr'.1
        | nil =>
          refine ⟨a, t.side o a, other, c, rfl, ?_, hb'⟩
          rw [hfill]
          rfl
      | some child =>
        rw [hchild] at hr'
        rw [hfill] at hfuel
        rw [hfill, ← plug_cons] at hs hnew ⊢
        have hlen := length_fill ⟨t.side o a, a, other⟩ inner
        exact ih hs hr' hb' hnew (by omega)

end Searches

/-! ## Trees in memory -/

section Forests

variable {k : Settings} {trees : Nat → BinaryTree Nat} {t : Table}

/-- The trees of all hashes. -/
structure Forest (k : Settings) (trees : Nat → BinaryTree Nat) (t : Table) : Prop where
  rep : ∀ i, Rep t.links none (t.hashTable i) (trees i)
  sorted : ∀ i, Sorted t.keyOf (trees i)
  bucket : ∀ i, ∀ a ∈ inorder (trees i), k.key (t.offset a) = i
  bounded : ∀ i, ∀ a ∈ inorder (trees i), a < k.usedBytes

/-- No node is in two trees. -/
theorem Forest.unique (h : Forest k trees t) {i j a : Nat} (hi : a ∈ inorder (trees i))
    (hj : a ∈ inorder (trees j)) : i = j := (h.bucket i a hi).symm.trans (h.bucket j a hj)

theorem Forest.length_le (h : Forest k trees t) (i : Nat) :
    (inorder (trees i)).length ≤ k.usedBytes := by
  have hsub : inorder (trees i) ⊆ List.range k.usedBytes := fun a ha =>
    List.mem_range.mpr (h.bounded i a ha)
  have := (List.subperm_of_subset (h.sorted i).nodup hsub).length_le
  rwa [List.length_range] at this

/-- One tree is changed. -/
theorem Forest.update (h : Forest k trees t) {i : Nat} {tree : BinaryTree Nat} {t' : Table}
    (hrep : Rep t'.links none (t'.hashTable i) tree) (hsorted : Sorted t'.keyOf tree)
    (hbucket : ∀ a ∈ inorder tree, k.key (t'.offset a) = i ∧ a < k.usedBytes)
    (htable : ∀ j, j ≠ i → t'.hashTable j = t.hashTable j)
    (hsame : ∀ j, j ≠ i → ∀ a ∈ inorder (trees j), SameAt t.links t'.links a ∧
      t'.offset a = t.offset a) :
    Forest k (Function.update trees i tree) t' := by
  constructor
  case rep =>
    intro j
    by_cases hj : j = i
    · subst hj
      rw [Function.update_self]
      exact hrep
    · rw [Function.update_of_ne hj, htable j hj]
      exact (h.rep j).congr fun a ha => (hsame j hj a ha).1
  case sorted =>
    intro j
    by_cases hj : j = i
    · subst hj
      rw [Function.update_self]
      exact hsorted
    · rw [Function.update_of_ne hj]
      exact (h.sorted j).congr fun a ha => congrArg BitVec.toNat (hsame j hj a ha).2
  case bucket =>
    intro j a ha
    by_cases hj : j = i
    · subst hj
      rw [Function.update_self] at ha
      exact (hbucket a ha).1
    · rw [Function.update_of_ne hj] at ha
      rw [(hsame j hj a ha).2]
      exact h.bucket j a ha
  case bounded =>
    intro j a ha
    by_cases hj : j = i
    · subst hj
      rw [Function.update_self] at ha
      exact (hbucket a ha).2
    · rw [Function.update_of_ne hj] at ha
      exact h.bounded j a ha

/-- The place of a hole in the tree of a hash. -/
def placeOf (i : Nat) : List (Frame Nat) → Place
  | [] => .root i
  | f :: _ => .child f.side f.node

variable {i : Nat} {c : List (Frame Nat)}

@[simp] theorem placeOf_parent : (placeOf i c).parent = parentOf c := by
  cases c <;> rfl

theorem setPlace_links (q : Option Nat) :
    (t.setPlace (placeOf i c) q).links = (setHole t.links (t.hashTable i) c q).1 := by
  cases c <;> rfl

theorem setPlace_hashTable (q : Option Nat) :
    (t.setPlace (placeOf i c) q).hashTable i = (setHole t.links (t.hashTable i) c q).2 := by
  cases c with
  | nil => exact Function.update_self _ _ _
  | cons f c => rfl

theorem setPlace_hashTable_of_ne (q : Option Nat) {j : Nat} (h : j ≠ i) :
    (t.setPlace (placeOf i c) q).hashTable j = t.hashTable j := by
  cases c with
  | nil => exact Function.update_of_ne h _ _
  | cons f c => rfl

theorem setPlace_eq (q : Option Nat) : t.setPlace (placeOf i c) q =
    { t with
      hashTable := (t.setPlace (placeOf i c) q).hashTable
      links := (t.setPlace (placeOf i c) q).links } := by
  cases c <;> rfl

/-- What is to be shown of an unlinked node. -/
theorem Forest.unlinked (h : Forest k trees t) {a : Nat} {l r : BinaryTree Nat} {side : Side}
    (htree : trees i = plug c (.node a l r)) {hashTable : Nat → Option Nat} {links : TreeLinks Nat}
    {q : Option Nat} (hhole : Hole links (hashTable i) c q)
    (hrep : Rep links (parentOf c) q (join side l r))
    (htable : ∀ j, j ≠ i → hashTable j = t.hashTable j)
    (hsame : ∀ y, y ∉ inorder (trees i) → SameAt t.links links y) :
    Forest k (Function.update trees i (plug c (join side l r))) { t with hashTable, links } := by
  have hsorted := h.sorted i
  rw [htree] at hsorted
  refine h.update (rep_plug.mpr ⟨q, hhole, hrep⟩) (hsorted.remove side) ?_ htable ?_
  · intro x hx
    have hx' : x ∈ inorder (trees i) := by
      rw [htree]
      exact ((mem_remove side hsorted).mp hx).1
    exact ⟨h.bucket i x hx', h.bounded i x hx'⟩
  · intro j hj x hx
    exact ⟨hsame x fun hxi => hj (h.unique hx hxi), rfl⟩

/-- The node at the hole of a context leaves its tree. -/
theorem Forest.unlinkAt (h : Forest k trees t) {a : Nat} {l r : BinaryTree Nat} (side : Side)
    (htree : trees i = plug c (.node a l r)) :
    ∃ hashTable links,
      RecordCache.unlinkAt k t (placeOf i c) side (t.links.child .lower a) (t.links.child .higher a) =
        some { t with hashTable, links } ∧
      Forest k (Function.update trees i (plug c (join side l r))) { t with hashTable, links } := by
  have hrep := h.rep i
  have hsorted := h.sorted i
  have hlength := h.length_le i
  rw [htree] at hrep hsorted hlength
  obtain ⟨p, hhole, rfl, -, hl, hr⟩ := rep_plug.mp hrep
  obtain ⟨hcnd, hnd, hoff⟩ := nodup_plug hsorted.nodup
  obtain ⟨-, -, hlnd, hrl⟩ := nodup_fill (f := ⟨.lower, a, r⟩) hnd
  obtain ⟨-, -, hrnd, hlr⟩ := nodup_fill (f := ⟨.higher, a, l⟩) hnd
  have hlc : ∀ x ∈ inorder l, x ∉ before c ++ after c := fun x hx => hoff x (by simp [inorder, hx])
  have hrc : ∀ x ∈ inorder r, x ∉ before c ++ after c := fun x hx => hoff x (by simp [inorder, hx])
  have hout : ∀ y, y ∉ inorder (trees i) →
      y ∉ before c ++ after c ∧ y ∉ inorder l ∧ y ∉ inorder r := by
    intro y hy
    rw [htree, inorder_plug] at hy
    simp only [inorder, List.mem_append, List.mem_cons, not_or] at hy ⊢
    tauto
  have hle : (inorder l).length ≤ k.usedBytes ∧ (inorder r).length ≤ k.usedBytes := by
    rw [inorder_plug] at hlength
    simp only [inorder, List.length_append, List.length_cons] at hlength
    omega
  -- one of the two trees comes to the hole
  have hone : ∀ {q q' : Option Nat} {tree : BinaryTree Nat}, Rep t.links q' q tree →
      (inorder tree).Nodup → (∀ x ∈ inorder tree, x ∉ before c ++ after c) →
      (∀ y, y ∉ inorder (trees i) → y ∉ inorder tree) → join side l r = tree →
      ∃ hashTable links,
        some ((t.setPlace (placeOf i c) q).setParentOf q (placeOf i c).parent) =
          some { t with hashTable, links } ∧
        Forest k (Function.update trees i (plug c (join side l r))) { t with hashTable, links } := by
    intro q q' tree ht htnd htc hty hjoin
    obtain ⟨hc, ht'⟩ := hhole.replace ht hcnd htnd htc
    refine ⟨(t.setPlace (placeOf i c) q).hashTable, setParentOf (setHole t.links (t.hashTable i) c q).1 q
      (parentOf c), ?_, h.unlinked htree (q := q) ?_ ?_ ?_ ?_⟩
    · rw [Table.setParentOf, placeOf_parent, setPlace_links, setPlace_eq]
    · rw [setPlace_hashTable]
      exact hc
    · rw [hjoin]
      exact ht'
    · exact fun j hj => setPlace_hashTable_of_ne q hj
    · intro y hy
      refine (sameAt_setHole (hout y hy).1 q).trans (sameAt_setParentOf ?_ _)
      rintro rfl
      exact hty y hy ht.mem
  -- both trees: one comes to the hole and the other one to its far end
  have hboth : ∀ {stays moved : Nat} {tree u : BinaryTree Nat}, Rep t.links (some a) (some stays) tree →
      Rep t.links (some a) (some moved) u → (inorder tree).Nodup → (inorder u).Nodup →
      (∀ x ∈ inorder tree, x ∉ inorder u) → (∀ x ∈ inorder tree, x ∉ before c ++ after c) →
      (∀ x ∈ inorder u, x ∉ before c ++ after c) → (inorder tree).length ≤ k.usedBytes →
      (∀ y, y ∉ inorder (trees i) → y ∉ inorder tree ∧ y ∉ inorder u) →
      join side l r = hang side u tree →
      let t' := (t.setPlace (placeOf i c) (some stays)).setParentOf (some stays) (placeOf i c).parent
      ∃ hashTable links,
        (farthest t'.links side k.usedBytes stays).bind (fun far => some { t' with
          links := setParent (setChild t'.links side far (some moved)) moved (some far) }) =
          some { t with hashTable, links } ∧
        Forest k (Function.update trees i (plug c (join side l r))) { t with hashTable, links } := by
    intro stays moved tree u ht hu htnd hund hdisj htc huc hlen hty hjoin t'
    obtain ⟨x, hfar, hx, hc, hrep'⟩ :=
      hhole.replace_hang side ht hu hcnd htnd hund hdisj htc huc hlen
    have hlinks : t'.links = setParent (setHole t.links (t.hashTable i) c (some stays)).1 stays
        (parentOf c) := by
      simp only [t', Table.setParentOf, placeOf_parent, setPlace_links]
      rfl
    refine ⟨(t.setPlace (placeOf i c) (some stays)).hashTable,
      setParent (setChild t'.links side x (some moved)) moved (some x), ?_,
      h.unlinked htree (q := some stays) ?_ ?_ ?_ ?_⟩
    · rw [hlinks, hfar, Option.bind_some]
      simp only [t', Table.setParentOf]
      rw [setPlace_eq]
    · rw [setPlace_hashTable, hlinks]
      exact hc
    · rw [hjoin, hlinks]
      exact hrep'
    · exact fun j hj => setPlace_hashTable_of_ne _ hj
    · intro y hy
      obtain ⟨hyt, hyu⟩ := hty y hy
      rw [hlinks]
      refine (sameAt_setHole (hout y hy).1 _).trans ((sameAt_setParent ?_ _).trans
        ((sameAt_setChild ?_ _).trans (sameAt_setParent ?_ _)))
      · exact (ne_of_mem_of_not_mem ht.mem hyt).symm
      · exact (ne_of_mem_of_not_mem hx hyt).symm
      · exact (ne_of_mem_of_not_mem hu.mem hyu).symm
  cases l with
  | nil =>
    rw [show t.links.child .lower a = none from hl]
    exact hone hr hrnd hrc (fun y hy => (hout y hy).2.2) (join_nil_left side r)
  | node b ll lr =>
    cases r with
    | nil =>
      rw [hl.1, show t.links.child .higher a = none from hr]
      rw [hl.1] at hl
      exact hone hl hlnd hlc (fun y hy => (hout y hy).2.1) (join_nil_right side _)
    | node d rl rr =>
      rw [hl.1, hr.1]
      rw [hl.1] at hl
      rw [hr.1] at hr
      cases side with
      | lower =>
        exact hboth hr hl hrnd hlnd hrl hrc hlc hle.2
          (fun y hy => ⟨(hout y hy).2.2, (hout y hy).2.1⟩) rfl
      | higher =>
        exact hboth hl hr hlnd hrnd hlr hlc hrc hle.1 (fun y hy => (hout y hy).2) rfl

/-- `UnlinkNode`: the other nodes stay in order. -/
theorem Forest.unlink (h : Forest k trees t) {a : Nat} {l r : BinaryTree Nat}
    (htree : trees i = plug c (.node a l r)) :
    ∃ side hashTable links, unlinkNode k t a = some { t with hashTable, links } ∧
      Forest k (Function.update trees i (plug c (join side l r))) { t with hashTable, links } := by
  have hrep := h.rep i
  have hsorted := h.sorted i
  rw [htree] at hrep hsorted
  obtain ⟨p, hhole, rfl, hparent, -⟩ := rep_plug.mp hrep
  have ha : a ∈ inorder (trees i) := by
    rw [htree, inorder_plug]
    simp [inorder]
  unfold unlinkNode
  dsimp only
  rw [hparent]
  cases c with
  | nil =>
    refine ⟨.lower, ?_⟩
    dsimp only [parentOf, List.head?_nil, Option.map_none]
    rw [h.bucket i a ha]
    exact h.unlinkAt .lower htree
  | cons f c =>
    obtain ⟨hchild, -, hother, -⟩ := hhole
    dsimp only [parentOf, List.head?_cons, Option.map_some]
    obtain ⟨side, b, other⟩ := f
    cases side with
    | lower =>
      refine ⟨.lower, ?_⟩
      rw [if_pos hchild]
      exact h.unlinkAt .lower htree
    | higher =>
      -- the node is not in the other child tree
      have hne : t.links.child .lower b ≠ some a := by
        intro he
        have hother' : Rep t.links (some b) (t.links.child .lower b) other := hother
        rw [he] at hother'
        have hoff := (nodup_plug hsorted.nodup).2.2 a (by simp [inorder])
        apply hoff
        simp [before, hother'.mem]
      refine ⟨.higher, ?_⟩
      rw [if_neg hne]
      exact h.unlinkAt .higher htree

theorem sameAt_setNode {n y : Nat} {o : u64} (hy : y ≠ n) :
    SameAt t.links (t.setNode n o).links y ∧ (t.setNode n o).offset y = t.offset y :=
  ⟨(sameAt_setChild hy _).trans (sameAt_setChild hy _), Function.update_of_ne hy _ _⟩

/-- Only nodes in no tree are written. -/
theorem Forest.congr (h : Forest k trees t) {t' : Table} (htable : t'.hashTable = t.hashTable)
    (hsame : ∀ i, ∀ a ∈ inorder (trees i), SameAt t.links t'.links a ∧ t'.offset a = t.offset a) :
    Forest k trees t' := by
  constructor
  case rep =>
    intro i
    rw [htable]
    exact (h.rep i).congr fun a ha => (hsame i a ha).1
  case sorted => exact fun i => (h.sorted i).congr fun a ha => congrArg BitVec.toNat (hsame i a ha).2
  case bucket =>
    intro i a ha
    rw [(hsame i a ha).2]
    exact h.bucket i a ha
  case bounded => exact h.bounded

theorem Forest.setNode (h : Forest k trees t) {n : Nat} (hfree : ∀ i, n ∉ inorder (trees i)) (o : u64) :
    Forest k trees (t.setNode n o) :=
  h.congr rfl fun i _ ha => sameAt_setNode (ne_of_mem_of_not_mem ha (hfree i))

theorem link_eq (place : Place) (n : Nat) : t.link place n =
    { t with hashTable := (t.link place n).hashTable, links := (t.link place n).links } := by
  cases place <;> rfl

/-- A node without children is linked where its offset belongs. -/
theorem Forest.link (h : Forest k trees t) {n : Nat} (hn : n < k.usedBytes)
    (hfree : ∀ i, n ∉ inorder (trees i)) (hi : k.key (t.offset n) = i)
    (hchild : ∀ side, t.links.child side n = none) (htree : trees i = plug c .nil)
    (hb : Between t.keyOf (t.keyOf n) c) :
    Forest k (Function.update trees i (plug c (.node n .nil .nil))) (t.link (placeOf i c) n) := by
  have hrep := h.rep i
  have hsorted := h.sorted i
  have hnot := hfree i
  rw [htree] at hrep hsorted hnot
  obtain ⟨p, hhole, -⟩ := rep_plug.mp hrep
  have hnc : n ∉ before c ++ after c := by
    rw [inorder_plug] at hnot
    simpa [inorder] using hnot
  have hleaf : Rep t.links (t.links.parent n) (some n) (.node n .nil .nil) :=
    ⟨rfl, rfl, hchild .lower, hchild .higher⟩
  obtain ⟨hc, hrep'⟩ := hhole.replace hleaf (nodup_plug hsorted.nodup).1 (by simp [inorder])
    (by simpa [inorder] using hnc)
  have hlinks : (t.link (placeOf i c) n).links =
      setParentOf (setHole t.links (t.hashTable i) c (some n)).1 (some n) (parentOf c) := by
    simp only [Table.link, Table.setParentOf, placeOf_parent, setPlace_links]
  have hoffset : (t.link (placeOf i c) n).offset = t.offset := by rw [link_eq]
  have hkey : (t.link (placeOf i c) n).keyOf = t.keyOf := by
    funext a
    exact congrArg (fun f : Nat → u64 => (f a).toNat) hoffset
  apply h.update
  · rw [hlinks, show (t.link (placeOf i c) n).hashTable i = _ from setPlace_hashTable (some n)]
    exact rep_plug.mpr ⟨_, hc, hrep'⟩
  · rw [hkey]
    exact hsorted.insert hb
  · intro a ha
    rw [hoffset]
    rw [inorder_plug] at ha
    simp only [inorder, List.nil_append, List.mem_append, List.mem_singleton] at ha
    by_cases han : a = n
    · rw [han]
      exact ⟨hi, hn⟩
    · have ha' : a ∈ inorder (trees i) := by
        rw [htree, inorder_plug]
        simp only [inorder, List.append_nil, List.mem_append]
        tauto
      exact ⟨h.bucket i a ha', h.bounded i a ha'⟩
  · exact fun j hj => setPlace_hashTable_of_ne _ hj
  · intro j hj a ha
    have hac : a ∉ before c ++ after c := by
      intro hac
      apply hj
      apply h.unique ha
      rw [htree, inorder_plug]
      simpa [inorder] using hac
    rw [hlinks, hoffset]
    exact ⟨(sameAt_setHole hac _).trans (sameAt_setParent (ne_of_mem_of_not_mem ha (hfree j)) _), rfl⟩

/-- `InsertNode`, with a hint that has the offset below it. -/
theorem Forest.insert (h : Forest k trees t) {n : Nat} {o : u64} (hn : n < k.usedBytes)
    (hfree : ∀ i, n ∉ inorder (trees i)) (hnew : ∀ x ∈ inorder (trees (k.key o)), t.offset x ≠ o)
    {hint : Option Nat}
    (hhint : ∀ b ∈ hint, ∃ c l r, trees (k.key o) = plug c (.node b l r) ∧
      Between t.keyOf o.toNat c) :
    ∃ hashTable links c,
      insertNode k t o (k.key o) hint n =
        some { t with hashTable, links, offset := Function.update t.offset n o } ∧
      trees (k.key o) = plug c .nil ∧
      Forest k (Function.update trees (k.key o) (plug c (.node n .nil .nil)))
        { t with hashTable, links, offset := Function.update t.offset n o } := by
  have h' := h.setNode hfree o
  have hoffset : (t.setNode n o).offset n = o := Function.update_self _ _ _
  have hchild : ∀ side, (t.setNode n o).links.child side n = none := by
    intro side
    cases side <;> simp [Table.setNode, setChild]
  have hkeep : ∀ x ∈ inorder (trees (k.key o)), (t.setNode n o).offset x = t.offset x :=
    fun x hx => (sameAt_setNode (ne_of_mem_of_not_mem hx (hfree _))).2
  have hnew' : ∀ x ∈ inorder (trees (k.key o)), (t.setNode n o).offset x ≠ o := fun x hx => by
    rw [hkeep x hx]
    exact hnew x hx
  have hdone : ∀ c, trees (k.key o) = plug c .nil → Between (t.setNode n o).keyOf o.toNat c →
      ∃ hashTable links,
        some ((t.setNode n o).link (placeOf (k.key o) c) n) =
          some { t with hashTable, links, offset := Function.update t.offset n o } ∧
        Forest k (Function.update trees (k.key o) (plug c (.node n .nil .nil)))
          { t with hashTable, links, offset := Function.update t.offset n o } := by
    intro c htree hb
    have hlink := h'.link hn hfree (congrArg k.key hoffset) hchild htree (by
      rwa [Table.keyOf, hoffset])
    rw [link_eq] at hlink
    exact ⟨_, _, by rw [link_eq]; rfl, hlink⟩
  -- from any node that has the offset below it
  have hloop : ∀ b c l r, trees (k.key o) = plug c (.node b l r) →
      Between (t.setNode n o).keyOf o.toNat c → ∃ hashTable links c,
        ((insertLoop (t.setNode n o) o k.usedBytes b).bind fun r =>
          some ((t.setNode n o).link (.child r.2 r.1) n)) =
          some { t with hashTable, links, offset := Function.update t.offset n o } ∧
        trees (k.key o) = plug c .nil ∧
        Forest k (Function.update trees (k.key o) (plug c (.node n .nil .nil)))
          { t with hashTable, links, offset := Function.update t.offset n o } := by
    intro b c l r htree hb
    have hrep := h'.rep (k.key o)
    have hsorted := h'.sorted (k.key o)
    have hlength := h'.length_le (k.key o)
    rw [htree] at hrep hsorted hlength hnew'
    obtain ⟨p, -, hsub⟩ := rep_plug.mp hrep
    obtain rfl := hsub.1
    rw [inorder_plug] at hlength
    simp only [List.length_append] at hlength
    obtain ⟨b', side, other, c', heq, hplug, hb'⟩ :=
      insertLoop_spec hsorted hsub hb hnew' (by omega : _ ≤ k.usedBytes)
    rw [heq, Option.bind_some]
    obtain ⟨hashTable, links, hlink, hf⟩ := hdone (⟨side, b', other⟩ :: c') (htree.trans hplug) hb'
    exact ⟨hashTable, links, _, hlink, htree.trans hplug, hf⟩
  have hbetween : ∀ c s, trees (k.key o) = plug c s → Between t.keyOf o.toNat c →
      Between (t.setNode n o).keyOf o.toNat c := by
    intro c s htree hb
    have hmem : ∀ x, x ∈ before c ∨ x ∈ after c → (t.setNode n o).keyOf x = t.keyOf x := by
      intro x hx
      apply congrArg BitVec.toNat
      apply hkeep
      rw [htree, inorder_plug]
      simp only [List.mem_append]
      tauto
    refine ⟨fun x hx => ?_, fun x hx => ?_⟩
    · rw [hmem x (.inl hx)]
      exact hb.1 x hx
    · rw [hmem x (.inr hx)]
      exact hb.2 x hx
  unfold insertNode
  dsimp only
  cases hint with
  | some b =>
    obtain ⟨c, l, r, htree, hb⟩ := hhint b rfl
    exact hloop b c l r htree (hbetween c _ htree hb)
  | none =>
    have hrep := h'.rep (k.key o)
    cases htable : (t.setNode n o).hashTable (k.key o) with
    | none =>
      rw [htable] at hrep
      have hnil : trees (k.key o) = .nil := by
        cases htree : trees (k.key o) with
        | nil => rfl
        | node _ _ _ =>
          rw [htree] at hrep
          cases hrep.1
      obtain ⟨hashTable, links, hlink, hf⟩ := hdone [] hnil (between_nil _ _)
      exact ⟨hashTable, links, [], hlink, hnil, hf⟩
    | some b =>
      rw [htable] at hrep
      cases htree : trees (k.key o) with
      | nil =>
        rw [htree] at hrep
        cases hrep
      | node b' l r =>
        rw [htree] at hrep
        obtain rfl := Option.some.inj hrep.1
        have := hloop b [] l r htree (between_nil _ _)
        rwa [htree] at this

end Forests

/-! ## Slots -/

namespace Settings

variable (k : Settings)

theorem nodeBytes_eq : k.nodeBytes = k.nodeHeader + k.recordBytes :=
  Nat.mod_eq_of_lt (k.room.trans_lt k.bound)

theorem nodeBytes_pos : 0 < k.nodeBytes := by
  rw [nodeBytes_eq]
  exact Nat.add_pos_left k.header_pos _

theorem dvd_usedBytes : k.nodeBytes ∣ k.usedBytes := Nat.dvd_sub_mod _

theorem usedBytes_lt : k.usedBytes < 2 ^ 32 := (Nat.sub_le _ _).trans_lt k.bound

theorem usedBytes_pos : 0 < k.usedBytes := by
  have hroom := k.room
  rw [← nodeBytes_eq] at hroom
  have hmod := Nat.mod_lt k.cacheBytes k.nodeBytes_pos
  unfold usedBytes
  omega

/-- The first byte of a cache node. -/
def IsSlot (a : Nat) : Prop := a < k.usedBytes ∧ k.nodeBytes ∣ a

variable {k} {a b : Nat}

theorem IsSlot.add_le (ha : k.IsSlot a) : a + k.nodeBytes ≤ k.usedBytes := by
  obtain ⟨⟨u, hu⟩, x, hx⟩ := And.intro k.dvd_usedBytes ha.2
  have hlt := ha.1
  rw [hu, hx] at hlt ⊢
  have := Nat.lt_of_mul_lt_mul_left hlt
  calc k.nodeBytes * x + k.nodeBytes = k.nodeBytes * (x + 1) := by ring
    _ ≤ k.nodeBytes * u := Nat.mul_le_mul_left _ this

theorem IsSlot.lt_add_iff (ha : k.IsSlot a) (hb : k.IsSlot b) :
    a < b + k.nodeBytes ↔ a < b ∨ a = b := by
  obtain ⟨-, x, rfl⟩ := ha
  obtain ⟨-, y, rfl⟩ := hb
  have hpos := k.nodeBytes_pos
  rw [show k.nodeBytes * y + k.nodeBytes = k.nodeBytes * (y + 1) by ring, Nat.mul_lt_mul_left hpos,
    Nat.mul_lt_mul_left hpos, Nat.mul_right_inj hpos.ne']
  omega

end Settings

section Slots

variable {k : Settings} {t : Table}

/-- Has the slot been handed out? -/
def Table.Passed (t : Table) (a : Nat) : Prop := t.cacheFull = true ∨ a < t.nextCacheSlot

/-- The next slot is passed, and no other one. -/
theorem advance_spec (h : k.IsSlot t.nextCacheSlot) :
    k.IsSlot (t.advance k).nextCacheSlot ∧
      ∀ a, k.IsSlot a → ((t.advance k).Passed a ↔ t.Passed a ∨ a = t.nextCacheSlot) := by
  have hle := h.add_le
  have hlt := k.usedBytes_lt
  have hmod : (t.nextCacheSlot + k.nodeBytes) % 2 ^ 32 = t.nextCacheSlot + k.nodeBytes :=
    Nat.mod_eq_of_lt (by omega)
  unfold Table.advance Table.Passed
  dsimp only
  rw [hmod]
  split
  · next hend =>
    refine ⟨⟨k.usedBytes_pos, Nat.dvd_zero _⟩, fun a ha => ?_⟩
    have := (ha.lt_add_iff h).mp (ha.1.trans_le hend)
    tauto
  · next hend =>
    refine ⟨⟨Nat.not_le.mp hend, Nat.dvd_add h.2 (Nat.dvd_refl _)⟩, fun a ha => ?_⟩
    have := ha.lt_add_iff h
    dsimp only
    tauto

theorem advance_eq (hashTable : Nat → Option Nat) (links : TreeLinks Nat) :
    Table.advance k { t with hashTable, links } =
      { t with
        hashTable
        links
        nextCacheSlot := (t.advance k).nextCacheSlot
        cacheFull := (t.advance k).cacheFull } := by
  unfold Table.advance
  dsimp only
  split <;> rfl

end Slots

/-! ## Runs -/

section Runs

variable {k : Settings} {trees trees' : Nat → BinaryTree Nat} {t : Table} {log : List Event} {o : u64}

/-- The trees hold what was given, and the slots that were passed hold an offset in a tree or none. -/
structure Inv (k : Settings) (trees : Nat → BinaryTree Nat) (t : Table) (log : List Event) : Prop where
  forest : Forest k trees t
  next : k.IsSlot t.nextCacheSlot
  slots : ∀ i, ∀ a ∈ inorder (trees i),
    k.IsSlot a ∧ t.offset a ≠ invalidRecordOffset ∧ t.Passed a
  used : ∀ a, k.IsSlot a → t.Passed a →
    t.offset a = invalidRecordOffset ∨ a ∈ inorder (trees (k.key (t.offset a)))
  given : ∀ o a, slotOf log o = some a ↔ a ∈ inorder (trees (k.key o)) ∧ t.offset a = o

/-- Each hash bucket is a binary search tree on offsets with consistent parent links, no slot is linked
twice, and each offset is found in the slot that was given to it. -/
structure Sound (k : Settings) (s : Option Table) (log : List Event) : Prop where
  sound : ∃ t trees, s = some t ∧ Forest k trees t ∧
    (∀ i, (inorder (trees i)).Nodup) ∧
    (∀ i j a, a ∈ inorder (trees i) → a ∈ inorder (trees j) → i = j) ∧
    ∀ o, peekOffset k t o = some (slotOf log o)

theorem slotOf_gave (log : List Event) (o o' : u64) (a : Nat) : slotOf (log ++ [.gave o a]) o' =
    if o' = o then some a else if slotOf log o' = some a then none else slotOf log o' := by
  rw [slotOf, List.foldl_append]
  rfl

theorem slotOf_removed (log : List Event) (o : u64) (found : Bool) :
    slotOf (log ++ [.removed o found]) = Function.update (slotOf log) o none := by
  rw [slotOf, List.foldl_append]
  rfl

theorem slotOf_peeked (log : List Event) (o : u64) (r : Option Nat) :
    slotOf (log ++ [.peeked o r]) = slotOf log := by
  rw [slotOf, List.foldl_append]
  rfl

/-- `FindNode`. -/
theorem Forest.find (h : Forest k trees t) (o : u64) :
    ∃ r, findNode k t o = some r ∧
      ∀ a, r = some a ↔ a ∈ inorder (trees (k.key o)) ∧ t.offset a = o :=
  findLoop_spec (c := []) (h.sorted _) (h.rep _) (between_nil _ _) (h.length_le _)

/-- A root is a hint for each offset. -/
theorem Forest.root (h : Forest k trees t) {i b : Nat} (hb : t.hashTable i = some b) (o : u64) :
    ∃ c l r, trees i = plug c (.node b l r) ∧ Between t.keyOf o.toNat c := by
  have hrep := h.rep i
  rw [hb] at hrep
  cases htree : trees i with
  | nil =>
    rw [htree] at hrep
    cases hrep
  | node b' l r =>
    rw [htree] at hrep
    cases hrep.1
    exact ⟨[], l, r, rfl, between_nil _ _⟩

namespace Inv

theorem init (links : TreeLinks Nat) (offset : Nat → u64) :
    Inv k (fun _ => .nil) (allocateCache links offset) [] where
  forest := by
    refine ⟨fun _ => rfl, fun _ => List.Pairwise.nil, ?_, ?_⟩
    · exact fun _ _ h => absurd h List.not_mem_nil
    · exact fun _ _ h => absurd h List.not_mem_nil
  next := ⟨k.usedBytes_pos, Nat.dvd_zero _⟩
  slots _ _ h := absurd h List.not_mem_nil
  used a _ h := by
    rcases h with h | h
    · cases h
    · exact absurd h (Nat.not_lt_zero a)
  given _ _ := ⟨nofun, fun h => absurd h.1 List.not_mem_nil⟩

/-- What `PeekOffset` returns. -/
theorem peek (h : Inv k trees t log) (o : u64) : peekOffset k t o = some (slotOf log o) := by
  obtain ⟨r, hfind, hr⟩ := h.forest.find o
  have heq : r = slotOf log o := Option.ext fun a => (hr a).trans (h.given o a).symm
  rw [← heq]
  exact hfind

theorem sound (h : Inv k trees t log) : Sound k (some t) log :=
  ⟨t, trees, rfl, h.forest, fun i => (h.forest.sorted i).nodup, fun _ _ _ => h.forest.unique, h.peek⟩

/-- The next slot is in use exactly if it is in a tree. -/
theorem next_inUse (h : Inv k trees t log) :
    t.inUse t.nextCacheSlot = true ↔ ∃ i, t.nextCacheSlot ∈ inorder (trees i) := by
  unfold Table.inUse
  simp only [Bool.and_eq_true, bne_iff_ne, ne_eq]
  constructor
  · rintro ⟨hoffset, hf⟩
    exact ⟨_, (h.used _ h.next (.inl hf)).resolve_left hoffset⟩
  · rintro ⟨i, hi⟩
    obtain ⟨-, hoffset, hp⟩ := h.slots i _ hi
    exact ⟨hoffset, hp.resolve_right (lt_irrefl _)⟩

end Inv

/-- A node has left its tree. -/
theorem mem_update_remove {a i : Nat} {c : List (Frame Nat)} {l r : BinaryTree Nat} (side : Side)
    (h : Forest k trees t) (htree : trees i = plug c (.node a l r)) (j x : Nat) :
    x ∈ inorder (Function.update trees i (plug c (join side l r)) j) ↔
      x ∈ inorder (trees j) ∧ x ≠ a := by
  have hsorted := h.sorted i
  have ha : a ∈ inorder (trees i) := by
    rw [htree, inorder_plug]
    simp [inorder]
  rw [htree] at hsorted
  by_cases hj : j = i
  · subst hj
    rw [Function.update_self, mem_remove side hsorted, htree]
  · rw [Function.update_of_ne hj]
    refine ⟨fun hx => ⟨hx, ?_⟩, And.left⟩
    rintro rfl
    exact hj (h.unique hx ha)

/-- The next slot is taken from the record that has it. The hint of `SetOffset`, or the parent when it
is this slot, has the offset below it also after that. -/
theorem Inv.free (h : Inv k trees t log) (o : u64) {insert : Option Nat}
    (hinsert : ∀ b ∈ insert, ∃ c l r, trees (k.key o) = plug c (.node b l r) ∧
      Between t.keyOf o.toNat c ∧ Adjacent t.keyOf o.toNat (trees (k.key o)) b) :
    ∃ trees' hashTable links,
      unlinkUsed k t t.nextCacheSlot = some { t with hashTable, links } ∧
      Forest k trees' { t with hashTable, links } ∧
      (∀ i x, x ∈ inorder (trees' i) ↔ x ∈ inorder (trees i) ∧ x ≠ t.nextCacheSlot) ∧
      ∀ b ∈ (if t.inUse t.nextCacheSlot ∧ insert = some t.nextCacheSlot
          then t.links.parent t.nextCacheSlot else insert),
        ∃ c l r, trees' (k.key o) = plug c (.node b l r) ∧ Between t.keyOf o.toNat c := by
  by_cases huse : t.inUse t.nextCacheSlot = true
  · unfold unlinkUsed
    rw [if_pos huse]
    by_cases hins : insert = some t.nextCacheSlot
    · -- the node where the search ended is the one that is replaced
      rw [if_pos ⟨huse, hins⟩]
      obtain ⟨c, l, r, htree, hb, -⟩ := hinsert _ hins
      obtain ⟨side, hashTable, links, hunlink, hf⟩ := h.forest.unlink htree
      refine ⟨_, hashTable, links, hunlink, hf, mem_update_remove side h.forest htree, ?_⟩
      have hrep := h.forest.rep (k.key o)
      rw [htree] at hrep
      obtain ⟨-, -, -, hparent, -⟩ := rep_plug.mp hrep
      rw [hparent, Function.update_self]
      intro b hpb
      cases c with
      | nil => cases hpb
      | cons f c =>
        cases hpb
        rw [plug_cons]
        obtain ⟨s, b, other⟩ := f
        cases s with
        | lower => exact ⟨c, _, _, rfl, hb.tail⟩
        | higher => exact ⟨c, _, _, rfl, hb.tail⟩
    · rw [if_neg fun hc => hins hc.2]
      obtain ⟨i, hi⟩ := h.next_inUse.mp huse
      obtain ⟨c, l, r, htree⟩ := exists_context hi []
      have htree : trees i = plug c (.node t.nextCacheSlot l r) := htree.symm
      obtain ⟨side, hashTable, links, hunlink, hf⟩ := h.forest.unlink htree
      have hmem := mem_update_remove side h.forest htree
      refine ⟨_, hashTable, links, hunlink, hf, hmem, fun b hb => ?_⟩
      obtain ⟨c', l', r', htree', -, hadj⟩ := hinsert b hb
      have hbt : b ∈ inorder (trees (k.key o)) := by
        rw [htree', inorder_plug]
        simp [inorder]
      have hne : b ≠ t.nextCacheSlot := fun he => hins (he ▸ hb)
      exact exists_between (hf.sorted (k.key o)) (fun x hx => ((hmem _ x).mp hx).1)
        ((hmem _ b).mpr ⟨hbt, hne⟩) hadj
  · unfold unlinkUsed
    rw [if_neg huse, if_neg fun hc => huse hc.1]
    refine ⟨trees, t.hashTable, t.links, rfl, h.forest, fun i x => ?_, fun b hb => ?_⟩
    · refine ⟨fun hx => ⟨hx, ?_⟩, And.left⟩
      rintro rfl
      exact huse (h.next_inUse.mpr ⟨i, hx⟩)
    · obtain ⟨c, l, r, htree, hb, -⟩ := hinsert b hb
      exact ⟨c, l, r, htree, hb⟩

/-- The slot that was freed is given to a new offset. -/
theorem Inv.give (h : Inv k trees t log) (ho : o ≠ invalidRecordOffset)
    (hnew : ∀ x ∈ inorder (trees (k.key o)), t.offset x ≠ o) {hashTable : Nat → Option Nat}
    {links : TreeLinks Nat} (hf : Forest k trees' { t with hashTable, links })
    (hfree : ∀ i x, x ∈ inorder (trees' i) ↔ x ∈ inorder (trees i) ∧ x ≠ t.nextCacheSlot)
    {hint : Option Nat} (hhint : ∀ b ∈ hint, ∃ c l r, trees' (k.key o) = plug c (.node b l r) ∧
      Between t.keyOf o.toNat c) :
    ∃ trees'' t'', insertNode k (Table.advance k { t with hashTable, links }) o (k.key o) hint
        t.nextCacheSlot = some t'' ∧
      Inv k trees'' t'' (log ++ [.gave o t.nextCacheSlot]) := by
  have hnext := h.next
  obtain ⟨hslot, hpassed⟩ := advance_spec hnext
  rw [advance_eq]
  have hf' : Forest k trees' { t with
      hashTable
      links
      nextCacheSlot := (t.advance k).nextCacheSlot
      cacheFull := (t.advance k).cacheFull } := hf.congr rfl fun _ _ _ => ⟨SameAt.refl _ _, rfl⟩
  have hnot : ∀ i, t.nextCacheSlot ∉ inorder (trees' i) := fun i hx => ((hfree i _).mp hx).2 rfl
  obtain ⟨hashTable', links', c, hinsert, htree, hforest⟩ := hf'.insert hnext.1 hnot
    (fun x hx => hnew x ((hfree _ x).mp hx).1) hhint
  refine ⟨Function.update trees' (k.key o) (plug c (.node t.nextCacheSlot .nil .nil)), _, hinsert, ?_⟩
  -- the nodes of the new trees
  have hmem : ∀ i x, x ∈ inorder (Function.update trees' (k.key o)
      (plug c (.node t.nextCacheSlot .nil .nil)) i) ↔
      (i = k.key o ∧ x = t.nextCacheSlot) ∨ (x ∈ inorder (trees i) ∧ x ≠ t.nextCacheSlot) := by
    intro i x
    rw [← hfree]
    by_cases hi : i = k.key o
    · subst hi
      rw [Function.update_self, htree, inorder_plug, inorder_plug]
      simp only [inorder, List.nil_append, List.append_nil, List.mem_append, List.mem_singleton]
      tauto
    · rw [Function.update_of_ne hi]
      tauto
  have hself : Function.update t.offset t.nextCacheSlot o t.nextCacheSlot = o :=
    Function.update_self _ _ _
  have hother : ∀ x, x ≠ t.nextCacheSlot → Function.update t.offset t.nextCacheSlot o x = t.offset x :=
    fun x hx => Function.update_of_ne hx _ _
  constructor
  case forest => exact hforest
  case next => exact hslot
  case slots =>
    intro i a ha
    dsimp only
    rcases (hmem i a).mp ha with ⟨-, rfl⟩ | ⟨ha, hne⟩
    · rw [hself]
      exact ⟨hnext, ho, (hpassed _ hnext).mpr (.inr rfl)⟩
    · obtain ⟨hs, hoffset, hp⟩ := h.slots i a ha
      rw [hother a hne]
      exact ⟨hs, hoffset, (hpassed a hs).mpr (.inl hp)⟩
  case used =>
    intro a ha hp
    dsimp only
    rw [hmem]
    by_cases hne : a = t.nextCacheSlot
    · subst hne
      rw [hself]
      exact .inr (.inl ⟨rfl, rfl⟩)
    · rw [hother a hne]
      have hp' := ((hpassed a ha).mp hp).resolve_right hne
      exact (h.used a ha hp').imp id fun hx => .inr ⟨hx, hne⟩
  case given =>
    intro o' a
    have hgiven := h.given o' a
    dsimp only
    rw [slotOf_gave, hmem]
    by_cases ho' : o' = o
    · subst ho'
      rw [if_pos rfl]
      constructor
      · rintro ⟨⟩
        exact ⟨.inl ⟨rfl, rfl⟩, hself⟩
      · rintro ⟨⟨-, rfl⟩ | ⟨ha, hne⟩, hoffset⟩
        · rfl
        · rw [hother a hne] at hoffset
          exact absurd hoffset (hnew a ha)
    · rw [if_neg ho']
      constructor
      · intro heq
        split at heq
        · cases heq
        · next hne =>
          have hne' : a ≠ t.nextCacheSlot := fun he => hne (he ▸ heq)
          rw [hother a hne']
          obtain ⟨ha, hoffset⟩ := hgiven.mp heq
          exact ⟨.inr ⟨ha, hne'⟩, hoffset⟩
      · rintro ⟨⟨-, rfl⟩ | ⟨ha, hne⟩, hoffset⟩
        · rw [hself] at hoffset
          exact absurd hoffset.symm ho'
        · rw [hother a hne] at hoffset
          have heq := hgiven.mpr ⟨ha, hoffset⟩
          rw [heq, if_neg fun he => hne (Option.some.inj he)]

/-- `SetOffset` of an offset that is not cached. -/
theorem Inv.setNew (h : Inv k trees t log) (ho : o ≠ invalidRecordOffset)
    (hnew : ∀ x ∈ inorder (trees (k.key o)), t.offset x ≠ o) {insert : Option Nat}
    (hinsert : ∀ b ∈ insert, ∃ c l r, trees (k.key o) = plug c (.node b l r) ∧
      Between t.keyOf o.toNat c ∧ Adjacent t.keyOf o.toNat (trees (k.key o)) b) :
    ∃ t' a trees', RecordCache.setNew k t o insert = some (t', a) ∧
      Inv k trees' t' (log ++ [.gave o a]) := by
  obtain ⟨trees', hashTable, links, hunlink, hf, hfree, hhint⟩ := h.free o hinsert
  obtain ⟨trees'', t'', hput, h'⟩ := h.give ho hnew hf hfree hhint
  refine ⟨t'', t.nextCacheSlot, trees'', ?_, h'⟩
  unfold RecordCache.setNew
  simp only [hunlink, hput, Option.bind_eq_bind, Option.bind_some, Option.pure_def]

/-- `SetOffset`. -/
theorem Inv.setOffset (h : Inv k trees t log) (ho : o ≠ invalidRecordOffset) :
    ∃ t' a trees', RecordCache.setOffset k t o = some (t', a) ∧
      Inv k trees' t' (log ++ [.gave o a]) := by
  have hrep := h.forest.rep (k.key o)
  have hlength := h.forest.length_le (k.key o)
  have hsorted := h.forest.sorted (k.key o)
  unfold RecordCache.setOffset
  cases hroot : t.hashTable (k.key o) with
  | none =>
    rw [hroot] at hrep
    have hnil : trees (k.key o) = .nil := by
      cases htree : trees (k.key o) with
      | nil => rfl
      | node _ _ _ =>
        rw [htree] at hrep
        cases hrep.1
    apply h.setNew ho
    · rw [hnil]
      exact fun x hx => absurd hx List.not_mem_nil
    · exact nofun
  | some root =>
    rw [hroot] at hrep
    dsimp only
    rcases searchLoop_spec (c := []) hsorted hrep (between_nil _ _) hlength with
      ⟨b, hsearch, hb, hoffset⟩ | ⟨b, c, l, r, hsearch, htree, hb, hadj, hnew⟩
    · -- found: the slot that was given to it is given again
      rw [hsearch]
      refine ⟨t, b, trees, rfl, h.forest, h.next, h.slots, h.used, fun o' a => ?_⟩
      rw [slotOf_gave, ← h.given]
      have hgiven := (h.given o b).mpr ⟨hb, hoffset⟩
      by_cases ho' : o' = o
      · subst ho'
        rw [if_pos rfl, hgiven]
      · rw [if_neg ho']
        have hne : slotOf log o' ≠ some b := fun he =>
          ho' (((h.given o' b).mp he).2.symm.trans hoffset)
        rw [if_neg hne]
    · rw [hsearch]
      apply h.setNew ho hnew
      rintro _ ⟨⟩
      exact ⟨c, l, r, htree, hb, hadj⟩

/-- `InsertOffset`. -/
theorem Inv.insertOffset (h : Inv k trees t log) (ho : o ≠ invalidRecordOffset)
    (hnew : peekOffset k t o = some none) :
    ∃ t' a trees', RecordCache.insertOffset k t o = some (t', a) ∧
      Inv k trees' t' (log ++ [.gave o a]) := by
  have hnew : ∀ x ∈ inorder (trees (k.key o)), t.offset x ≠ o := by
    intro x hx hxo
    have hgiven := (h.given o x).mpr ⟨hx, hxo⟩
    rw [h.peek, hgiven] at hnew
    cases hnew
  obtain ⟨trees', hashTable, links, hunlink, hf, hfree, -⟩ := @Inv.free k trees t log h o none nofun
  have hroot : ∀ b ∈ hashTable (k.key o), ∃ c l r, trees' (k.key o) = plug c (.node b l r) ∧
      Between t.keyOf o.toNat c := fun b hb => hf.root hb o
  obtain ⟨trees'', t'', hput, h'⟩ := h.give ho hnew hf hfree hroot
  refine ⟨t'', t.nextCacheSlot, trees'', ?_, h'⟩
  unfold RecordCache.insertOffset
  rw [advance_eq] at hput
  simp only [hunlink, advance_eq, hput, Option.bind_eq_bind, Option.bind_some, Option.pure_def]

/-- `RemoveOffset`. -/
theorem Inv.removeOffset (h : Inv k trees t log) (o : u64) :
    ∃ t' found trees', RecordCache.removeOffset k t o = some (t', found) ∧
      Inv k trees' t' (log ++ [.removed o found]) := by
  obtain ⟨r, hfind, hr⟩ := h.forest.find o
  unfold RecordCache.removeOffset
  rw [hfind]
  cases r with
  | none =>
    refine ⟨t, false, trees, rfl, h.forest, h.next, h.slots, h.used, fun o' a => ?_⟩
    rw [slotOf_removed, ← h.given]
    by_cases ho' : o' = o
    · subst ho'
      have hnone : slotOf log o' ≠ some a := fun he => nomatch (hr a).mpr ((h.given o' a).mp he)
      rw [Function.update_self]
      exact ⟨nofun, fun he => absurd he hnone⟩
    · rw [Function.update_of_ne ho']
  | some b =>
    obtain ⟨hb, hoffset⟩ := (hr b).mp rfl
    obtain ⟨c, l, r', htree⟩ := exists_context hb []
    have htree : trees (k.key o) = plug c (.node b l r') := htree.symm
    obtain ⟨side, hashTable, links, hunlink, hf⟩ := h.forest.unlink htree
    have hmem := mem_update_remove side h.forest htree
    have hnot : ∀ i, b ∉ inorder (Function.update trees (k.key o) (plug c (join side l r')) i) :=
      fun i hx => ((hmem i b).mp hx).2 rfl
    have hother : ∀ x, x ≠ b → Function.update t.offset b invalidRecordOffset x = t.offset x :=
      fun x hx => Function.update_of_ne hx _ _
    refine ⟨{ t with
      hashTable
      links
      offset := Function.update t.offset b invalidRecordOffset }, true,
      Function.update trees (k.key o) (plug c (join side l r')), ?_, ?_⟩
    · simp only [hunlink, Option.bind_eq_bind, Option.bind_some, Option.pure_def]
    · constructor
      case forest =>
        exact hf.congr rfl fun i x hx =>
          ⟨SameAt.refl _ _, hother x (ne_of_mem_of_not_mem hx (hnot i))⟩
      case next => exact h.next
      case slots =>
        intro i x hx
        obtain ⟨hx, hne⟩ := (hmem i x).mp hx
        dsimp only
        rw [hother x hne]
        exact h.slots i x hx
      case used =>
        intro x hx hp
        dsimp only
        by_cases hne : x = b
        · rw [hne]
          exact .inl (Function.update_self _ _ _)
        · rw [hother x hne, hmem]
          exact (h.used x hx hp).imp id fun hx => ⟨hx, hne⟩
      case given =>
        intro o' x
        dsimp only
        rw [slotOf_removed, hmem]
        by_cases ho' : o' = o
        · subst ho'
          rw [Function.update_self]
          refine ⟨nofun, fun ⟨⟨hx, hne⟩, hxo⟩ => ?_⟩
          rw [hother x hne] at hxo
          exact absurd (Option.some.inj ((hr x).mpr ⟨hx, hxo⟩)).symm hne
        · rw [Function.update_of_ne ho', h.given]
          constructor
          · rintro ⟨hx, hxo⟩
            have hne : x ≠ b := fun he => ho' (hxo.symm.trans (he ▸ hoffset))
            rw [hother x hne]
            exact ⟨⟨hx, hne⟩, hxo⟩
          · rintro ⟨⟨hx, hne⟩, hxo⟩
            rw [hother x hne] at hxo
            exact ⟨hx, hxo⟩

/-- What a call keeps. -/
theorem Inv.step (h : Inv k trees t log) {a : Action} (ha : Allowed k (some t) a) :
    ∃ t' trees', (step k (some t) a).1 = some t' ∧
      Inv k trees' t' (log ++ (RecordCache.step k (some t) a).2) := by
  have of_act : ∀ {t' e}, act k t a = some (t', e) → (∃ trees', Inv k trees' t' (log ++ [e])) →
      ∃ t' trees', (RecordCache.step k (some t) a).1 = some t' ∧
        Inv k trees' t' (log ++ (RecordCache.step k (some t) a).2) := by
    rintro t' e hact ⟨trees', h'⟩
    have hstep : RecordCache.step k (some t) a = (some t', [e]) := by
      unfold RecordCache.step
      rw [Option.bind_some, hact]
    rw [hstep]
    exact ⟨t', trees', rfl, h'⟩
  cases a with
  | setOffset o =>
    obtain ⟨t', b, trees', heq, h'⟩ := h.setOffset ha
    exact of_act (by rw [act, heq]; rfl) ⟨trees', h'⟩
  | insertOffset o =>
    obtain ⟨t', b, trees', heq, h'⟩ := h.insertOffset ha.1 (ha.2 t rfl)
    exact of_act (by rw [act, heq]; rfl) ⟨trees', h'⟩
  | removeOffset o =>
    obtain ⟨t', found, trees', heq, h'⟩ := h.removeOffset o
    exact of_act (by rw [act, heq]; rfl) ⟨trees', h'⟩
  | peekOffset o =>
    refine of_act (by rw [act, h.peek]; rfl) ⟨trees, h.forest, h.next, h.slots, h.used, ?_⟩
    rw [slotOf_peeked]
    exact h.given

/-- Over all calls with offsets of records, the cache is a forest of binary search trees that holds each
slot once at most, and `PeekOffset` returns the slot that was last given to an offset, if it still is. -/
theorem record_cache (k : Settings) (links : TreeLinks Nat) (offset : Nat → u64)
    (actions : List Action)
    (h : Guarded (step k) (Allowed k) (some (allocateCache links offset)) actions) :
    Sound k (exec (step k) (some (allocateCache links offset)) actions).1
      (exec (step k) (some (allocateCache links offset)) actions).2 := by
  have hrun := exec_inv (fun s log => ∃ t trees, s = some t ∧ Inv k trees t log)
    (fun s log a hs ha => by
      obtain ⟨t, trees, rfl, h⟩ := hs
      exact h.step ha) actions _ [] ⟨_, _, rfl, Inv.init links offset⟩ h
  rw [List.nil_append] at hrun
  obtain ⟨t, trees, ht, hi⟩ := hrun
  rw [ht]
  exact hi.sound

/-- Two slots: the third offset takes the first slot again. -/
theorem record_cache_two_slots :
    let k : Settings := ⟨32, 8, 80, by decide, by decide, by decide⟩
    let actions : List Action := [.setOffset 0, .insertOffset 8, .setOffset 16, .removeOffset 8,
      .peekOffset 0]
    let links : TreeLinks Nat := ⟨fun _ => none, fun _ _ => none⟩
    Sound k (exec (step k) (some (allocateCache links fun _ => 0)) actions).1
      (exec (step k) (some (allocateCache links fun _ => 0)) actions).2 := by
  intro k actions links
  apply record_cache
  refine ⟨(by decide : (0 : u64) ≠ invalidRecordOffset),
    ⟨(by decide : (8 : u64) ≠ invalidRecordOffset), fun t ht => ?_⟩,
    (by decide : (16 : u64) ≠ invalidRecordOffset), trivial, trivial, trivial⟩
  have hpeek : (step k (some (allocateCache links fun _ => 0)) (.setOffset 0)).1.map
      (fun t => peekOffset k t 8) = some (some none) := by decide
  rw [Option.mem_def.mp ht] at hpeek
  exact Option.some.inj hpeek

/-- One slot: the node of the invalid offset is not unlinked, and is the root of two trees. -/
theorem not_record_cache :
    let k : Settings := ⟨32, 8, 40, by decide, by decide, by decide⟩
    let links : TreeLinks Nat := ⟨fun _ => none, fun _ _ => none⟩
    let run := exec (step k) (some (allocateCache links fun _ => 0))
      [.setOffset invalidRecordOffset, .setOffset 5]
    ¬ Sound k run.1 run.2 := by
  intro k links run h
  obtain ⟨t, trees, ht, hf, -, honce, -⟩ := h.sound
  have h1 : run.1.map (fun t => t.hashTable (k.key invalidRecordOffset)) = some (some 0) := by decide
  have h2 : run.1.map (fun t => t.hashTable (k.key 5)) = some (some 0) := by decide
  rw [ht, Option.map_some] at h1 h2
  have hrep1 := hf.rep (k.key invalidRecordOffset)
  have hrep2 := hf.rep (k.key 5)
  rw [Option.some.inj h1] at hrep1
  rw [Option.some.inj h2] at hrep2
  exact absurd (honce _ _ 0 hrep1.mem hrep2.mem) (by decide)

end Runs

end Libcat.Db.RecordCache
