import Libcat.Lib.Intrusive
import Libcat.Lib.Run
import Libcat.Math.BitMath

/-!
# The connexion map

`ConnexionMap` of the roaming build: a table of Connexions by id, a free list that is embedded in a
second table, the number of Connexions and, for each flood key, the number of Connexions whose address
hashes to it.

The map lives in a `World` with all Connexion objects ever made. Its steps are what a server does: it
makes a Connexion and inserts it, a Connexion is destroyed (which removes it, once), and the server
shuts the map down. `ShutdownAll` clears the map first; the `Destroy` calls it goes on to make are
steps of their own.

- `MapOk` is what the four pieces of state are to each other, and `MapInv` the invariant.
- `map_ok_iff` says in which runs it holds throughout.
-/

namespace Libcat.Sphynx

open Intrusive

def invalidKey : Nat := 65535
def hashTableSize : Nat := 32768
def maxPopulation : Nat := hashTableSize / 2
def connectionFloodThreshold : Nat := 10
def mapPrealloc : Nat := 64

/-- A Connexion, as far as the map is concerned. -/
structure Connexion (ν : Type) where
  clientAddr : ν
  myId : Nat
  floodKey : Nat
  shutdown : Bool

/-- The map. Slots hold the numbers of Connexion objects. -/
structure ConnexionMap where
  isShutdown : Bool
  firstFree : Nat
  connTable : Nat → Option Nat
  freeTable : Nat → Nat
  mapAlloc : Nat
  floodTable : Nat → u8
  count : u32

inductive SphynxError where
  | noProblemo
  | shutdown
  | flood
  | serverFull
deriving DecidableEq

section Model

variable {ν : Type} (floodHash : ν → u32)

/-- `flood_hash_addr(addr, _flood_salt) & HASH_TABLE_MASK`. -/
def floodKeyOf (addr : ν) : Nat := (floodHash addr).toNat % hashTableSize

/-- `Lookup`. -/
def ConnexionMap.lookup (m : ConnexionMap) (key : Nat) : Option Nat :=
  if m.mapAlloc ≤ key then none else if m.isShutdown then none else m.connTable key

/-- `LookupCheckFlood`: the Connexion with the id, and whether the flood guard was triggered. -/
def ConnexionMap.lookupCheckFlood (m : ConnexionMap) (addr : ν) (id : u16) : Option Nat × Bool :=
  match m.lookup id.toNat with
  | some conn => (some conn, false)
  | none =>
    (none, decide (connectionFloodThreshold ≤ (m.floodTable (floodKeyOf floodHash addr)).toNat))

/-- The larger tables of `Insert`. The new free table has no entries for the old slots. -/
def ConnexionMap.expand (m : ConnexionMap) : ConnexionMap :=
  let oldAlloc := m.mapAlloc
  let newAlloc := oldAlloc * 2
  let newAlloc :=
    if maxPopulation < newAlloc then maxPopulation
    else if newAlloc < mapPrealloc then mapPrealloc else newAlloc
  { m with
      mapAlloc := newAlloc
      connTable := fun k => if k < oldAlloc then m.connTable k else none
      freeTable := fun k =>
        if k < oldAlloc then 0 else if k < newAlloc - 1 then k + 1 else invalidKey
      firstFree := oldAlloc }

/-- The end of `Insert`: the slot is given to the Connexion with number `i`. -/
def ConnexionMap.place (m : ConnexionMap) (slotId floodKey i : Nat) : ConnexionMap :=
  { m with
      connTable := Function.update m.connTable slotId (some i)
      firstFree := m.freeTable slotId
      count := m.count + 1
      floodTable := Function.update m.floodTable floodKey (m.floodTable floodKey + 1) }

/-- `Insert` of the Connexion with number `i`. -/
def ConnexionMap.insert (m : ConnexionMap) (conn : Connexion ν) (i : Nat) :
    ConnexionMap × Connexion ν × SphynxError :=
  let floodKey := floodKeyOf floodHash conn.clientAddr
  let placed (m : ConnexionMap) (slotId : Nat) :=
    (m.place slotId floodKey i, { conn with myId := slotId, floodKey := floodKey },
      SphynxError.noProblemo)
  if m.isShutdown then (m, conn, .shutdown)
  else if connectionFloodThreshold < (m.floodTable floodKey).toNat then (m, conn, .flood)
  else if m.firstFree = invalidKey then
    if maxPopulation ≤ m.mapAlloc then (m, conn, .serverFull)
    else placed m.expand m.mapAlloc
  else placed m m.firstFree

/-- `Remove`. -/
def ConnexionMap.remove (m : ConnexionMap) (conn : Connexion ν) : ConnexionMap :=
  let key := conn.myId
  if hashTableSize ≤ key then m
  else
    { m with
        connTable := Function.update m.connTable key none
        freeTable := Function.update m.freeTable key m.firstFree
        firstFree := key
        count := m.count - 1
        floodTable := Function.update m.floodTable conn.floodKey (m.floodTable conn.floodKey - 1) }

/-- `ShutdownAll`, up to its `Destroy` calls. -/
def ConnexionMap.shutdownAll (m : ConnexionMap) : ConnexionMap :=
  { m with
      isShutdown := true
      connTable := fun k => if k < m.mapAlloc then none else m.connTable k
      count := 0 }

structure World (ν : Type) where
  map : ConnexionMap
  conns : List (Connexion ν)

inductive MapOp (ν : Type) where
  | connect (addr : ν)
  | destroy (i : Nat)
  | shutdownAll

/-- A Connexion as its constructor leaves it. -/
def newConnexion (addr : ν) : Connexion ν := ⟨addr, invalidKey, 0, false⟩

/-- One step of the world; the log shows what `Insert` returned. -/
def mapStep (w : World ν) : MapOp ν → World ν × List SphynxError
  | .connect addr =>
    let r := w.map.insert floodHash (newConnexion addr) w.conns.length
    (⟨r.1, w.conns ++ [r.2.1]⟩, [r.2.2])
  | .destroy i =>
    match w.conns[i]? with
    | none => (w, [])
    | some conn =>
      -- `OnDestroy` is called by the first `Destroy` only
      if conn.shutdown then (w, [])
      else (⟨w.map.remove conn, w.conns.set i { conn with shutdown := true }⟩, [])
  | .shutdownAll => (⟨w.map.shutdownAll, w.conns⟩, [])

end Model

/-- The map as its constructor leaves it, with no Connexions. -/
def World.initial (ν : Type) : World ν where
  map :=
    { isShutdown := false
      firstFree := invalidKey
      connTable := fun _ => none
      freeTable := fun _ => 0
      mapAlloc := 0
      floodTable := fun _ => 0
      count := 0 }
  conns := []

/-! ## What the pieces of state are to each other -/

section Invariant

variable {ν : Type} {floodHash : ν → u32}

/-- A Connexion that has been inserted and not destroyed. -/
def Connexion.live (c : Connexion ν) : Bool := decide (c.myId ≠ invalidKey) && !c.shutdown

/-- The free slot a table entry points to. -/
def slotPtr (x : Nat) : Option Nat := if x = invalidKey then none else some x

/-- The slots below `_map_alloc` that are taken. -/
def ConnexionMap.occupied (m : ConnexionMap) : Finset Nat :=
  (Finset.range m.mapAlloc).filter fun k => (m.connTable k).isSome

theorem ConnexionMap.mem_occupied {m : ConnexionMap} {k : Nat} :
    k ∈ m.occupied ↔ k < m.mapAlloc ∧ (m.connTable k).isSome = true := by
  rw [ConnexionMap.occupied, Finset.mem_filter, Finset.mem_range]

/-- The free list. -/
def ConnexionMap.FreeList (m : ConnexionMap) (l : List Nat) : Prop :=
  Seg (fun k => slotPtr (m.freeTable k)) (slotPtr m.firstFree) l none

/-- The free list is acyclic and holds exactly the free slots, each live Connexion sits in exactly the
slot named by its id and every taken slot has one, and the counts are right. -/
structure MapOk (floodHash : ν → u32) (w : World ν) : Prop where
  free : ∃ l, w.map.FreeList l ∧ l.Nodup ∧
    ∀ k, k ∈ l ↔ k < w.map.mapAlloc ∧ w.map.connTable k = none
  seat : ∀ (i : Nat) (c : Connexion ν), w.conns[i]? = some c → c.live = true →
    c.myId < w.map.mapAlloc ∧ w.map.connTable c.myId = some i
  taken : ∀ k i, w.map.connTable k = some i → k < w.map.mapAlloc →
    ∃ c, w.conns[i]? = some c ∧ c.live = true ∧ c.myId = k
  count : w.map.count.toNat = w.map.occupied.card
  flood : ∀ f, (w.map.floodTable f).toNat =
    w.conns.countP fun c => c.live && decide (floodKeyOf floodHash c.clientAddr = f)

/-- What keeps it so. -/
structure MapInv (floodHash : ν → u32) (w : World ν) : Prop extends MapOk floodHash w where
  alloc : w.map.mapAlloc ≤ maxPopulation
  keys : ∀ c ∈ w.conns, c.live = true → c.floodKey = floodKeyOf floodHash c.clientAddr
  bound : ∀ f, (w.map.floodTable f).toNat ≤ connectionFloodThreshold + 1
  ids : ∀ c ∈ w.conns, c.myId = invalidKey ∨ c.myId < maxPopulation

theorem MapInv.initial : MapInv floodHash (World.initial ν) where
  free := ⟨[], by simp [World.initial, ConnexionMap.FreeList, Seg, slotPtr], List.nodup_nil,
    by simp [World.initial]⟩
  seat := by simp [World.initial]
  taken := by simp [World.initial]
  count := by simp [World.initial, ConnexionMap.occupied]
  flood := by simp [World.initial]
  alloc := by simp [World.initial]
  keys := by simp [World.initial]
  bound := by simp [World.initial]
  ids := by simp [World.initial]

theorem newConnexion_not_live (addr : ν) : (newConnexion addr).live = false := by
  simp [newConnexion, Connexion.live]

/-- A Connexion that the map rejects. -/
theorem MapInv.reject {w : World ν} (h : MapInv floodHash w) (addr : ν) :
    MapInv floodHash ⟨w.map, w.conns ++ [newConnexion addr]⟩ where
  free := h.free
  seat := by
    intro i c hc hlive
    rw [List.getElem?_append] at hc
    split at hc
    · exact h.seat i c hc hlive
    · have : c = newConnexion addr := by
        rw [List.getElem?_singleton] at hc
        split at hc
        · exact (Option.some.inj hc).symm
        · simp at hc
      rw [this, newConnexion_not_live] at hlive
      exact absurd hlive (by simp)
  taken := by
    intro k i hk hlt
    obtain ⟨c, hc, hlive, hid⟩ := h.taken k i hk hlt
    exact ⟨c, by rw [List.getElem?_append_left (List.getElem?_eq_some_iff.mp hc).1]; exact hc,
      hlive, hid⟩
  count := h.count
  flood := by
    intro f
    rw [List.countP_append, h.flood f]
    simp [newConnexion_not_live]
  alloc := h.alloc
  keys := by
    intro c hc hlive
    rcases List.mem_append.mp hc with hc | hc
    · exact h.keys c hc hlive
    · rw [List.mem_singleton.mp hc, newConnexion_not_live] at hlive
      exact absurd hlive (by simp)
  bound := h.bound
  ids := by
    intro c hc
    rcases List.mem_append.mp hc with hc | hc
    · exact h.ids c hc
    · exact .inl (by rw [List.mem_singleton.mp hc]; rfl)

/-- The free slots of an expanded table, one after the other. -/
theorem seg_expand {next : Nat → Option Nat} (n : Nat) : ∀ a : Nat,
    (∀ k, a ≤ k → k < a + n → next k = some (k + 1)) → next (a + n) = none →
    Seg next (some a) (List.range' a (n + 1)) none := by
  induction n with
  | zero => intro a _ hend; exact ⟨rfl, hend⟩
  | succ n ih =>
    intro a hnext hend
    refine ⟨rfl, ?_⟩
    rw [hnext a (Nat.le_refl _) (by omega)]
    exact ih (a + 1) (fun k hk hlt => hnext k (by omega) (by omega))
      (by rw [show a + 1 + n = a + (n + 1) by omega]; exact hend)

theorem lt_mapAlloc_expand (m : ConnexionMap) (h : m.mapAlloc < maxPopulation) :
    m.mapAlloc < m.expand.mapAlloc ∧ m.expand.mapAlloc ≤ maxPopulation := by
  simp only [ConnexionMap.expand]
  have : mapPrealloc = 64 := rfl
  have : maxPopulation = 16384 := rfl
  split
  · omega
  · split <;> omega

/-- Larger tables, when every slot is taken. -/
theorem MapInv.expand {w : World ν} (h : MapInv floodHash w) (hfull : w.map.firstFree = invalidKey)
    (hroom : w.map.mapAlloc < maxPopulation) : MapInv floodHash ⟨w.map.expand, w.conns⟩ := by
  obtain ⟨hlt, hle⟩ := lt_mapAlloc_expand w.map hroom
  have hmax : maxPopulation = 16384 := rfl
  have hinv : invalidKey = 65535 := rfl
  obtain ⟨l, hl, -, hmem⟩ := h.free
  have hnil : l = [] := by
    have : slotPtr w.map.firstFree = none := by rw [slotPtr, if_pos hfull]
    have hhead := hl.head
    rw [this] at hhead
    exact List.head?_eq_none_iff.mp hhead.symm
  have htaken : ∀ k, k < w.map.mapAlloc → w.map.connTable k ≠ none := fun k hk hn => by
    have := (hmem k).mpr ⟨hk, hn⟩
    simp [hnil] at this
  have htable : ∀ k, k < w.map.mapAlloc → w.map.expand.connTable k = w.map.connTable k :=
    fun k hk => by simp [ConnexionMap.expand, hk]
  have hbeyond : ∀ k, w.map.mapAlloc ≤ k → w.map.expand.connTable k = none := fun k hk => by
    simp [ConnexionMap.expand, Nat.not_lt.mpr hk]
  have hfree : ∀ k, w.map.mapAlloc ≤ k → w.map.expand.freeTable k =
      if k < w.map.expand.mapAlloc - 1 then k + 1 else invalidKey := fun k hk =>
    if_neg (by omega)
  refine ⟨⟨?_, ?_, ?_, ?_, h.flood⟩, hle, h.keys, h.bound, h.ids⟩
  · refine ⟨List.range' w.map.mapAlloc (w.map.expand.mapAlloc - w.map.mapAlloc), ?_,
      List.nodup_range', fun k => ?_⟩
    · obtain ⟨n, hn⟩ : ∃ n, w.map.expand.mapAlloc = w.map.mapAlloc + n + 1 :=
        ⟨w.map.expand.mapAlloc - w.map.mapAlloc - 1, by omega⟩
      have hptr : slotPtr w.map.expand.firstFree = some w.map.mapAlloc := by
        rw [slotPtr, if_neg]
        · rfl
        · change w.map.mapAlloc ≠ invalidKey
          omega
      rw [ConnexionMap.FreeList, hptr, hn,
        show w.map.mapAlloc + n + 1 - w.map.mapAlloc = n + 1 by omega]
      refine seg_expand n _ (fun k hk hkn => ?_) ?_
      · simp only [hfree k hk, hn]
        rw [if_pos (by omega), slotPtr, if_neg (by omega)]
      · simp only [hfree _ (show w.map.mapAlloc ≤ w.map.mapAlloc + n by omega), hn]
        rw [if_neg (by omega), slotPtr, if_pos rfl]
    · rw [List.mem_range'_1]
      constructor
      · intro ⟨h1, h2⟩
        exact ⟨by simp only; omega, hbeyond k h1⟩
      · rintro ⟨h1, h2⟩
        simp only at h1
        refine ⟨?_, by omega⟩
        by_contra hk
        rw [htable k (by omega)] at h2
        exact htaken k (by omega) h2
  · intro i c hc hlive
    obtain ⟨h1, h2⟩ := h.seat i c hc hlive
    exact ⟨Nat.lt_trans h1 hlt, (htable _ h1).trans h2⟩
  · intro k i hk _
    have hk' : k < w.map.mapAlloc := by
      by_contra hge
      rw [hbeyond k (by omega)] at hk
      simp at hk
    exact h.taken k i ((htable k hk').symm.trans hk) hk'
  · have hocc : w.map.expand.occupied = w.map.occupied := by
      ext k
      rw [ConnexionMap.mem_occupied, ConnexionMap.mem_occupied]
      constructor
      · rintro ⟨-, hs⟩
        by_cases hk : k < w.map.mapAlloc
        · exact ⟨hk, by rwa [htable k hk] at hs⟩
        · rw [hbeyond k (by omega)] at hs
          simp at hs
      · rintro ⟨hk, hs⟩
        exact ⟨by omega, by rwa [htable k hk]⟩
    simp only [hocc]
    exact h.count

/-- A free slot is given to a new Connexion. -/
theorem MapInv.place {w : World ν} (h : MapInv floodHash w) {addr : ν} {k f : Nat}
    (hk : w.map.firstFree = k) (hf : floodKeyOf floodHash addr = f) (hslot : k ≠ invalidKey)
    (hflood : (w.map.floodTable f).toNat ≤ connectionFloodThreshold) :
    MapInv floodHash
      ⟨w.map.place k f w.conns.length, w.conns ++ [⟨addr, k, f, false⟩]⟩ := by
  have hthreshold : connectionFloodThreshold = 10 := rfl
  have hmax : maxPopulation = 16384 := rfl
  obtain ⟨l, hl, hnd, hmem⟩ := h.free
  -- the slot is the head of the free list
  obtain ⟨l, rfl⟩ : ∃ l', l = k :: l' := by
    have hhead := hl.head
    rw [hk, slotPtr, if_neg hslot] at hhead
    cases l with
    | nil => simp at hhead
    | cons a l => exact ⟨l, by rw [Option.some.inj hhead]⟩
  obtain ⟨hkl, hnd'⟩ := List.nodup_cons.mp hnd
  obtain ⟨hklt, hknone⟩ := (hmem k).mp (by simp)
  have hlive : (⟨addr, k, f, false⟩ : Connexion ν).live = true := by
    simp [Connexion.live, hslot]
  have hocc : (w.map.place k f w.conns.length).occupied = insert k w.map.occupied := by
    ext j
    rw [Finset.mem_insert, ConnexionMap.mem_occupied, ConnexionMap.mem_occupied]
    simp only [ConnexionMap.place]
    by_cases hj : j = k
    · subst hj
      simp [hklt]
    · simp [hj]
  have hkocc : k ∉ w.map.occupied := by simp [ConnexionMap.mem_occupied, hknone]
  refine ⟨⟨?_, ?_, ?_, ?_, ?_⟩, h.alloc, ?_, ?_, ?_⟩
  · refine ⟨l, hl.2, hnd', fun j => ?_⟩
    simp only [ConnexionMap.place]
    by_cases hj : j = k
    · subst hj
      simp [hkl]
    · rw [Function.update_of_ne hj, ← hmem j, List.mem_cons]
      simp [hj]
  · intro i c hc hc'
    rw [List.getElem?_append] at hc
    split at hc
    · obtain ⟨h1, h2⟩ := h.seat i c hc hc'
      refine ⟨h1, ?_⟩
      simp only [ConnexionMap.place]
      rw [Function.update_of_ne, h2]
      intro he
      rw [he, hknone] at h2
      simp at h2
    · next hge =>
      rw [List.getElem?_singleton] at hc
      split at hc
      · next hz =>
        obtain rfl := Option.some.inj hc
        refine ⟨hklt, ?_⟩
        simp only [ConnexionMap.place]
        rw [Function.update_self, show i = w.conns.length by omega]
      · simp at hc
  · intro j i hj hjlt
    simp only [ConnexionMap.place] at hj
    by_cases hjk : j = k
    · rw [hjk, Function.update_self] at hj
      obtain rfl := Option.some.inj hj
      exact ⟨_, by simp, hlive, hjk.symm⟩
    · rw [Function.update_of_ne hjk] at hj
      obtain ⟨c, hc, hc1, hc2⟩ := h.taken j i hj hjlt
      exact ⟨c, by rw [List.getElem?_append_left (List.getElem?_eq_some_iff.mp hc).1]; exact hc,
        hc1, hc2⟩
  · rw [hocc, Finset.card_insert_of_notMem hkocc, ← h.count]
    have hcard : w.map.occupied.card ≤ w.map.mapAlloc :=
      (Finset.card_filter_le _ _).trans (by simp)
    have := h.count
    have := h.alloc
    simp only [ConnexionMap.place]
    bv_omega
  · intro g
    rw [List.countP_append, List.countP_singleton]
    simp only [ConnexionMap.place, hlive, Bool.true_and]
    by_cases hg : g = f
    · have hold := h.flood f
      rw [hg, Function.update_self, ← hold]
      simp only [hf, decide_true, if_true]
      bv_omega
    · rw [Function.update_of_ne hg, ← h.flood g]
      simp [hf, Ne.symm hg]
  · intro c hc hc'
    rcases List.mem_append.mp hc with hc | hc
    · exact h.keys c hc hc'
    · rw [List.mem_singleton.mp hc]
      exact hf.symm
  · intro g
    simp only [ConnexionMap.place]
    by_cases hg : g = f
    · rw [hg, Function.update_self]
      bv_omega
    · rw [Function.update_of_ne hg]
      exact h.bound g
  · intro c hc
    rcases List.mem_append.mp hc with hc | hc
    · exact h.ids c hc
    · rw [List.mem_singleton.mp hc]
      exact .inr (Nat.lt_of_lt_of_le hklt h.alloc)

/-- `Insert`, on every path. -/
theorem MapInv.connect {w : World ν} (h : MapInv floodHash w) (addr : ν) :
    MapInv floodHash (mapStep floodHash w (.connect addr)).1 := by
  simp only [mapStep, ConnexionMap.insert]
  have hinv : invalidKey = 65535 := rfl
  have hmax : maxPopulation = 16384 := rfl
  split
  · exact h.reject addr
  split
  · exact h.reject addr
  next hflood =>
  have hflood' : (w.map.floodTable (floodKeyOf floodHash addr)).toNat ≤ connectionFloodThreshold :=
    Nat.not_lt.mp hflood
  split
  · next hfull =>
    split
    · exact h.reject addr
    · next hroom =>
      have hx := h.expand hfull (by omega)
      exact hx.place rfl rfl (by omega) hflood'
  · next hslot => exact h.place rfl rfl hslot hflood'

/-- A live Connexion leaves its slot. -/
theorem MapInv.remove {w : World ν} (h : MapInv floodHash w) {i : Nat} {c : Connexion ν}
    (hi : w.conns[i]? = some c) (hlive : c.live = true) :
    MapInv floodHash ⟨w.map.remove c, w.conns.set i { c with shutdown := true }⟩ := by
  obtain ⟨hlt, hseat⟩ := h.seat i c hi hlive
  have hilt : i < w.conns.length := (List.getElem?_eq_some_iff.mp hi).1
  have hic : w.conns[i] = c := (List.getElem?_eq_some_iff.mp hi).2
  have hmax : maxPopulation = 16384 := rfl
  have hsize : hashTableSize = 32768 := rfl
  have hinv : invalidKey = 65535 := rfl
  have halloc := h.alloc
  have hrem : w.map.remove c =
      { w.map with
          connTable := Function.update w.map.connTable c.myId none
          freeTable := Function.update w.map.freeTable c.myId w.map.firstFree
          firstFree := c.myId
          count := w.map.count - 1
          floodTable := Function.update w.map.floodTable c.floodKey
            (w.map.floodTable c.floodKey - 1) } := by
    unfold ConnexionMap.remove
    rw [if_neg (by omega)]
  have hdead : ({ c with shutdown := true } : Connexion ν).live = false := by
    simp [Connexion.live]
  have hfkey : c.floodKey = floodKeyOf floodHash c.clientAddr :=
    h.keys c (List.mem_of_getElem? hi) hlive
  obtain ⟨l, hl, hnd, hmem⟩ := h.free
  have hkl : c.myId ∉ l := fun hm => by
    have := ((hmem _).mp hm).2
    rw [hseat] at this
    simp at this
  have hkocc : c.myId ∈ w.map.occupied := by simp [ConnexionMap.mem_occupied, hlt, hseat]
  have hocc : (w.map.remove c).occupied = w.map.occupied.erase c.myId := by
    ext j
    rw [Finset.mem_erase, ConnexionMap.mem_occupied, ConnexionMap.mem_occupied, hrem]
    simp only
    by_cases hj : j = c.myId
    · subst hj
      simp
    · simp [hj]
  refine ⟨⟨?_, ?_, ?_, ?_, ?_⟩, ?_, ?_, ?_, ?_⟩
  · refine ⟨c.myId :: l, ?_, List.nodup_cons.mpr ⟨hkl, hnd⟩, fun j => ?_⟩
    · rw [hrem]
      refine ⟨by simp only [slotPtr]; rw [if_neg (by omega)], ?_⟩
      simp only [Function.update_self]
      refine Seg.congr (fun a ha => ?_) hl
      have hne : a ≠ c.myId := fun he => hkl (he ▸ ha)
      rw [Function.update_of_ne hne]
    · rw [hrem, List.mem_cons, hmem j]
      simp only
      by_cases hj : j = c.myId
      · subst hj
        simp [hlt]
      · rw [Function.update_of_ne hj]
        simp [hj]
  · intro j d hd hd'
    rw [List.getElem?_set, if_pos hilt] at hd
    split at hd
    · rw [← Option.some.inj hd, hdead] at hd'
      exact absurd hd' (by simp)
    · next hij =>
      obtain ⟨h1, h2⟩ := h.seat j d hd hd'
      rw [hrem]
      refine ⟨h1, ?_⟩
      simp only
      rw [Function.update_of_ne, h2]
      intro he
      rw [he, hseat] at h2
      exact hij (Option.some.inj h2)
  · intro k j hk hklt
    rw [hrem] at hk hklt
    simp only at hk hklt
    by_cases hkc : k = c.myId
    · rw [hkc, Function.update_self] at hk
      simp at hk
    · rw [Function.update_of_ne hkc] at hk
      obtain ⟨d, hd, hd1, hd2⟩ := h.taken k j hk hklt
      refine ⟨d, ?_, hd1, hd2⟩
      rw [List.getElem?_set_ne, hd]
      intro hij
      rw [← hij, hi] at hd
      exact hkc (by rw [← hd2, Option.some.inj hd])
  · rw [hocc, Finset.card_erase_of_mem hkocc, ← h.count]
    have hpos : 0 < w.map.count.toNat := by
      rw [h.count]
      exact Finset.card_pos.mpr ⟨_, hkocc⟩
    rw [hrem]
    simp only
    bv_omega
  · intro g
    rw [List.countP_set hilt]
    simp only [hic, hdead, hlive, Bool.true_and, Bool.false_and, Bool.false_eq_true, if_false,
      Nat.add_zero, decide_eq_true_eq]
    rw [← h.flood g, hrem]
    simp only
    by_cases hg : g = c.floodKey
    · have hpos : 0 < (w.map.floodTable c.floodKey).toNat := by
        rw [h.flood, List.countP_pos_iff]
        exact ⟨c, List.mem_of_getElem? hi, by simp [hlive, hfkey]⟩
      rw [hg, Function.update_self, if_pos hfkey.symm]
      bv_omega
    · rw [Function.update_of_ne hg, if_neg (fun he => hg (by rw [hfkey, he]))]
      rfl
  · rw [hrem]
    exact h.alloc
  · intro d hd hd'
    rcases List.mem_or_eq_of_mem_set hd with hd | rfl
    · exact h.keys d hd hd'
    · rw [hdead] at hd'
      exact absurd hd' (by simp)
  · intro g
    rw [hrem]
    simp only
    by_cases hg : g = c.floodKey
    · have := h.bound c.floodKey
      have hpos : 0 < (w.map.floodTable c.floodKey).toNat := by
        rw [h.flood, List.countP_pos_iff]
        exact ⟨c, List.mem_of_getElem? hi, by simp [hlive, hfkey]⟩
      rw [hg, Function.update_self]
      bv_omega
    · rw [Function.update_of_ne hg]
      exact h.bound g
  · intro d hd
    rcases List.mem_or_eq_of_mem_set hd with hd | rfl
    · exact h.ids d hd
    · exact h.ids c (List.mem_of_getElem? hi)

/-- A Connexion that was never inserted is not removed. -/
theorem MapInv.drop {w : World ν} (h : MapInv floodHash w) {i : Nat} {c : Connexion ν}
    (hi : w.conns[i]? = some c) (hid : c.myId = invalidKey) :
    MapInv floodHash ⟨w.map.remove c, w.conns.set i { c with shutdown := true }⟩ := by
  have hilt : i < w.conns.length := (List.getElem?_eq_some_iff.mp hi).1
  have hic : w.conns[i] = c := (List.getElem?_eq_some_iff.mp hi).2
  have hrem : w.map.remove c = w.map := by
    unfold ConnexionMap.remove
    rw [if_pos (by rw [hid]; decide)]
  have hdead : c.live = false ∧ ({ c with shutdown := true } : Connexion ν).live = false := by
    simp [Connexion.live, hid]
  rw [hrem]
  refine ⟨⟨h.free, ?_, ?_, h.count, ?_⟩, h.alloc, ?_, h.bound, ?_⟩
  · intro j d hd hd'
    rw [List.getElem?_set, if_pos hilt] at hd
    split at hd
    · rw [← Option.some.inj hd, hdead.2] at hd'
      exact absurd hd' (by simp)
    · exact h.seat j d hd hd'
  · intro k j hk hklt
    obtain ⟨d, hd, hd1, hd2⟩ := h.taken k j hk hklt
    refine ⟨d, ?_, hd1, hd2⟩
    rw [List.getElem?_set_ne, hd]
    intro hij
    rw [← hij, hi] at hd
    rw [← Option.some.inj hd, hdead.1] at hd1
    exact absurd hd1 (by simp)
  · intro g
    rw [List.countP_set hilt, h.flood g]
    simp [hic, hdead.1, hdead.2]
  · intro d hd hd'
    rcases List.mem_or_eq_of_mem_set hd with hd | rfl
    · exact h.keys d hd hd'
    · rw [hdead.2] at hd'
      exact absurd hd' (by simp)
  · intro d hd
    rcases List.mem_or_eq_of_mem_set hd with hd | rfl
    · exact h.ids d hd
    · exact h.ids c (List.mem_of_getElem? hi)

/-- `Destroy`, for the first time or not. -/
theorem MapInv.destroy {w : World ν} (h : MapInv floodHash w) (i : Nat) :
    MapInv floodHash (mapStep floodHash w (.destroy i)).1 := by
  simp only [mapStep]
  split
  · exact h
  next c hi =>
  split
  · exact h
  next hs =>
  by_cases hid : c.myId = invalidKey
  · exact h.drop hi hid
  · exact h.remove hi (by simp [Connexion.live, hid, hs])

/-- No slot is taken when the map is shut down. -/
def ShutdownEmpty (w : World ν) : MapOp ν → Prop
  | .shutdownAll => w.map.occupied = ∅
  | _ => True

/-- `ShutdownAll` of an empty map. -/
theorem MapInv.shutdownAll {w : World ν} (h : MapInv floodHash w) (hempty : w.map.occupied = ∅) :
    MapInv floodHash (mapStep floodHash w .shutdownAll).1 := by
  have htable : w.map.shutdownAll.connTable = w.map.connTable := by
    funext k
    simp only [ConnexionMap.shutdownAll]
    split
    · next hk =>
      by_contra hne
      have : k ∈ w.map.occupied :=
        ConnexionMap.mem_occupied.mpr ⟨hk, Option.isSome_iff_ne_none.mpr (Ne.symm hne)⟩
      simp [hempty] at this
    · rfl
  have hocc : w.map.shutdownAll.occupied = w.map.occupied := by
    ext k
    rw [ConnexionMap.mem_occupied, ConnexionMap.mem_occupied, htable]
    rfl
  refine ⟨⟨?_, ?_, ?_, ?_, h.flood⟩, h.alloc, h.keys, h.bound, h.ids⟩
  · simp only [mapStep, htable]
    exact h.free
  · simp only [mapStep, htable]
    exact h.seat
  · simp only [mapStep, htable]
    exact h.taken
  · simp only [mapStep]
    rw [hocc, hempty]
    rfl

theorem MapInv.step {w : World ν} (h : MapInv floodHash w) (op : MapOp ν)
    (hop : ShutdownEmpty w op) : MapInv floodHash (mapStep floodHash w op).1 := by
  cases op with
  | connect addr => exact h.connect addr
  | destroy i => exact h.destroy i
  | shutdownAll => exact h.shutdownAll hop

/-- A slot that `ShutdownAll` clears is not in the free list. -/
theorem MapOk.occupied_of_shutdown {w : World ν} (h : MapOk floodHash w)
    (h' : MapOk floodHash (mapStep floodHash w .shutdownAll).1) : w.map.occupied = ∅ := by
  obtain ⟨l, hl, -, hmem⟩ := h.free
  obtain ⟨l', hl', -, hmem'⟩ := h'.free
  have hll : l = l' := hl.unique hl'
  subst hll
  refine Finset.eq_empty_of_forall_notMem fun k hk => ?_
  obtain ⟨hlt, hsome⟩ := ConnexionMap.mem_occupied.mp hk
  have hin : k ∈ l := (hmem' k).mpr ⟨hlt, if_pos hlt⟩
  have hnone := ((hmem k).mp hin).2
  rw [hnone] at hsome
  simp at hsome

/-! ## Runs -/

/-- **The map over a whole run** of any server: the pieces of state agree in every state that is
reached exactly if the map is shut down only while no slot is taken. -/
theorem map_ok_iff (floodHash : ν → u32) (ops : List (MapOp ν)) :
    (∀ n, MapOk floodHash (Run.exec (mapStep floodHash) (World.initial ν) (ops.take n)).1) ↔
      Run.Guarded (mapStep floodHash) ShutdownEmpty (World.initial ν) ops := by
  refine Run.holds_iff_guarded (fun _ h => h.toMapOk) (fun _ op h _ hop => h.step op hop)
    (fun w op h _ hok => ?_) ops _ MapInv.initial (Run.guarded_true ops _)
  cases op with
  | connect => trivial
  | destroy => trivial
  | shutdownAll => exact h.occupied_of_shutdown hok

end Invariant

/-- One Connexion, and the map is shut down: its slot is neither taken nor free. When the Connexion is
destroyed, the count of no Connexions goes down by one. -/
theorem not_map_ok_shutdown :
    let ops : List (MapOp Unit) := [.connect (), .shutdownAll, .destroy 0]
    (¬ ∀ n, MapOk (fun _ => 0)
      (Run.exec (mapStep fun _ => 0) (World.initial Unit) (ops.take n)).1) ∧
    (Run.exec (mapStep fun _ => 0) (World.initial Unit) ops).1.map.count = 0xffffffff := by
  refine ⟨fun h => ?_, by decide⟩
  have := (h 1).occupied_of_shutdown (h 2)
  revert this
  decide

end Libcat.Sphynx
