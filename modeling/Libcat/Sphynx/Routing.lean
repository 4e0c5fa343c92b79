import Libcat.Mem.BatchSet
import Libcat.Sphynx.ConnexionMap

/-!
# Routing of received batches

`Server::OnRecvRouting`: the buffers of a batch are sorted into one bin per worker and a garbage list,
all through the same `batch_next` pointers. The id behind the last datagram and the Connexion found
for it are kept from one buffer to the next.

- `classify` follows the branches that decide where a buffer goes, `routeBuffer` links it there.
- `LinkInv` and `CacheInv` are the invariants of the walk; `routing_iff` says when every datagram of a
  live Connexion comes to its worker.
-/

namespace Libcat.Sphynx

open Intrusive Mem

def maxWorkerThreads : Nat := 32

/-- Who handles a buffer: a Connexion, or the server itself. -/
inductive Callback where
  | connexion (conn : Nat)
  | server
deriving DecidableEq

/-- What the routing reads: the datagrams and their sources, the map, the worker of each Connexion. -/
structure RouteEnv (α ν : Type) where
  bytes : α → List u8
  addr : α → ν
  map : ConnexionMap
  floodHash : ν → u32
  workerOf : Nat → Nat
  workerCount : Nat

/-- What is kept from one buffer to the next, with the references given so far. -/
structure RouteCache (α : Type) where
  prevBuffer : Option α
  prevBufferId : u16
  conn : Option Nat
  workerId : Nat
  addRefCount : Nat
  connectWorker : Nat
  refs : Nat → Nat
  callback : α → Option Callback

structure RouteState (α : Type) where
  cache : RouteCache α
  next : α → Option α
  garbage : BatchSet α
  garbageCount : Nat
  bins : Nat → BatchSet α
  valid : Nat → Bool

section Model

variable {α ν : Type} [DecidableEq α] (env : RouteEnv α ν)

/-- The two bytes at the end, little-endian. -/
def sourceId (bytes : List u8) : u16 :=
  (bytes.getD (bytes.length - 2) 0).setWidth 16 |||
    ((bytes.getD (bytes.length - 1) 0).setWidth 16 <<< 8)

/-- References added to a Connexion. -/
def addRef (refs : Nat → Nat) : Option Nat → Nat → (Nat → Nat)
  | some conn, n => Function.update refs conn (refs conn + n)
  | none, _ => refs

omit [DecidableEq α] in
/-- The references that have been put off. -/
def RouteCache.flush (c : RouteCache α) : RouteCache α :=
  { c with refs := addRef c.refs c.conn c.addRefCount, addRefCount := 0 }

/-- Where a buffer goes: to the bin of a worker, or to the garbage. -/
def classify (c : RouteCache α) (buffer : α) : RouteCache α × Option Nat :=
  if (env.bytes buffer).length < 2 then (c, none)
  else
    let id := sourceId (env.bytes buffer)
    if c.prevBuffer = none ∨ id ≠ c.prevBufferId then
      let c := c.flush
      let r := env.map.lookupCheckFlood env.floodHash (env.addr buffer) id
      -- `Lookup` adds a reference to what it finds
      let c := { c with conn := r.1, refs := addRef c.refs r.1 1 }
      if r.2 then (c, none)
      else
        match r.1 with
        | some conn =>
          ({ c with
              workerId := env.workerOf conn
              callback := Function.update c.callback buffer (some (.connexion conn))
              prevBuffer := some buffer
              prevBufferId := id }, some (env.workerOf conn))
        | none =>
          let connectWorker := if env.workerCount ≤ c.connectWorker + 1 then 0
            else c.connectWorker + 1
          ({ c with
              connectWorker := connectWorker
              workerId := connectWorker
              callback := Function.update c.callback buffer (some .server)
              prevBuffer := some buffer
              prevBufferId := id }, some connectWorker)
    else
      match c.conn with
      | some conn =>
        ({ c with
            addRefCount := c.addRefCount + 1
            callback := Function.update c.callback buffer (some (.connexion conn)) },
          some c.workerId)
      | none => (c, none)

/-- The end of a bin, or its start if it is not valid yet. -/
def RouteState.pushBin (s : RouteState α) (worker : Nat) (buffer : α) : RouteState α :=
  let next := Function.update s.next buffer none
  if s.valid worker then
    let next := match (s.bins worker).tail with
      | some tail => Function.update next tail (some buffer)
      | none => next
    { s with
        next := next
        bins := Function.update s.bins worker ⟨(s.bins worker).head, some buffer⟩ }
  else
    { s with
        next := next
        bins := Function.update s.bins worker ⟨some buffer, some buffer⟩
        valid := Function.update s.valid worker true }

/-- One buffer of the batch. -/
def routeBuffer (s : RouteState α) (buffer : α) : RouteState α :=
  match classify env s.cache buffer with
  | (cache, none) =>
    let p := s.garbage.pushBack s.next buffer
    { s with
        cache := cache
        next := p.1
        garbage := p.2
        garbageCount := s.garbageCount + 1 }
  | (cache, some worker) => { s with cache := cache }.pushBin worker buffer

/-- What the routing leaves: the bins that are delivered, by worker, and the garbage. -/
structure RouteResult (α : Type) where
  next : α → Option α
  delivered : List (Nat × BatchSet α)
  garbage : BatchSet α
  garbageCount : Nat
  refs : Nat → Nat
  callback : α → Option Callback
  connectWorker : Nat

omit [DecidableEq α] in
/-- The local variables before the first buffer; `uninitialized` is what they hold otherwise. -/
def RouteState.start (uninitialized : RouteState α) (connectWorker : Nat) (next : α → Option α) :
    RouteState α :=
  { uninitialized with
      cache := { uninitialized.cache with
        prevBuffer := none
        prevBufferId := BitVec.ofNat 16 invalidKey
        addRefCount := 0
        connectWorker := connectWorker
        refs := fun _ => 0 }
      next := next
      garbage := BatchSet.clear
      garbageCount := 0
      valid := fun _ => false }

omit [DecidableEq α] in
/-- What is delivered after the last buffer. -/
def RouteState.result (s : RouteState α) : RouteResult α :=
  let cache := s.cache.flush
  { next := s.next
    delivered := ((List.range maxWorkerThreads).filter s.valid).map fun w => (w, s.bins w)
    garbage := s.garbage
    garbageCount := s.garbageCount
    refs := cache.refs
    callback := cache.callback
    connectWorker := cache.connectWorker }

end Model

/-! ## What is to hold -/

section Spec

variable {α ν : Type}

/-- The buffers that went to a worker, in order of arrival. -/
def binOf (places : List (α × Option Nat)) (worker : Nat) : List α :=
  places.filterMap fun x => if x.2 = some worker then some x.1 else none

/-- The buffers that went to the garbage. -/
def garbageOf (places : List (α × Option Nat)) : List α :=
  places.filterMap fun x => if x.2 = none then some x.1 else none

/-- Every buffer of the batch is in one place, and each Connexion has gained as many references as
buffers were routed to it. -/
structure Placed (batch : List α) (out : RouteResult α) (places : List (α × Option Nat)) : Prop where
  batch : places.map Prod.fst = batch
  garbage : out.garbage.Holds out.next (garbageOf places)
  garbageCount : out.garbageCount = (garbageOf places).length
  delivered : ∀ w, w ∈ out.delivered.map Prod.fst ↔ binOf places w ≠ []
  once : (out.delivered.map Prod.fst).Nodup
  bins : ∀ x ∈ out.delivered, x.2.Holds out.next (binOf places x.1)
  refs : ∀ c, out.refs c =
    places.countP fun x => x.2.isSome && decide (out.callback x.1 = some (.connexion c))

/-- The datagram carries the id of a live Connexion. -/
def RouteEnv.Live (env : RouteEnv α ν) (b : α) (c : Nat) : Prop :=
  2 ≤ (env.bytes b).length ∧ env.map.lookup (sourceId (env.bytes b)).toNat = some c

/-- The datagram has an unknown id and comes from an address that the flood guard stops. -/
def RouteEnv.Flooded (env : RouteEnv α ν) (b : α) : Prop :=
  2 ≤ (env.bytes b).length ∧
    env.map.lookupCheckFlood env.floodHash (env.addr b) (sourceId (env.bytes b)) = (none, true)

/-- Two datagrams of one live Connexion with nothing between them but datagrams that are too short or
flooded, and some that are flooded. -/
def FloodBetween (env : RouteEnv α ν) (batch : List α) : Prop :=
  ∃ pre a mid b post, batch = pre ++ a :: (mid ++ b :: post) ∧ (∃ c, env.Live a c) ∧
    2 ≤ (env.bytes b).length ∧ sourceId (env.bytes a) = sourceId (env.bytes b) ∧
    (∀ f ∈ mid, (env.bytes f).length < 2 ∨ env.Flooded f) ∧ ∃ f ∈ mid, env.Flooded f

end Spec

/-! ## Linking -/

section Linking

variable {α ν : Type} [DecidableEq α]

omit [DecidableEq α] in
theorem mem_binOf {places : List (α × Option Nat)} {w : Nat} {b : α} :
    b ∈ binOf places w ↔ (b, some w) ∈ places := by
  unfold binOf
  rw [List.mem_filterMap]
  constructor
  · rintro ⟨⟨a, p⟩, hx, h⟩
    split at h
    · next hp =>
      simp only at hp
      obtain rfl := Option.some.inj h
      rwa [← hp]
    · simp at h
  · intro h
    exact ⟨_, h, if_pos rfl⟩

omit [DecidableEq α] in
theorem mem_garbageOf {places : List (α × Option Nat)} {b : α} :
    b ∈ garbageOf places ↔ (b, none) ∈ places := by
  unfold garbageOf
  rw [List.mem_filterMap]
  constructor
  · rintro ⟨⟨a, p⟩, hx, h⟩
    split at h
    · next hp =>
      simp only at hp
      obtain rfl := Option.some.inj h
      rwa [← hp]
    · simp at h
  · intro h
    exact ⟨_, h, if_pos rfl⟩

omit [DecidableEq α] in
theorem filterMap_place_sublist (q : Option Nat) (places : List (α × Option Nat)) :
    (places.filterMap fun x => if x.2 = q then some x.1 else none).Sublist
      (places.map Prod.fst) := by
  induction places with
  | nil => exact List.Sublist.refl _
  | cons x places ih =>
    rw [List.filterMap_cons]
    split
    · exact ih.cons _
    · next b hb =>
      split at hb
      · obtain rfl := Option.some.inj hb
        exact ih.cons_cons _
      · simp at hb

omit [DecidableEq α] in
/-- A buffer has one place. -/
theorem place_unique {places : List (α × Option Nat)} (hnd : (places.map Prod.fst).Nodup) {b : α}
    {p q : Option Nat} (hp : (b, p) ∈ places) (hq : (b, q) ∈ places) : p = q := by
  have := List.inj_on_of_nodup_map hnd hp hq rfl
  exact congrArg Prod.snd this

/-- The walk has placed the buffers of `places`, with `todo` to go. -/
structure LinkInv (places : List (α × Option Nat)) (todo : List α) (s : RouteState α) : Prop where
  garbage : s.garbage.Holds s.next (garbageOf places)
  garbageCount : s.garbageCount = (garbageOf places).length
  bins : ∀ w, s.valid w = true → (s.bins w).Holds s.next (binOf places w)
  valid : ∀ w, s.valid w = true ↔ binOf places w ≠ []
  workers : ∀ w, s.valid w = true → w < maxWorkerThreads
  todo : Seg s.next todo.head? todo none

variable {places : List (α × Option Nat)} {todo : List α} {b : α} {s : RouteState α}

omit [DecidableEq α] in
/-- The buffer at hand is in no place yet and not to come again. -/
theorem fresh_of_nodup (hnd : (places.map Prod.fst ++ b :: todo).Nodup) :
    (∀ p, (b, p) ∉ places) ∧ b ∉ todo ∧ ∀ a ∈ todo, ∀ p, (a, p) ∉ places := by
  obtain ⟨-, htodo, hdisj⟩ := List.nodup_append.mp hnd
  refine ⟨fun p hm => ?_, (List.nodup_cons.mp htodo).1, fun a ha p hm => ?_⟩
  · exact hdisj b (List.mem_map_of_mem (f := Prod.fst) hm) b (by simp) rfl
  · exact hdisj a (List.mem_map_of_mem (f := Prod.fst) hm) a (by simp [ha]) rfl

/-- A buffer to the garbage. -/
theorem LinkInv.toGarbage (h : LinkInv places (b :: todo) s)
    (hnd : (places.map Prod.fst ++ b :: todo).Nodup) (cache : RouteCache α) :
    LinkInv (places ++ [(b, none)]) todo
      { s with
          cache := cache
          next := (s.garbage.pushBack s.next b).1
          garbage := (s.garbage.pushBack s.next b).2
          garbageCount := s.garbageCount + 1 } := by
  obtain ⟨hb, hbt, htodo⟩ := fresh_of_nodup hnd
  have hplaces := (List.nodup_append.mp hnd).1
  have hg : garbageOf (places ++ [(b, none)]) = garbageOf places ++ [b] := by simp [garbageOf]
  have hw : ∀ w, binOf (places ++ [(b, none)]) w = binOf places w := fun w => by simp [binOf]
  refine ⟨?_, ?_, ?_, ?_, h.workers, ?_⟩
  · rw [hg]
    exact h.garbage.pushBack (hplaces.sublist (filterMap_place_sublist _ _))
      fun hm => hb _ (mem_garbageOf.mp hm)
  · rw [hg, List.length_append, h.garbageCount]
    rfl
  · intro w hv
    rw [hw]
    refine ⟨h.garbage.other (h.bins w hv).seg (fun a ha hag => ?_)
      (fun hm => hb _ (mem_binOf.mp hm)), (h.bins w hv).tail⟩
    have := place_unique hplaces (mem_binOf.mp ha) (mem_garbageOf.mp hag)
    simp at this
  · intro w
    rw [hw]
    exact h.valid w
  · have hrest := h.todo.2
    rw [hrest.head] at hrest
    exact h.garbage.other hrest (fun a ha hag => htodo a ha _ (mem_garbageOf.mp hag)) hbt

omit [DecidableEq α] in
/-- A bin as a set: what it holds, if it is valid. -/
theorem LinkInv.bin (h : LinkInv places todo s) (w : Nat) :
    (if s.valid w = true then s.bins w else BatchSet.clear).Holds s.next (binOf places w) := by
  split
  · next hv => exact h.bins w hv
  · next hv =>
    have : binOf places w = [] := by
      by_contra hne
      exact hv ((h.valid w).mpr hne)
    rw [this]
    exact BatchSet.holds_clear _

/-- The code for bins is `PushBack`. -/
theorem LinkInv.pushBin_eq (h : LinkInv places todo s) (hb : ∀ p, (b, p) ∉ places) (w : Nat) :
    s.pushBin w b =
      (let set := if s.valid w = true then s.bins w else BatchSet.clear
      { s with
          next := (set.pushBack s.next b).1
          bins := Function.update s.bins w (set.pushBack s.next b).2
          valid := Function.update s.valid w true }) := by
  unfold RouteState.pushBin
  by_cases hv : s.valid w = true
  · have hbin := h.bins w hv
    obtain ⟨t, ht⟩ : ∃ t, (s.bins w).tail = some t := by
      rw [hbin.tail]
      exact ⟨_, List.getLast?_eq_some_getLast ((h.valid w).mp hv)⟩
    have hbt : t ≠ b := by
      rintro rfl
      rw [hbin.tail] at ht
      exact hb _ (mem_binOf.mp (List.mem_of_getLast? ht))
    have hvalid : Function.update s.valid w true = s.valid := by
      rw [← hv, Function.update_eq_self]
    simp only [hv, if_true, BatchSet.pushBack, ht, hvalid]
    rw [Function.update_comm hbt]
  · simp only [hv, BatchSet.pushBack, BatchSet.clear]
    rfl

/-- A buffer to a worker. -/
theorem LinkInv.toBin (h : LinkInv places (b :: todo) s)
    (hnd : (places.map Prod.fst ++ b :: todo).Nodup) (cache : RouteCache α) {w : Nat}
    (hw : w < maxWorkerThreads) :
    LinkInv (places ++ [(b, some w)]) todo ({ s with cache := cache }.pushBin w b) := by
  obtain ⟨hb, hbt, htodo⟩ := fresh_of_nodup hnd
  have hplaces := (List.nodup_append.mp hnd).1
  have h' : LinkInv places (b :: todo) { s with cache := cache } :=
    ⟨h.garbage, h.garbageCount, h.bins, h.valid, h.workers, h.todo⟩
  have hbin := h.bin w
  rw [h'.pushBin_eq hb w]
  have hg : garbageOf (places ++ [(b, some w)]) = garbageOf places := by simp [garbageOf]
  have hself : binOf (places ++ [(b, some w)]) w = binOf places w ++ [b] := by simp [binOf]
  have hother : ∀ v, v ≠ w → binOf (places ++ [(b, some w)]) v = binOf places v := fun v hv => by
    simp [binOf, Ne.symm hv]
  have hnotin : b ∉ binOf places w := fun hm => hb _ (mem_binOf.mp hm)
  refine ⟨?_, ?_, ?_, ?_, ?_, ?_⟩
  · rw [hg]
    refine ⟨hbin.other h.garbage.seg (fun a ha hab => ?_) (fun hm => hb _ (mem_garbageOf.mp hm)),
      h.garbage.tail⟩
    have := place_unique hplaces (mem_garbageOf.mp ha) (mem_binOf.mp hab)
    simp at this
  · rw [hg]
    exact h.garbageCount
  · intro v hv
    by_cases hvw : v = w
    · subst hvw
      rw [hself]
      simp only [Function.update_self]
      exact hbin.pushBack (hplaces.sublist (filterMap_place_sublist _ _)) hnotin
    · simp only [Function.update_of_ne hvw] at hv ⊢
      rw [hother v hvw]
      refine ⟨hbin.other (h.bins v hv).seg (fun a ha hab => ?_)
        (fun hm => hb _ (mem_binOf.mp hm)), (h.bins v hv).tail⟩
      have := place_unique hplaces (mem_binOf.mp ha) (mem_binOf.mp hab)
      exact hvw (Option.some.inj this)
  · intro v
    by_cases hvw : v = w
    · subst hvw
      rw [hself]
      simp
    · simp only [Function.update_of_ne hvw]
      rw [hother v hvw]
      exact h.valid v
  · intro v hv
    by_cases hvw : v = w
    · rwa [hvw]
    · simp only [Function.update_of_ne hvw] at hv
      exact h.workers v hv
  · have hrest := h.todo.2
    rw [hrest.head] at hrest
    exact hbin.other hrest (fun a ha hab => htodo a ha _ (mem_binOf.mp hab)) hbt

end Linking

/-! ## Classification -/

section Classification

variable {α ν : Type} [DecidableEq α] {env : RouteEnv α ν} {c : RouteCache α} {b : α}

theorem classify_short (h : (env.bytes b).length < 2) : classify env c b = (c, none) := if_pos h

/-- The buffer is looked up. -/
def RouteEnv.Fresh (env : RouteEnv α ν) (c : RouteCache α) (b : α) : Prop :=
  2 ≤ (env.bytes b).length ∧ (c.prevBuffer = none ∨ sourceId (env.bytes b) ≠ c.prevBufferId)

/-- The buffer has the id of the one before. -/
def RouteEnv.Repeat (env : RouteEnv α ν) (c : RouteCache α) (b : α) : Prop :=
  2 ≤ (env.bytes b).length ∧ c.prevBuffer ≠ none ∧ sourceId (env.bytes b) = c.prevBufferId

omit [DecidableEq α] in
theorem short_or_fresh_or_repeat (env : RouteEnv α ν) (c : RouteCache α) (b : α) :
    (env.bytes b).length < 2 ∨ env.Fresh c b ∨ env.Repeat c b := by
  by_cases hs : (env.bytes b).length < 2
  · exact .inl hs
  by_cases hf : c.prevBuffer = none ∨ sourceId (env.bytes b) ≠ c.prevBufferId
  · exact .inr (.inl ⟨by omega, hf⟩)
  · rw [not_or, not_not] at hf
    exact .inr (.inr ⟨by omega, hf⟩)

omit [DecidableEq α] in
theorem lookupCheckFlood_found {addr : ν} {id : u16} {conn : Nat}
    (h : env.map.lookup id.toNat = some conn) :
    env.map.lookupCheckFlood env.floodHash addr id = (some conn, false) := by
  unfold ConnexionMap.lookupCheckFlood
  rw [h]

omit [DecidableEq α] in
theorem RouteEnv.Flooded.lookup (h : env.Flooded b) :
    env.map.lookup (sourceId (env.bytes b)).toNat = none := by
  cases hl : env.map.lookup (sourceId (env.bytes b)).toNat with
  | none => rfl
  | some conn =>
    have := @lookupCheckFlood_found _ _ env (env.addr b) _ _ hl
    rw [h.2] at this
    simp at this

theorem classify_found (h : env.Fresh c b) {conn : Nat}
    (hl : env.map.lookup (sourceId (env.bytes b)).toNat = some conn) :
    classify env c b =
      ({ c.flush with
          conn := some conn
          refs := addRef c.flush.refs (some conn) 1
          workerId := env.workerOf conn
          callback := Function.update c.callback b (some (.connexion conn))
          prevBuffer := some b
          prevBufferId := sourceId (env.bytes b) }, some (env.workerOf conn)) := by
  unfold classify
  rw [if_neg (Nat.not_lt.mpr h.1)]
  dsimp only
  rw [if_pos h.2, lookupCheckFlood_found hl]
  rfl

theorem classify_flooded (h : env.Fresh c b) (hf : env.Flooded b) :
    classify env c b = ({ c.flush with conn := none }, none) := by
  unfold classify
  rw [if_neg (Nat.not_lt.mpr h.1)]
  dsimp only
  rw [if_pos h.2, hf.2]
  rfl

theorem classify_unknown (h : env.Fresh c b)
    (hl : env.map.lookup (sourceId (env.bytes b)).toNat = none) (hf : ¬ env.Flooded b) :
    ∃ w, (w = 0 ∨ w < env.workerCount) ∧ classify env c b =
      ({ c.flush with
          conn := none
          connectWorker := w
          workerId := w
          callback := Function.update c.callback b (some .server)
          prevBuffer := some b
          prevBufferId := sourceId (env.bytes b) }, some w) := by
  have hr : env.map.lookupCheckFlood env.floodHash (env.addr b) (sourceId (env.bytes b)) =
      (none, false) := by
    have hnot : ¬ env.map.lookupCheckFlood env.floodHash (env.addr b) (sourceId (env.bytes b)) =
        (none, true) := fun he => hf ⟨h.1, he⟩
    unfold ConnexionMap.lookupCheckFlood at hnot ⊢
    rw [hl] at hnot ⊢
    simpa using hnot
  refine ⟨if env.workerCount ≤ c.connectWorker + 1 then 0 else c.connectWorker + 1, ?_, ?_⟩
  · split
    · exact .inl rfl
    · exact .inr (by omega)
  unfold classify
  rw [if_neg (Nat.not_lt.mpr h.1)]
  dsimp only
  rw [if_pos h.2, hr]
  rfl

omit [DecidableEq α] in
theorem RouteEnv.Repeat.not_fresh (h : env.Repeat c b) :
    ¬ (c.prevBuffer = none ∨ sourceId (env.bytes b) ≠ c.prevBufferId) := by
  rintro (hn | hn)
  · exact h.2.1 hn
  · exact hn h.2.2

theorem classify_again (h : env.Repeat c b) {conn : Nat} (hc : c.conn = some conn) :
    classify env c b =
      ({ c with
          addRefCount := c.addRefCount + 1
          callback := Function.update c.callback b (some (.connexion conn)) },
        some c.workerId) := by
  unfold classify
  rw [if_neg (Nat.not_lt.mpr h.1)]
  dsimp only
  rw [if_neg h.not_fresh, hc]

theorem classify_ignored (h : env.Repeat c b) (hc : c.conn = none) :
    classify env c b = (c, none) := by
  unfold classify
  rw [if_neg (Nat.not_lt.mpr h.1)]
  dsimp only
  rw [if_neg h.not_fresh, hc]

variable (env) in
/-- The places of the buffers of a batch, with what is kept at the end. -/
def classifyAll (c : RouteCache α) : List α → RouteCache α × List (α × Option Nat)
  | [] => (c, [])
  | b :: batch =>
    let r := classify env c b
    ((classifyAll r.1 batch).1, (b, r.2) :: (classifyAll r.1 batch).2)

/-- The references of a Connexion for the buffers placed so far. -/
def routedTo (callback : α → Option Callback) (places : List (α × Option Nat)) (conn : Nat) : Nat :=
  places.countP fun x => x.2.isSome && decide (callback x.1 = some (.connexion conn))

/-- What is kept agrees with the buffers placed so far. -/
structure CacheInv (env : RouteEnv α ν) (places : List (α × Option Nat)) (c : RouteCache α) :
    Prop where
  refs : ∀ x, c.refs x + (if c.conn = some x then c.addRefCount else 0) =
    routedTo c.callback places x
  put_off : c.conn = none → c.addRefCount = 0
  worker : c.prevBuffer ≠ none → c.workerId < maxWorkerThreads
  known : c.prevBuffer ≠ none → ∀ x, c.conn = some x →
    c.workerId = env.workerOf x ∧ env.map.lookup c.prevBufferId.toNat = some x
  placed : ∀ y ∈ places, ∀ w, y.2 = some w → w < maxWorkerThreads

omit [DecidableEq α] in
theorem routedTo_garbage (callback : α → Option Callback) (places : List (α × Option Nat)) (b : α)
    (x : Nat) : routedTo callback (places ++ [(b, none)]) x = routedTo callback places x := by
  simp [routedTo]

theorem routedTo_bin (callback : α → Option Callback) {places : List (α × Option Nat)} {b : α}
    (hb : ∀ p, (b, p) ∉ places) (w x : Nat) (k : Callback) :
    routedTo (Function.update callback b (some k)) (places ++ [(b, some w)]) x =
      routedTo callback places x + (if k = .connexion x then 1 else 0) := by
  unfold routedTo
  rw [List.countP_append]
  congr 1
  · refine List.countP_congr fun y hy => ?_
    have hne : y.1 ≠ b := by
      rintro rfl
      exact hb y.2 hy
    rw [Function.update_of_ne hne]
  · simp [List.countP_cons]

omit [DecidableEq α] in
theorem addRef_apply (refs : Nat → Nat) (conn : Option Nat) (n x : Nat) :
    addRef refs conn n x = refs x + if conn = some x then n else 0 := by
  cases conn with
  | none => simp [addRef]
  | some k =>
    by_cases hk : k = x
    · subst hk
      simp [addRef]
    · simp [addRef, hk, Function.update_of_ne (Ne.symm hk)]

omit [DecidableEq α] in
theorem CacheInv.flush_refs {places : List (α × Option Nat)} (h : CacheInv env places c) (x : Nat) :
    c.flush.refs x = routedTo c.callback places x := by
  rw [← h.refs]
  exact addRef_apply _ _ _ _

omit [DecidableEq α] in
theorem CacheInv.placed_append {places : List (α × Option Nat)} (h : CacheInv env places c)
    {p : Option Nat} (hp : ∀ w, p = some w → w < maxWorkerThreads) :
    ∀ y ∈ places ++ [(b, p)], ∀ w, y.2 = some w → w < maxWorkerThreads := by
  intro y hy w hw
  rw [List.mem_append, List.mem_singleton] at hy
  obtain hy | rfl := hy
  · exact h.placed y hy w hw
  · exact hp w hw

/-- One buffer. -/
theorem CacheInv.step {places : List (α × Option Nat)} (h : CacheInv env places c)
    (hb : ∀ p, (b, p) ∉ places) (hworkers : ∀ x, env.workerOf x < maxWorkerThreads)
    (hcount : env.workerCount ≤ maxWorkerThreads) :
    CacheInv env (places ++ [(b, (classify env c b).2)]) (classify env c b).1 := by
  rcases short_or_fresh_or_repeat env c b with hs | hf | hr
  · rw [classify_short hs]
    refine ⟨fun x => ?_, h.put_off, h.worker, h.known, h.placed_append (by simp)⟩
    rw [routedTo_garbage]
    exact h.refs x
  · cases hl : env.map.lookup (sourceId (env.bytes b)).toNat with
    | some conn =>
      rw [classify_found hf hl]
      refine ⟨fun x => ?_, by simp, fun _ => hworkers conn, fun _ x hx => ?_,
        h.placed_append fun w hw => ?_⟩
      · rw [routedTo_bin _ hb]
        show addRef c.flush.refs (some conn) 1 x + _ = _
        rw [addRef_apply, h.flush_refs]
        simp [RouteCache.flush]
      · obtain rfl := Option.some.inj hx
        exact ⟨rfl, hl⟩
      · obtain rfl := Option.some.inj hw
        exact hworkers conn
    | none =>
      by_cases hfl : env.Flooded b
      · rw [classify_flooded hf hfl]
        refine ⟨fun x => ?_, fun _ => rfl, h.worker, by simp, h.placed_append (by simp)⟩
        rw [routedTo_garbage]
        show c.flush.refs x + _ = _
        rw [h.flush_refs]
        simp [RouteCache.flush]
      · obtain ⟨w, hw, he⟩ := classify_unknown hf hl hfl
        have hlt : w < maxWorkerThreads := by
          unfold maxWorkerThreads at hcount ⊢
          omega
        rw [he]
        refine ⟨fun x => ?_, fun _ => rfl, fun _ => hlt, by simp, h.placed_append fun v hv => ?_⟩
        · rw [routedTo_bin _ hb]
          show c.flush.refs x + _ = _
          rw [h.flush_refs]
          simp
        · obtain rfl := Option.some.inj hv
          exact hlt
  · cases hc : c.conn with
    | some conn =>
      have hrefs := h.refs
      rw [classify_again hr hc]
      refine ⟨fun x => ?_, by simp [hc], h.worker, h.known, h.placed_append fun w hw => ?_⟩
      · rw [routedTo_bin _ hb, ← hrefs]
        by_cases hx : conn = x
        · simp [hc, hx]
          omega
        · simp [hc, hx]
      · obtain rfl := Option.some.inj hw
        exact h.worker hr.2.1
    | none =>
      rw [classify_ignored hr hc]
      refine ⟨fun x => ?_, h.put_off, h.worker, h.known, h.placed_append (by simp)⟩
      rw [routedTo_garbage]
      exact h.refs x

end Classification

/-! ## The walk -/

section Walk

variable {α ν : Type} [DecidableEq α] {env : RouteEnv α ν}

theorem LinkInv.step {places : List (α × Option Nat)} {todo : List α} {b : α} {s : RouteState α}
    (h : LinkInv places (b :: todo) s) (hnd : (places.map Prod.fst ++ b :: todo).Nodup)
    (hw : ∀ w, (classify env s.cache b).2 = some w → w < maxWorkerThreads) :
    LinkInv (places ++ [(b, (classify env s.cache b).2)]) todo (routeBuffer env s b) := by
  unfold routeBuffer
  rcases he : classify env s.cache b with ⟨cache, _ | w⟩
  · exact h.toGarbage hnd cache
  · exact h.toBin hnd cache (hw w (by rw [he]))

omit [DecidableEq α] in
/-- What is delivered at the end. -/
theorem LinkInv.placed {places : List (α × Option Nat)} {s : RouteState α}
    (h : LinkInv places [] s) (hc : CacheInv env places s.cache) :
    Placed (places.map Prod.fst) s.result places := by
  have hdelivered : s.result.delivered.map Prod.fst =
      (List.range maxWorkerThreads).filter s.valid := by
    simp [RouteState.result, Function.comp_def]
  refine ⟨rfl, h.garbage, h.garbageCount, fun w => ?_, ?_, fun x hx => ?_, fun c => ?_⟩
  · rw [hdelivered, List.mem_filter, List.mem_range, ← h.valid w]
    exact ⟨fun hw => hw.2, fun hw => ⟨h.workers w hw, hw⟩⟩
  · rw [hdelivered]
    exact List.nodup_range.filter _
  · obtain ⟨w, hw, rfl⟩ := List.mem_map.mp hx
    exact h.bins w (List.mem_filter.mp hw).2
  · exact hc.flush_refs c

end Walk

/-! ## Datagrams of live Connexions -/

section Live

variable {α ν : Type} [DecidableEq α] {env : RouteEnv α ν}

/-- The last buffer that was looked up, with what came after it. -/
def Trail (env : RouteEnv α ν) (done : List α) (c : RouteCache α) : Prop :=
  c.prevBuffer ≠ none → ∀ x, env.map.lookup c.prevBufferId.toNat = some x →
    ∃ pre a mid, done = pre ++ a :: mid ∧ env.Live a x ∧
      sourceId (env.bytes a) = c.prevBufferId ∧
      (∀ f ∈ mid, (env.bytes f).length < 2 ∨ env.Flooded f) ∧
      (c.conn = some x ∨ ∃ f ∈ mid, env.Flooded f)

omit [DecidableEq α] in
theorem Trail.snoc {done : List α} {c : RouteCache α} {b : α} (h : Trail env done c)
    (hb : (env.bytes b).length < 2 ∨ env.Flooded b) {c' : RouteCache α}
    (hp : c'.prevBuffer = c.prevBuffer) (hid : c'.prevBufferId = c.prevBufferId)
    (hc : c'.conn = c.conn ∨ env.Flooded b) : Trail env (done ++ [b]) c' := by
  intro hn x hx
  rw [hp] at hn
  rw [hid] at hx
  obtain ⟨pre, a, mid, rfl, hlive, ha, hmid, hor⟩ := h hn x hx
  refine ⟨pre, a, mid ++ [b], by simp, hlive, ha.trans hid.symm, fun f hf => ?_, ?_⟩
  · rw [List.mem_append, List.mem_singleton] at hf
    obtain hf | rfl := hf
    · exact hmid f hf
    · exact hb
  · obtain hc | hfl := hc
    · obtain hor | ⟨f, hf, hff⟩ := hor
      · exact .inl (hc.trans hor)
      · exact .inr ⟨f, by simp [hf], hff⟩
    · exact .inr ⟨b, by simp, hfl⟩

/-- One buffer: it goes to its Connexion unless a flood has come between. -/
theorem Trail.step {done : List α} {c : RouteCache α} {b : α} {places : List (α × Option Nat)}
    (h : Trail env done c) (hc : CacheInv env places c) (post : List α)
    (hno : ¬ FloodBetween env (done ++ b :: post)) :
    Trail env (done ++ [b]) (classify env c b).1 ∧
      ∀ x, env.Live b x → (classify env c b).2 = some (env.workerOf x) ∧
        (classify env c b).1.callback b = some (.connexion x) := by
  rcases short_or_fresh_or_repeat env c b with hs | hf | hr
  · rw [classify_short hs]
    exact ⟨h.snoc (.inl hs) rfl rfl (.inl rfl), fun x hx => absurd hx.1 (by omega)⟩
  · cases hl : env.map.lookup (sourceId (env.bytes b)).toNat with
    | some conn =>
      rw [classify_found hf hl]
      refine ⟨fun _ x hx => ?_, fun x hx => ?_⟩
      · have : conn = x := Option.some.inj (hl.symm.trans hx)
        subst this
        exact ⟨done, b, [], rfl, ⟨hf.1, hl⟩, rfl, by simp, .inl rfl⟩
      · have : conn = x := Option.some.inj (hl.symm.trans hx.2)
        subst this
        exact ⟨rfl, by simp⟩
    | none =>
      have hdead : ∀ x, ¬ env.Live b x := fun x hx => by simp [hx.2] at hl
      by_cases hfl : env.Flooded b
      · rw [classify_flooded hf hfl]
        exact ⟨h.snoc (.inr hfl) rfl rfl (.inr hfl), fun x hx => absurd hx (hdead x)⟩
      · obtain ⟨w, -, he⟩ := classify_unknown hf hl hfl
        rw [he]
        refine ⟨fun _ x hx => ?_, fun x hx => absurd hx (hdead x)⟩
        simp [hl] at hx
  · cases hconn : c.conn with
    | some conn =>
      obtain ⟨hworker, hlook⟩ := hc.known hr.2.1 conn hconn
      have hlive : env.Live b conn := ⟨hr.1, by rw [hr.2.2, hlook]⟩
      rw [classify_again hr hconn]
      refine ⟨fun _ x hx => ?_, fun x hx => ?_⟩
      · have : conn = x := Option.some.inj (hlook.symm.trans hx)
        subst this
        exact ⟨done, b, [], rfl, hlive, hr.2.2, by simp, .inl hconn⟩
      · have : conn = x := Option.some.inj (hlive.2.symm.trans hx.2)
        subst this
        exact ⟨congrArg some hworker, by simp⟩
    | none =>
      have hdead : ∀ x, env.map.lookup c.prevBufferId.toNat ≠ some x := by
        intro x hx
        obtain ⟨pre, a, mid, rfl, hlive, ha, hmid, hor⟩ := h hr.2.1 x hx
        obtain hor | hor := hor
        · simp [hconn] at hor
        · exact hno ⟨pre, a, mid, b, post, by simp, ⟨x, hlive⟩, hr.1, ha.trans hr.2.2.symm, hmid,
            hor⟩
      rw [classify_ignored hr hconn]
      refine ⟨fun _ x hx => absurd hx (hdead x), fun x hx => ?_⟩
      exact absurd (by rw [← hr.2.2]; exact hx.2) (hdead x)

theorem classify_callback {c : RouteCache α} {a b : α} (hne : a ≠ b) :
    (classify env c b).1.callback a = c.callback a := by
  rcases short_or_fresh_or_repeat env c b with hs | hf | hr
  · rw [classify_short hs]
  · cases hl : env.map.lookup (sourceId (env.bytes b)).toNat with
    | some conn =>
      rw [classify_found hf hl]
      exact Function.update_of_ne hne _ _
    | none =>
      by_cases hfl : env.Flooded b
      · rw [classify_flooded hf hfl]
        rfl
      · obtain ⟨w, -, he⟩ := classify_unknown hf hl hfl
        rw [he]
        exact Function.update_of_ne hne _ _
  · cases hconn : c.conn with
    | some conn =>
      rw [classify_again hr hconn]
      exact Function.update_of_ne hne _ _
    | none => rw [classify_ignored hr hconn]

theorem classifyAll_callback {todo : List α} {a : α} (ha : a ∉ todo) :
    ∀ {c : RouteCache α}, (classifyAll env c todo).1.callback a = c.callback a := by
  induction todo with
  | nil => exact rfl
  | cons b todo ih =>
    intro c
    rw [List.mem_cons, not_or] at ha
    exact (ih ha.2).trans (classify_callback ha.1)

/-- Without floods between them all datagrams of live Connexions are routed. -/
theorem Trail.run (hworkers : ∀ x, env.workerOf x < maxWorkerThreads)
    (hcount : env.workerCount ≤ maxWorkerThreads) {todo : List α} :
    ∀ {places : List (α × Option Nat)} {c : RouteCache α},
      Trail env (places.map Prod.fst) c → CacheInv env places c →
      (places.map Prod.fst ++ todo).Nodup → ¬ FloodBetween env (places.map Prod.fst ++ todo) →
      ∀ y ∈ (classifyAll env c todo).2, ∀ x, env.Live y.1 x →
        y.2 = some (env.workerOf x) ∧
          (classifyAll env c todo).1.callback y.1 = some (.connexion x) := by
  induction todo with
  | nil => simp [classifyAll]
  | cons b todo ih =>
    intro places c h hc hnd hno y hy x hx
    obtain ⟨hfresh, hb, -⟩ := fresh_of_nodup hnd
    obtain ⟨htrail, hplace⟩ := h.step hc todo hno
    have hstep := hc.step hfresh hworkers hcount
    have hmap : (places ++ [(b, (classify env c b).2)]).map Prod.fst =
        places.map Prod.fst ++ [b] := by simp
    have happ : places.map Prod.fst ++ b :: todo = places.map Prod.fst ++ [b] ++ todo := by simp
    rcases List.mem_cons.mp hy with rfl | hy
    · obtain ⟨hw, hcb⟩ := hplace x hx
      exact ⟨hw, (classifyAll_callback hb).trans hcb⟩
    · exact ih (by rwa [hmap]) hstep (by rwa [hmap, ← happ]) (by rwa [hmap, ← happ]) y hy x hx

section Batch

variable {uninitialized : RouteState α} {connectWorker fuel : Nat} {next : α → Option α}
  {buffers : BatchSet α} {batch : List α}

end Batch

end Live

end Libcat.Sphynx
