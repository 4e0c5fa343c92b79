import Libcat.Sphynx.Fragment
import Libcat.Lib.Run

/-!
# The delivery queue of a datagram batch

`OnTransportDatagrams` collects the messages of a batch in the delivery queue of its thread, and
the fragment buffers that they lie in, in the free list. Both are emptied when the delivery queue
is full, and at the end of the batch if it is not empty. The pointers and counters are followed
here, not the bytes: allocations are numbered, what LZ4 makes of a buffer is part of the input, and
a write past the end of one of the two arrays is logged with its index.

A message that does not decompress leaves its buffers on the free list without a delivery. As long
as there is none, two buffers are listed for each delivery at most, which `Inv` keeps.
-/

namespace Libcat.Sphynx.Delivery

open Run

/-- A pointer to an allocation of this run, `none` when null. -/
abbrev Ptr := Option Nat

structure RecvFrag where
  buffer : Ptr
  length : Nat
  offset : Nat
  decompLength : Nat
deriving DecidableEq

def RecvFrag.empty : RecvFrag := { buffer := none, length := 0, offset := 0, decompLength := 0 }

/-- Where the bytes of a message are. -/
inductive Data where
  | datagram
  | buffer (p : Ptr)
deriving DecidableEq

structure IncomingMessage (κ : Type) where
  stream : κ
  data : Data
  bytes : Nat
deriving DecidableEq

/-- What is logged: the writes to the two arrays with the index written, `OnMessages`, and
`delete []`. -/
inductive Event (κ : Type) where
  | fragFree (index : Nat) (data : Ptr)
  | queued (index : Nat) (msg : IncomingMessage κ)
  | delivered (msgs : List (IncomingMessage κ))
  | freed (data : Ptr)
deriving DecidableEq

/-- The delivery part of a `TransportTLS`, the `_fragments` of the streams `κ` its thread serves,
and the number of the next allocation. -/
structure State (κ : Type) where
  deliveryQueue : List (IncomingMessage κ)
  freeList : List Ptr
  fragments : κ → RecvFrag
  next : Nat

def deliveryQueueDepth : Nat := 128
def freeListSize : Nat := deliveryQueueDepth * 2

/-- How the decompression of a completed message ends. -/
inductive Inflation where
  | noMemory
  | corrupt
  | inflated
deriving DecidableEq

/-- A call made for a message of the batch. A fragment comes with the outcomes of its allocation
and of its decompression. -/
inductive Call (κ : Type) where
  | plain (stream : κ) (bytes : Nat)
  | fragment (stream : κ) (data : { data : List u8 // data.length < 2 ^ 16 }) (got : Bool)
    (inflation : Inflation)

section Model

variable {κ : Type}

def State.init : State κ where
  deliveryQueue := []
  freeList := []
  fragments := fun _ => .empty
  next := 0

/-- `Transport::QueueFragFree`. -/
def queueFragFree (data : Ptr) (s : State κ) : State κ × List (Event κ) :=
  ({ s with freeList := s.freeList ++ [data] }, [.fragFree s.freeList.length data])

/-- `OnMessages` on the whole queue, and the frees. -/
def flush (s : State κ) : State κ × List (Event κ) :=
  ({ s with deliveryQueue := [], freeList := [] },
    .delivered s.deliveryQueue :: s.freeList.map .freed)

/-- `Transport::QueueDelivery`. -/
def queueDelivery (msg : IncomingMessage κ) (s : State κ) : State κ × List (Event κ) :=
  let s' := { s with deliveryQueue := s.deliveryQueue ++ [msg] }
  if s'.deliveryQueue.length < deliveryQueueDepth then
    (s', [.queued s.deliveryQueue.length msg])
  else ((flush s').1, .queued s.deliveryQueue.length msg :: (flush s').2)

/-- `Transport::DeliverQueued`. -/
def deliverQueued (s : State κ) : State κ × List (Event κ) :=
  if 0 < s.deliveryQueue.length then flush s else (s, [])

/-- The head of `OnFragment`, where a message starts: the new `RecvFrag`, and the data that are
left unless the function returns. -/
def startFragment (f : RecvFrag) (data : List u8) (fresh : Ptr) : RecvFrag × Option (List u8) :=
  if f.offset = 0 then
    if data.length < fragHeaderBytes + 1 then (f, none)
    else if fresh = none then ({ f with buffer := none }, none)
    else
      ({ buffer := fresh, length := (le16 data + 1) % 2 ^ 16, offset := 0
         decompLength := le16 (data.drop 2) }, some (data.drop fragHeaderBytes))
  else (f, some data)

/-- Do these data complete the message? -/
def RecvFrag.Completes (f : RecvFrag) (data : List u8) : Prop :=
  data.length ≠ 0 ∧ subU32 f.length f.offset ≤ data.length

instance (f : RecvFrag) (data : List u8) : Decidable (f.Completes data) :=
  inferInstanceAs (Decidable (_ ∧ _))

variable [DecidableEq κ]

def State.setFragment (stream : κ) (f : RecvFrag) (s : State κ) : State κ :=
  { s with fragments := Function.update s.fragments stream f }

/-- The end of `OnFragment`, for a message that is complete. `dest` is the allocation for the
decompressed message. -/
def completeFragment (stream : κ) (f : RecvFrag) (dest : Nat) (inflation : Inflation)
    (s : State κ) : State κ × List (Event κ) :=
  let done := { f with length := 0, buffer := none }
  let q := queueFragFree f.buffer (s.setFragment stream { f with length := 0 })
  if f.length < f.decompLength then
    match inflation with
    | .noMemory => q
    | .corrupt =>
      let d := queueFragFree (some dest) q.1
      (d.1, q.2 ++ d.2)
    | .inflated =>
      let d := queueFragFree (some dest) q.1
      let m := queueDelivery ⟨stream, .buffer (some dest), f.decompLength⟩
        (d.1.setFragment stream done)
      (m.1, q.2 ++ d.2 ++ m.2)
  else
    let m := queueDelivery ⟨stream, .buffer f.buffer, f.length⟩ (q.1.setFragment stream done)
    (m.1, q.2 ++ m.2)

/-- `OnFragment` past the head. An abort does not clear the pointer, and what is copied is not
modelled. -/
def continueFragment (stream : κ) (f : RecvFrag) (data : List u8) (dest : Nat)
    (inflation : Inflation) (s : State κ) : State κ × List (Event κ) :=
  if data.length = 0 then
    (s.setFragment stream { f with length := 0 },
      if f.buffer = none then [] else [.freed f.buffer])
  else if subU32 f.length f.offset ≤ data.length then completeFragment stream f dest inflation s
  else (s.setFragment stream { f with offset := (f.offset + data.length) % 2 ^ 16 }, [])

/-- `Transport::OnFragment`. The two allocations of a call have numbers of their own. -/
def onFragment (stream : κ) (data : List u8) (got : Bool) (inflation : Inflation) (s : State κ) :
    State κ × List (Event κ) :=
  match startFragment (s.fragments stream) data (if got then some s.next else none) with
  | (f, none) => ({ s with next := s.next + 2 }.setFragment stream f, [])
  | (f, some rest) =>
    continueFragment stream f rest (s.next + 1) inflation { s with next := s.next + 2 }

def call (s : State κ) : Call κ → State κ × List (Event κ)
  | .plain stream bytes => queueDelivery ⟨stream, .datagram, bytes⟩ s
  | .fragment stream data got inflation => onFragment stream data.1 got inflation s

/-- A message that this call completes and that is compressed, decompresses. -/
def Inflates (s : State κ) : Call κ → Prop
  | .plain .. => True
  | .fragment stream data got inflation =>
    match startFragment (s.fragments stream) data.1 (if got then some s.next else none) with
    | (_, none) => True
    | (f, some rest) => f.Completes rest → f.length < f.decompLength → inflation = .inflated

end Model

/-! ## What a log promises -/

namespace Event

variable {κ : Type}

/-- Is a write inside its array? -/
def InBounds : Event κ → Prop
  | fragFree index _ => index < freeListSize
  | queued index _ => index < deliveryQueueDepth
  | _ => True

/-- Does the event put a message in this buffer up for delivery, or deliver one? -/
def Uses (id : Nat) : Event κ → Prop
  | queued _ msg => msg.data = .buffer (some id)
  | delivered msgs => ∃ msg ∈ msgs, msg.data = .buffer (some id)
  | _ => False

end Event

section Proofs

variable {κ : Type} [DecidableEq κ] {s : State κ} {l : List (Event κ)} {f : RecvFrag} {k : Nat}

/-- The buffer of an entry of the delivery queue is on the free list. -/
def Listed (freeList : List Ptr) (msg : IncomingMessage κ) : Prop :=
  ∀ id, msg.data = .buffer (some id) → some id ∈ freeList

/-- What a stream has stored between two calls. A buffer with a length is one of a message that is
under way; without, it is null or was freed by an abort. -/
structure Stored (f : RecvFrag) (l : List (Event κ)) : Prop where
  unqueued : ∀ id, f.buffer = some id → ∀ i, .fragFree i (some id) ∉ l
  live : f.length ≠ 0 → ∀ id, f.buffer = some id → .freed (some id) ∉ l
  lt : f.length ≠ 0 → f.offset < f.length
  length_lt : f.length < 2 ^ 16
  offset_lt : f.offset < 2 ^ 16

/-- What `startFragment` goes on with: the same, and a message that starts has a live buffer. -/
structure Ready (f : RecvFrag) (l : List (Event κ)) : Prop extends Stored f l where
  start : f.offset = 0 → ∀ id, f.buffer = some id → .freed (some id) ∉ l

/-- The invariant between two queue operations. `k` counts the frees that are ahead of their
delivery. -/
structure Inv (k : Nat) (s : State κ) (l : List (Event κ)) : Prop where
  inBounds : ∀ e ∈ l, e.InBounds
  delivers : ∀ index msg, .queued index msg ∈ l →
    msg ∈ s.deliveryQueue ∨ ∃ msgs, .delivered msgs ∈ l ∧ msg ∈ msgs
  room : s.freeList.length ≤ 2 * s.deliveryQueue.length + k
  once : ∀ index id, .fragFree index (some id) ∈ l →
    l.count (.freed (some id)) + s.freeList.count (some id) = 1
  origin : ∀ id, some id ∈ s.freeList → ∃ index, .fragFree index (some id) ∈ l
  held : ∀ msg ∈ s.deliveryQueue, Listed s.freeList msg
  afterUse : l.Pairwise fun e e' => ∀ id, e = .freed (some id) → ¬ e'.Uses id
  old : ∀ id, s.next ≤ id → (∀ index, .fragFree index (some id) ∉ l) ∧ .freed (some id) ∉ l
  fragments : ∀ stream, Stored (s.fragments stream) l
  fragments_old : ∀ stream id, (s.fragments stream).buffer = some id → id < s.next
  apart : ∀ a b id, (s.fragments a).buffer = some id → (s.fragments b).buffer = some id → a = b

/-- The buffer of `f` belongs to no other stream, and is not a later allocation. -/
structure Apart (stream : κ) (f : RecvFrag) (s : State κ) : Prop where
  old : ∀ id, f.buffer = some id → id < s.next
  other : ∀ id, f.buffer = some id → ∀ b, b ≠ stream → (s.fragments b).buffer ≠ some id

namespace Inv

theorem init : Inv 0 (State.init : State κ) [] where
  inBounds := by simp
  delivers := by simp
  room := by simp [State.init]
  once := by simp
  origin := by simp [State.init]
  held := by simp [State.init]
  afterUse := List.Pairwise.nil
  old := by simp
  fragments := fun _ => ⟨by simp, by simp, by simp [State.init, RecvFrag.empty],
    by simp [State.init, RecvFrag.empty], by simp [State.init, RecvFrag.empty]⟩
  fragments_old := by simp [State.init, RecvFrag.empty]
  apart := by simp [State.init, RecvFrag.empty]

/-- A buffer on the free list was not freed yet. -/
theorem unfreed (h : Inv k s l) {id : Nat} (hid : some id ∈ s.freeList) :
    .freed (some id) ∉ l := by
  obtain ⟨index, hi⟩ := h.origin id hid
  have h1 := h.once index id hi
  have h2 : 0 < s.freeList.count (some id) := List.count_pos_iff.mpr hid
  intro hf
  have h3 : 0 < l.count (.freed (some id)) := List.count_pos_iff.mpr hf
  omega

/-- The numbers of allocations only grow. -/
theorem advance (h : Inv k s l) {n : Nat} (hn : s.next ≤ n) : Inv k { s with next := n } l where
  inBounds := h.inBounds
  delivers := h.delivers
  room := h.room
  once := h.once
  origin := h.origin
  held := h.held
  afterUse := h.afterUse
  old := fun id hid => h.old id (Nat.le_trans hn hid)
  fragments := h.fragments
  fragments_old := fun stream id hid => Nat.lt_of_lt_of_le (h.fragments_old stream id hid) hn
  apart := h.apart

/-- A stream stores something else. -/
theorem setFragment (h : Inv k s l) (stream : κ) (hf : Stored f l) (hs : Apart stream f s) :
    Inv k (s.setFragment stream f) l where
  inBounds := h.inBounds
  delivers := h.delivers
  room := h.room
  once := h.once
  origin := h.origin
  held := h.held
  afterUse := h.afterUse
  old := h.old
  fragments := by
    intro a
    by_cases ha : a = stream
    · subst ha; simpa [State.setFragment] using hf
    · simpa [State.setFragment, ha] using h.fragments a
  fragments_old := by
    intro a id hid
    by_cases ha : a = stream
    · subst ha; exact hs.old id (by simpa [State.setFragment] using hid)
    · exact h.fragments_old a id (by simpa [State.setFragment, ha] using hid)
  apart := by
    intro a b id hb hc
    by_cases ha : a = stream <;> by_cases hb' : b = stream
    · rw [ha, hb']
    · subst ha
      exact absurd (by simpa [State.setFragment, hb'] using hc)
        (hs.other id (by simpa [State.setFragment] using hb) b hb')
    · subst hb'
      exact absurd (by simpa [State.setFragment, ha] using hb)
        (hs.other id (by simpa [State.setFragment] using hc) a ha)
    · exact h.apart a b id (by simpa [State.setFragment, ha] using hb)
        (by simpa [State.setFragment, hb'] using hc)

/-- A pointer that may be put on the free list: a live buffer that no stream holds on to. -/
structure Loose (p : Ptr) (s : State κ) (l : List (Event κ)) : Prop where
  old : ∀ id, p = some id → id < s.next
  unqueued : ∀ id, p = some id → ∀ index, .fragFree index (some id) ∉ l
  unfreed : ∀ id, p = some id → .freed (some id) ∉ l
  dropped : ∀ id, p = some id → ∀ a, (s.fragments a).buffer ≠ some id

theorem queueFragFree (h : Inv k s l) (hd : s.deliveryQueue.length < deliveryQueueDepth)
    (hk : k ≤ 1) {p : Ptr} (hp : Loose p s l) :
    Inv (k + 1) (queueFragFree p s).1 (l ++ (queueFragFree p s).2) where
  inBounds := by
    intro e he
    rcases List.mem_append.mp he with he | he
    · exact h.inBounds e he
    · rw [List.mem_singleton.mp he]
      have h1 := h.room
      simp only [Event.InBounds, freeListSize]
      omega
  delivers := by
    intro index msg hm
    have hm : .queued index msg ∈ l := by simpa [Delivery.queueFragFree] using hm
    rcases h.delivers index msg hm with hq | ⟨msgs, h1, h2⟩
    · exact .inl hq
    · exact .inr ⟨msgs, List.mem_append_left _ h1, h2⟩
  room := by
    have := h.room
    simp only [Delivery.queueFragFree, List.length_append, List.length_singleton]
    omega
  once := by
    intro index id hi
    simp only [Delivery.queueFragFree, List.count_append, List.mem_append, List.mem_singleton,
      Event.fragFree.injEq] at hi ⊢
    have hc : [Event.fragFree (κ := κ) s.freeList.length p].count (.freed (some id)) = 0 := by simp
    rw [hc]
    rcases hi with hi | ⟨-, rfl⟩
    · have hne : p ≠ some id := fun he => hp.unqueued id he index hi
      have := h.once index id hi
      have : [p].count (some id) = 0 := List.count_eq_zero_of_not_mem (by simpa using Ne.symm hne)
      omega
    · have h1 : l.count (.freed (some id)) = 0 :=
        List.count_eq_zero_of_not_mem (hp.unfreed id rfl)
      have h2 : s.freeList.count (some id) = 0 := by
        apply List.count_eq_zero_of_not_mem
        intro hm
        obtain ⟨i, hi⟩ := h.origin id hm
        exact hp.unqueued id rfl i hi
      have h3 : [some id].count (some id) = 1 := by simp
      omega
  origin := by
    intro id hid
    rcases List.mem_append.mp hid with hid | hid
    · obtain ⟨index, hi⟩ := h.origin id hid
      exact ⟨index, List.mem_append_left _ hi⟩
    · rw [List.mem_singleton.mp hid]
      exact ⟨s.freeList.length, by simp [Delivery.queueFragFree]⟩
  held := fun msg hm id hid => List.mem_append_left _ (h.held msg hm id hid)
  afterUse := by
    apply List.pairwise_append.mpr
    refine ⟨h.afterUse, List.pairwise_singleton _ _, ?_⟩
    intro e _ e' he' id _
    rw [List.mem_singleton.mp he']
    exact not_false
  old := by
    intro id hid
    obtain ⟨h1, h2⟩ := h.old id hid
    have hne : p ≠ some id := fun he => absurd (hp.old id he) (Nat.not_lt.mpr hid)
    refine ⟨fun index hi => ?_, by simpa [Delivery.queueFragFree] using h2⟩
    rcases List.mem_append.mp hi with hi | hi
    · exact h1 index hi
    · simp only [Delivery.queueFragFree, List.mem_singleton, Event.fragFree.injEq] at hi
      exact hne hi.2.symm
  fragments := by
    intro a
    have ha := h.fragments a
    refine ⟨fun id hid i hi => ?_, fun h0 id hid hm => ?_, ha.lt, ha.length_lt, ha.offset_lt⟩
    · rcases List.mem_append.mp hi with hi | hi
      · exact ha.unqueued id hid i hi
      · simp only [Delivery.queueFragFree, List.mem_singleton, Event.fragFree.injEq] at hi
        exact hp.dropped id hi.2.symm a hid
    · exact ha.live h0 id hid (by simpa [Delivery.queueFragFree] using hm)
  fragments_old := h.fragments_old
  apart := h.apart

/-- A message enters the queue. -/
theorem push (h : Inv k s l) (hd : s.deliveryQueue.length < deliveryQueueDepth) (hk : k ≤ 2)
    {msg : IncomingMessage κ} (hm : Listed s.freeList msg) :
    Inv 0 { s with deliveryQueue := s.deliveryQueue ++ [msg] }
      (l ++ [.queued s.deliveryQueue.length msg]) where
  inBounds := by
    intro e he
    rcases List.mem_append.mp he with he | he
    · exact h.inBounds e he
    · rw [List.mem_singleton.mp he]
      exact hd
  delivers := by
    intro index m hq
    rcases List.mem_append.mp hq with hq | hq
    · rcases h.delivers index m hq with hq | ⟨msgs, h1, h2⟩
      · exact .inl (List.mem_append_left _ hq)
      · exact .inr ⟨msgs, List.mem_append_left _ h1, h2⟩
    · simp only [List.mem_singleton, Event.queued.injEq] at hq
      rw [hq.2]
      exact .inl (by simp)
  room := by
    have := h.room
    simp only [List.length_append, List.length_singleton]
    omega
  once := by
    intro index id hi
    have hi : .fragFree index (some id) ∈ l := by simpa using hi
    simpa [List.count_append] using h.once index id hi
  origin := by
    intro id hid
    obtain ⟨index, hi⟩ := h.origin id hid
    exact ⟨index, List.mem_append_left _ hi⟩
  held := by
    intro m hq
    rcases List.mem_append.mp hq with hq | hq
    · exact h.held m hq
    · rw [List.mem_singleton.mp hq]
      exact hm
  afterUse := by
    apply List.pairwise_append.mpr
    refine ⟨h.afterUse, List.pairwise_singleton _ _, ?_⟩
    intro e he e' he' id hf hu
    rw [List.mem_singleton.mp he'] at hu
    exact h.unfreed (hm id hu) (hf ▸ he)
  old := fun id hid => by simpa using h.old id hid
  fragments := fun a => by
    have ha := h.fragments a
    exact ⟨fun id hid i => by simpa using ha.unqueued id hid i,
      fun h0 id hid => by simpa using ha.live h0 id hid, ha.lt, ha.length_lt, ha.offset_lt⟩
  fragments_old := h.fragments_old
  apart := h.apart

theorem count_map_freed (freeList : List Ptr) (p : Ptr) :
    (freeList.map (Event.freed (κ := κ))).count (.freed p) = freeList.count p :=
  List.count_map_of_injective _ _ (fun _ _ h => by simpa using h) _

/-- The delivery of the whole queue empties both arrays. -/
theorem flush (h : Inv k s l) : Inv 0 (flush s).1 (l ++ (flush s).2) where
  inBounds := by
    intro e he
    rcases List.mem_append.mp he with he | he
    · exact h.inBounds e he
    · rcases List.mem_cons.mp he with rfl | he
      · trivial
      · obtain ⟨p, -, rfl⟩ := List.mem_map.mp he
        trivial
  delivers := by
    intro index msg hq
    have hq : .queued index msg ∈ l := by simpa [Delivery.flush] using hq
    rcases h.delivers index msg hq with hq | ⟨msgs, h1, h2⟩
    · exact .inr ⟨s.deliveryQueue, by simp [Delivery.flush], hq⟩
    · exact .inr ⟨msgs, List.mem_append_left _ h1, h2⟩
  room := by simp [Delivery.flush]
  once := by
    intro index id hi
    have hi : .fragFree index (some id) ∈ l := by simpa [Delivery.flush] using hi
    simpa [Delivery.flush, List.count_append, count_map_freed] using h.once index id hi
  origin := by simp [Delivery.flush]
  held := by simp [Delivery.flush]
  afterUse := by
    apply List.pairwise_append.mpr
    refine ⟨h.afterUse, ?_, ?_⟩
    · apply List.pairwise_cons.mpr
      refine ⟨fun e _ id he => (by cases he), List.pairwise_of_forall_mem_list ?_⟩
      intro e _ e' he' id _
      obtain ⟨p, -, rfl⟩ := List.mem_map.mp he'
      exact not_false
    · intro e he e' he' id hf hu
      rcases List.mem_cons.mp he' with rfl | he'
      · -- what is delivered lies on the free list, and was not freed before
        obtain ⟨msg, hm, hd⟩ := hu
        exact h.unfreed (h.held msg hm id hd) (hf ▸ he)
      · obtain ⟨p, -, rfl⟩ := List.mem_map.mp he'
        exact hu
  old := by
    intro id hid
    obtain ⟨h1, h2⟩ := h.old id hid
    refine ⟨fun index => by simpa [Delivery.flush] using h1 index, fun hf => ?_⟩
    rcases List.mem_append.mp hf with hf | hf
    · exact h2 hf
    · have hf : some id ∈ s.freeList := by simpa [Delivery.flush] using hf
      obtain ⟨index, hi⟩ := h.origin id hf
      exact h1 index hi
  fragments := by
    intro a
    have ha := h.fragments a
    refine ⟨fun id hid i => by simpa [Delivery.flush] using ha.unqueued id hid i,
      fun h0 id hid hf => ?_, ha.lt, ha.length_lt, ha.offset_lt⟩
    rcases List.mem_append.mp hf with hf | hf
    · exact ha.live h0 id hid hf
    · have hf : some id ∈ s.freeList := by simpa [Delivery.flush] using hf
      obtain ⟨index, hi⟩ := h.origin id hf
      exact ha.unqueued id hid index hi
  fragments_old := h.fragments_old
  apart := h.apart

/-- A queue that became full is delivered. -/
theorem queueDelivery (h : Inv k s l) (hd : s.deliveryQueue.length < deliveryQueueDepth)
    (hk : k ≤ 2) (msg : IncomingMessage κ) (hm : Listed s.freeList msg) :
    Inv 0 (queueDelivery msg s).1 (l ++ (queueDelivery msg s).2) ∧
      (queueDelivery msg s).1.deliveryQueue.length < deliveryQueueDepth := by
  have hp := h.push hd hk hm
  unfold Delivery.queueDelivery
  dsimp only
  split
  · next hlt => exact ⟨hp, hlt⟩
  · have := hp.flush
    rw [List.append_assoc] at this
    exact ⟨this, by simp [Delivery.flush, deliveryQueueDepth]⟩

/-- A fragment that aborts the message under way frees its buffer, which was never listed. -/
theorem abort (h : Inv k s l) {stream : κ} (hf : Ready f l) (hb : Apart stream f s) :
    Inv k (s.setFragment stream { f with length := 0 }) (l ++ [.freed f.buffer]) := by
  have hs : Stored { f with length := 0 } l :=
    ⟨hf.unqueued, fun h0 => absurd rfl h0, fun h0 => absurd rfl h0, by simp, hf.offset_lt⟩
  have h := h.setFragment stream hs ⟨hb.old, hb.other⟩
  constructor
  case inBounds =>
    intro e he
    rcases List.mem_append.mp he with he | he
    · exact h.inBounds e he
    · rw [List.mem_singleton.mp he]
      trivial
  case delivers =>
    intro index msg hq
    rcases h.delivers index msg (by simpa using hq) with hq | ⟨msgs, h1, h2⟩
    · exact .inl hq
    · exact .inr ⟨msgs, List.mem_append_left _ h1, h2⟩
  case room => exact h.room
  case once =>
    intro index id hi
    have hi : .fragFree index (some id) ∈ l := by simpa using hi
    have hne : f.buffer ≠ some id := fun he => hf.unqueued id he index hi
    have hc : [Event.freed (κ := κ) f.buffer].count (.freed (some id)) = 0 :=
      List.count_eq_zero_of_not_mem (by simpa using Ne.symm hne)
    rw [List.count_append, hc]
    exact h.once index id hi
  case origin =>
    intro id hid
    obtain ⟨index, hi⟩ := h.origin id hid
    exact ⟨index, List.mem_append_left _ hi⟩
  case held => exact h.held
  case afterUse =>
    apply List.pairwise_append.mpr
    refine ⟨h.afterUse, List.pairwise_singleton _ _, ?_⟩
    intro e _ e' he' id _
    rw [List.mem_singleton.mp he']
    exact not_false
  case old =>
    intro id hid
    obtain ⟨h1, h2⟩ := h.old id hid
    have hne : f.buffer ≠ some id := fun he => absurd (hb.old id he) (Nat.not_lt.mpr hid)
    exact ⟨fun index => by simpa using h1 index, by simpa [Ne.symm hne] using h2⟩
  case fragments =>
    intro a
    have ha := h.fragments a
    refine ⟨fun id hid i => by simpa using ha.unqueued id hid i, fun h0 id hid hm => ?_, ha.lt,
      ha.length_lt, ha.offset_lt⟩
    rcases List.mem_append.mp hm with hm | hm
    · exact ha.live h0 id hid hm
    · -- the stream itself has no length any more, and no other stream has this buffer
      by_cases heq : a = stream
      · subst heq
        exact h0 (by simp [State.setFragment])
      · have hm : some id = f.buffer := by simpa using hm
        exact hb.other id hm.symm a heq (by simpa [State.setFragment, heq] using hid)
  case fragments_old => exact h.fragments_old
  case apart => exact h.apart

/-- What the head of a message leaves. -/
theorem startFragment (h : Inv k s l) (stream : κ) {data : List u8} (hd : data.length < 2 ^ 16)
    (got : Bool) {r : RecvFrag × Option (List u8)}
    (hr : startFragment (s.fragments stream) data (if got then some s.next else none) = r) :
    Apart stream r.1 { s with next := s.next + 2 } ∧ (r.2 = none → Stored r.1 l) ∧
      ∀ rest, r.2 = some rest → Ready r.1 l ∧ rest.length < 2 ^ 16 ∧ r.1.buffer ≠ some (s.next + 1) := by
  have hf := h.fragments stream
  have hkeep : Apart stream (s.fragments stream) { s with next := s.next + 2 } :=
    ⟨fun id hid => Nat.lt_add_right 2 (h.fragments_old stream id hid),
      fun id hid b hb hc => hb (h.apart b stream id hc hid)⟩
  unfold Delivery.startFragment at hr
  split at hr
  · next h0 =>
    split at hr
    · subst hr
      exact ⟨hkeep, fun _ => hf, by simp⟩
    · cases got
      case false =>
        simp only [Bool.false_eq_true, if_false, if_true] at hr
        subst hr
        exact ⟨⟨by simp, by simp⟩,
          fun _ => ⟨by simp, by simp, hf.lt, hf.length_lt, hf.offset_lt⟩, by simp⟩
      case true =>
        -- the buffer is the next allocation: nothing was done with it yet
        simp only [if_true, reduceCtorEq, if_false] at hr
        subst hr
        obtain ⟨h1, h2⟩ := h.old s.next (Nat.le_refl _)
        refine ⟨⟨?_, ?_⟩, by simp, ?_⟩
        · rintro id ⟨⟩
          exact Nat.lt_add_of_pos_right (by decide)
        · rintro id ⟨⟩ b _ hc
          exact absurd (h.fragments_old b _ hc) (Nat.lt_irrefl _)
        · rintro rest ⟨⟩
          refine ⟨⟨⟨?_, ?_, ?_, ?_, ?_⟩, ?_⟩, ?_, ?_⟩
          · rintro id ⟨⟩
            exact h1
          · rintro - id ⟨⟩
            exact h2
          · exact fun hne => Nat.pos_of_ne_zero hne
          · exact Nat.mod_lt _ (by decide)
          · exact Nat.two_pow_pos 16
          · rintro - id ⟨⟩
            exact h2
          · rw [List.length_drop]
            exact Nat.lt_of_le_of_lt (Nat.sub_le _ _) hd
          · intro he
            exact absurd (Option.some.inj he).symm (Nat.succ_ne_self _)
  · next h0 =>
    subst hr
    refine ⟨hkeep, fun _ => hf, ?_⟩
    rintro rest ⟨⟩
    exact ⟨⟨hf, fun h1 => absurd h1 h0⟩, hd,
      fun he => absurd (h.fragments_old stream _ he) (by omega)⟩

end Inv

omit [DecidableEq κ] in
/-- The data that complete a message find a live buffer: after an abort, more data are missing than
a datagram can hold. -/
theorem Ready.unfreed (hf : Ready f l) {data : List u8} (hd : data.length < 2 ^ 16)
    (hc : subU32 f.length f.offset ≤ data.length) :
    ∀ id, f.buffer = some id → .freed (some id) ∉ l := by
  by_cases h0 : f.length = 0
  · by_cases h1 : f.offset = 0
    · exact hf.start h1
    · have := hf.offset_lt
      simp only [subU32, h0] at hc
      omega
  · exact hf.live h0

/-- The pointer is cleared at the end, but nothing looks at it before. -/
theorem completeFragment_plain {stream : κ} {dest : Nat} {inflation : Inflation}
    (h : ¬ f.length < f.decompLength) :
    completeFragment stream f dest inflation s =
      let q := queueFragFree f.buffer (s.setFragment stream { f with length := 0, buffer := none })
      let m := queueDelivery ⟨stream, .buffer f.buffer, f.length⟩ q.1
      (m.1, q.2 ++ m.2) := by
  simp only [completeFragment, if_neg h, queueFragFree, State.setFragment, Function.update_idem]

theorem completeFragment_inflated {stream : κ} {dest : Nat} (h : f.length < f.decompLength) :
    completeFragment stream f dest .inflated s =
      let q := queueFragFree f.buffer (s.setFragment stream { f with length := 0, buffer := none })
      let d := queueFragFree (some dest) q.1
      let m := queueDelivery ⟨stream, .buffer (some dest), f.decompLength⟩ d.1
      (m.1, q.2 ++ d.2 ++ m.2) := by
  simp only [completeFragment, if_pos h, queueFragFree, State.setFragment, Function.update_idem]

/-- `Inv` between two calls. -/
def Steady (s : State κ) (l : List (Event κ)) : Prop :=
  Inv 0 s l ∧ s.deliveryQueue.length < deliveryQueueDepth

theorem Steady.completeFragment (h : Steady s l) {stream : κ} (hf : Ready f l)
    (hb : Apart stream f s) (hlive : ∀ id, f.buffer = some id → .freed (some id) ∉ l) {dest : Nat}
    (hdest : Inv.Loose (some dest) s l) (hne : f.buffer ≠ some dest) {inflation : Inflation}
    (hi : f.length < f.decompLength → inflation = .inflated) :
    Steady (completeFragment stream f dest inflation s).1
      (l ++ (completeFragment stream f dest inflation s).2) := by
  obtain ⟨h, hd⟩ := h
  have hdone : Stored { f with length := 0, buffer := none } l :=
    ⟨by simp, by simp, by simp, by simp, hf.offset_lt⟩
  have hs := h.setFragment stream hdone ⟨by simp, by simp⟩
  have hloose : Inv.Loose f.buffer
      (s.setFragment stream { f with length := 0, buffer := none }) l := by
    refine ⟨hb.old, hf.unqueued, hlive, fun id hid a => ?_⟩
    by_cases ha : a = stream
    · subst ha; simp [State.setFragment]
    · simpa [State.setFragment, ha] using hb.other id hid a ha
  have hq := hs.queueFragFree hd (by decide) hloose
  by_cases hcomp : f.length < f.decompLength
  · rw [hi hcomp, completeFragment_inflated hcomp]
    have hloose' : Inv.Loose (some dest)
        (queueFragFree f.buffer
          (s.setFragment stream { f with length := 0, buffer := none })).1
        (l ++ (queueFragFree f.buffer
          (s.setFragment stream { f with length := 0, buffer := none })).2) := by
      refine ⟨hdest.old, fun id hid i => ?_, fun id hid => ?_, fun id hid a => ?_⟩
      · have hne : f.buffer ≠ some id := hid ▸ hne
        simpa [queueFragFree, Ne.symm hne] using hdest.unqueued id hid i
      · simpa [queueFragFree] using hdest.unfreed id hid
      · by_cases ha : a = stream
        · subst ha; simp [queueFragFree, State.setFragment]
        · simpa [queueFragFree, State.setFragment, ha] using hdest.dropped id hid a
    have hq' := hq.queueFragFree hd (by decide) hloose'
    have := hq'.queueDelivery hd (by decide) ⟨stream, .buffer (some dest), f.decompLength⟩
      (fun id hid => by cases hid; simp [queueFragFree])
    simpa only [Steady, List.append_assoc] using this
  · rw [completeFragment_plain hcomp]
    have := hq.queueDelivery hd (by decide) ⟨stream, .buffer f.buffer, f.length⟩
      (fun id hid => by
        have hid : f.buffer = some id := by simpa using hid
        simp [queueFragFree, hid])
    simpa only [Steady, List.append_assoc] using this

theorem Steady.continueFragment (h : Steady s l) {stream : κ} {data : List u8} (hf : Ready f l)
    (hb : Apart stream f s) (hd : data.length < 2 ^ 16) {dest : Nat}
    (hdest : Inv.Loose (some dest) s l) (hne : f.buffer ≠ some dest) {inflation : Inflation}
    (hi : f.Completes data → f.length < f.decompLength → inflation = .inflated) :
    Steady (continueFragment stream f data dest inflation s).1
      (l ++ (continueFragment stream f data dest inflation s).2) := by
  unfold Delivery.continueFragment
  split
  · next h0 =>
    split
    · next hnull =>
      have hs : Stored { f with length := 0 } l :=
        ⟨hf.unqueued, fun h0 => absurd rfl h0, fun h0 => absurd rfl h0, by simp, hf.offset_lt⟩
      rw [List.append_nil]
      exact ⟨h.1.setFragment stream hs ⟨hb.old, hb.other⟩, h.2⟩
    · exact ⟨h.1.abort hf hb, h.2⟩
  · next h0 =>
    split
    · next hc => exact h.completeFragment hf hb (hf.unfreed hd hc) hdest hne (hi ⟨h0, hc⟩)
    · next hc =>
      rw [List.append_nil]
      refine ⟨h.1.setFragment stream ⟨hf.unqueued, hf.live, fun h1 => ?_, hf.length_lt, ?_⟩
        ⟨hb.old, hb.other⟩, h.2⟩
      · -- the data fall short of the end of the message
        have h2 := hf.lt h1
        have h3 := hf.length_lt
        rw [subU32_of_le (Nat.le_of_lt h2) (Nat.lt_trans h3 (by decide))] at hc
        have h4 : f.offset + data.length < f.length := by omega
        exact Nat.lt_of_le_of_lt (Nat.mod_le _ _) h4
      · exact Nat.mod_lt _ (Nat.two_pow_pos 16)

theorem Steady.call (h : Steady s l) {c : Call κ} (hc : Inflates s c) :
    Steady (call s c).1 (l ++ (call s c).2) := by
  cases c with
  | plain stream bytes =>
    exact h.1.queueDelivery h.2 (by decide) _ (fun id hid => by cases hid)
  | fragment stream data got inflation =>
    have h' : Steady { s with next := s.next + 2 } l := ⟨h.1.advance (Nat.le_add_right _ 2), h.2⟩
    simp only [Delivery.call, onFragment, Inflates] at hc ⊢
    have hr := fun r => h.1.startFragment stream data.2 got (r := r)
    split
    · next f heq =>
      obtain ⟨hb, hs, -⟩ := hr _ heq
      rw [List.append_nil]
      exact ⟨h'.1.setFragment stream (hs rfl) hb, h'.2⟩
    · next f rest heq =>
      obtain ⟨hb, -, hs⟩ := hr _ heq
      obtain ⟨hf, hd, hne⟩ := hs rest rfl
      rw [heq] at hc
      refine h'.continueFragment hf hb hd ?_ hne hc
      obtain ⟨h1, h2⟩ := h.1.old (s.next + 1) (Nat.le_succ _)
      refine ⟨?_, ?_, ?_, ?_⟩
      · rintro id ⟨⟩
        exact Nat.lt_succ_self _
      · rintro id ⟨⟩
        exact h1
      · rintro id ⟨⟩
        exact h2
      · rintro id ⟨⟩ a ha
        have := h.1.fragments_old a _ ha
        omega

/-- Between two batches, both arrays are empty. -/
def Idle (s : State κ) (l : List (Event κ)) : Prop :=
  Inv 0 s l ∧ s.deliveryQueue = [] ∧ s.freeList = []

end Proofs

end Libcat.Sphynx.Delivery
