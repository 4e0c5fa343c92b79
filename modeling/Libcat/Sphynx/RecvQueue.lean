import Libcat.Sphynx.WaitList
import Libcat.Lib.Run

/-!
# The reliable receive queue

One stream of the receiver: the `diff == 0`, `diff > 0` and `diff < 0` branches of
`OnTransportDatagrams` with `RunReliableReceiveQueue` and `StoreReliableOutOfOrder`, and the delivery
queue between `QueueDelivery` and `OnMessages`. The queue holds pointers: into the datagram, or into
a node of the wait list. A node that has been released when `OnMessages` is called gives the
application no defined bytes (`none`). Allocations succeed; a fragment is handed to `OnFragment`
and its reassembly is not part of this module.

Every id has one payload, so an arrival is an id.
-/

namespace Libcat.Sphynx

open Serial

def deliveryQueueDepth : Nat := 128

/-- What the log shows: the messages processed, and the contents handed to the application. -/
inductive RecvEvent where
  | process (id : u32) (sop : SuperOpcode) (data : List u8)
  | onMessages (contents : List (Option (List u8)))
  | wildPointer
deriving DecidableEq

/-- The delivery queue, each entry with the node its bytes live in, and the nodes released. -/
structure Delivery where
  queue : List (Option Nat × List u8)
  freed : List Nat

structure RecvStream where
  nextRecvExpectedId : u32
  wait : List RecvNode
  size : Nat
  gotReliable : Bool
  nextAddr : Nat
  delivery : Delivery

/-- The bytes behind a queued pointer when `OnMessages` reads them. -/
def contentOf (freed : List Nat) (entry : Option Nat × List u8) : Option (List u8) :=
  match entry.1 with
  | none => some entry.2
  | some a => if a ∈ freed then none else some entry.2

/-- `DeliverQueued`. -/
def deliverQueued (d : Delivery) : Delivery × List RecvEvent :=
  if 0 < d.queue.length then
    ({ d with queue := [] }, [.onMessages (d.queue.map (contentOf d.freed))])
  else (d, [])

/-- `QueueDelivery`. -/
def queueDelivery (d : Delivery) (src : Option Nat) (data : List u8) : Delivery × List RecvEvent :=
  let queue := d.queue ++ [(src, data)]
  if queue.length < deliveryQueueDepth then ({ d with queue := queue }, [])
  else ({ d with queue := [] }, [.onMessages (queue.map (contentOf d.freed))])

/-- A message that has come to its turn: a fragment, or anything with data in it. -/
def processMessage (d : Delivery) (src : Option Nat) (id : u32) (sop : SuperOpcode)
    (data : List u8) : Delivery × List RecvEvent :=
  match sop with
  | .sopFrag => (d, [.process id sop data])
  | .sopData =>
    if 0 < data.length then
      let r := queueDelivery d src data
      (r.1, .process id sop data :: r.2)
    else (d, [])
  | .sopInternal => if 0 < data.length then (d, [.process id sop data]) else (d, [])
  | .sopAck => (d, [])

def Delivery.release (d : Delivery) (addr : Nat) : Delivery := { d with freed := addr :: d.freed }

/-- The drain loop from `next` on: what is processed and released, what stays, and the next id. -/
def drain : u32 → List RecvNode → Delivery → u32 × List RecvNode × Delivery × List RecvEvent
  | next, [], d => (next, [], d, [])
  | next, n :: rest, d =>
    if n.id = next then
      let p := processMessage d (some n.addr) n.id n.sop n.data
      let r := drain (next + 1) rest (p.1.release n.addr)
      (r.1, r.2.1, r.2.2.1, p.2 ++ r.2.2.2)
    else (next, n :: rest, d, [])

/-- `RunReliableReceiveQueue`. With nothing ready the loop does not start. -/
def runReliableReceiveQueue (s : RecvStream) (ackId : u32) : RecvStream × List RecvEvent :=
  let r := drain ackId s.wait s.delivery
  ({ s with
      nextRecvExpectedId := r.1
      wait := r.2.1
      size := subU32 s.size (ahead r.1 ackId)
      delivery := r.2.2.1
      gotReliable := true }, r.2.2.2)

/-- On the unordered stream a message is processed as it arrives; fragments wait on every stream. -/
def atOnce (ordered : Bool) (sop : SuperOpcode) : Bool := !ordered && decide (sop ≠ .sopFrag)

/-- The node for an early arrival. One that was processed already only keeps its place. -/
def storedNode (ordered : Bool) (addr : Nat) (id : u32) (sop : SuperOpcode) (data : List u8) :
    RecvNode where
  addr := addr
  eos := none
  id := id
  sop := sop
  data := if atOnce ordered sop then [] else data

/-- `StoreReliableOutOfOrder`. -/
def storeReliableOutOfOrder (ordered : Bool) (s : RecvStream) (ackId : u32) (sop : SuperOpcode)
    (data : List u8) : RecvStream × List RecvEvent :=
  if outOfOrderLimit ≤ s.size then (s, [])
  else
    match search ackId (outOfOrderLoops - 1) [] none none s.wait with
    | none => (s, [.wildPointer])
    | some .duplicate => (s, [])
    | some .dropped => (s, [])
    | some (.insert before prevSeq prev next) =>
      if atOnce ordered sop && decide (data.length = 0) then (s, [])
      else
        let p :=
          if atOnce ordered sop then processMessage s.delivery none ackId sop data
          else (s.delivery, [])
        let new := storedNode ordered s.nextAddr ackId sop data
        ({ s with
            wait := link new before prevSeq prev next
            size := s.size + 1
            gotReliable := true
            nextAddr := s.nextAddr + 1
            delivery := p.1 }, p.2)

/-- A reliable message with the decoded id arrives. -/
def onReliable (ordered : Bool) (s : RecvStream) (ackId : u32) (sop : SuperOpcode)
    (data : List u8) : RecvStream × List RecvEvent :=
  let diff := (ackId - s.nextRecvExpectedId).toInt
  if diff = 0 then
    let p := processMessage s.delivery none ackId sop data
    let r := runReliableReceiveQueue { s with delivery := p.1 } (ackId + 1)
    (r.1, p.2 ++ r.2)
  else if 0 < diff then storeReliableOutOfOrder ordered s ackId sop data
  else ({ s with gotReliable := true }, [])

inductive RecvInput where
  | arrive (id : u32)
  | deliver
deriving DecidableEq

/-- One arrival, or the end of a batch of datagrams. -/
def recvStep (ordered : Bool) (payload : u32 → SuperOpcode × List u8) (s : RecvStream) :
    RecvInput → RecvStream × List RecvEvent
  | .arrive id => onReliable ordered s id (payload id).1 (payload id).2
  | .deliver =>
    let r := deliverQueued s.delivery
    ({ s with delivery := r.1 }, r.2)

/-- The stream after `InitializeTransportSecurity`. -/
def initialStream (e : u32) : RecvStream :=
  { nextRecvExpectedId := e, wait := [], size := 0, gotReliable := false, nextAddr := 0
    delivery := ⟨[], []⟩ }

/-! ## The condition -/

/-- An early arrival lies on the same side of the wrap from `2 ^ 32 - 1` to 0 as the waiting ids. -/
def SameSide (s : RecvStream) : RecvInput → Prop
  | .arrive id =>
    0 < (id - s.nextRecvExpectedId).toInt →
      ∀ n ∈ s.wait, (s.nextRecvExpectedId ≤ n.id ↔ s.nextRecvExpectedId ≤ id)
  | .deliver => True

/-- The nodes that become ready when the stream moves on to `next`. -/
def readyNodes : u32 → List RecvNode → List RecvNode
  | _, [] => []
  | next, n :: rest => if n.id = next then n :: readyNodes (next + 1) rest else []

/-- No data is delivered out of a node. -/
def NoReadyData (s : RecvStream) : RecvInput → Prop
  | .arrive id =>
    id = s.nextRecvExpectedId →
      ∀ n ∈ readyNodes (id + 1) s.wait, n.sop = .sopData → n.data.length = 0
  | .deliver => True

/-! ## Processing -/

/-- The call that a message leads to, if any. -/
def callOf (id : u32) (sop : SuperOpcode) (data : List u8) :
    Option (u32 × SuperOpcode × List u8) :=
  match sop with
  | .sopFrag => some (id, sop, data)
  | .sopData => if 0 < data.length then some (id, sop, data) else none
  | .sopInternal => if 0 < data.length then some (id, sop, data) else none
  | .sopAck => none

/-- The messages processed, in order. -/
def processed (log : List RecvEvent) : List (u32 × SuperOpcode × List u8) :=
  log.filterMap fun
    | .process id sop data => some (id, sop, data)
    | _ => none

/-- The contents handed to the application, in order. -/
def handed (log : List RecvEvent) : List (Option (List u8)) :=
  log.flatMap fun
    | .onMessages contents => contents
    | _ => []

/-- The data messages among those processed. -/
def dataOf (calls : List (u32 × SuperOpcode × List u8)) : List (List u8) :=
  calls.filterMap fun c => if c.2.1 = .sopData then some c.2.2 else none

@[simp] theorem processed_append (l l' : List RecvEvent) :
    processed (l ++ l') = processed l ++ processed l' := by simp [processed]

@[simp] theorem handed_append (l l' : List RecvEvent) : handed (l ++ l') = handed l ++ handed l' := by
  simp [handed]

@[simp] theorem dataOf_append (l l' : List (u32 × SuperOpcode × List u8)) :
    dataOf (l ++ l') = dataOf l ++ dataOf l' := by simp [dataOf]

theorem processed_queueDelivery (d : Delivery) (src : Option Nat) (data : List u8) :
    processed (queueDelivery d src data).2 = [] ∧
      .wildPointer ∉ (queueDelivery d src data).2 := by
  unfold queueDelivery
  simp only
  split <;> simp [processed]

theorem processed_processMessage (d : Delivery) (src : Option Nat) (id : u32) (sop : SuperOpcode)
    (data : List u8) :
    processed (processMessage d src id sop data).2 = (callOf id sop data).toList ∧
      .wildPointer ∉ (processMessage d src id sop data).2 := by
  obtain ⟨hp, hw⟩ := processed_queueDelivery d src data
  cases sop with
  | sopFrag => simp [processMessage, callOf, processed]
  | sopAck => simp [processMessage, callOf, processed]
  | sopInternal =>
    by_cases h : 0 < data.length <;> simp [processMessage, callOf, processed, h]
  | sopData =>
    by_cases h : 0 < data.length
    · simp only [processMessage, callOf, h, if_true]
      refine ⟨?_, by simpa using hw⟩
      unfold processed at hp ⊢
      rw [List.filterMap_cons, hp]
      rfl
    · simp [processMessage, callOf, h, processed]

theorem readyNodes_take (next : u32) (wait : List RecvNode) :
    wait.take (readyNodes next wait).length = readyNodes next wait := by
  induction wait generalizing next with
  | nil => rfl
  | cons n rest ih =>
    unfold readyNodes
    split
    · rw [List.length_cons, List.take_succ_cons, ih]
    · rfl

theorem readyNodes_ids (next : u32) (wait : List RecvNode) :
    (readyNodes next wait).map RecvNode.id =
      (List.range (readyNodes next wait).length).map fun i => next + BitVec.ofNat 32 i := by
  induction wait generalizing next with
  | nil => rfl
  | cons n rest ih =>
    unfold readyNodes
    split
    · next h =>
      rw [List.map_cons, ih, h, List.length_cons, List.range_succ_eq_map, List.map_cons, List.map_map]
      refine congrArg₂ List.cons (by simp) (List.map_congr_left fun i _ => ?_)
      simp only [Function.comp_apply, Nat.succ_eq_add_one]
      rw [Nat.add_comm i 1, BitVec.ofNat_add, ← add_assoc]
      rfl
    · rfl

/-- The drain loop processes the ready nodes and keeps the others. -/
theorem drain_spec (next : u32) (wait : List RecvNode) (d : Delivery) :
    (drain next wait d).1 = next + BitVec.ofNat 32 (readyNodes next wait).length ∧
    (drain next wait d).2.1 = wait.drop (readyNodes next wait).length ∧
    processed (drain next wait d).2.2.2 =
      (readyNodes next wait).filterMap (fun n => callOf n.id n.sop n.data) ∧
    .wildPointer ∉ (drain next wait d).2.2.2 := by
  induction wait generalizing next d with
  | nil => simp [drain, readyNodes, processed]
  | cons n rest ih =>
    unfold drain readyNodes
    split
    · next h =>
      obtain ⟨h1, h2, h3, h4⟩ := ih (next + 1)
        ((processMessage d (some n.addr) n.id n.sop n.data).1.release n.addr)
      obtain ⟨hp, hw⟩ := processed_processMessage d (some n.addr) n.id n.sop n.data
      refine ⟨?_, ?_, ?_, ?_⟩
      · rw [h1, List.length_cons, Nat.add_comm, BitVec.ofNat_add, ← add_assoc]
        rfl
      · simpa using h2
      · rw [processed_append, hp, h3]
        rw [List.filterMap_cons]
        cases callOf n.id n.sop n.data <;> rfl
      · exact fun hm => (List.mem_append.mp hm).elim hw h4
    · simp [processed]

/-! ## The wait list -/

/-- Distance of a node's id ahead of `e`. -/
def RecvNode.off (e : u32) (n : RecvNode) : Nat := ahead n.id e

/-- The wait list of a stream that expects `e`: ordered runs of ids ahead of `e`, in nodes of their
own. -/
structure WaitInv (e : u32) (wait : List RecvNode) (nextAddr : Nat) : Prop where
  runs : ∃ runs, wait = flat runs ∧ Separated runs
  nodup : (wait.map RecvNode.addr).Nodup
  fresh : ∀ a ∈ wait.map RecvNode.addr, a < nextAddr
  sorted : (wait.map (RecvNode.off e)).Pairwise (· < ·)
  range : ∀ x ∈ wait.map (RecvNode.off e), 0 < x ∧ x < 2 ^ 31

/-- Lists that differ in pointers only. -/
theorem map_of_erase {β : Type} {f : RecvNode → β} (hf : ∀ n, f n.erase = f n)
    {l l' : List RecvNode} (h : l.map RecvNode.erase = l'.map RecvNode.erase) :
    l.map f = l'.map f := by
  have e : ∀ l : List RecvNode, l.map f = (l.map RecvNode.erase).map f := fun l => by
    rw [List.map_map]
    exact List.map_congr_left fun n _ => (hf n).symm
  rw [e l, e l', h]

/-- On one side of the wrap, ids compare as their distances do. -/
theorem lt_iff_ahead_lt {e x y : u32} (h : e ≤ x ↔ e ≤ y) : x < y ↔ ahead x e < ahead y e := by
  unfold ahead
  by_cases hx : e ≤ x
  · have hy := h.mp hx
    bv_omega
  · have hy : ¬ e ≤ y := fun hy => hx (h.mpr hy)
    bv_omega

theorem pos_toInt_iff (x e : u32) : 0 < (x - e).toInt ↔ 0 < ahead x e ∧ ahead x e < 2 ^ 31 := by
  unfold ahead
  rw [BitVec.toInt_eq_toNat_cond]
  have := (x - e).isLt
  split <;> omega

/-- One more node where it belongs. -/
theorem WaitInv.insert {e x : u32} {before next wait' : List RecvNode} {nextAddr : Nat}
    {new : RecvNode} (h : WaitInv e (before ++ next) nextAddr) (hx : new.id = x)
    (haddr : new.addr = nextAddr) (hx0 : 0 < ahead x e ∧ ahead x e < 2 ^ 31)
    (hbefore : ∀ n ∈ before, ahead n.id e < ahead x e)
    (hnext : ∀ n ∈ next, ahead x e < ahead n.id e)
    (hruns : ∃ runs, wait' = flat runs ∧ Separated runs)
    (herase : wait'.map RecvNode.erase = (before ++ new :: next).map RecvNode.erase) :
    WaitInv e wait' (nextAddr + 1) := by
  have haddrs : wait'.map RecvNode.addr = (before ++ new :: next).map RecvNode.addr :=
    map_of_erase (fun _ => rfl) herase
  have hoffs : wait'.map (RecvNode.off e) = (before ++ new :: next).map (RecvNode.off e) :=
    map_of_erase (fun _ => rfl) herase
  have hnew : nextAddr ∉ (before ++ next).map RecvNode.addr := fun hm =>
    Nat.lt_irrefl _ (h.fresh _ hm)
  rw [List.map_append, List.mem_append, not_or] at hnew
  have hnd := h.nodup
  have hsort := h.sorted
  rw [List.map_append] at hnd hsort
  refine ⟨hruns, ?_, ?_, ?_, ?_⟩
  · rw [haddrs, List.map_append, List.map_cons, haddr]
    refine (List.nodup_middle).mpr (List.nodup_cons.mpr ⟨?_, hnd⟩)
    rw [List.mem_append, not_or]
    exact hnew
  · intro a ha
    rw [haddrs, List.map_append, List.map_cons, haddr] at ha
    rcases List.mem_append.mp ha with ha | ha
    · have := h.fresh a (by rw [List.map_append]; exact List.mem_append_left _ ha)
      omega
    · rcases List.mem_cons.mp ha with rfl | ha
      · omega
      · have := h.fresh a (by rw [List.map_append]; exact List.mem_append_right _ ha)
        omega
  · rw [hoffs, List.map_append, List.map_cons]
    obtain ⟨hb, hn, hbn⟩ := List.pairwise_append.mp hsort
    refine List.pairwise_append.mpr ⟨hb, List.pairwise_cons.mpr ⟨?_, hn⟩, ?_⟩
    · intro a ha
      obtain ⟨n, hn, rfl⟩ := List.mem_map.mp ha
      rw [RecvNode.off, hx]
      exact hnext n hn
    · intro a ha b hb
      obtain ⟨n, hn, rfl⟩ := List.mem_map.mp ha
      rcases List.mem_cons.mp hb with rfl | hb
      · rw [RecvNode.off, RecvNode.off, hx]
        exact hbefore n hn
      · exact hbn _ (List.mem_map_of_mem hn) b hb
  · intro y hy
    rw [hoffs, List.map_append, List.map_cons] at hy
    rcases List.mem_append.mp hy with hy | hy
    · exact h.range y (by rw [List.map_append]; exact List.mem_append_left _ hy)
    · rcases List.mem_cons.mp hy with rfl | hy
      · rw [RecvNode.off, hx]
        exact hx0
      · exact h.range y (by rw [List.map_append]; exact List.mem_append_right _ hy)

/-- What storing does to a list in ascending order: nothing, or one new node in its place. -/
theorem store_split {ordered : Bool} {s : RecvStream} {x : u32} {sop : SuperOpcode} {data : List u8}
    {runs : List Run} (hflat : s.wait = flat runs) (hsep : Separated runs)
    (hnd : (s.wait.map RecvNode.addr).Nodup) (hinc : s.wait.Pairwise fun a b => a.id < b.id) :
    storeReliableOutOfOrder ordered s x sop data = (s, []) ∨
    ∃ before next wait', s.wait = before ++ next ∧ (∀ n ∈ before, n.id < x) ∧ (∀ n ∈ next, x < n.id) ∧
      wait'.map RecvNode.erase =
        (before ++ storedNode ordered s.nextAddr x sop data :: next).map RecvNode.erase ∧
      (∃ runs', wait' = flat runs' ∧ Separated runs') ∧
      ¬ (atOnce ordered sop = true ∧ data.length = 0) ∧ s.size < outOfOrderLimit ∧
      storeReliableOutOfOrder ordered s x sop data =
        (let p := if atOnce ordered sop then processMessage s.delivery none x sop data
          else (s.delivery, [])
        ({ s with
            wait := wait'
            size := s.size + 1
            gotReliable := true
            nextAddr := s.nextAddr + 1
            delivery := p.1 }, p.2)) := by
  rw [hflat] at hinc
  have hfound := search_spec x runs (outOfOrderLoops - 1) [] (by simpa [← hflat] using hnd) hinc
    (by simp)
  simp only [flat_nil, prevSeqOf, prevOf, List.getLast?_nil, Option.map_none, List.nil_append,
    ← hflat] at hfound
  unfold storeReliableOutOfOrder
  split
  · exact .inl rfl
  next hroom =>
  generalize search x (outOfOrderLoops - 1) [] none none s.wait = res at hfound ⊢
  rcases res with _ | ⟨before, ps, pv, next⟩ | _ | _
  · exact hfound.elim
  · obtain ⟨done, todo, rfl, rfl, rfl, rfl, rfl, hlt, hgt⟩ := hfound
    simp only
    split
    · exact .inl rfl
    next hempty =>
    rw [flat_append] at hflat
    rw [hflat, List.map_append, List.nodup_append] at hnd
    exact .inr ⟨flat done, flat todo, _, hflat, hlt, hgt, erase_link _ _ _ _ _, link_spec hsep hnd.1,
      by simpa using hempty, Nat.not_le.mp hroom, rfl⟩
  · exact .inl rfl
  · exact .inl rfl

/-- What storing an early arrival does: nothing, or one new node in its place. -/
theorem store_cases {ordered : Bool} {s : RecvStream} {x : u32} {sop : SuperOpcode}
    {data : List u8} (h : WaitInv s.nextRecvExpectedId s.wait s.nextAddr)
    (hx : 0 < (x - s.nextRecvExpectedId).toInt) (hside : SameSide s (.arrive x)) :
    storeReliableOutOfOrder ordered s x sop data = (s, []) ∨
    ∃ before next wait', s.wait = before ++ next ∧
      wait'.map RecvNode.erase =
        (before ++ storedNode ordered s.nextAddr x sop data :: next).map RecvNode.erase ∧
      x ∉ s.wait.map RecvNode.id ∧
      WaitInv s.nextRecvExpectedId wait' (s.nextAddr + 1) ∧
      ¬ (atOnce ordered sop = true ∧ data.length = 0) ∧
      storeReliableOutOfOrder ordered s x sop data =
        (let p := if atOnce ordered sop then processMessage s.delivery none x sop data
          else (s.delivery, [])
        ({ s with
            wait := wait'
            size := s.size + 1
            gotReliable := true
            nextAddr := s.nextAddr + 1
            delivery := p.1 }, p.2)) := by
  obtain ⟨runs, hflat, hsep⟩ := h.runs
  have hsame := hside hx
  have hx31 := (pos_toInt_iff _ _).mp hx
  have hinc : s.wait.Pairwise (fun a b => a.id < b.id) := by
    have := h.sorted
    rw [List.pairwise_map] at this
    refine this.imp_of_mem fun {a b} ha hb hab => ?_
    exact (lt_iff_ahead_lt (by rw [hsame a ha, hsame b hb])).mpr hab
  rcases @store_split ordered s x sop data runs hflat hsep h.nodup hinc
    with e | ⟨before, next, wait', hw, hlt, hgt, herase, hruns, hempty, -, e⟩
  · exact .inl e
  refine .inr ⟨before, next, wait', hw, herase, ?_, ?_, hempty, e⟩
  · intro hm
    obtain ⟨n, hn, hnx⟩ := List.mem_map.mp hm
    rw [hw] at hn
    rcases List.mem_append.mp hn with hn | hn
    · exact absurd (hlt n hn) (by rw [hnx]; exact BitVec.lt_irrefl _)
    · exact absurd (hgt n hn) (by rw [hnx]; exact BitVec.lt_irrefl _)
  · rw [hw] at h
    refine h.insert rfl rfl hx31 (fun n hn => ?_) (fun n hn => ?_) hruns herase
    · exact (lt_iff_ahead_lt (hsame n (by rw [hw]; simp [hn]))).mp (hlt n hn)
    · exact (lt_iff_ahead_lt (hsame n (by rw [hw]; simp [hn])).symm).mp (hgt n hn)

/-- What stays behind the ready nodes lies beyond the next id. -/
theorem off_of_not_ready {e : u32} (wait : List RecvNode) :
    ∀ j : Nat, (wait.map (RecvNode.off e)).Pairwise (· < ·) →
      (∀ n ∈ wait, j < n.off e) → (∀ n ∈ wait, n.off e < 2 ^ 31) →
      ∀ n ∈ wait.drop (readyNodes (e + BitVec.ofNat 32 (j + 1)) wait).length,
        j + (readyNodes (e + BitVec.ofNat 32 (j + 1)) wait).length + 1 < n.off e := by
  induction wait with
  | nil => simp
  | cons m rest ih =>
    intro j hsort hgt hlt n hn
    rw [List.map_cons, List.pairwise_cons] at hsort
    have hm := hgt m (by simp)
    have hm' := hlt m (by simp)
    by_cases hid : m.id = e + BitVec.ofNat 32 (j + 1)
    · have hoff : m.off e = j + 1 := by
        rw [RecvNode.off, hid, ahead_add_ofNat _ (by omega)]
      rw [readyNodes, if_pos hid] at hn ⊢
      rw [← add_ofNat_succ] at hn ⊢
      have hgt' : ∀ n ∈ rest, j + 1 < n.off e := fun n hn => by
        have := hsort.1 _ (List.mem_map_of_mem hn)
        omega
      have := ih (j + 1) hsort.2 hgt' (fun n hn => hlt n (by simp [hn])) n (by simpa using hn)
      rw [List.length_cons]
      omega
    · rw [readyNodes, if_neg hid] at hn ⊢
      have hne : m.off e ≠ j + 1 := fun h => hid (by
        rw [← add_ahead m.id e]; exact congrArg _ (congrArg _ h))
      simp only [List.length_nil, List.drop_zero, List.mem_cons] at hn ⊢
      rcases hn with rfl | hn
      · omega
      · have := hsort.1 _ (List.mem_map_of_mem hn)
        omega

theorem readyNodes_chain (post : List RecvNode) : ∀ (tail : List RecvNode) (head : RecvNode),
    List.IsChain (fun a b : u32 => b = a + 1) ((head :: tail).map RecvNode.id) →
    readyNodes head.id (head :: tail ++ post) = head :: tail ++
      readyNodes (((head :: tail).getLast (List.cons_ne_nil _ _)).id + 1) post := by
  intro tail
  induction tail with
  | nil => intro head _; simp [readyNodes]
  | cons n tail ih =>
    intro head hchain
    obtain ⟨hn, hchain⟩ := List.isChain_cons_cons.mp hchain
    have := ih n hchain
    rw [List.cons_append, readyNodes, if_pos rfl, ← hn, this]
    simp [List.getLast_cons]

/-- The ready nodes are a whole run or nothing, so runs are left. -/
theorem drop_ready_runs {runs : List Run} (hsep : Separated runs) (next : u32) :
    ∃ runs', (flat runs).drop (readyNodes next (flat runs)).length = flat runs' ∧ Separated runs' := by
  cases runs with
  | nil => exact ⟨[], by simp [readyNodes], List.isChain_nil⟩
  | cons r rest =>
    obtain ⟨hr, hrest⟩ := List.isChain_cons.mp hsep
    by_cases hid : r.head.id = next
    · have hready : readyNodes next (flat (r :: rest)) = r.nodes := by
        have hend : readyNodes (r.last.id + 1) (flat rest) = [] := by
          cases rest with
          | nil => rfl
          | cons q rest =>
            rw [flat_cons, Run.nodes, List.cons_append, readyNodes,
              if_neg (fun h => hr q (by simp) h.symm)]
        have := readyNodes_chain (flat rest) r.tail r.head r.chain
        rw [flat_cons, ← hid]
        exact this.trans (by rw [show (r.head :: r.tail).getLast (List.cons_ne_nil _ _) = r.last
          from rfl, hend, List.append_nil]; rfl)
      exact ⟨rest, by rw [hready, flat_cons, List.drop_left], hrest⟩
    · have hready : readyNodes next (flat (r :: rest)) = [] := by
        rw [flat_cons, Run.nodes, List.cons_append, readyNodes, if_neg hid]
      exact ⟨r :: rest, by rw [hready]; rfl, hsep⟩

/-- The wait list after the stream has moved on. -/
theorem WaitInv.advance {e : u32} {wait : List RecvNode} {nextAddr : Nat}
    (h : WaitInv e wait nextAddr) :
    WaitInv (e + 1 + BitVec.ofNat 32 (readyNodes (e + 1) wait).length)
      (wait.drop (readyNodes (e + 1) wait).length) nextAddr := by
  obtain ⟨runs, hflat, hsep⟩ := h.runs
  have hlt : ∀ n ∈ wait, 0 < n.off e ∧ n.off e < 2 ^ 31 := fun n hn =>
    h.range _ (List.mem_map_of_mem hn)
  have hbeyond := off_of_not_ready wait 0 h.sorted (fun n hn => (hlt n hn).1)
    (fun n hn => (hlt n hn).2)
  rw [show e + BitVec.ofNat 32 (0 + 1) = e + 1 from rfl] at hbeyond
  have hruns := drop_ready_runs hsep (e + 1)
  rw [← hflat] at hruns
  generalize (readyNodes (e + 1) wait).length = k at *
  have hoff : ∀ n ∈ wait.drop k, n.off (e + 1 + BitVec.ofNat 32 k) = n.off e - (1 + k) := by
    intro n hn
    have := hbeyond n hn
    rw [RecvNode.off, add_assoc, show (1 : u32) = BitVec.ofNat 32 1 from rfl, ← BitVec.ofNat_add]
    exact ahead_add_left (by rw [RecvNode.off] at this; omega)
  have hmap : (wait.drop k).map (RecvNode.off (e + 1 + BitVec.ofNat 32 k)) =
      (wait.drop k).map fun n => n.off e - (1 + k) := List.map_congr_left hoff
  have hsub : (wait.drop k).Sublist wait := List.drop_sublist k wait
  refine ⟨hruns, h.nodup.sublist (hsub.map _), fun a ha => h.fresh a ((hsub.map _).subset ha), ?_, ?_⟩
  · rw [hmap, List.pairwise_map]
    have := (h.sorted.sublist (hsub.map _))
    rw [List.pairwise_map] at this
    refine this.imp_of_mem fun {a b} ha hb hab => ?_
    have := hbeyond a ha
    omega
  · intro x hx
    rw [hmap] at hx
    obtain ⟨n, hn, rfl⟩ := List.mem_map.mp hx
    have := hbeyond n hn
    have := hlt n (hsub.subset hn)
    omega

end Libcat.Sphynx
